import WireCodec.Proofs.Codec.Compiles
import WireCodec.Proofs.Codec.Visits

/-! The programs of a session do what their types ask for. A record inside another one is
handled in place or by a program of its own; both do the same, by induction on the frames
that are left. -/
namespace WireCodec

open Machine Lowering Peephole Session

namespace Peephole

variable {job : Job} {lit lit' : Prop} {f f' : Finished Session}

lemma Covers.state (covers : Covers job.eofCode lit lit' f f') : f'.state = f.state := by
  rcases covers with (⟨eq, _⟩ | ⟨_, _, state, _⟩) | ⟨_, _, state, _⟩
  · rw [eq]
  · exact state
  · exact state

lemma Covers.eq_of_clean (covers : Covers job.eofCode lit lit' f f') (clean : f.ctx.Clean) : f' = f := by
  rcases covers with (⟨eq, _⟩ | ⟨cut, _, _, _⟩) | ⟨out, _, _, _⟩
  · exact eq
  · exact absurd (cut.code.symm.trans clean.noError) (eofCode_number_ne_zero job)
  · exact absurd out clean.not_leftHeap

end Peephole

section Reports

variable {t : Trouble} {scene : Scene} {exact : Prop} {eof : ErrorCode} {f f' : Finished Session}

lemma ErrorCode.number_inj {a b : ErrorCode} (same : a.number = b.number) : a = b := by
  have := congrArg ErrorCode.ofNumber? same
  rwa [ErrorCode.ofNumber?_number, ErrorCode.ofNumber?_number, Option.some.injEq] at this

/-- A run that covers one with a report has a report, if it may be less exact. -/
lemma Trouble.Reported.covered {lit lit' : Prop} (reported : t.Reported exact eof scene f)
    (literal : lit → ∃ offset, t = .cut offset) (covers : Covers eof lit lit' f f') :
    t.Reported False eof scene f' := by
  have faulty : f.ctx.LeftHeap → f.ctx.fault ≠ none := by
    rintro ⟨d, _, fault⟩ none_
    rw [fault] at none_
    cases none_
  cases covers with
  | refines refines =>
    cases refines with
    | same eq _ =>
      subst eq
      cases t with
      | codec code offset =>
        obtain ⟨stopped, fault, real, number, le, agree, same⟩ := reported
        exact ⟨stopped, fault, real, number, le, agree, fun other => same (other.imp False.elim id)⟩
      | cut => exact reported
      | outside => exact reported.imp id fun ⟨_, short⟩ => ⟨id, short⟩
      | defect => exact reported
      | gaveUp => exact reported
    | short cut cut' state early =>
      cases t with
      | codec code offset =>
        obtain ⟨stopped, fault, real, number, le, agree, same⟩ := reported
        have isEof : code = eof := ErrorCode.number_inj (number.symm.trans cut.code)
        obtain ⟨_, le', agree'⟩ := early fun lit => by
          obtain ⟨_, no⟩ := literal lit
          cases no
        refine ⟨cut'.stopped, cut'.fault, real, cut'.code.trans (by rw [isEof]),
          UInt64.le_trans le' le, agree'.trans (agree.mono le'), ?_⟩
        rintro (no | other)
        · exact no.elim
        · exact absurd isEof other
      | cut => exact cut'
      | outside => exact .inr ⟨id, cut'⟩
      | defect =>
        obtain ⟨_, fault, _⟩ := reported
        rw [cut.fault] at fault
        cases fault
      | gaveUp =>
        obtain ⟨ending, abnormal, _⟩ := reported
        exact absurd (ending.symm.trans cut.stopped) abnormal
  | left out cut' state noLit =>
    cases t with
    | codec => exact absurd reported.2.1 (faulty out)
    | cut => exact absurd reported.fault (faulty out)
    | outside => exact .inr ⟨id, cut'⟩
    | defect => exact absurd out reported.2.2.2.1
    | gaveUp => exact absurd out reported.2.2.1

lemma Trouble.Reported.withRoot (reported : t.Reported exact eof scene f) (root : UInt64) :
    t.Reported exact eof scene ⟨f.ending, { f.ctx with root := root }, f.state⟩ := by
  cases t with
  | codec => exact reported
  | cut => exact ⟨reported.stopped, reported.code, reported.fault⟩
  | outside =>
    exact reported.imp id fun ⟨loose, short⟩ => ⟨loose, short.stopped, short.code, short.fault⟩
  | defect => exact reported
  | gaveUp => exact reported

lemma Trouble.Reported.failed {job : Job} (reported : t.Reported exact job.eofCode scene f) :
    (f.ending = .stopped ∧ f.ctx.errorCode ≠ 0) ∨ f.ending ≠ .stopped := by
  cases t with
  | codec code offset =>
    refine .inl ⟨reported.1, ?_⟩
    obtain ⟨_, _, real, number, _⟩ := reported
    rw [number]
    cases code <;> first | exact absurd rfl real | decide
  | cut => exact .inl ⟨reported.stopped, reported.code ▸ eofCode_number_ne_zero job⟩
  | outside =>
    rcases reported with ⟨stopped, _, failed, _⟩ | ⟨_, short⟩
    · exact .inl ⟨stopped, failed⟩
    · exact .inl ⟨short.stopped, short.code ▸ eofCode_number_ne_zero job⟩
  | defect => exact .inl ⟨reported.1, reported.2.2.1⟩
  | gaveUp => exact .inr (reported.1 ▸ reported.2.1)

end Reports

section Run

variable (known : Registry) (options : Options)

/-- A run in a session does what the result of an action says. -/
def Carries (job : Job) (ran : Option (Finished Session)) (c : Context) (s : Session) :
    EStateM.Result Trouble Scene Unit → Prop
  | .ok () scene => ∃ c' s', ran = some ⟨.stopped, c', s'⟩ ∧ c'.scene = scene ∧
      Ran (Machine.start c).slotsHere (Machine.start c) (Machine.start c') ∧
      Follows known options s s'
  | .error t scene => ∃ f, ran = some f ∧ t.Reported (job ≠ .encode) job.eofCode scene f ∧
      Follows known options s f.state

/-- The programs of a record do `v` with it while fewer than `frames` frames are left, if as many of
them may wait. Those that write do so ahead. -/
def Performs (job : Job) (frames : Nat) (record : TypeDesc) (v : Nat → UInt64 → Act Unit) : Prop :=
  ∀ depth, frames ≤ depth → ∀ table table' body p, table.Sound known →
    IsProgram options known job record table table' body p → ∀ c s, c.Clean →
    (job = .encode → known.Roomy c.wire.size) → 0 ≤ c.frame → c.frame ≤ c.limit →
    c.framesLeft < frames → s.Sound known options → table'.Within s.types →
    Carries known options job (runProgram known depth p c s) c s (v c.framesLeft c.root c.scene) ∧
    (job = .encode → ∀ f ∈ runProgram known depth p c s, c.Sends f.ctx)

end Run

namespace Site

variable {E : Site} {m : Machine} {frames : Nat} {job : Job}

def Builtin.deferHandle : Handle :=
  ⟨"rt_defer", .host .defer, ⟨[.int, .int, .ptr], []⟩, ⟨true, true⟩⟩

variable {pc : Nat} {s : Session} {t : TypeDesc}

lemma ofNumber_job (atJob : m.get r5 = job.number.toUInt64) : Job.ofNumber? (m.get r5).toNat = some job := by
  rw [atJob]
  cases job <;> rfl

lemma step_defer (reply : Option (Reply Session)) (replied : deferred E.known (runProgram E.known E.depth) (m.get r5)
      (m.get r6).toUInt32 (m.get p0) m.ctx s = reply)
    (ahead : E.program.job = .encode → ∀ r ∈ reply, r.Sends m.ctx) :
    stepAny Builtin.table E.caller E.program.job.eofCode (.call Builtin.defer [r5, r6, p0] []) m s =
      (reply.map Reply.single).map (Machine.resume Builtin.deferHandle [r5, r6, p0] [] m s) := by
  have answered : answer E.known (runProgram E.known E.depth) Builtin.deferHandle
      ([r5, r6, p0].map m.get) m.ctx s = reply.map Reply.single := congrArg (Option.map Reply.single) replied
  have step : stepAny Builtin.table E.caller E.program.job.eofCode (.call Builtin.defer [r5, r6, p0] []) m s =
      (E.caller Builtin.deferHandle ([r5, r6, p0].map m.get) m.ctx s).map
        (Machine.resume Builtin.deferHandle [r5, r6, p0] [] m s) := rfl
  rw [step, E.caller_eq, answered]
  intro writes r mem
  rw [answered] at mem
  obtain ⟨inner, is, rfl⟩ := Option.map_eq_some_iff.mp mem
  exact Reply.Sends.single (ahead writes inner is)

section Defer

variable (hasCall : E.Has pc [.call Builtin.defer [r5, r6, p0] []]) (atJob : m.get r5 = job.number.toUInt64)
  (numbered : s.types.get? (m.get r6).toUInt32.toNat = some t)
include hasCall atJob numbered

lemma does_defer (sameJob : E.program.job = job) (exact : E.exact = (job ≠ .encode)) {other target : TypeDesc}
    {v : Nat → UInt64 → Act Unit} (sound : E.known.Sound) (has : E.known.Has t)
    (found : t.recordType E.known = .ok other) (isTarget : other.recordType E.known = .ok target)
    (compiles : E.options.Compiles E.known other) (performs : Performs E.known E.options job frames target v)
    (deep : frames ≤ E.depth) (few : m.ctx.framesLeft < frames) :
    E.Does m.slotsHere pc m s (pc + 1) (v m.ctx.framesLeft (m.get p0)) fun _ _ => True := by
  intro fit
  have hasOther := sound.recordType has found
  obtain ⟨set, s₁, first, last, looked, follows, soundFirst, compiled, withinLast⟩ :=
    lookup_eq_ok fit.sound found hasOther compiles
  obtain ⟨_, _, first', last', body, isTarget', sound', within', isProgram⟩ :=
    isProgram_of_compile sound hasOther soundFirst compiled job
  obtain rfl := Except.ok.inj (isTarget.symm.trans isTarget')
  let c : Context := { m.ctx with root := m.get p0 }
  have clean : c.Clean := ⟨fit.clean.noError, fit.clean.noFault, fit.clean.wireFits⟩
  obtain ⟨done, sends⟩ := performs _ deep _ _ _ _ sound' isProgram c s₁ clean (fit.roomy ∘ sameJob.trans) fit.low fit.high few
    follows.sound (within'.trans withinLast)
  have step := step_defer (E := E) (m := m) (s := s)
    ((runProgram E.known E.depth (set.compiled job).program c s₁).map (handBack m.ctx))
    (by simp only [deferred, ofNumber_job atJob, numbered, looked, c]) fun writes r replied => by
    obtain ⟨f, ran, rfl⟩ := Option.map_eq_some_iff.mp replied
    have sends := sends (sameJob ▸ writes) f ran
    unfold handBack
    split <;> exact ⟨sends.heap, sends.forward, sends.above, sends.place⟩
  change E.Leads _ _ _ _ _ (v c.framesLeft c.root c.scene) _
  cases result : v c.framesLeft c.root c.scene with
  | ok u scene =>
    rw [result] at done
    obtain ⟨c', s₂, ran, same, kept, follows'⟩ := done
    have clean' : c'.Clean := kept.clean clean
    rw [ran] at step
    refine ⟨{ m with ctx := { c' with root := m.ctx.root } }, s₂, same, ?_, follows.trans follows',
      trivial, fun stop f halts => .next hasCall.at_ (step.trans ?_) halts⟩
    · exact ⟨kept.frame, kept.limit, kept.size, fun _ => ⟨clean'.noError, clean'.noFault, clean'.wireFits⟩, kept.slots⟩
    · simp [handBack, Reply.single, Machine.resume, Context.failed, clean'.noError, Machine.setAll]
  | error t scene =>
    rw [result] at done
    obtain ⟨f, ran, reported, follows'⟩ := done
    rw [ran] at step
    have noLit := not_isLiteral hasCall.at_ fun _ _ => by rintro ⟨⟩
    have again : t.Reported E.exact E.eof scene ⟨f.ending, { f.ctx with root := m.ctx.root }, f.state⟩ := by
      rw [exact, Site.eof, sameJob]
      exact reported.withRoot _
    rcases reported.failed with ⟨stopped, failed⟩ | givenUp
    · refine ⟨pc, _, .stop hasCall.at_ (step.trans (?_ : _ = some (Except.ok (Control.stop,
        { m with ctx := { f.ctx with root := m.ctx.root } }, f.state)))),
        fun lit => absurd lit noLit, stopped ▸ again, follows.trans follows'⟩
      simp [handBack, Reply.single, Machine.resume, Context.failed, stopped, failed, Machine.setAll]
    · refine ⟨pc, _, .ended hasCall.at_ (step.trans ?_), fun lit => absurd lit noLit, again, follows.trans follows'⟩
      cases ending : f.ending with
      | stopped => exact absurd ending givenUp
      | crashed | endless => simp [handBack, Reply.single, Machine.resume, ending]

lemma does_refuse {f : Failure} (foreseen : f.IsIssue ∨ f = .overflow) (looked : ∀ s : Session, s.Sound E.known E.options →
      ∃ s', lookup E.known t s = .error f s' ∧ Session.Follows E.known E.options s s') :
    E.Does m.slotsHere pc m s (pc + 1) (throw f.trouble : Act Unit) fun _ _ => True := by
  intro fit
  obtain ⟨s₁, looked, follows⟩ := looked s fit.sound
  have noLit := not_isLiteral hasCall.at_ fun _ _ => by rintro ⟨⟩
  rcases foreseen with ⟨issue, rfl⟩ | rfl
  · have step := step_defer (E := E) (m := m) (s := s)
        (some (.returned [0, 0] (m.ctx.raise (.unsupported issue)) s₁))
        (by simp only [deferred, ofNumber_job atJob, numbered, looked]) fun _ r replied => by
      cases replied
      exact fit.clean.sends_raise _
    rw [fit.clean.raise] at step
    refine ⟨pc, _, .stop hasCall.at_ (step.trans (?_ : _ = some (Except.ok (Control.stop, { m with ctx := { m.ctx with
      errorCode := ErrorCode.internal.number, errorOffset := m.ctx.pos, fault := some (.unsupported issue) } }, s₁)))),
      fun lit => absurd lit noLit, ?_, follows⟩
    · simp [Reply.single, Machine.resume, Context.failed, Machine.setAll, ErrorCode.number]
    · have failed : ErrorCode.internal.number ≠ 0 := by decide
      refine ⟨rfl, rfl, failed, ?_, rfl⟩
      rintro ⟨_, _, no⟩
      cases no
  · have step := step_defer (E := E) (m := m) (s := s) (some (.ended .crashed m.ctx s₁))
        (by simp only [deferred, ofNumber_job atJob, numbered, looked]) fun _ r replied => by
      cases replied
      exact fit.clean.sends rfl rfl rfl rfl
    refine ⟨pc, _, .ended hasCall.at_ (step.trans rfl), fun lit => absurd lit noLit, ?_, follows⟩
    exact ⟨rfl, Ending.noConfusion, fit.clean.not_leftHeap, rfl⟩

end Defer

lemma renders_deferral {v : Nat → UInt64 → Act Unit} (numbered : E.known.Numbered) (has : E.known.Has t)
    (does : ∀ (m₁ : Machine) s pc, m₁.ctx = m.ctx → E.Has pc [.call Builtin.defer [r5, r6, p0] []] →
      m₁.get r5 = job.number.toUInt64 → s.types.get? (m₁.get r6).toUInt32.toNat = some t →
      E.Does m₁.slotsHere pc m₁ s (pc + 1) (v m₁.ctx.framesLeft (m₁.get p0)) fun _ _ => True) :
    E.Renders m.slotsHere (deferral job t) m (v m.ctx.framesLeft (m.get p0)) fun _ _ => True := by
  refine renders_internType has fun index table sound found => ?_
  have low : index < 2 ^ 32 := by
    have := (Array.getElem?_eq_some_iff.mp found).1
    have := sound.size_le
    have := numbered.numbers
    omega
  refine .movImm (.movImm fun start s hasCall within => ?_)
  have number : index.toUInt64.toUInt32.toNat = index := by
    simp only [Nat.toUInt64_eq, UInt64.toNat_toUInt32, UInt64.toNat_ofNat']
    omega
  generalize moved : (m.set r5 job.number.toUInt64).set r6 index.toUInt64 = m₁
  have ctx : m₁.ctx = m.ctx := by rw [← moved, set_ctx, set_ctx]
  have regs : m₁.get r5 = job.number.toUInt64 ∧ m₁.get r6 = index.toUInt64 ∧ m₁.get p0 = m.get p0 := by
    rw [← moved]
    simp [get_set]
  have done := does m₁ s start ctx hasCall regs.1 (within _ _ (by rwa [regs.2.1, number]))
  rwa [ctx, regs.2.2, Machine.slotsHere, ctx, ← Machine.slotsHere] at done

lemma shown_deferral (job job' : Job) (t : TypeDesc) : shown job (deferral job' t) = deferral job' t := by
  cases job with
  | measure => rfl
  | encode => rfl
  | decode =>
    change foldFrom none (withM _ _) = _
    rw [foldFrom_withM]
    rfl

end Site

lemma Site.renders_recordPiece {E : Site} {frames : Nat} {job : Job} {nested : Spots (TypeDesc → Piece)}
    {act : Spots Visit} (numbered : E.known.Numbered) (sameJob : E.program.job = job)
    [∀ way t k, Grows (nested way t k)] (enclosed : job = .decode → EnclosedNested E.known nested)
    (does : E.Nested frames (fun way record => shown job (nested way record)) act)
    (forward : job = .decode → ∀ way left record base, E.known.Target record → (act way left record base).Forward)
    {t : TypeDesc} (has : E.known.Has t) {m : Machine} (few : m.ctx.framesLeft ≤ frames) :
    E.Renders m.slotsHere (shown job (recordPiece (E.options.setting E.known) job nested t)) m
      (job.record E.known act m.ctx.framesLeft t (m.get p0)) fun _ _ => True := by
  cases job with
  | measure => exact renders_encodeRecord (fun writes => by cases writes) numbered does has few
  | encode =>
    exact renders_encodeRecord (fun _ => by rw [Site.eof, sameJob]; rfl) numbered does has few
  | decode =>
    have reads : E.Reads := by
      rw [Site.Reads, Site.eof, sameJob]
      rfl
    exact renders_decodeRecord reads numbered ⟨enclosed rfl, does⟩ (forward rfl) has few

section StandsFor

variable {known : Registry} {options : Options} {job : Job} {frames : Nat} {piece : Piece} {t : TypeDesc}
  {v : Nat → UInt64 → Act Unit}

/-- The code of a piece does `v` with the record in `p0` while fewer than `frames` frames are left,
in any program of a session that lets as many codecs wait. -/
def StandsFor (known : Registry) (options : Options) (job : Job) (frames : Nat) (piece : Piece)
    (v : Nat → UInt64 → Act Unit) : Prop :=
  ∀ depth, frames ≤ depth → ∀ owner body (m : Machine), m.ctx.framesLeft < frames →
    (Site.ofBody known options depth owner job body).Renders m.slotsHere (shown job piece) m
      (v m.ctx.framesLeft (m.get p0)) fun _ _ => True

lemma StandsFor.pin {piece' : Piece} {place : Nat} (stands : StandsFor known options job frames piece v)
    (same : piece' place = piece place) : StandsFor known options job frames (pin place piece') v := by
  intro depth deep owner body m few start table made table' s ok
  by_cases here : start = place
  · subst here
    have alike : shown job (Lowering.pin start piece') start = shown job piece start :=
      shown_congr (by rw [Lowering.pin, if_pos rfl, same])
    exact stands depth deep owner body m few start table made table' s (alike ▸ ok)
  · have refused : Lowering.pin place piece' start = throw .overflow := if_neg here
    cases job with
    | measure | encode =>
      rw [shown, refused] at ok
      cases ok
    | decode =>
      obtain ⟨_, ok, _⟩ := foldFrom_eq_ok.mp ok
      rw [refused] at ok
      cases ok

/-- A record whose codec is called for. -/
lemma exists_deferral (numbered : known.Numbered) (has : known.Has t)
    (programs : ∀ target, known.Has target → ∃ v, Visits known job (options.Loses known) frames target v ∧
      Performs known options job frames target v) :
    ∃ v, Visits known job (options.Loses known) frames t v ∧ StandsFor known options job frames (deferral job t) v := by
  have sound := numbered.sound
  rcases options.lookup_decides sound has with
    ⟨f, foreseen, isLost, looked⟩ | ⟨other, target, found, isTarget, compiles⟩
  · refine ⟨_, .stuck isLost (Trouble.Stuck.of_failure foreseen), fun depth deep owner body m few => ?_⟩
    rw [Site.shown_deferral]
    exact Site.renders_deferral (v := fun _ _ => throw f.trouble) numbered has fun m₁ s pc _ hasCall atJob found =>
      Site.does_refuse hasCall atJob found foreseen looked
  · have hasOther := sound.recordType has found
    obtain ⟨v, visits, performs⟩ := programs target (sound.recordType hasOther isTarget)
    refine ⟨v, .codec found isTarget visits, fun depth deep owner body m few => ?_⟩
    rw [Site.shown_deferral]
    exact Site.renders_deferral numbered has fun m₁ s pc same hasCall atJob found' =>
      Site.does_defer hasCall atJob found' rfl rfl sound has found isTarget compiles performs deep (same ▸ few)

open Classical in
/-- A record handled in place, given what may be done with the records inside it. -/
lemma exists_renders (options : Options) (numbered : known.Numbered) (has : known.Has t) (levels start : Nat)
    (inner : ∀ place record, known.Target record → ∃ v, Visits known job (options.Loses known) frames record v ∧
      StandsFor known options job frames (pin place (nestedPiece (options.setting known) job levels record)) v) :
    ∃ nested, Nests known job (options.Loses known) frames nested ∧ ∃ piece : Piece,
      recordPiece (options.setting known) job (fun _ => nestedPiece (options.setting known) job levels) t start =
        piece start ∧
      ∀ depth, frames ≤ depth → ∀ owner body (m : Machine), m.ctx.framesLeft ≤ frames →
        (Site.ofBody known options depth owner job body).Renders m.slotsHere (shown job piece) m
          (job.record known nested m.ctx.framesLeft t (m.get p0)) fun _ _ => True := by
  obtain ⟨place, _, twin⟩ := copies_recordPiece
    (nestedPiece (options.setting known) job levels) t (options.setting known) job start
  choose v visits stands using fun way record target => inner (place way) record target
  let nested : Spots Visit := fun way left record base =>
    if target : known.Target record then v way record target left base else job.walk known frames left record base
  have isInner : ∀ way record (target : known.Target record),
      (fun left base => nested way left record base) = v way record target := by
    intro way record target
    funext left base
    simp only [nested, dif_pos target]
  have nests : Nests known job (options.Loses known) frames nested := by
    refine ⟨fun way record target => isInner way record target ▸ visits way record target,
      fun way left record base no => ?_⟩
    simp only [nested, dif_neg no]
  refine ⟨nested, nests, _, twin.same, fun depth deep owner body m few => ?_⟩
  refine Site.renders_recordPiece (E := Site.ofBody known options depth owner job body) numbered rfl
    (fun isDecode way record has => ?_) (fun way record target m few => ?_) (fun isDecode way left record base target => ?_)
    has few
  · subst isDecode
    exact enclosed_pin (enclosedNested_nestedPiece numbered.sound levels [] record has) _
  · have done := stands way record target depth deep owner body m few
    rw [← isInner way record target] at done
    exact done
  · subst isDecode
    exact (nests.inner way record target).reads (P := Act.Forward) (fun _ _ _ _ => trivial) numbered.sound
      (Act.forward_closed known) (target.has numbered.sound) left base

lemma exists_stands (numbered : known.Numbered) (frames levels place : Nat)
    (programs : ∀ k ≤ frames, ∀ target, known.Has target → ∃ v, Visits known job (options.Loses known) k target v ∧
      Performs known options job k target v) (record : TypeDesc) (target : known.Target record) :
    ∃ v, Visits known job (options.Loses known) frames record v ∧
      StandsFor known options job frames (pin place (nestedPiece (options.setting known) job levels record)) v := by
  induction frames generalizing levels place record with
  | zero => exact ⟨_, .spent record, fun _ _ _ _ _ few => absurd few (Nat.not_lt_zero _)⟩
  | succ frames ih =>
    have has := target.has numbered.sound
    obtain ⟨v, visits, stands⟩ := exists_deferral numbered has (programs (frames + 1) le_rfl)
    cases levels with
    | zero => exact ⟨v, visits, stands.pin rfl⟩
    | succ levels =>
      by_cases large : options.maxInlineSize ≤ place
      · exact ⟨v, visits, stands.pin (if_pos large)⟩
      · obtain ⟨nested, nests, piece, same, renders⟩ := exists_renders options numbered has levels place fun place record target =>
          ih levels place (fun k le => programs k (Nat.le_succ_of_le le)) record target
        have inPlace : StandsFor known options job (frames + 1) piece fun left base =>
            job.record known nested left record base := fun depth deep owner body m few =>
          renders depth (by omega) owner body m (Nat.le_of_lt_succ few)
        exact ⟨_, nests.visits record, inPlace.pin ((if_neg large).trans same)⟩

end StandsFor

section Performs

variable {known : Registry} {options : Options} {job : Job}

section Record

variable (numbered : known.Numbered)
include numbered

lemma performs_record (options : Options) {frames : Nat} {record : TypeDesc} (has : known.Has record)
    (programs : ∀ k ≤ frames, ∀ target, known.Has target → ∃ v, Visits known job (options.Loses known) k target v ∧
      Performs known options job k target v) :
    ∃ nested, Nests known job (options.Loses known) frames nested ∧ Performs known options job (frames + 1) record
      fun left base => job.record known nested left record base := by
  obtain ⟨nested, nests, piece, same, renders⟩ := exists_renders options numbered has
    options.maxInlineDepth 0 fun place record target => exists_stands numbered frames _ place programs record target
  refine ⟨nested, nests, ?_⟩
  intro depth deep table table' body p sound isProgram c s clean roomy low high left soundS within
  obtain ⟨d, rfl⟩ : ∃ d, depth = d + 1 := ⟨depth - 1, by omega⟩
  let E := Site.ofBody known options d record job body
  let m := Machine.start c
  have made : shown job piece 0 table = .ok (folded job body) table' := shown_eq_ok (same ▸ isProgram.made)
  have fit : E.Fit m s := ⟨clean, roomy, low, high, soundS⟩
  have leads := renders d (by omega) record body m (Nat.le_of_lt_succ left) 0 table (folded job body) table' s made
    (Site.has_ofBody isProgram.fine d) within fit
  have base : m.get p0 = c.root := by simp [m, Machine.start, Machine.get]
  rw [base] at leads
  have run : runProgram known (d + 1) p c s = runFrom Builtin.table (answer known (runProgram known d)) p 0 m s := by
    rw [← soundS.handles]
    rfl
  rw [run]
  have ahead : ∀ {f'}, (job = .encode → c.Sends f'.ctx) → runFrom Builtin.table
      (answer known (runProgram known d)) p 0 m s = some f' → job = .encode → ∀ f ∈ runFrom
      Builtin.table (answer known (runProgram known d)) p 0 m s, c.Sends f.ctx :=
    fun sends ran writes f mem => Option.some.inj (ran.symm.trans mem) ▸ sends writes
  change E.Leads _ _ _ _ _ (job.record known nested c.framesLeft record c.root c.scene) _ at leads
  change Carries known options job _ c s (job.record known nested c.framesLeft record c.root c.scene) ∧ _
  cases result : job.record known nested c.framesLeft record c.root c.scene with
  | ok u scene =>
    rw [result] at leads
    obtain ⟨m', s', same, ran, follows, _, back⟩ := leads
    rw [Nat.zero_add] at back
    obtain ⟨stop, ends⟩ := @Site.finished_halts known options d record.name job (folded job body)
      (job ≠ .encode) m' s'
    obtain ⟨f', _, ran', sends, _, covers⟩ := isProgram.halts numbered.sound has clean roomy (back stop _ ends)
    obtain rfl := covers.eq_of_clean (ran.clean clean)
    exact ⟨⟨m'.ctx, s', ran', same, ⟨ran.frame, ran.limit, ran.size, ran.clean, ran.slots⟩, follows⟩, ahead sends ran'⟩
  | error t scene =>
    rw [result] at leads
    obtain ⟨stop, f, halts, literal, reported, follows⟩ := leads
    obtain ⟨f', _, ran', sends, exact, covers⟩ := isProgram.halts numbered.sound has clean roomy halts
    refine ⟨⟨f', ran', ?_, covers.state ▸ follows⟩, ahead sends ran'⟩
    by_cases isEncode : job = .encode
    · have loose : (job ≠ .encode) = False := by simp [isEncode]
      rw [loose]
      exact reported.covered literal covers
    · exact exact isEncode ▸ reported

/-- Programs do with records what the code for them does, as long as there are no more frames than
codecs that may wait. -/
lemma exists_performs (options : Options) (job : Job) (frames : Nat) (record : TypeDesc) (has : known.Has record) :
    ∃ v, Visits known job (options.Loses known) frames record v ∧ Performs known options job frames record v := by
  induction frames using Nat.strong_induction_on generalizing record with
  | _ frames ih =>
    cases frames with
    | zero => exact ⟨_, .spent record, fun _ _ _ _ _ _ _ _ _ _ _ _ _ _ low => absurd low (Nat.not_lt_zero _)⟩
    | succ k =>
      obtain ⟨nested, nests, performs⟩ := performs_record numbered options has fun j le => ih j (Nat.lt_succ_of_le le)
      exact ⟨_, nests.visits record, performs⟩

end Record

/-- In a usable schema all records inside are handled alike. -/
lemma performs_walk (usable : known.Usable) (frames : Nat) {record : TypeDesc} (has : known.Has record)
    (kind : record.kind = .struct) :
    Performs known options job frames record fun left base => job.walk known frames left record base := by
  obtain ⟨v, visits, performs⟩ := exists_performs usable.numbered options job
    frames record has
  rwa [visits.eq_walk usable (fun t has kind isLost => isLost t (Registry.recordType_struct kind)
    (options.compiles usable t has kind)) has kind] at performs

end Performs

end WireCodec
