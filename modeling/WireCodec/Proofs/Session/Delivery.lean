import WireCodec.Proofs.Codec.Performs

/-! Operations of a session deliver what the walk over their type does: the same count, wire,
arena and reported stores if it succeeds, and the error it meets if it does not. -/
namespace WireCodec

open Machine Lowering Peephole

variable {code : ErrorCode}

def SessionError.ofEnding : Ending → SessionError
  | .stopped | .crashed => .crashed
  | .endless => .endless

/-- The operation leaves the given wire, arena and stores behind. -/
structure Outcome.Leaves {α : Type} (o : Outcome α) (c : Scene) : Prop where
  wire : o.wire = c.wire
  heap : o.heap = c.heap
  stores : o.stores = c.stores

/-- The operation delivers what the result of an action says. Unless it is `exact`, it may have
come to the end of the wire sooner, with the same bytes written up to there. -/
def Delivers (exact : Prop) (eof : ErrorCode) (o : Outcome Nat) : EStateM.Result Trouble Scene Unit → Prop
  | .ok () c => o.result = .ok c.pos.toNat ∧ o.Leaves c
  | .error (.codec code offset) c => ∃ place : UInt64, place ≤ offset ∧
      o.result = .error (.codec ⟨code, place.toNat⟩) ∧ AgreeBelow place.toNat o.wire c.wire ∧
      (exact ∨ code ≠ eof → place = offset ∧ o.Leaves c)
  | .error (.cut _) _ => ∃ place, o.result = .error (.codec ⟨eof, place⟩)
  | .error .outside c =>
      (∃ d : Defect, d.isOutside = true ∧ o.result = .error (.ofCompile (.malformed d)) ∧ o.Leaves c) ∨
      (¬ exact ∧ ∃ place, o.result = .error (.codec ⟨eof, place⟩))
  | .error (.defect e) c => o.result = .error (.ofCompile e) ∧ o.Leaves c
  | .error (.gaveUp ending) c => o.result = .error (.ofEnding ending) ∧ o.Leaves c

/-- The operation leaves the arena as it is, and the wire from the place of its error on. -/
structure Outcome.Spares (o : Outcome Nat) (wire : Bytes) (heap : Heap) : Prop where
  heap : o.heap = heap
  wire : ∀ code place, o.result = .error (.codec ⟨code, place⟩) → ∀ k, place ≤ k → o.wire[k]? = wire[k]?

def Trouble.Shows (eof : ErrorCode) (e : SessionError) : Trouble → Prop
  | .codec code _ => ∃ place, e = .codec ⟨code, place⟩
  | .cut _ => ∃ place, e = .codec ⟨eof, place⟩
  | .outside => (∃ d, e = .ofCompile (.malformed d)) ∨ ∃ place, e = .codec ⟨eof, place⟩
  | .defect d => e = .ofCompile d
  | .gaveUp ending => e = .ofEnding ending

lemma Delivers.shows {exact : Prop} {eof : ErrorCode} {o : Outcome Nat} {t : Trouble} {c : Scene}
    (delivers : Delivers exact eof o (.error t c)) : ∃ e, o.result = .error e ∧ t.Shows eof e := by
  cases t with
  | codec code offset =>
    obtain ⟨place, _, failed, _⟩ := delivers
    exact ⟨_, failed, place.toNat, rfl⟩
  | cut offset =>
    obtain ⟨place, failed⟩ := delivers
    exact ⟨_, failed, place, rfl⟩
  | outside =>
    rcases delivers with ⟨d, _, failed, _⟩ | ⟨_, place, failed⟩
    · exact ⟨_, failed, .inl ⟨d, rfl⟩⟩
    · exact ⟨_, failed, .inr ⟨place, rfl⟩⟩
  | defect | gaveUp => exact ⟨_, delivers.1, rfl⟩

/-- Memory for the frames of a run can be had. -/
abbrev Options.Framed (options : Options) : Prop := Context.frameBytes * (options.maxNestingDepth + 1) ≤ maxBlock

namespace Session

variable {known : Registry} {options : Options} {s : Session} {job : Job} {c : Context}

def outcome (f : Finished Session) : Outcome Nat :=
  let result := match f.ending with
    | .stopped => match f.ctx.result with
      | .ok pos => .ok pos.toNat
      | .error e => .error (SessionError.ofRun e)
    | .crashed => .error .crashed
    | .endless => .error .endless
  ⟨result, f.ctx.wire, f.ctx.heap, f.ctx.stores, f.state⟩

lemma runCodec_eq (s : Session) (known : Registry) (set : CodecSet) (job : Job) (wire : Bytes) (heap : Heap)
    (root : UInt32) (barrier : Bool) : s.runCodec known set job wire heap root barrier = outcome
    (s.execute known (set.compiled job).program wire heap root s.options.maxNestingDepth barrier) := rfl

lemma leaves_outcome (f : Finished Session) : (outcome f).Leaves f.ctx.scene := ⟨rfl, rfl, rfl⟩

lemma result_of_codec (real : code ≠ .ok) (fault : c.fault = none)
    (number : c.errorCode = code.number) : c.result = .error (.codec ⟨code, c.errorOffset.toNat⟩) := by
  simp only [Context.result, fault, number, ErrorCode.ofNumber?_number]

lemma result_of_clean (clean : c.Clean) : c.result = .ok c.pos := by
  simp only [Context.result, clean.noFault, clean.noError]
  rfl

lemma result_of_cut {σ : Type} {f : Finished σ} (cut : CutShort job.eofCode f) :
    f.ctx.result = .error (.codec ⟨job.eofCode, f.ctx.errorOffset.toNat⟩) :=
  result_of_codec (by cases job <;> exact nofun) cut.fault cut.code

lemma eq_of_result {place : Nat} (failed : c.result = .error (.codec ⟨code, place⟩)) :
    c.errorCode ≠ 0 ∧ place = c.errorOffset.toNat := by
  unfold Context.result at failed
  split at failed
  · cases failed
  · split at failed
    · cases failed
    · rename_i real number
      cases failed
      refine ⟨fun zero => ?_, rfl⟩
      rw [zero] at number
      exact real (Option.some.inj number.symm)
    · cases failed

lemma spares_outcome {f : Finished Session} (sends : c.Sends f.ctx) : (outcome f).Spares c.wire c.heap := by
  refine ⟨sends.heap, fun code place failed k le => sends.above k ?_⟩
  cases ending : f.ending with
  | crashed | endless =>
    simp only [outcome, ending] at failed
    cases failed
  | stopped =>
    cases result : f.ctx.result with
    | ok pos =>
      simp only [outcome, ending, result] at failed
      cases failed
    | error e =>
      simp only [outcome, ending, result] at failed
      cases e with
      | compile e =>
        simp only [SessionError.ofRun, SessionError.ofCompile] at failed
        split at failed <;> cases failed
      | codec d =>
        cases failed
        obtain ⟨real, rfl⟩ := eq_of_result result
        rwa [← sends.place real]

lemma delivers_of_carries {ran : Option (Finished Session)} {r : EStateM.Result Trouble Scene Unit} (clean : c.Clean)
    (carries : Carries known options job ran c s r) : ∃ f, ran = some f ∧ Delivers (job ≠ .encode) job.eofCode
    (outcome f) r ∧ Follows known options s f.state := by
  cases r with
  | ok u scene =>
    obtain ⟨c', s', done, rfl, kept, follows⟩ := carries
    refine ⟨_, done, ⟨?_, leaves_outcome _⟩, follows⟩
    have result : c'.result = .ok c'.pos := result_of_clean (kept.clean clean)
    simp only [outcome, result]
    rfl
  | error t scene =>
    obtain ⟨f, done, reported, follows⟩ := carries
    refine ⟨f, done, ?_, follows⟩
    have stops : ∀ {e : RunError}, f.ending = .stopped → f.ctx.result = .error e →
        (outcome f).result = .error (.ofRun e) := by
      intro e stopped result
      simp only [outcome, stopped, result]
    have cuts : CutShort job.eofCode f → (outcome f).result = .error (.codec ⟨job.eofCode, f.ctx.errorOffset.toNat⟩) :=
      fun cut => stops cut.stopped (result_of_cut cut)
    cases t with
    | codec code offset =>
      obtain ⟨stopped, fault, real, number, le, agree, same⟩ := reported
      refine ⟨_, le, stops stopped (result_of_codec real fault number), agree, fun sure => ?_⟩
      obtain ⟨place, rfl⟩ := same sure
      exact ⟨place, leaves_outcome f⟩
    | cut offset => exact ⟨_, cuts reported⟩
    | outside =>
      rcases reported with ⟨stopped, ⟨d, out, fault⟩, _, rfl⟩ | ⟨loose, cut⟩
      · refine .inl ⟨d, out, stops (e := .compile _) stopped ?_, leaves_outcome f⟩
        simp only [Context.result, fault]
      · exact .inr ⟨loose, _, cuts cut⟩
    | defect e =>
      obtain ⟨stopped, fault, _, _, rfl⟩ := reported
      refine ⟨stops (e := .compile e) stopped ?_, leaves_outcome f⟩
      simp only [Context.result, fault]
    | gaveUp ending =>
      obtain ⟨same, abnormal, _, rfl⟩ := reported
      refine ⟨?_, leaves_outcome f⟩
      subst same
      simp only [outcome]
      cases ending : f.ending with
      | stopped => exact absurd ending abnormal
      | crashed => rfl
      | endless => rfl

def scene (wire : Bytes) (heap : Heap) (barrier : Bool) : Scene := ⟨wire, 0, heap, barrier, []⟩

/-- What an operation has to do: refuse a type that stands for no record, give up if there is no
room for the frames, and else walk over the record. -/
def task (known : Registry) (limit : Nat) (job : Job) (t : TypeDesc) (wire : Bytes) (heap : Heap)
    (root : UInt32) (barrier : Bool) : EStateM.Result Trouble Scene Unit :=
  match t.recordType known with
  | .error issue => .error (.defect (.unsupported issue)) (scene wire heap barrier)
  | .ok record =>
    if Context.frameBytes * (limit + 1) ≤ maxBlock then
      job.walk known (limit + 1) limit record root.toUInt64 (scene wire heap barrier)
    else .error (.gaveUp .crashed) (scene wire heap barrier)

variable {t record : TypeDesc}

lemma execute_carries {target : TypeDesc} {limit : Nat} {v : Nat → UInt64 → Act Unit}
    (performs : Performs known options job (limit + 1) target v) (sound : s.Sound known options)
    {first last : TypeTable} {body : Code} {p : Program} (soundFirst : first.Sound known)
    (isProgram : IsProgram options known job target first last body p) (within : last.Within s.types)
    (frames : Context.frameBytes * (limit + 1) ≤ maxBlock)
    (wire : Bytes) (wireFits : wire.size ≤ maxBlock) (roomy : job = .encode → known.Roomy wire.size)
    (heap : Heap) (root : UInt32) (barrier : Bool) :
    Carries known options job (some (s.execute known p wire heap root limit barrier))
      (Context.start wire heap root limit barrier) s (v limit root.toUInt64 (scene wire heap barrier)) ∧
    (job = .encode → (Context.start wire heap root limit barrier).Sends
      (s.execute known p wire heap root limit barrier).ctx) := by
  let c := Context.start wire heap root limit barrier
  have clean : c.Clean := ⟨rfl, rfl, wireFits⟩
  have left : c.framesLeft = limit := by simp [c, Context.framesLeft, Context.start]
  obtain ⟨carries, sends⟩ := performs (depthLimit c) (by simp [depthLimit, c, Context.start]) _ _ _ _ soundFirst
    isProgram c s clean roomy (by simp [c, Context.start]) (by simp [c, Context.start]) (by omega) sound within
  rw [left] at carries
  obtain ⟨f, ran, -⟩ := delivers_of_carries clean carries
  have executed : s.execute known p wire heap root limit barrier = f := by
    rw [execute, if_pos frames]
    change (runProgram known (depthLimit c) p c s).getD _ = f
    rw [ran]
    rfl
  exact executed ▸ ⟨ran ▸ carries, fun writes => sends writes f ran⟩

/-- An operation does what its result says, and leaves a session that goes on. One that writes spares the arena. -/
structure Fulfils (known : Registry) (options : Options) (job : Job) (s : Session) (wire : Bytes) (heap : Heap)
    (o : Outcome Nat) (r : EStateM.Result Trouble Scene Unit) : Prop where
  delivers : Delivers (job ≠ .encode) job.eofCode o r
  follows : Follows known options s o.session
  spares : job = .encode → o.Spares wire heap

variable {wire : Bytes} {heap : Heap} {root : UInt32} {barrier : Bool}

lemma perform_refused {f : Failure} {s' : Session} (looked : lookup known t s = .error f s')
    (follows : Follows known options s s') : Fulfils known options job s wire heap
      (s.perform known job t wire heap root barrier) (.error f.trouble (scene wire heap barrier)) := by
  have performed : s.perform known job t wire heap root barrier = ⟨.error (.ofFailure f), wire, heap, [], s'⟩ := by
    simp only [perform, codecs, looked]
  rw [performed]
  refine ⟨?_, follows, fun _ => ⟨rfl, fun _ _ _ _ _ => rfl⟩⟩
  cases f with
  | cause e => exact ⟨rfl, rfl, rfl, rfl⟩
  | overflow => exact ⟨rfl, rfl, rfl, rfl⟩

lemma perform_found (heap : Heap) (root : UInt32) (barrier : Bool) {other target : TypeDesc} {v : Nat → UInt64 → Act Unit} (sound : known.Sound)
    (soundS : s.Sound known options) (has : known.Has t) (found : t.recordType known = .ok other)
    (isTarget : other.recordType known = .ok target) (compiles : options.Compiles known other)
    (performs : Performs known options job (options.maxNestingDepth + 1) target v) (wireFits : wire.size ≤ maxBlock)
    (roomy : job = .encode → known.Roomy wire.size) :
    Fulfils known options job s wire heap (s.perform known job t wire heap root barrier)
      (if options.Framed then v options.maxNestingDepth root.toUInt64 (scene wire heap barrier)
        else .error (.gaveUp .crashed) (scene wire heap barrier)) := by
  have hasOther := sound.recordType has found
  obtain ⟨set, s₁, first, last, looked, follows, soundFirst, compiled, withinLast⟩ :=
    lookup_eq_ok soundS found hasOther compiles
  obtain ⟨_, _, first', last', body, isTarget', sound', within', isProgram⟩ :=
    isProgram_of_compile sound hasOther soundFirst compiled job
  obtain rfl := Except.ok.inj (isTarget.symm.trans isTarget')
  have same : s₁.options = options := follows.sound.sameOptions
  have performed : s.perform known job t wire heap root barrier = outcome (s₁.execute known
      (set.compiled job).program wire heap root options.maxNestingDepth barrier) := by
    simp only [perform, codecs, looked]
    rw [runCodec_eq, same]
  rw [performed]
  split
  · rename_i frames
    obtain ⟨carries, sends⟩ := execute_carries performs follows.sound sound' isProgram
      (within'.trans withinLast) frames wire wireFits roomy heap root barrier
    obtain ⟨f, ran, delivers, follows'⟩ := delivers_of_carries ⟨rfl, rfl, wireFits⟩ carries
    obtain rfl := Option.some.inj ran
    exact ⟨delivers, follows.trans follows', fun writes => spares_outcome (sends writes)⟩
  · rename_i large
    rw [execute, if_neg large]
    exact ⟨⟨rfl, rfl, rfl, rfl⟩, follows, fun _ => ⟨rfl, fun _ _ _ _ _ => rfl⟩⟩

/-- What an operation on a type may do: handle a record, or give up at once. -/
inductive Task (known : Registry) (job : Job) (limit : Nat) (t : TypeDesc) : (UInt64 → Act Unit) → Prop
  | record {other target : TypeDesc} {nested : Spots Visit} (found : t.recordType known = .ok other)
      (isTarget : other.recordType known = .ok target) (nests : Nests known job (fun _ => True) limit nested) :
      Task known job limit t fun base => job.record known nested limit target base
  | stuck {trouble : Trouble} (is : trouble.Stuck) : Task known job limit t fun _ => throw trouble

lemma Task.visits {limit : Nat} {v : UInt64 → Act Unit} (task : Task known job limit t v) :
    ∃ v', Visits known job (fun _ => True) (limit + 1) t v' ∧ v = v' limit := by
  cases task with
  | record found isTarget nests => exact ⟨_, .codec found isTarget (nests.visits _), rfl⟩
  | stuck is => exact ⟨_, .stuck trivial is, rfl⟩

lemma Task.uncut {limit : Nat} {v : UInt64 → Act Unit} (sound : known.Sound) (exact : job ≠ .encode)
    (has : known.Has t) (task : Task known job limit t v) (base : UInt64) (c : Scene) (offset : UInt64) (c' : Scene) :
    v base c ≠ .error (.cut offset) c' := by
  obtain ⟨v', visits, rfl⟩ := task.visits
  exact visits.uncut sound exact has limit base c offset c'

/-- What an operation on a type of any schema does, whatever it works on. -/
lemma exists_task (job : Job) (numbered : known.Numbered) (options : Options) (has : known.Has t) : ∃ v, Task known job options.maxNestingDepth t v ∧
      ∀ (s : Session) wire heap root barrier, s.Sound known options → wire.size ≤ maxBlock →
        (job = .encode → known.Roomy wire.size) → Fulfils known options job s wire heap (s.perform known job t wire heap root barrier)
          (v root.toUInt64 (scene wire heap barrier)) := by
  have sound := numbered.sound
  rcases options.lookup_decides sound has with ⟨f, foreseen, _, looked⟩ | ⟨other, target, found, isTarget, compiles⟩
  · refine ⟨_, .stuck (Trouble.Stuck.of_failure foreseen), fun s wire heap root barrier soundS _ _ => ?_⟩
    obtain ⟨s', looked, follows⟩ := looked s soundS
    exact perform_refused looked follows
  · obtain ⟨nested, nests, performs⟩ := performs_record numbered options
      (sound.recordType (sound.recordType has found) isTarget) fun k (_ : k ≤ options.maxNestingDepth) =>
        exists_performs numbered options job k
    by_cases framed : options.Framed
    · refine ⟨_, .record found isTarget (nests.mono fun _ _ => trivial), fun s wire heap root barrier soundS wireFits roomy => ?_⟩
      have done := perform_found heap root barrier sound soundS has found isTarget
        compiles performs wireFits roomy
      rwa [if_pos framed] at done
    · refine ⟨_, .stuck .overflow, fun s wire heap root barrier soundS wireFits roomy => ?_⟩
      have done := perform_found heap root barrier sound soundS has found isTarget
        compiles performs wireFits roomy
      rwa [if_neg framed] at done

/-- An operation on a type of a usable schema does its task. -/
lemma perform_delivers (usable : known.Usable) (sound : s.Sound known options) (has : known.Has t) (job : Job)
    (wire : Bytes) (wireFits : wire.size ≤ maxBlock) (heap : Heap) (root : UInt32) (barrier : Bool) : Delivers
    (job ≠ .encode) job.eofCode (s.perform known job t wire heap root barrier)
    (task known options.maxNestingDepth job t wire heap root barrier) ∧ Follows known options s
    (s.perform known job t wire heap root barrier).session ∧
    (job = .encode → (s.perform known job t wire heap root barrier).Spares wire heap) := by
  suffices fulfils : Fulfils known options job s wire heap (s.perform known job t wire heap root barrier)
      (task known options.maxNestingDepth job t wire heap root barrier) from
    ⟨fulfils.delivers, fulfils.follows, fulfils.spares⟩
  cases isRecord : t.recordType known with
  | error issue =>
    simp only [task, isRecord]
    exact perform_refused (f := .cause (.unsupported issue)) (by simp only [lookup, isRecord]) sound.follows
  | ok record =>
    have kind := usable.recordType_kind has isRecord
    have hasRecord := usable.sound.recordType has isRecord
    simp only [task, isRecord]
    exact perform_found heap root barrier usable.sound sound has isRecord (Registry.recordType_struct kind)
      (options.compiles usable record hasRecord kind) (performs_walk usable _ hasRecord kind) wireFits fun _ => usable.roomy _

end Session

end WireCodec
