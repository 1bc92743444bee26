import WireCodec.Proofs.Session.Inlining

/-! Encoding and measuring end, whatever is in the arena: every record that holds others takes a frame,
so that even a cycle of pointers ends, in an error. -/
namespace WireCodec

open Lowering

namespace LoadM

variable {α β : Type}

def Ends (x : LoadM α) : Prop := ∃ r, x.run = some r ∧ r ≠ .error .endless

lemma ends_pure (a : α) : Ends (pure a) := ⟨.ok a, rfl, nofun⟩

lemma Ends.bind {x : LoadM α} {f : α → LoadM β} (first : Ends x) (rest : ∀ a, Ends (f a)) : Ends (x >>= f) := by
  obtain ⟨r, ran, other⟩ := first
  rw [Ends, ExceptT.run_bind, ran]
  cases r with
  | ok a => exact rest a
  | error e => exact ⟨.error e, rfl, fun same => other (by cases same; rfl)⟩

lemma ends_inReach (x : Option α) : Ends (inReach x) := by
  cases x with
  | none => exact ⟨.error .outOfBounds, rfl, nofun⟩
  | some a => exact ends_pure a

lemma ends_header (heap : Heap) (off : UInt32) : Ends (header heap off) := by
  have word : ∀ off, Ends (word32 heap off) := fun _ => (ends_inReach _).bind fun _ => ends_pure _
  exact (word _).bind fun _ => (word _).bind fun _ => ends_pure _

end LoadM

open LoadM

lemma loadValue_ne_endless {t : TypeDesc} (simple : isSimple t = true) (known : Registry) (heap : Heap)
    (off : UInt32) : loadValue known heap off t ≠ .error .endless := by
  have ends : Ends (known.load heap off t) := by
    unfold isSimple at simple
    rw [Registry.load.eq_def]
    cases kind : t.kind <;> rw [kind] at simple <;> try cases simple
    case string | binary =>
      exact (ends_header heap off).bind fun _ => (ends_inReach _).bind fun _ => ends_pure _
    all_goals
      refine (ends_inReach _).bind fun w => ?_
      cases Scalar.ofBits? _ w with
      | some s => exact ends_pure _
      | none => exact ⟨_, rfl, by rintro ⟨⟩⟩
  obtain ⟨r, ran, other⟩ := ends
  rw [loadValue, ran]
  exact other

lemma checkDistinct_ne_endless {read : UInt32 → Except ValueError Value} (ends : ∀ off, read off ≠ .error .endless)
    (stride : UInt32) (count off : Nat) (seen : List Value) :
    checkDistinct read stride count off seen ≠ .unreadable .endless := by
  induction count generalizing off seen with
  | zero => rintro ⟨⟩
  | succ count ih =>
    unfold checkDistinct
    split
    · rintro ⟨⟩
    · split
      · rename_i failed
        intro same
        cases same
        exact ends _ failed
      · split
        · rintro ⟨⟩
        · exact ih _ _

/-- Sets of scalars, strings and binaries. -/
def Registry.SimpleSets (known : Registry) : Prop :=
  ∀ t elem, known.Has t → t.kind = .set → t.elem = some elem → isSimple elem = true

lemma Trouble.Shows.eq_endless {eof : ErrorCode} {t : Trouble} (shows : t.Shows eof .endless) :
    t = .gaveUp .endless := by
  have issue : ∀ e : CompileError, SessionError.endless ≠ .ofCompile e := by
    intro e
    unfold SessionError.ofCompile
    split <;> exact nofun
  cases t with
  | codec | cut =>
    obtain ⟨_, same⟩ := shows
    cases same
  | outside =>
    rcases shows with ⟨d, same⟩ | ⟨_, same⟩
    · exact absurd same (issue _)
    · cases same
  | defect d => exact absurd shows (issue d)
  | gaveUp ending =>
    cases ending with
    | endless => rfl
    | stopped => cases shows
    | crashed => cases shows

/-! Cycles. -/

/-- A record refers to the records that stand in it and to those its fields point to. -/
inductive Refers (known : Registry) (heap : Heap) : TypeDesc × UInt32 → TypeDesc × UInt32 → Prop
  | pointer {t record : TypeDesc} {base next : UInt32} {field : FieldDesc} (mem : field ∈ t.fields)
      (kind : field.type.kind = .pointer) (found : field.type.recordType known = .ok record)
      (isRecord : record.kind = .struct) (stored : heap.read32? (base + field.offset) = some next) (real : next ≠ 0) :
      Refers known heap (t, base) (record, next)
  | inside {t : TypeDesc} {base : UInt32} {field : FieldDesc} (mem : field ∈ t.fields)
      (kind : field.type.kind = .struct) (near : field.offset.toNat < 2 ^ 31) :
      Refers known heap (t, base) (field.type, base + field.offset)

/-- From the record on, references lead into a cycle. -/
def Cyclic (known : Registry) (heap : Heap) (place : TypeDesc × UInt32) : Prop :=
  ∃ turn, Relation.ReflTransGen (Refers known heap) place turn ∧ Relation.TransGen (Refers known heap) turn turn

variable {known : Registry} {heap : Heap} {t : TypeDesc}

lemma Cyclic.next {place : TypeDesc × UInt32} (cyclic : Cyclic known heap place) :
    ∃ other, Refers known heap place other ∧ Cyclic known heap other := by
  obtain ⟨turn, leads, round⟩ := cyclic
  rcases leads.cases_head with rfl | ⟨other, refers, leads⟩
  · obtain ⟨other, refers, back⟩ := Relation.TransGen.head'_iff.mp round
    exact ⟨other, refers, _, back, round⟩
  · exact ⟨other, refers, turn, leads, round⟩

lemma Refers.isFramed {place : TypeDesc × UInt32} {start : UInt32} (refers : Refers known heap (t, start) place) :
    Writing.isFramed t = true := by
  rw [Writing.isFramed, List.any_eq_true]
  cases refers with
  | pointer mem kind | inside mem kind => exact ⟨_, mem, by simp [isSimple, kind, Kind.isScalar, Kind.scalarSize?]⟩

lemma Refers.target {place : TypeDesc × UInt32} {start : UInt32} (sound : known.Sound) (has : known.Has t)
    (refers : Refers known heap (t, start) place) : known.Target place.1 ∧ place.1.kind = .struct := by
  cases refers with
  | pointer mem _ found isRecord => exact ⟨⟨_, sound.field has mem, found⟩, isRecord⟩
  | inside mem kind => exact ⟨⟨_, sound.field has mem, TypeDesc.recordType_struct kind⟩, kind⟩

namespace Act

variable {α : Type}

/-- Where it ends well, the action leaves the arena as it is. -/
def Looks (x : Act α) : Prop := ∀ c a c', x c = .ok a c' → c'.heap = c.heap

lemma looks_need (eof : ErrorCode) (n : UInt64) : Looks (need eof n) := by
  intro c a c' ok
  unfold need at ok
  split at ok <;> cases ok
  rfl

lemma closedWrites_looks (known : Registry) (out : Output) : ClosedWrites known out Looks where
  pure := by
    intro _ _ c a c' ok
    cases ok
    rfl
  fail := fun _ _ _ _ ok => nomatch ok
  bind := by
    intro _ _ x f first rest c b c' ok
    obtain ⟨a, c₁, ok, ok'⟩ := bind_eq_ok.mp ok
    exact (rest a c₁ b c' ok').trans (first c a c₁ ok)
  distinct := by
    intro _ _ _ _ _ data count c a c' ok
    unfold distinct at ok
    split at ok <;> cases ok
    rfl
  room := by
    intro n
    cases out with
    | count =>
      intro c a c' ok
      cases ok
      rfl
    | write => exact looks_need _ n
  literal := by
    intro width value c a c' ok
    cases out with
    | count =>
      cases ok
      rfl
    | write =>
      simp only [Writing.literal, Act.literal] at ok
      split at ok <;> cases ok
      rfl
  int := by
    intro width value c a c' ok
    cases out with
    | count =>
      cases ok
      rfl
    | write =>
      simp only [Writing.int, Act.write] at ok
      split at ok <;> cases ok
      rfl
  bytes := by
    intro src len c a c' ok
    cases out with
    | count =>
      cases ok
      rfl
    | write =>
      simp only [Writing.bytes, Act.copyOut] at ok
      split at ok
      · cases ok
      · split at ok <;> cases ok
        rfl
  fetch := by
    intro width base off c a c' ok
    simp only [Act.fetch, onHeap] at ok
    split at ok <;> cases ok
    rfl

end Act

namespace Writing

open Act

variable {nested : Spots Visit} {out : Output} {left : Nat} {base : UInt64} {c c' : Scene} {f : FieldDesc}

lemma fetch_eq_ok {off : UInt32} {word : UInt64} {next : UInt32} (ok : fetch .w4 base off c = .ok word c')
    (stored : c.heap.read32? (base.toUInt32 + off) = some next) : word.toUInt32 = next ∧ c' = c := by
  simp only [Act.fetch, Act.onHeap, Scene.at?] at ok
  split at ok
  · rename_i place at_
    cases ok
    split at at_
    · cases at_
      obtain ⟨word, read, rfl⟩ := Option.map_eq_some_iff.mp stored
      have same : (base.toNat + off.toNat).toUInt32 = base.toUInt32 + off := by
        apply UInt32.toNat_inj.mp
        simp
      rw [same]
      exact ⟨by rw [show Width.w4.bytes = 4 from rfl, read]; rfl, rfl⟩
    · cases at_
  · cases ok

section Records

variable (sound : known.Sound) (looks : ∀ way left record base, known.Target record → Looks (nested way left record base))
include sound looks

lemma fields_eq_ok {fs : List FieldDesc} (has : ∀ f ∈ fs, known.Has f.type) (mem : f ∈ fs)
    (ok : fields known nested out left base fs c = .ok () c') : ∃ ways c₁ c₂, c₁.heap = c.heap ∧
      field known (fun way => nested (ways ++ way)) out f left base c₁ = .ok () c₂ := by
  induction fs generalizing nested c with
  | nil => cases mem
  | cons first rest ih =>
    obtain ⟨_, c₁, head, tail⟩ := bind_eq_ok.mp ok
    obtain ⟨hasFirst, hasRest⟩ := List.forall_mem_cons.mp has
    rcases List.mem_cons.mp mem with rfl | mem
    · exact ⟨[0], c, c₁, rfl, head⟩
    · have same := closed_field (closedWrites_looks known out) sound (fun way => looks (0 :: way)) left base hasFirst
        c _ c₁ head
      obtain ⟨ways, c₂, c₃, kept, ok⟩ := ih (fun way => looks (1 :: way)) hasRest mem tail
      exact ⟨1 :: ways, c₂, c₃, kept.trans same, ok⟩

/-- Writing a record writes what it refers to, with a frame less. -/
lemma record_refers (has : known.Has t) {place : TypeDesc × UInt32}
    (refers : Refers known c.heap (t, base.toUInt32) place) (ok : record known nested out left t base c = .ok () c') :
    ∃ k way addr c₁ c₂, left = k + 1 ∧ c₁.heap = c.heap ∧ addr.toUInt32 = place.2 ∧
      nested way k place.1 addr c₁ = .ok () c₂ := by
  rw [record, if_pos refers.isFramed] at ok
  cases left with
  | zero => cases ok
  | succ k =>
    obtain ⟨_, _, ok, _⟩ := bind_eq_ok.mp ok
    have hasFields : ∀ f ∈ t.fields, known.Has f.type := fun _ mem => sound.field has mem
    have header : ∀ f : FieldDesc, Looks (header out f) := closed_header (closedWrites_looks known out)
    cases refers with
    | pointer mem kind found _ stored real =>
      obtain ⟨ways, c₁, c₂, kept, ok⟩ := fields_eq_ok sound looks hasFields mem ok
      rw [field_pointer _ _ kind, pointerField] at ok
      obtain ⟨word, c₃, fetched, rest⟩ := bind_eq_ok.mp ok
      obtain ⟨isNext, rfl⟩ := fetch_eq_ok fetched (kept ▸ stored)
      have isSome : word ≠ 0 := by
        rintro rfl
        exact real isNext.symm
      rw [if_neg isSome] at rest
      obtain ⟨_, c₄, written, rest⟩ := bind_eq_ok.mp rest
      rw [nestedRecord, found] at rest
      exact ⟨k, ways ++ [], word, c₄, c₂, rfl, (header _ _ _ _ written).trans kept, isNext, rest⟩
    | @inside t start f mem kind near =>
      obtain ⟨ways, c₁, c₂, kept, ok⟩ := fields_eq_ok sound looks hasFields mem ok
      rw [field_struct _ _ kind] at ok
      obtain ⟨_, c₃, written, ok⟩ := bind_eq_ok.mp ok
      rw [nestedRecord, TypeDesc.recordType_struct kind] at ok
      refine ⟨k, ways ++ [], _, c₃, c₂, rfl, (header _ _ _ _ written).trans kept, ?_, ok⟩
      rw [immWord_of_lt near]
      simp

end Records

end Writing

/-- A cycle is never written to its end. -/
lemma Visits.not_cyclic {job : Job} {out : Output} {lost : TypeDesc → Prop} {frames left : Nat}
    {v : Nat → UInt64 → Act Unit} (sound : known.Sound) (isOut : job = out.job) (visits : Visits known job lost frames t v)
    (has : known.Has t) (kind : t.kind = .struct) (low : left < frames) {base : UInt64} {c c' : Scene}
    (cyclic : Cyclic known c.heap (t, base.toUInt32)) : v left base c ≠ .ok () c' := by
  intro ok
  induction visits generalizing left base c c' with
  | spent => exact Nat.not_lt_zero _ low
  | @record frames t nested inner apart ih =>
    subst isOut
    have looks : ∀ way left record base, known.Target record → Act.Looks (nested way left record base) :=
      fun way left record base target => (inner way record target).writes (fun _ _ _ _ ok => nomatch ok) sound
        (Act.closedWrites_looks known out) (target.has sound) left base
    obtain ⟨place, refers, cyclic⟩ := cyclic.next
    rw [Job.record_out] at ok
    obtain ⟨k, way, addr, c₁, c₂, rfl, same, there, ok⟩ := Writing.record_refers sound looks has refers ok
    obtain ⟨target, isRecord⟩ := refers.target sound has
    refine ih way place.1 target (target.has sound) isRecord (Nat.lt_of_succ_lt_succ low) ?_ ok
    rwa [same, there]
  | codec found isTarget _ ih =>
    obtain rfl := Except.ok.inj ((TypeDesc.recordType_struct kind).symm.trans found)
    obtain rfl := Except.ok.inj ((TypeDesc.recordType_struct kind).symm.trans isTarget)
    exact ih has kind low cyclic ok
  | stuck _ _ => cases ok

/-- The operation on a type ends, and where pointers lead from the record at `root` into a cycle it fails. -/
structure Outcome.Stops (known : Registry) (t : TypeDesc) (heap : Heap) (root : UInt32) (o : Outcome Nat) : Prop where
  ends : o.result ≠ .error .endless
  fails : ∀ record, t.recordType known = .ok record → record.kind = .struct → Cyclic known heap (record, root) →
    ∃ e, o.result = .error e

namespace Session

variable {known : Registry} {options : Options} {s : Session} {t : TypeDesc}

section Perform

variable {wire : Bytes} {root : UInt32} {barrier : Bool} {job : Job} (numbered : known.Numbered)
  (sound : s.Sound known options) (has : known.Has t) (wireFits : wire.size ≤ maxBlock)
  (roomy : job = .encode → known.Roomy wire.size)
include numbered sound has wireFits roomy

lemma perform_ends (simple : known.SimpleSets) :
    (s.perform known job t wire heap root barrier).result ≠ .error .endless := by
  have check : ∀ {t elem : TypeDesc}, known.Has t → known.IsSequence t elem → t.kind = .set → ∀ data count,
      Act.Without (· = .gaveUp .endless) (Act.distinct known elem data count) := by
    refine fun {t elem} has is isSet data count c => Act.ends_of (fun _ _ _ => trivial) fun trouble c' failed => ?_
    have ends := checkDistinct_ne_endless (loadValue_ne_endless (simple t elem has isSet is.elem?) known c.heap)
      elem.size count.toUInt32.toNat data.toUInt32.toNat []
    unfold Act.distinct at failed
    split at failed <;> cases failed <;> first | exact absurd ‹_› ends | simp
  obtain ⟨v, task, fulfils⟩ := exists_task job numbered options has
  obtain ⟨v', visits, rfl⟩ := task.visits
  have delivers := (fulfils s wire heap root barrier sound wireFits roomy).delivers
  intro endless
  cases ran : v' options.maxNestingDepth root.toUInt64 (scene wire heap barrier) with
  | ok u c =>
    rw [ran] at delivers
    cases delivers.1.symm.trans endless
  | error trouble c =>
    have other : Act.Without (· = .gaveUp .endless) (v' options.maxNestingDepth root.toUInt64) :=
      visits.without numbered.sound (by simp) (by simp) (by rintro _ ⟨⟩ <;> exact nofun) (by simp) check has _ _
    rw [ran] at delivers
    obtain ⟨e, result, shows⟩ := delivers.shows
    cases result.symm.trans endless
    exact (other _).error ran shows.eq_endless

lemma perform_cyclic {out : Output} (isOut : job = out.job) {record : TypeDesc} (found : t.recordType known = .ok record)
    (kind : record.kind = .struct) (cyclic : Cyclic known heap (record, root)) :
    ∃ e, (s.perform known job t wire heap root barrier).result = .error e := by
  obtain ⟨v, task, fulfils⟩ := exists_task job numbered options has
  have delivers := (fulfils s wire heap root barrier sound wireFits roomy).delivers
  cases ran : v root.toUInt64 (scene wire heap barrier) with
  | ok u c =>
    cases task with
    | stuck => cases ran
    | record found' isTarget nests =>
      obtain rfl := Except.ok.inj (found.symm.trans found')
      obtain rfl := Except.ok.inj ((TypeDesc.recordType_struct kind).symm.trans isTarget)
      exact absurd ran ((nests.visits record).not_cyclic numbered.sound isOut (numbered.sound.recordType has found) kind
        (Nat.lt_succ_self _) (by simpa [scene] using cyclic))
  | error trouble c =>
    rw [ran] at delivers
    obtain ⟨e, result, _⟩ := delivers.shows
    exact ⟨e, result⟩

end Perform

end Session

end WireCodec
