import WireCodec.Proofs.Lowering.DecodeFolded
import WireCodec.Proofs.Peephole.Optimize

/-! How much the straight runs of code that writes ask for. The code of a record without
composite fields has all of them in one run, and what may be in a run of other records stands
between frames, so that no run asks for more than a check can if records have no more than a few
thousand fields. -/
namespace WireCodec.Peephole

open List

variable {body : Piece} {k : Nat}

/-- A bound for what the run from here on asks for, if the code behind it asks for `after`. -/
def flow : List Pace → Nat → Nat
  | [], after => after
  | .asks n :: rest, after => n.toNat + flow rest after
  | .moves n :: rest, after => n.toNat + flow rest after
  | .ends :: _, _ => 0

lemma flow_append (front back : List Pace) (after : Nat) :
    flow (front ++ back) after = flow front (flow back after) := by
  induction front with
  | nil => rfl
  | cons step rest ih => cases step <;> simp only [cons_append, flow, ih]

lemma demand_le_flow (code : List Pace) : (demand? code).getD 0 ≤ flow code 0 := by
  induction code with
  | nil => exact Nat.zero_le _
  | cons step rest ih =>
    cases step with
    | asks n =>
      simp only [demand?, flow, Option.getD_some]
      omega
    | moves n =>
      simp only [demand?, flow]
      cases later : demand? rest with
      | none => exact Nat.zero_le _
      | some more =>
        rw [later] at ih
        exact Nat.add_le_add_left ih _
    | ends => exact Nat.zero_le _

/-- Code that adds `k` at most to the run behind it, and keeps runs within it below `top`. -/
structure Light (top k : Nat) (code : List Pace) : Prop where
  adds : ∀ after, flow code after ≤ after + k
  within : ∀ after n, flow (code.drop n) after ≤ max top (after + k)

def total : List Pace → Nat
  | [] => 0
  | .asks n :: rest => n.toNat + total rest
  | .moves n :: rest => n.toNat + total rest
  | .ends :: rest => total rest

lemma flow_le_total (code : List Pace) (after : Nat) : flow code after ≤ after + total code := by
  induction code with
  | nil => exact le_rfl
  | cons step rest ih => cases step <;> simp only [flow, total] <;> omega

lemma total_drop_le (code : List Pace) (n : Nat) : total (code.drop n) ≤ total code := by
  induction code generalizing n with
  | nil => simp
  | cons step rest ih =>
    cases n with
    | zero => exact le_rfl
    | succ n =>
      have := ih n
      cases step <;> simp only [drop_succ_cons, total] <;> omega

variable {top k k' : Nat} {code : List Pace}

lemma light_of_total (small : total code ≤ k) : Light top k code := by
  refine ⟨fun after => ?_, fun after n => ?_⟩
  · have := flow_le_total code after
    omega
  · have := flow_le_total (code.drop n) after
    have := total_drop_le code n
    omega

lemma Light.mono (light : Light top k code) (le : k ≤ k') : Light top k' code := by
  refine ⟨fun after => ?_, fun after n => ?_⟩
  · have := light.adds after
    omega
  · have := light.within after n
    omega

lemma Light.append {front back : List Pace} (first : Light top k front)
    (second : Light top k' back) : Light top (k + k') (front ++ back) := by
  refine ⟨fun after => ?_, fun after n => ?_⟩
  · rw [flow_append]
    have := first.adds (flow back after)
    have := second.adds after
    omega
  · rw [drop_append]
    by_cases low : n ≤ front.length
    · rw [Nat.sub_eq_zero_of_le low, drop_zero, flow_append]
      have := first.within (flow back after) n
      have := second.adds after
      omega
    · rw [drop_eq_nil_of_le (Nat.le_of_not_le low), nil_append]
      have := second.within after (n - front.length)
      omega

lemma Light.enclosed (light : Light top k code) (low : k ≤ top) : Light top 0 (.ends :: code ++ [.ends]) := by
  refine ⟨fun after => Nat.zero_le _, fun after n => ?_⟩
  cases n with
  | zero => exact Nat.zero_le _
  | succ n =>
    rw [cons_append, drop_succ_cons, drop_append]
    by_cases inner : n ≤ code.length
    · rw [Nat.sub_eq_zero_of_le inner, drop_zero, flow_append]
      have := light.within 0 n
      simp only [flow]
      omega
    · rw [drop_eq_nil_of_le (Nat.le_of_not_le inner), nil_append]
      obtain ⟨k, more⟩ : ∃ k, n - code.length = k + 1 := ⟨n - code.length - 1, by omega⟩
      rw [more, drop_succ_cons, drop_nil, flow]
      exact Nat.le_max_right _ _

end WireCodec.Peephole

namespace WireCodec.Lowering

open Peephole List

/-- The piece adds `k` at most to the run behind it. -/
def Weighs (top k : Nat) (piece : Piece) : Prop := Always (fun made => Light top k (made.map paceOf)) piece

section Weighs

variable {top k k' : Nat} {branch : Dest → Instr Dest} {piece : Piece}

lemma weighs_code {instrs : Code} (small : (total (instrs.map paceOf)).ble k = true) :
    Weighs top k (code instrs) := always_code (light_of_total (Nat.le_of_ble_eq_true small))

lemma Weighs.mono (weighs : Weighs top k piece) (le : k ≤ k') : Weighs top k' piece :=
  fun start table made table' made_ => (weighs start table made table' made_).mono le

lemma weighs_withM {α : Type} {check : LowerM α} {body : α → Piece}
    (each : ∀ a, Weighs top k (body a)) : Weighs top k (withM check body) := always_withM each

lemma weighs_seq {rest : List Piece} (first : Weighs top k piece)
    (after : Weighs top k' (seq rest)) : Weighs top (k + k') (seq (piece :: rest)) :=
  always_seq first after fun front back one other => by
    rw [map_append]
    exact one.append other

lemma weighs_nil : Weighs top 0 (seq []) := weighs_code rfl

lemma weighs_last (weighs : Weighs top k piece) : Weighs top k (seq [piece]) :=
  weighs_seq weighs weighs_nil

lemma weighs_pair {piece piece' : Piece} (first : Weighs top k piece) (second : Weighs top k' piece') :
    Weighs top (k + k') (seq [piece, piece']) := weighs_seq first (weighs_last second)

lemma light_ends : Light top 0 [.ends] := light_of_total (Nat.le_refl 0)

lemma weighs_skipping (ends : EndsRun branch) (inner : Weighs top k body) : Weighs top k (skipping branch body) :=
  always_skipping inner fun d made light => by
    rw [map_cons, ends d]
    exact (light_ends.append light).mono (le_of_eq (Nat.zero_add k))

lemma weighs_looping {back : Dest → Instr Dest} (ends : EndsRun back)
    (inner : Weighs top k body) : Weighs top k (looping body back) := by
  intro start table made table' made_
  obtain ⟨code, ok, rfl⟩ := looping_eq_ok.mp made_
  rw [map_append, map_cons, ends]
  exact (inner _ _ _ _ ok).append light_ends

lemma weighs_either {first second : Piece} (ends : EndsRun branch)
    (one : Weighs top k first) (other : Weighs top k' second) : Weighs top (k + k') (either branch first second) := by
  intro start table made table' made_
  obtain ⟨short, mid, long, ok, ok', rfl⟩ := either_eq_ok.mp made_
  have light := ((light_ends.append (one _ _ _ _ ok)).append light_ends).append (other _ _ _ _ ok')
  refine Light.mono ?_ (by omega : 0 + k + 0 + k' ≤ k + k')
  simpa [ends _, show ∀ d : Dest, paceOf (.jump d) = .ends from fun _ => rfl] using light

end Weighs

section Write

variable {known : Registry} {nested : Spots (TypeDesc → Piece)} {e : Entry} {t : TypeDesc} {top cap : Nat}

/-- What the code of a record with up to `cap` fields may add: that of fields of one size each, and a stop mark. -/
def recordWeight (cap : Nat) : Nat := cap * 22 + 48

def valueWeight (cap : Nat) : Nat := recordWeight cap + 2

def fieldWeight (cap : Nat) : Nat := recordWeight cap + 14

/-- What a run inside a frame may ask for. -/
def runCap (cap : Nat) : Nat := (cap + 2) * fieldWeight cap

lemma double_valueWeight_le (cap : Nat) : valueWeight cap + valueWeight cap ≤ runCap cap := by
  rw [runCap, Nat.add_mul]
  unfold valueWeight fieldWeight
  omega

def WeighsNested (cap : Nat) (known : Registry) (nested : Spots (TypeDesc → Piece)) : Prop :=
  ∀ way record, known.Has record → Weighs (runCap cap) (recordWeight cap) (nested way record)

lemma weighs_nestedRecord (sound : known.Sound) (inner : WeighsNested cap known nested)
    (has : known.Has t) : Weighs (runCap cap) (recordWeight cap) (nestedRecord known nested t) := by
  intro start table made table' made_
  obtain ⟨record, mid, found, ok⟩ := withM_eq_ok.mp made_
  cases isRecord : t.recordType known with
  | error issue =>
    rw [isRecord] at found
    cases found
  | ok record' =>
    rw [isRecord] at found
    cases found
    exact inner [] record (sound.recordType has isRecord) start table made table' ok

lemma weighs_encodeScalar (t : TypeDesc) (base : Reg) (off : UInt32) : Weighs top 16 (encodeScalar .write t base off) :=
  weighs_withM fun width => weighs_code (by cases width <;> rfl)

lemma weighs_encodeReserved (t : TypeDesc) (base : Reg) (off : UInt32) : Weighs top 16 (encodeReserved .write t base off) :=
  weighs_withM fun width => weighs_code (by cases width <;> rfl)

lemma weighs_encodeBlob (base : Reg) (off : UInt32) : Weighs top 16 (encodeBlob .write base off) :=
  weighs_withM fun _ => weighs_code rfl

lemma weighs_registerLoop (inner : Weighs top k body) : Weighs top k (e.registerLoop body) :=
  weighs_looping (endsRun_ifNe r1 0) (@weighs_pair _ _ 0 _ _ inner (weighs_code rfl))

lemma weighs_frameLoop (inner : Weighs top k body) : Weighs top k (e.frameLoop body) :=
  weighs_looping (endsRun_ifNe r1 0) (@weighs_pair _ _ 0 _ _ inner (weighs_code rfl))

/-- A loop in a frame adds nothing, and one in registers no more than its entry. -/
lemma weighs_encodeContainer {kind : Kind} {base : Reg} {off : UInt32}
    {entry : Bool → Piece} (simple : e.isSimple = true → ∀ flag, Weighs top 32 (entry flag))
    (framed : Weighs top top (entry false)) : Weighs top 48 (encodeContainer .write kind e base off entry) := by
  have head : Weighs top 16 (encodeContainerHead .write kind e base off) := by
    refine weighs_withM fun length => ?_
    cases keyed : e.key <;> simp only [Entry.headerSize, keyed] <;> split
    all_goals first
      | exact weighs_withM fun index => weighs_code rfl
      | exact weighs_code rfl
  have loop : ∀ flag, Weighs top 32 (if e.isSimple then e.registerLoop (entry flag)
      else seq [code [.enter, .storeFrame p1 0, .storeFrame r1 1], e.frameLoop (entry false), code [.leave]]) := by
    intro flag
    split
    · rename_i isSimple
      exact weighs_registerLoop (simple isSimple flag)
    · intro start table made table' made_
      obtain ⟨inner, ok, rfl⟩ := seq_between_eq_ok.mp made_
      have light := weighs_frameLoop framed _ _ _ _ ok
      have opened : Light top 0 (([.storeFrame p1 0, .storeFrame r1 1] : Code).map paceOf) := light_of_total (Nat.le_refl 0)
      have whole := (opened.append light).enclosed (Nat.zero_add top).le
      refine Light.mono ?_ (Nat.zero_le 32)
      simpa [append_assoc, show paceOf (.enter : Instr Dest) = .ends from rfl,
        show paceOf (.leave : Instr Dest) = .ends from rfl] using whole
  have entries : Weighs top 32 (encodeEntries .write e entry) := by
    unfold encodeEntries
    cases e.fixedSize? with
    | none => exact loop false
    | some size => exact weighs_pair (k := 0) (weighs_code rfl) (loop true)
  exact weighs_pair head (weighs_skipping (endsRun_ifEq _ _) entries)

lemma weighs_parts {k' : Nat} {key elem : Piece} (one : Weighs top k key)
    (other : Weighs top k' elem) : Weighs top (k + k') (e.parts (some key) elem) := by
  refine weighs_seq one (Nat.zero_add k' ▸ weighs_pair ?_ other)
  cases e.key with
  | none => exact weighs_code rfl
  | some t =>
    simp only
    split <;> exact weighs_code rfl

lemma parts_of_inReach {key elem : TypeDesc} {entry : Entry} {table table' : TypeTable}
    (found : inReach (Entry.ofMap? key elem) table = .ok entry table') : entry.key = some key ∧ entry.elem = elem := by
  unfold Entry.ofMap? at found
  cases layout : TypeDesc.EntryLayout.of? key elem with
  | none =>
    rw [layout] at found
    cases found
  | some layout' =>
    rw [layout] at found
    cases found
    exact ⟨rfl, rfl⟩

lemma weighs_encodeValue (sound : known.Sound) (inner : WeighsNested cap known nested) (t : TypeDesc)
    (has : known.Has t) (reserved : Bool) (base : Reg) (off : UInt32) :
    Weighs (runCap cap) (valueWeight cap) (encodeValue known nested .write t reserved base off) ∧
      (isSimple t = true → Weighs (runCap cap) 16 (encodeValue known nested .write t reserved base off)) := by
  have low : 48 ≤ valueWeight cap := by
    unfold valueWeight recordWeight
    omega
  have double := double_valueWeight_le cap
  have both : ∀ {t : TypeDesc} {piece : Piece}, Weighs (runCap cap) 16 piece →
      Weighs (runCap cap) (valueWeight cap) piece ∧ (isSimple t = true → Weighs (runCap cap) 16 piece) :=
    fun weighs => ⟨weighs.mono (by omega), fun _ => weighs⟩
  have nothing : ∀ {t : TypeDesc} {α : Type} (check : LowerM α), Weighs (runCap cap) (valueWeight cap) (withM check fun _ => code []) ∧
      (isSimple t = true → Weighs (runCap cap) 16 (withM check fun _ => code [])) :=
    fun check => both (weighs_withM fun _ => weighs_code rfl)
  induction t using TypeDesc.inner_induction generalizing nested reserved base off with
  | step t ihElem ihKey =>
    obtain ⟨_, kind, _, _, _, key, elem, _, _⟩ := t
    cases kind
    case string | binary => exact both (weighs_encodeBlob _ _)
    case list | set =>
      rcases elem with _ | elem
      · exact nothing _
      · have ih := fun flag => ihElem elem rfl (fun way => inner (0 :: way)) (sound.elem has rfl) flag p1 0
        refine ⟨(weighs_encodeContainer (fun simple flag => ?_) ?_).mono low, by rintro ⟨⟩⟩
        · exact ((ih flag).2 (by simpa [Entry.isSimple, Entry.ofList] using simple)).mono (by decide)
        · exact (ih false).1.mono (by omega)
    case map =>
      rcases elem with _ | elem
      · exact nothing _
      rcases key with _ | key
      · exact nothing _
      have ihElem := ihElem elem rfl (fun way => inner (1 :: way)) (sound.elem has rfl)
      have ihKey := ihKey key rfl (fun way => inner (0 :: way)) (sound.key has rfl)
      refine ⟨fun start table made table' made_ => ?_, by rintro ⟨⟩⟩
      obtain ⟨entry, mid, found, ok⟩ := withM_eq_ok.mp made_
      obtain ⟨sameKey, sameElem⟩ := parts_of_inReach found
      refine (weighs_encodeContainer (fun simple flag => ?_) ?_).mono low _ _ _ _ ok
      · have simple : isSimple entry.elem = true ∧ isSimple key = true := by
          simpa only [Entry.isSimple, sameKey, Bool.and_eq_true] using simple
        exact weighs_parts ((ihKey flag p1 0).2 simple.2) ((ihElem flag p1 _).2 (sameElem ▸ simple.1))
      · exact (weighs_parts (ihKey false p1 0).1 (ihElem false p1 _).1).mono double
    case struct =>
      have seek : Weighs (runCap cap) 0 (code (seekRecord base off)) := by
        unfold seekRecord
        split <;> exact weighs_code rfl
      exact ⟨(weighs_pair seek (weighs_nestedRecord sound inner has)).mono (by unfold valueWeight; omega), by rintro ⟨⟩⟩
    case pointer =>
      refine ⟨?_, by rintro ⟨⟩⟩
      exact (weighs_pair (k := 0) (weighs_code rfl) (weighs_either (k := 2) (endsRun_ifNe _ _)
        (weighs_code rfl) (weighs_nestedRecord sound inner has))).mono (by unfold valueWeight; omega)
    all_goals
      cases reserved
      · exact both (weighs_encodeScalar _ _ _)
      · exact both (weighs_encodeReserved _ _ _)

section

variable (sound : known.Sound)
include sound

lemma weighs_encodeField (inner : WeighsNested cap known nested) (field : FieldDesc)
    (has : known.Has field.type) : Weighs (runCap cap) (fieldWeight cap) (encodeField known nested .write field) ∧
    (isSimple field.type = true → Weighs (runCap cap) 22 (encodeField known nested .write field)) := by
  have header : Weighs (runCap cap) 6 (code (fieldHeader .write field)) := weighs_code rfl
  have load : Weighs (runCap cap) 0 (code [.loadPtr p2 p0 field.offset]) := weighs_code rfl
  have both : ∀ {piece : Piece}, Weighs (runCap cap) 22 piece →
      Weighs (runCap cap) (fieldWeight cap) piece ∧ (isSimple field.type = true → Weighs (runCap cap) 22 piece) :=
    fun weighs => ⟨weighs.mono (by unfold fieldWeight recordWeight; omega), fun _ => weighs⟩
  have record := weighs_nestedRecord sound inner has
  unfold encodeField
  split
  · exact both (weighs_pair load (weighs_skipping (endsRun_ifEq _ _) (weighs_pair header (weighs_encodeScalar _ _ _))))
  · have simple : field.type.kind.isScalar = false → field.type.kind.hasHeader = false →
        isSimple field.type = true → False := by
      unfold isSimple
      cases field.type.kind <;> simp [Kind.isScalar, Kind.scalarSize?, Kind.hasHeader]
    split
    · rename_i kind
      have body : Weighs (runCap cap) (6 + recordWeight cap) (seq [code (fieldHeader .write field ++ [.seek p0 p2 0]),
          nestedRecord known nested field.type]) := weighs_pair (weighs_code rfl) record
      refine ⟨?_, fun isSimple => absurd isSimple (simple (by rw [kind]; rfl) (by rw [kind]; rfl))⟩
      unfold encodePointerField
      split
      · exact (weighs_pair load (weighs_either (k := 8) (endsRun_ifNe _ _) (weighs_code rfl) body)).mono (by unfold fieldWeight; omega)
      · exact (weighs_pair load (weighs_skipping (endsRun_ifEq _ _) body)).mono (by unfold fieldWeight; omega)
    · rename_i kind
      refine ⟨?_, fun isSimple => absurd isSimple (simple (by rw [kind]; rfl) (by rw [kind]; rfl))⟩
      exact (weighs_pair (k := 6) (weighs_code rfl) record).mono (by unfold fieldWeight; omega)
    · split
      · have body := weighs_pair header (weighs_encodeScalar field.type p0 field.offset)
        refine both ?_
        unfold encodeScalarField
        split
        · exact body
        · refine weighs_withM fun width => @weighs_pair _ 0 22 _ _ (weighs_code rfl) ?_
          unfold unlessDefault
          split
          · exact weighs_skipping (endsRun_ifEq _ _) body
          · exact weighs_pair (k := 0) (weighs_code rfl) (weighs_skipping (fun _ => rfl) body)
      · obtain ⟨value, simpleValue⟩ := weighs_encodeValue sound inner field.type has false p0 field.offset
        have whole : ∀ {k : Nat}, Weighs (runCap cap) k (encodeValue known nested .write field.type false p0
            field.offset) → Weighs (runCap cap) (6 + k) (encodeHeaderField known nested .write field) := by
          intro k weighs
          have body := weighs_pair header weighs
          unfold encodeHeaderField
          split
          · exact body
          · exact (weighs_pair load (weighs_skipping (endsRun_ifEq _ _) body)).mono (by omega)
        exact ⟨(whole value).mono (by unfold valueWeight fieldWeight; omega), fun isSimple => whole (simpleValue isSimple)⟩

lemma weighs_encodeFields (inner : WeighsNested cap known nested)
    (fields : List FieldDesc) (has : ∀ field ∈ fields, known.Has field.type) (reload : Bool) :
    Weighs (runCap cap) (fields.length * fieldWeight cap) (encodeFields known nested .write reload fields) ∧
      ((∀ field ∈ fields, isSimple field.type = true) →
        Weighs (runCap cap) (fields.length * 22) (encodeFields known nested .write reload fields)) := by
  induction fields generalizing nested reload with
  | nil => exact ⟨(weighs_code rfl).mono (Nat.zero_le _), fun _ => (weighs_code rfl).mono (Nat.zero_le _)⟩
  | cons field rest ih =>
    obtain ⟨hasField, hasRest⟩ := List.forall_mem_cons.mp has
    obtain ⟨own, ownSimple⟩ := weighs_encodeField sound (fun way => inner (0 :: way)) field hasField
    obtain ⟨others, othersSimple⟩ := ih (fun way => inner (1 :: way)) hasRest (!isSimple field.type)
    have base : Weighs (runCap cap) 0 (code (if reload then [.loadFrame p0 0] else [])) := by
      cases reload <;> exact weighs_code rfl
    have whole : ∀ {k k' : Nat}, Weighs (runCap cap) k (encodeField known (nested.part 0) .write field) →
        Weighs (runCap cap) k' (encodeFields known (nested.part 1) .write (!isSimple field.type) rest) →
        Weighs (runCap cap) (k + k') (encodeFields known nested .write reload (field :: rest)) :=
      fun one other => (weighs_seq base (weighs_pair one other)).mono (by omega)
    refine ⟨(whole own others).mono ?_, fun simple => ?_⟩
    · rw [length_cons, Nat.add_mul]
      omega
    · obtain ⟨first, last⟩ := List.forall_mem_cons.mp simple
      refine (whole (ownSimple first) (othersSimple last)).mono ?_
      rw [length_cons]
      omega

/-- The code of a record adds no more than that of its fields; one with a frame adds nothing. -/
lemma weighs_encodeRecord (inner : WeighsNested cap known nested) (has : known.Has t) (few : t.fields.length ≤ cap) :
    Weighs (runCap cap) (recordWeight cap) (encodeRecord known .write nested t) := by
  obtain ⟨fields, simpleFields⟩ := weighs_encodeFields sound inner t.fields (fun field mem => sound.field has mem) false
  intro start table made table' made_
  unfold encodeRecord at made_
  cases framed : t.fields.any fun field => !isSimple field.type with
  | false =>
    rw [framed] at made_
    have simple : ∀ field ∈ t.fields, isSimple field.type = true := by simpa using framed
    refine (weighs_seq (k := 0) (weighs_code rfl) (@weighs_pair _ _ 2 _ _ (simpleFields simple)
      (weighs_code rfl))).mono ?_ _ _ _ _ made_
    unfold recordWeight
    omega
  | true =>
    rw [framed] at made_
    obtain ⟨body, ok, rfl⟩ := seq_between_eq_ok.mp made_
    have opened : Light (runCap cap) 0 (([.storeFrame p0 0] : Code).map paceOf) := light_of_total (Nat.le_refl 0)
    have closed : Light (runCap cap) 2 ((stopMark .write).map paceOf) := light_of_total (Nat.le_refl 2)
    have low : 0 + t.fields.length * fieldWeight cap + 2 ≤ runCap cap := by
      have := Nat.mul_le_mul_right (fieldWeight cap) few
      rw [runCap, Nat.add_mul]
      unfold fieldWeight at this ⊢
      omega
    have whole := ((opened.append (fields _ _ _ _ ok)).append closed).enclosed low
    refine Light.mono ?_ (Nat.zero_le _)
    simpa [append_assoc, show paceOf (.enter : Instr Dest) = .ends from rfl,
      show paceOf (.leave : Instr Dest) = .ends from rfl] using whole

end

lemma weighs_deferral (job : Job) (t : TypeDesc) : Weighs top 0 (deferral job t) :=
  weighs_withM fun _ => weighs_code rfl

lemma weighsNested_nestedPiece {s : Setting} (sound : s.known.Sound)
    (few : ∀ t, s.known.Has t → t.fields.length ≤ cap) (levels : Nat) :
    WeighsNested cap s.known fun _ => nestedPiece s .encode levels := by
  induction levels with
  | zero => exact fun _ record _ => (weighs_deferral .encode record).mono (Nat.zero_le _)
  | succ levels ih =>
    intro way record has start table made table' made_
    dsimp only at made_
    unfold nestedPiece at made_
    split at made_
    · exact (weighs_deferral .encode record).mono (Nat.zero_le _) _ _ _ _ made_
    · exact weighs_encodeRecord sound ih has (few record has) _ _ _ _ made_

lemma bounded_finish {body : Code} {size : Nat} (light : Light (runCap cap) (recordWeight cap) (body.map paceOf))
    (can : Askable size (runCap cap)) : Bounded size (finish body) := by
  intro k need asked
  have whole : (finish body).map pace = body.map paceOf ++
      (.ends :: ((usedExits body).map fun _ => .ends) ++ [.ends]) := by
    rw [finish_eq, map_append, map_map]
    congr 1
    · exact map_congr_left fun i _ => pace_mapTargets_eq _ i
    · simp only [map_append, map_cons, map_map, map_nil]
      rfl
  have tail : Light (runCap cap) 0 (.ends :: ((usedExits body).map fun _ => .ends) ++ [.ends]) := by
    refine Light.enclosed (k := 0) (light_of_total ?_) (Nat.zero_le _)
    induction usedExits body with
    | nil => exact Nat.le_refl 0
    | cons e rest ih => exact ih
  have bound := (light.append tail).within 0 k
  have low := demand_le_flow (((finish body).map pace).drop k)
  rw [map_drop] at asked
  rw [asked, whole] at low
  have := double_valueWeight_le cap
  unfold valueWeight at this
  simp only [Option.getD_some] at low
  exact can.mono (by omega)

end Write

end WireCodec.Lowering
