import WireCodec.Proofs.Lowering.Piece
import WireCodec.Proofs.Schema.Forms

/-! Making code, for any schema. What is made obeys the rules of programs and has only instructions
that its job may have, the failures that keep it from being made are foreseen, and only types of
the schema are numbered. -/
namespace WireCodec

open Lowering List

variable {piece : Piece} {instrs : Code}

/-- Instructions that code for the job may have. Code that counts neither checks, reads nor writes,
code that writes does not touch the arena, and code that reads does not write onto the wire. Only code
that reads calls for memory. Their operands obey the rules of programs. -/
def Job.allows {τ : Type} (job : Job) : Instr τ → Bool
  | .check _ | .checkReg _ => job ≠ .measure
  | .advance _ | .advanceReg _ => job = .measure
  | .readInt .. => job = .decode
  | .readBytes dst _ => job = .decode && dst.isPtr
  | .writeImm .. | .writeInt .. => job = .encode
  | .writeBytes src _ => job = .encode && src.isPtr
  | .load _ _ _ base _ => base.isPtr
  | .store _ _ base _ | .zero base _ _ => job = .decode && base.isPtr
  | .loadPtr dst base _ => base.isPtr && dst.isPtr
  | .storePtr src base _ => job = .decode && (src.isPtr && base.isPtr)
  | .seek dst _ _ => dst.isPtr
  | .loadFrame _ slot | .storeFrame _ slot => slot < Instr.frameSlots
  | .call id args rets => ((Instr.call id args rets).verifyCall Builtin.table).toBool &&
      (id = Builtin.setCheck || id = Builtin.defer || job = .decode)
  | .nop | .halt => false
  | _ => true

lemma Job.rules_of_allows {τ : Type} {job : Job} {i : Instr τ} (allowed : job.allows i = true)
    (settle : τ → Nat) : (i.mapTargets settle).brokenRule? = none ∧
      (i.mapTargets settle).verifyCall Builtin.table = .ok () ∧ (i.mapTargets settle).isHalt = false := by
  cases i with
  | call id args rets =>
    refine ⟨rfl, ?_, rfl⟩
    change (Instr.call id args rets).verifyCall Builtin.table = .ok ()
    have allowed := (Bool.and_eq_true_iff.mp allowed).1
    cases checked : (Instr.call id args rets).verifyCall Builtin.table with
    | ok => rfl
    | error e =>
      rw [checked] at allowed
      cases allowed
  | _ => simp_all [allows, Instr.mapTargets, Instr.brokenRule?, Instr.verifyCall, Instr.isHalt]

@[simp] lemma Job.allows_mapTargets {τ τ' : Type} (job : Job) (i : Instr τ) (g : τ → τ') :
    job.allows (i.mapTargets g) = job.allows i := by
  cases i <;> rfl

namespace Lowering

def Output.job : Output → Job
  | .count => .measure
  | .write => .encode

def Dest.Inside (low high : Nat) : Dest → Prop
  | .place index => low ≤ index ∧ index ≤ high
  | .exit e => e ∈ exitOrder

def CodeFine (job : Job) (low high : Nat) (made : Code) : Prop :=
  ∀ i ∈ made, job.allows i = true ∧ ∀ d ∈ i.targets, d.Inside low high

section CodeFine

variable {job : Job} {low high place : Nat} {i : Instr Dest} {rest : Code}

@[simp] lemma codeFine_nil : CodeFine job low high [] := forall_mem_nil _

@[simp] lemma codeFine_cons : CodeFine job low high (i :: rest) ↔
      (job.allows i = true ∧ ∀ d ∈ i.targets, d.Inside low high) ∧ CodeFine job low high rest :=
  forall_mem_cons

@[simp] lemma codeFine_append {first second : Code} : CodeFine job low high (first ++ second) ↔
      CodeFine job low high first ∧ CodeFine job low high second :=
  forall_mem_append

lemma CodeFine.mono {low' high' : Nat} {made : Code} (fine : CodeFine job low high made)
    (le : low' ≤ low) (le' : high ≤ high') : CodeFine job low' high' made := by
  refine fun i mem => ⟨(fine i mem).1, fun d target => ?_⟩
  have inside := (fine i mem).2 d target
  cases d with
  | place index =>
    obtain ⟨above, below⟩ := inside
    exact ⟨by omega, by omega⟩
  | exit e => exact inside

/-- An instruction of straight code. It branches to error exits only, and in code that writes it does
not read the registers that take the numbers of types. -/
def Plain (job : Job) (i : Instr Dest) : Prop :=
  job.allows i = true ∧ (∀ d ∈ i.targets, ∃ e ∈ exitOrder, d = .exit e) ∧ (job = .decode ∨ r2 ∉ i.uses ∧ r6 ∉ i.uses)

def Straight (job : Job) (instrs : Code) : Prop := ∀ i ∈ instrs, Plain job i

@[simp] lemma straight_nil : Straight job [] := forall_mem_nil _

@[simp] lemma straight_cons : Straight job (i :: rest) ↔ Plain job i ∧ Straight job rest := forall_mem_cons

@[simp] lemma straight_append {first second : Code} :
    Straight job (first ++ second) ↔ Straight job first ∧ Straight job second :=
  forall_mem_append

lemma Straight.codeFine (straight : Straight job instrs) : CodeFine job low high instrs := by
  refine fun i mem => ⟨(straight i mem).1, fun d target => ?_⟩
  obtain ⟨e, isExit, rfl⟩ := (straight i mem).2.1 d target
  exact isExit

def IsBranch (branch : Dest → Instr Dest) : Prop :=
  ∀ d, (∀ job : Job, job.allows (branch d) = true) ∧ (branch d).targets = [d]

lemma isBranch_ifEq (reg : Reg) (value : Int32) : IsBranch (ifEq reg value) :=
  fun _ => ⟨fun _ => rfl, rfl⟩

lemma isBranch_ifNe (reg : Reg) (value : Int32) : IsBranch (ifNe reg value) :=
  fun _ => ⟨fun _ => rfl, rfl⟩

lemma isBranch_branchReg (cond : Cond) (a b : Reg) : IsBranch (.branchReg cond a b) :=
  fun _ => ⟨fun _ => rfl, rfl⟩

lemma IsBranch.fine {branch : Dest → Instr Dest} (isBranch : IsBranch branch)
    (le : low ≤ place) (le' : place ≤ high) : CodeFine job low high [branch (.place place)] := by
  simp [(isBranch _).1, (isBranch _).2, Dest.Inside, le, le']

lemma codeFine_jump (le : low ≤ place) (le' : place ≤ high) : CodeFine job low high [.jump (.place place)] := by
  simp [Job.allows, Instr.targets, Dest.Inside, le, le']

end CodeFine

/-- What a computation comes to: a result with a property, or a failure that is foreseen. Only types
of the schema are numbered. -/
def Settles (known : Registry) (bad : Failure → Prop) {α : Type} (holds : α → Prop)
    (table : TypeTable) (result : EStateM.Result Failure TypeTable α) : Prop :=
  (match result with
    | .ok a _ => holds a
    | .error f _ => bad f) ∧
  (table.Sound known → (tableAfter result).Sound known)

def Checks (known : Registry) (bad : Failure → Prop) {α : Type} (x : LowerM α)
    (holds : α → Prop) : Prop := ∀ table, Settles known bad holds table (x table)

def Orderly (known : Registry) (job : Job) (bad : Failure → Prop) (piece : Piece) : Prop :=
  ∀ start, Checks known bad (piece start) fun made => CodeFine job start (start + made.length) made

def Failure.IsIssue (f : Failure) : Prop := ∃ issue, f = .cause (.unsupported issue)

/-- The failures that are foreseen are all that making code for the schema can lead to. -/
structure Foresees (known : Registry) (bad : Failure → Prop) : Prop where
  sound : known.Sound
  reach : ∀ {t key elem}, known.Has t → Registry.IsCramped t key elem → bad .overflow
  issue : ∀ {t issue}, known.Has t → t.kind = .struct ∨ t.kind = .pointer →
    t.recordType known = .error issue → bad (.cause (.unsupported issue))
  fields : ∀ {t issue}, known.Has t → maxTracked < t.fields.length → bad (.cause (.unsupported issue))

variable {known : Registry} {job : Job} {bad : Failure → Prop} {t : TypeDesc}

lemma foresees_issues (sound : known.Sound) (entries : known.EntriesFit) : Foresees known Failure.IsIssue :=
  ⟨sound, fun has is => (entries.not_cramped has is).elim, fun _ _ _ => ⟨_, rfl⟩, fun _ _ => ⟨_, rfl⟩⟩

lemma foresees_all (sound : known.Sound) : Foresees known fun f => f.IsIssue ∨ f = .overflow :=
  ⟨sound, fun _ _ => .inr rfl, fun _ _ _ => .inl ⟨_, rfl⟩, fun _ _ => .inl ⟨_, rfl⟩⟩

lemma foresees_none (usable : known.Usable) : Foresees known fun _ => False := by
  refine ⟨usable.sound, fun has is => (Registry.EntriesFit.not_cramped usable.entries has is).elim, fun has isRecord failed => ?_, fun has many => ?_⟩
  · obtain ⟨record, ok, _⟩ := usable.record has isRecord
    cases failed.symm.trans ok
  · exact absurd (usable.fieldCount _ has) (Nat.not_le.mpr many)

section Checks

variable {α β : Type} {holds : α → Prop}

lemma Checks.bind {x : LowerM α} {f : α → LowerM β} {holds' : β → Prop} (first : Checks known bad x holds)
    (second : ∀ a, holds a → Checks known bad (f a) holds') : Checks known bad (x >>= f) holds' := by
  intro table
  change Settles known bad holds' table (EStateM.bind x f table)
  have before := first table
  unfold EStateM.bind
  cases made : x table with
  | ok a mid =>
    rw [made] at before
    have after := second a before.1 mid
    exact ⟨after.1, fun sound => after.2 (before.2 sound)⟩
  | error e mid =>
    rw [made] at before
    exact before

lemma checks_pure {a : α} (ok : holds a) : Checks known bad (pure a : LowerM α) holds :=
  fun _ => ⟨ok, id⟩

lemma checks_throw {f : Failure} (ok : bad f) : Checks known bad (throw f : LowerM α) holds :=
  fun _ => ⟨ok, id⟩

lemma checks_internType (has : known.Has t) : Checks known bad (internType t) fun _ => True :=
  fun _ => ⟨trivial, fun sound => sound.interned has⟩

end Checks

section Orderly

lemma orderly_code (straight : Straight job instrs) :
    Orderly known job bad (code instrs) := fun _ => checks_pure straight.codeFine

lemma orderly_nil : Orderly known job bad (seq []) := orderly_code straight_nil

lemma orderly_cons {rest : List Piece} (first : Orderly known job bad piece)
    (others : Orderly known job bad (seq rest)) : Orderly known job bad (seq (piece :: rest)) := by
  refine fun start => (first start).bind fun code fine => (others _).bind fun after fine' => ?_
  refine checks_pure (codeFine_append.mpr ⟨fine.mono le_rfl ?_, fine'.mono ?_ ?_⟩)
  all_goals
    try rw [length_append]
    omega

lemma orderly_last (orderly : Orderly known job bad piece) :
    Orderly known job bad (seq [piece]) := orderly_cons orderly orderly_nil

lemma orderly_pair {piece' : Piece} (first : Orderly known job bad piece)
    (second : Orderly known job bad piece') : Orderly known job bad (seq [piece, piece']) :=
  orderly_cons first (orderly_last second)

variable {branch : Dest → Instr Dest} {body first second : Piece}

lemma orderly_skipping (isBranch : IsBranch branch) (orderly : Orderly known job bad body) :
    Orderly known job bad (skipping branch body) := by
  refine fun start => (orderly _).bind fun inner fine => checks_pure ?_
  refine codeFine_append.mpr ⟨isBranch.fine (by omega) ?_, fine.mono (by omega) ?_⟩
  all_goals
    rw [length_cons]
    omega

lemma orderly_looping (isBranch : IsBranch branch) (orderly : Orderly known job bad body) :
    Orderly known job bad (looping body branch) := by
  refine fun start => (orderly start).bind fun inner fine => checks_pure ?_
  refine codeFine_append.mpr ⟨fine.mono (by omega) ?_, isBranch.fine (by omega) (by omega)⟩
  rw [length_append]
  omega

lemma orderly_either (isBranch : IsBranch branch) (orderly : Orderly known job bad first)
    (orderly' : Orderly known job bad second) : Orderly known job bad (either branch first second) := by
  refine fun start => (orderly _).bind fun short fine => (orderly' _).bind fun long fine' =>
    checks_pure ?_
  refine codeFine_append.mpr ⟨codeFine_append.mpr ⟨isBranch.fine ?_ ?_, fine.mono ?_ ?_⟩,
    codeFine_append.mpr ⟨codeFine_jump ?_ ?_, fine'.mono ?_ ?_⟩⟩
  all_goals
    try simp only [cons_append, length_cons, length_append]
    omega

end Orderly

def distinctCheck (elem : TypeDesc) (data count : Reg) : Piece :=
  withM (internType elem) fun index =>
    code [.movImm r2 index.toUInt64, .call Builtin.setCheck [r2, data, count] []]

/-- A property of pieces that write or count, kept by the ways they are put together. -/
structure Closed (known : Registry) (out : Output) (bad : Failure → Prop) (P : Piece → Prop) :
    Prop where
  straight : ∀ {instrs : Code}, Straight out.job instrs → P (code instrs)
  refuse : ∀ {f : Failure}, bad f → P fun _ => throw f
  distinct : ∀ {elem : TypeDesc}, known.Has elem → P (distinctCheck elem p1 r1)
  defer : ∀ {t : TypeDesc}, known.Has t → P (deferral out.job t)
  cons : ∀ {piece : Piece} {rest : List Piece}, P piece → P (seq rest) → P (seq (piece :: rest))
  skip : ∀ {a : Reg} {value : Int32} {body : Piece}, r2 ≠ a → r6 ≠ a → P body → P (skipping (ifEq a value) body)
  notDefault : ∀ {value : UInt64} {body : Piece}, P body →
    P (seq [code [.movImm r2 value], skipping (.branchReg .eq r0 r2) body])
  loop : ∀ {body : Piece}, P body → P (looping body (ifNe r1 0))
  fork : ∀ {a : Reg} {first second : Piece}, r2 ≠ a → r6 ≠ a → P first → P second → P (either (ifNe a 0) first second)

lemma withM_internType_append (t : TypeDesc) (front : Code) (back : Nat → Code) :
    (withM (internType t) fun index => code (front ++ back index)) =
      seq [code front, withM (internType t) fun index => code (back index)] := by
  funext start
  simp [seq, withM, code]

lemma orderly_distinctCheck {elem : TypeDesc} (has : known.Has elem) {data count : Reg}
    (allowed : job.allows (.call Builtin.setCheck [r2, data, count] [] : Instr Dest) = true) :
    Orderly known job bad (distinctCheck elem data count) :=
  fun _ => (checks_internType has).bind fun _ _ => checks_pure (by simpa [Job.allows, Instr.targets] using allowed)

lemma orderly_deferral (has : known.Has t) (job' : Job) : Orderly known job bad (deferral job' t) :=
  fun _ => (checks_internType has).bind fun _ _ => checks_pure (by
    simp [Job.allows, Instr.targets]
    rfl)

lemma closed_orderly (known : Registry) (out : Output) (bad : Failure → Prop) :
    Closed known out bad (Orderly known out.job bad) where
  straight := orderly_code
  refuse wrong := fun _ => checks_throw wrong
  distinct has := orderly_distinctCheck has rfl
  defer has := orderly_deferral has _
  cons := orderly_cons
  skip _ _ := orderly_skipping (isBranch_ifEq _ _)
  notDefault orderly := orderly_pair (fun _ => checks_pure (by simp [Job.allows, Instr.targets]))
    (orderly_skipping (isBranch_branchReg _ _ _) orderly)
  loop := orderly_looping (isBranch_ifNe _ _)
  fork _ _ := orderly_either (isBranch_ifNe _ _)

end Lowering

end WireCodec
