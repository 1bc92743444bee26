import Mathlib
import WireCodec.Program.Check

/-! The rules of built programs as a property of code. Code in which a pass has left no-ops
obeys all of them but the one against no-ops; a pass that replaces each instruction by one that
obeys the same rules and halts nowhere else keeps the property. -/
namespace WireCodec

open List

variable {table : HandleTable} {i : Instr Nat} {code code' : Instrs} {f : Nat → Nat} {α : Type}

lemma Reg.mem_all (reg : Reg) : reg ∈ Reg.all := by
  rcases reg with i | i <;> revert i <;> decide

/-- The instruction obeys the rules in code of the given length, no-ops allowed. -/
structure Instr.Lawful (table : HandleTable) (length : Nat) (i : Instr Nat) : Prop where
  operands : i = .nop ∨ i.brokenRule? = none
  calls : i.verifyCall table = .ok ()
  inside : ∀ t ∈ i.targets, t < length

variable {β : Type} {length index pc : Nat}

lemma Instr.targets_mapTargets (g : α → β) (i : Instr α) : (i.mapTargets g).targets = i.targets.map g := by
  cases i <;> simp [mapTargets, targets]

lemma Instr.mapTargets_id (i : Instr α) : i.mapTargets id = i := by
  cases i <;> simp [mapTargets]

lemma Instr.isHalt_mapTargets (g : α → β) (i : Instr α) : (i.mapTargets g).isHalt = i.isHalt := by
  cases i <;> rfl

lemma Instr.Lawful.mapTargets {length' : Nat} (lawful : i.Lawful table length)
    (inside : ∀ t ∈ i.targets, f t < length') : (i.mapTargets f).Lawful table length' := by
  refine ⟨?_, ?_, fun t target => ?_⟩
  · cases i <;> first | exact lawful.operands | exact .inr rfl
  · cases i <;> exact lawful.calls
  · rw [Instr.targets_mapTargets] at target
    obtain ⟨t, mem, rfl⟩ := List.mem_map.mp target
    exact inside t mem

/-- One halt, at the end, and lawful instructions. -/
structure Lawful (table : HandleTable) (code : Instrs) : Prop where
  last : code.getLast? = some .halt
  halts : code.countP Instr.isHalt = 1
  each : ∀ i ∈ code, i.Lawful table code.length

lemma Instr.verify_eq_ok_iff : i.verify table length index = .ok () ↔ i.Lawful table length ∧ i ≠ .nop := by
  unfold Instr.verify
  cases rule : i.brokenRule? with
  | some r =>
    simp only [reduceCtorEq, false_iff, not_and, not_not]
    intro lawful
    rcases lawful.operands with nop | none
    · exact nop
    · rw [rule] at none
      cases none
  | none =>
    have notNop : i ≠ .nop := by
      rintro rfl
      cases rule
    cases calls : i.verifyCall table with
    | error e =>
      refine ⟨fun h => ?_, fun h => ?_⟩
      · cases h
      · rw [h.1.calls] at calls
        cases calls
    | ok u =>
      simp only [bind, Except.bind]
      split
      · rename_i all
        refine ⟨fun _ => ⟨⟨.inr rule, calls, ?_⟩, notNop⟩, fun _ => rfl⟩
        simpa using all
      · rename_i some_
        refine ⟨fun h => (by cases h), fun h => absurd ?_ some_⟩
        simpa using h.1.inside

lemma verifyFrom_eq_ok_iff : verifyFrom table length index code = .ok () ↔
      ∀ i ∈ code, i.Lawful table length ∧ i ≠ .nop := by
  induction code generalizing index with
  | nil => simp [verifyFrom]
  | cons i rest ih =>
    rw [forall_mem_cons, ← @ih (index + 1), ← @Instr.verify_eq_ok_iff table i length index, verifyFrom]
    cases i.verify table length index with
    | error | ok => simp [bind, Except.bind]

/-- What passes the check is the lawful code without no-ops. -/
lemma verifyCode_eq_ok_iff : verifyCode table code = .ok () ↔ Lawful table code ∧ Instr.nop ∉ code := by
  unfold verifyCode
  simp only
  split
  · rename_i noHalt
    exact ⟨fun h => (by cases h), fun h => absurd h.1.last noHalt⟩
  · rename_i last
    split
    · rename_i one
      rw [verifyFrom_eq_ok_iff]
      refine ⟨fun all => ⟨⟨not_not.mp last, one, fun i mem => (all i mem).1⟩, fun nop => ?_⟩, ?_⟩
      · exact (all _ nop).2 rfl
      · intro h i mem
        refine ⟨h.1.each i mem, ?_⟩
        rintro rfl
        exact h.2 mem
    · rename_i many
      exact ⟨fun h => (by cases h), fun h => absurd h.1.halts many⟩

section

variable (lawful : Lawful table code)
include lawful

lemma Lawful.succ (at_ : code[pc]? = some i) (goesOn : i ≠ .halt) : ∃ j, code[pc + 1]? = some j := by
  by_cases inside : pc + 1 < code.length
  · exact ⟨_, getElem?_eq_getElem inside⟩
  · have low : pc < code.length := (List.getElem?_eq_some_iff.mp at_).1
    have final : pc = code.length - 1 := by omega
    have last := lawful.last
    rw [getLast?_eq_getElem?, ← final, at_] at last
    exact absurd (Option.some.inj last) goesOn

lemma Lawful.target {t : Nat} (at_ : code[pc]? = some i) (mem : t ∈ i.targets) : t < code.length :=
  (lawful.each i (mem_of_getElem? at_)).inside t mem

lemma Lawful.pos : 0 < code.length := by
  cases code with
  | nil => cases lawful.last
  | cons i rest => simp

/-- Some instructions of lawful code, the halt among them, are lawful once branches lead to them. -/
lemma Lawful.of_sublist (sub : code' <+ code) (last : code'.getLast? = some .halt)
    (inside : ∀ t < code.length, f t < code'.length) : Lawful table (code'.map (Instr.mapTargets f)) := by
  refine ⟨by rw [getLast?_map, last]; rfl, ?_, fun j mem => ?_⟩
  · have one : 0 < code'.countP Instr.isHalt := countP_pos_iff.mpr ⟨_, mem_of_getLast? last, rfl⟩
    have most := lawful.halts ▸ sub.countP_le (p := Instr.isHalt)
    rw [countP_map, show Instr.isHalt ∘ Instr.mapTargets f = Instr.isHalt from
      funext (Instr.isHalt_mapTargets f)]
    omega
  · obtain ⟨i, member, rfl⟩ := List.mem_map.mp mem
    rw [length_map]
    have own := lawful.each i (sub.subset member)
    exact own.mapTargets fun t target => inside t (own.inside t target)

end

/-- `j` can stand where `i` stood: it halts if `i` does, moves the cursor freely only if `i`
does, and obeys the rules `i` obeys. -/
structure Instr.Variant (i j : Instr Nat) : Prop where
  halt : j.isHalt = i.isHalt
  lawful : ∀ table length, i.Lawful table length → j.Lawful table length

lemma Instr.Variant.refl (i : Instr Nat) : i.Variant i := ⟨rfl, fun _ _ h => h⟩

lemma Instr.lawful_nop (table : HandleTable) (length : Nat) : (nop : Instr Nat).Lawful table length :=
  ⟨.inl rfl, rfl, by simp [targets]⟩

lemma Instr.variant_nop (goesOn : i.isHalt = false) : i.Variant .nop :=
  ⟨goesOn.symm ▸ rfl, fun _ _ _ => lawful_nop _ _⟩

lemma Lawful.of_variants (variants : List.Forall₂ Instr.Variant code code')
    (lawful : Lawful table code) : Lawful table code' := by
  have same := variants.length_eq
  refine ⟨?_, ?_, ?_⟩
  · have last := lawful.last
    rw [getLast?_eq_getElem?] at last ⊢
    obtain ⟨low, halt⟩ := List.getElem?_eq_some_iff.mp last
    have low' : code'.length - 1 < code'.length := by omega
    have pair := variants.get low (by omega)
    simp only [get_eq_getElem, halt] at pair
    rw [← same, getElem?_eq_getElem (by omega)]
    have isHalt := pair.halt
    cases h : code'[code.length - 1] <;> simp_all [Instr.isHalt]
  · rw [← lawful.halts]
    clear same lawful
    induction variants with
    | nil => rfl
    | cons pair _ ih => simp only [countP_cons, ih, pair.halt]
  · intro j mem
    obtain ⟨k, low, rfl⟩ := List.mem_iff_getElem.mp mem
    have pair := variants.get (by omega : k < code.length) low
    simp only [get_eq_getElem] at pair
    rw [← same]
    exact pair.lawful table code.length (lawful.each _ (getElem_mem _))

/-! Verified calls. -/

def CallKind.arity : CallKind → Nat × Nat
  | .native _ => (4, 1)
  | .host _ => (7, 2)
  | .method _ => (5, 1)

def Handle.Supported (h : Handle) : Prop :=
  h.sig.params.length ≤ h.kind.arity.1 ∧ h.sig.results.length ≤ h.kind.arity.2

lemma Signature.firstRepeat?_eq_none {seen regs : List Reg} (none : firstRepeat? seen regs = none) :
    regs.Nodup ∧ ∀ r ∈ regs, r ∉ seen := by
  induction regs generalizing seen with
  | nil => simp
  | cons reg rest ih =>
    simp only [firstRepeat?] at none
    split at none
    · cases none
    · rename_i fresh
      have later := ih none
      simp only [List.contains_eq_mem, decide_eq_true_eq] at fresh
      grind

lemma Handle.of_verify {h : Handle} {args rets : List Reg} (verified : h.verify args rets = .ok ()) :
    args.length = h.sig.params.length ∧ rets.length = h.sig.results.length ∧ rets.Nodup := by
  unfold Handle.verify at verified
  split at verified
  · rename_i none
    unfold Signature.fault? at none
    split at none
    · cases none
    · split at none
      · cases none
      · split at none
        · cases none
        · rename_i taken given _ _
          have fresh := Signature.firstRepeat?_eq_none (Option.map_eq_none_iff.mp none)
          exact ⟨not_not.mp taken, not_not.mp given, fresh.1⟩
  · cases verified

lemma Instr.of_verifyCall {id : Nat} {args rets : List Reg}
    (verified : (Instr.call id args rets).verifyCall table = .ok ()) :
    ∃ h, h ∈ table.handles ∧ table.resolve id = .ok h ∧ h.verify args rets = .ok () := by
  simp only [verifyCall, HandleTable.resolve] at verified ⊢
  cases found : table.handles[id]? with
  | none =>
    rw [found] at verified
    cases verified
  | some h =>
    rw [found] at verified
    exact ⟨h, Array.mem_of_getElem? found, rfl, verified⟩

end WireCodec
