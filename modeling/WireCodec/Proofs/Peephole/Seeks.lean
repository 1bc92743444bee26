import WireCodec.Proofs.Peephole.Refinement

/-! Tidied seeks do what they did. A joined seek is made up for at its place: until then the
tidied code lags behind by the seeks it still owes. -/
namespace WireCodec

open List

variable {pc k : Nat} {m m' : Machine} {eof : ErrorCode} {i j op : Instr Nat}

@[simp] lemma Machine.get_set_self (m : Machine) (reg : Reg) (word : UInt64) : (m.set reg word).get reg = word := by
  simp [get, set]

@[simp] lemma Machine.set_set (m : Machine) (reg : Reg) (a b : UInt64) : (m.set reg a).set reg b = m.set reg b := by
  simp [set]

@[simp] lemma Machine.set_get (m : Machine) (reg : Reg) : m.set reg (m.get reg) = m := by
  simp [get, set]

lemma toBitVec_immWord (imm : Int32) : (immWord imm).toBitVec = BitVec.ofInt 64 imm.toInt := rfl

namespace Peephole

open Machine

variable {σ : Type} {table rules : HandleTable} {caller : Caller σ} {p : Program} {code : Instrs}
  {joined : Instr Nat} {f : Finished σ} {stop : Nat} {s : σ}

/-! Seeks to nowhere. -/

lemma halts_map {g : Instr Nat → Instr Nat} (same : ∀ i m s, stepAny table caller p.job.eofCode (g i) m s =
      stepAny table caller p.job.eofCode i m s) (halts : Halts table caller (p.withCode code) pc m s stop f) :
    Halts table caller (p.withCode (code.map g)) pc m s stop f := by
  have moved : ∀ {pc : Nat} {i : Instr Nat}, (p.withCode code).code[pc]? = some i →
      (p.withCode (code.map g)).code[pc]? = some (g i) := by
    intro pc i at_
    simp only [Program.withCode_getElem?] at at_ ⊢
    simp [at_]
  induction halts with
  | off at_ => exact .off (by simpa using at_)
  | ended at_ step => exact .ended (moved at_) ((same _ _ _).trans step)
  | stop at_ step => exact .stop (moved at_) ((same _ _ _).trans step)
  | next at_ step _ ih => exact .next (moved at_) ((same _ _ _).trans step) ih
  | jump at_ step _ ih => exact .jump (moved at_) ((same _ _ _).trans step) ih

def withoutSelfSeek (i : Instr Nat) : Instr Nat :=
  match i with
  | .seek dst src off => if dst = src ∧ off = 0 then .nop else .seek dst src off
  | i => i

lemma dropSelfSeeks_eq_map (code : Instrs) : dropSelfSeeks code = code.map withoutSelfSeek := rfl

lemma withoutSelfSeek_cases (i : Instr Nat) :
    withoutSelfSeek i = i ∨ ∃ reg, i = .seek reg reg 0 ∧ withoutSelfSeek i = .nop := by
  cases i with
  | seek dst src off =>
    simp only [withoutSelfSeek]
    split
    · rename_i still
      obtain ⟨rfl, rfl⟩ := still
      exact .inr ⟨_, rfl, rfl⟩
    · exact .inl rfl
  | _ => exact .inl rfl

lemma stepAny_withoutSelfSeek (i : Instr Nat) (m : Machine) (s : σ) :
    stepAny table caller eof (withoutSelfSeek i) m s = stepAny table caller eof i m s := by
  rcases withoutSelfSeek_cases i with same | ⟨reg, rfl, nop⟩
  · rw [same]
  · have still : m.get reg + immWord 0 = m.get reg := by
      rw [show immWord 0 = 0 from rfl, UInt64.add_zero]
    rw [nop]
    simp only [stepAny, step, still, set_get]

lemma variant_withoutSelfSeek (i : Instr Nat) : i.Variant (withoutSelfSeek i) := by
  rcases withoutSelfSeek_cases i with same | ⟨reg, rfl, nop⟩
  · rw [same]
    exact .refl i
  · rw [nop]
    exact Instr.variant_nop rfl

lemma pace_withoutSelfSeek (i : Instr Nat) : pace (withoutSelfSeek i) = pace i := by
  rcases withoutSelfSeek_cases i with same | ⟨reg, rfl, nop⟩
  · rw [same]
  · rw [nop]
    rfl

lemma variants_dropSelfSeeks (code : Instrs) : List.Forall₂ Instr.Variant code (dropSelfSeeks code) := by
  rw [dropSelfSeeks_eq_map, List.forall₂_map_right_iff, List.forall₂_same]
  exact fun i _ => variant_withoutSelfSeek i

lemma map_pace_dropSelfSeeks (code : Instrs) : (dropSelfSeeks code).map pace = code.map pace := by
  simp only [dropSelfSeeks_eq_map, map_map]
  exact map_congr_left fun i _ => pace_withoutSelfSeek i

lemma repeats_dropSelfSeeks : Repeats table caller p code (dropSelfSeeks code) := by
  intro m s stop f halts
  refine ⟨stop, halts_map stepAny_withoutSelfSeek halts, ?_⟩
  rintro ⟨width, value, at_⟩
  simp only [dropSelfSeeks_eq_map, getElem?_map, Option.map_eq_some_iff] at at_
  obtain ⟨i, there, eq⟩ := at_
  rcases withoutSelfSeek_cases i with same | ⟨reg, rfl, nop⟩
  · exact ⟨width, value, by rw [there, ← same, eq]⟩
  · rw [nop] at eq
    cases eq

/-! Joined seeks. -/

lemma immWord_addOffsets? {a b c : Int32} (sum : addOffsets? a b = some c) : immWord c = immWord a + immWord b := by
  unfold addOffsets? at sum
  simp only at sum
  split at sum
  · rename_i range
    cases sum
    have below : a.toInt + b.toInt < 2 ^ 31 := by
      have := range.2
      omega
    apply UInt64.toBitVec_inj.mp
    rw [UInt64.toBitVec_add, toBitVec_immWord, toBitVec_immWord, toBitVec_immWord,
      ← BitVec.ofInt_add, Int32.toInt_ofInt_of_le range.1 below]
  · cases sum

lemma joinSeeks?_eq_some (h : joinSeeks? i j = some joined) : ∃ dst src a b c, i = .seek dst src a ∧ j = .seek dst dst b
    ∧ joined = .seek dst src c ∧ immWord c = immWord a + immWord b := by
  cases i with
  | seek d₁ s₁ o₁ =>
    cases j with
    | seek d₂ s₂ o₂ =>
      simp only [joinSeeks?] at h
      split at h
      · rename_i regs
        obtain ⟨rfl, rfl⟩ := regs
        obtain ⟨c, sum, rfl⟩ := Option.map_eq_some_iff.mp h
        exact ⟨_, _, _, _, _, rfl, rfl, rfl, immWord_addOffsets? sum⟩
      · cases h
    | _ => cases h
  | _ => cases h

lemma stepAny_joinSeeks? (h : joinSeeks? i j = some joined) (m : Machine) (s : σ) : ∃ m', stepAny table caller eof i m s
    = some (.ok (.next, m', s)) ∧ stepAny table caller eof joined m s = stepAny table caller eof j m' s := by
  obtain ⟨dst, src, a, b, c, rfl, rfl, rfl, sum⟩ := joinSeeks?_eq_some h
  refine ⟨m.set dst (m.get src + immWord a), rfl, ?_⟩
  simp only [stepAny, step, get_set_self, Machine.set_set, sum, UInt64.add_assoc]

lemma variants_joinSeeksFrom (variant : i.Variant op) (rest : Marked) :
    List.Forall₂ Instr.Variant (i :: rest.map Prod.fst) (joinSeeksFrom op rest) := by
  induction rest generalizing i op with
  | nil => exact .cons variant .nil
  | cons head rest ih =>
    obtain ⟨j, marked⟩ := head
    simp only [joinSeeksFrom]
    split
    · rename_i joined eq
      split at eq
      · cases eq
      · obtain ⟨dst, src, a, b, c, rfl, rfl, rfl, _⟩ := joinSeeks?_eq_some eq
        refine .cons (Instr.variant_nop variant.halt.symm) (ih ⟨rfl, ?_⟩)
        intro table length lawful
        have operands : (.seek dst dst b : Instr Nat).brokenRule? = none := by
          simpa using lawful.operands
        exact ⟨.inr operands, rfl, by simp [Instr.targets]⟩
    · exact .cons variant (ih (.refl j))

lemma variants_joinSeeks (code : Marked) : List.Forall₂ Instr.Variant (code.map Prod.fst) (joinSeeks code) := by
  cases code with
  | nil => exact .nil
  | cons head rest => exact variants_joinSeeksFrom (.refl _) rest

lemma map_pace_joinSeeksFrom (same : pace op = pace i) (rest : Marked) :
    (joinSeeksFrom op rest).map pace = (i :: rest.map Prod.fst).map pace := by
  induction rest generalizing i op with
  | nil => simp [joinSeeksFrom, same]
  | cons head rest ih =>
    obtain ⟨j, marked⟩ := head
    simp only [joinSeeksFrom]
    split
    · rename_i joined eq
      split at eq
      · cases eq
      · obtain ⟨dst, src, a, b, c, rfl, rfl, rfl, _⟩ := joinSeeks?_eq_some eq
        have next : pace (.seek dst src c) = pace (.seek dst dst b) := rfl
        simp only [map_cons, ih next, ← same]
        rfl
    · simp only [map_cons, ih rfl, same]

lemma map_pace_joinSeeks (code : Marked) : (joinSeeks code).map pace = (code.map Prod.fst).map pace := by
  cases code with
  | nil => rfl
  | cons head rest => exact map_pace_joinSeeksFrom rfl rest

lemma drop_joinSeeksFrom {rest : Marked} (at_ : rest[k]? = some (i, true)) :
    (joinSeeksFrom op rest).drop (k + 1) = joinSeeksFrom i (rest.drop (k + 1)) := by
  induction rest generalizing op k with
  | nil => simp at at_
  | cons head rest ih =>
    obtain ⟨j, marked⟩ := head
    cases k with
    | zero =>
      simp only [getElem?_cons_zero, Option.some.injEq, Prod.mk.injEq] at at_
      obtain ⟨rfl, rfl⟩ := at_
      simp [joinSeeksFrom]
    | succ k =>
      simp only [getElem?_cons_succ] at at_
      simp only [joinSeeksFrom]
      split <;> simpa using ih at_

lemma drop_joinSeeks {code : Marked} (at_ : code[k]? = some (i, true)) :
    (joinSeeks code).drop k = joinSeeksFrom i (code.drop (k + 1)) := by
  cases code with
  | nil => simp at at_
  | cons head rest =>
    cases k with
    | zero =>
      simp only [getElem?_cons_zero, Option.some.injEq] at at_
      subst at_
      rfl
    | succ k => exact drop_joinSeeksFrom at_

/-- The tidied code at `pc` with `op` open, which does on `m'` what the instruction there does
on `m`. -/
structure Owes (table : HandleTable) (caller : Caller σ) (eof : ErrorCode)
    (code : Instrs) (pc : Nat) (m m' : Machine) (s : σ) (op : Instr Nat) : Prop where
  tidied : (joinSeeks (mark code)).drop pc = joinSeeksFrom op ((mark code).drop (pc + 1))
  pays : ∀ i, code[pc]? = some i → stepAny table caller eof op m' s = stepAny table caller eof i m s
  kept : ∀ i, code[pc]? = some i → op = i ∨ ∃ dst src off, op = .seek dst src off

lemma owes_target {t : Nat} (lead : code[pc]? = some i) (mem : t ∈ i.targets) (there : code[t]? = some j) :
    Owes table caller eof code t m m s j := by
  have low : t < code.length := (List.getElem?_eq_some_iff.mp there).1
  obtain ⟨j', there', marked⟩ := mark_target lead mem low
  rw [there] at there'
  cases there'
  refine ⟨drop_joinSeeks marked, fun i at_ => ?_, fun i at_ => ?_⟩
  · rw [there] at at_
    cases at_
    rfl
  · rw [there] at at_
    cases at_
    exact .inl rfl

lemma getElem?_of_drop {l rest : Instrs} (h : l.drop k = i :: rest) : l[k]? = some i ∧ l.drop (k + 1) = rest := by
  constructor
  · rw [← head?_drop, h]
    rfl
  · rw [← tail_drop, h]
    rfl

lemma joinSeeksFrom_cases (op : Instr Nat) (j : Instr Nat) (marked : Bool) (rest : Marked) : joinSeeksFrom op
    ((j, marked) :: rest) = op :: joinSeeksFrom j rest ∨ ∃ joined, joinSeeks? op j = some joined ∧ joinSeeksFrom op
    ((j, marked) :: rest) = .nop :: joinSeeksFrom joined rest := by
  simp only [joinSeeksFrom]
  split
  · rename_i joined eq
    split at eq
    · cases eq
    · exact .inr ⟨joined, eq, rfl⟩
  · exact .inl rfl

/-- The open instruction is taken now and nothing is owed after it, or it is put off. -/
lemma Owes.split (owes : Owes table caller eof code pc m m' s op) : ((joinSeeks (mark code))[pc]? = some op ∧
      ∀ j m s, code[pc + 1]? = some j → Owes table caller eof code (pc + 1) m m s j) ∨
    ((joinSeeks (mark code))[pc]? = some .nop ∧
      ∃ m₁ joined, stepAny table caller eof op m' s = some (.ok (.next, m₁, s)) ∧
        Owes table caller eof code (pc + 1) m₁ m' s joined) := by
  have tidied := owes.tidied
  cases next : code[pc + 1]? with
  | none =>
    have none_left : (mark code).drop (pc + 1) = [] := by
      rw [drop_eq_nil_iff, length_mark]
      simpa using next
    rw [none_left] at tidied
    exact .inl ⟨(getElem?_of_drop tidied).1, fun _ _ _ h => by cases h⟩
  | some j =>
    obtain ⟨marked, pair⟩ := mark_getElem? next
    have rest : (mark code).drop (pc + 1) = (j, marked) :: (mark code).drop (pc + 1 + 1) := by
      obtain ⟨low, eq⟩ := List.getElem?_eq_some_iff.mp pair
      rw [drop_eq_getElem_cons low, eq]
    rw [rest] at tidied
    rcases joinSeeksFrom_cases op j marked ((mark code).drop (pc + 1 + 1)) with now | ⟨joined, h, later⟩
    · rw [now] at tidied
      obtain ⟨here, after⟩ := getElem?_of_drop tidied
      refine .inl ⟨here, fun j' m s eq => ?_⟩
      cases eq
      refine ⟨after, fun i at_ => ?_, fun i at_ => ?_⟩
      · cases next.symm.trans at_
        rfl
      · cases next.symm.trans at_
        exact .inl rfl
    · rw [later] at tidied
      obtain ⟨here, after⟩ := getElem?_of_drop tidied
      obtain ⟨m₁, first, both⟩ := stepAny_joinSeeks? h m' s
      refine .inr ⟨here, m₁, joined, first, after, fun i at_ => ?_, fun i at_ => ?_⟩
      · cases next.symm.trans at_
        exact both
      · obtain ⟨dst, src, _, _, off, _, _, eq, _⟩ := joinSeeks?_eq_some h
        exact .inr ⟨dst, src, off, eq⟩

lemma Owes.isLiteral (owes : Owes table caller eof code pc m m' s op) (at_ : code[pc]? = some i)
    (at' : (joinSeeks (mark code))[pc]? = some op) (lit : IsLiteral (joinSeeks (mark code)) pc) :
    IsLiteral code pc := by
  obtain ⟨width, value, there⟩ := lit
  rw [at'] at there
  cases there
  rcases owes.kept i at_ with rfl | ⟨dst, src, off, eq⟩
  · exact ⟨width, value, at_⟩
  · cases eq

lemma halts_joinSeeks (lawful : Lawful rules code) (halts : Halts table caller (p.withCode code) pc m s stop f)
    (owes : Owes table caller p.job.eofCode code pc m m' s op) (inside : pc < code.length) : Halts table caller
    (p.withCode (joinSeeks (mark code))) pc m' s stop f ∧
    (IsLiteral (joinSeeks (mark code)) stop → IsLiteral code stop) := by
  -- By induction on the run; each step of it is taken at once, or owed.
  induction halts generalizing m' op with
  | off at_ =>
    simp only [Program.withCode_getElem?, getElem?_eq_none_iff] at at_
    omega
  | ended at_ step =>
    rw [Program.withCode_getElem?] at at_
    have step' := (owes.pays _ at_).trans step
    rcases owes.split with ⟨now, _⟩ | ⟨_, m₁, joined, first, _⟩
    · exact ⟨.ended (by simpa using now) step', owes.isLiteral at_ now⟩
    · cases first.symm.trans step'
  | stop at_ step =>
    rw [Program.withCode_getElem?] at at_
    have step' := (owes.pays _ at_).trans step
    rcases owes.split with ⟨now, _⟩ | ⟨_, m₁, joined, first, _⟩
    · exact ⟨.stop (by simpa using now) step', owes.isLiteral at_ now⟩
    · cases first.symm.trans step'
  | @next pc stop m m₁ s s₁ i f at_ step _ ih =>
    rw [Program.withCode_getElem?] at at_
    have step' := (owes.pays _ at_).trans step
    have goesOn : i ≠ .halt := by
      rintro rfl
      cases step
    obtain ⟨j, next⟩ := lawful.succ at_ goesOn
    have low := (List.getElem?_eq_some_iff.mp next).1
    rcases owes.split with ⟨now, after⟩ | ⟨later, m₂, joined, first, after⟩
    · obtain ⟨rest, lit⟩ := ih (after j m₁ s₁ next) low
      exact ⟨.next (by simpa using now) step' rest, lit⟩
    · cases first.symm.trans step'
      obtain ⟨rest, lit⟩ := ih after low
      exact ⟨.next (by simpa using later) (stepAny_nop _ _) rest, lit⟩
  | @jump pc target stop m m₁ s s₁ i f at_ step _ ih =>
    rw [Program.withCode_getElem?] at at_
    have step' := (owes.pays _ at_).trans step
    have mem := stepAny_jump step
    have low := lawful.target at_ mem
    rcases owes.split with ⟨now, _⟩ | ⟨_, m₂, joined, first, _⟩
    · obtain ⟨rest, lit⟩ := ih (owes_target at_ mem (getElem?_eq_getElem low)) low
      exact ⟨.jump (by simpa using now) step' rest, lit⟩
    · cases first.symm.trans step'

lemma repeats_joinSeeks (lawful : Lawful rules code) : Repeats table caller p code (joinSeeks (mark code)) := by
  intro m s stop f halts
  have pos := lawful.pos
  have first : code[0]? = some code[0] := getElem?_eq_getElem pos
  have owes : Owes table caller p.job.eofCode code 0 m m s code[0] := by
    obtain ⟨marked, pair⟩ := mark_getElem? first
    refine ⟨?_, fun i at_ => ?_, fun i at_ => ?_⟩
    · obtain ⟨low, eq⟩ := List.getElem?_eq_some_iff.mp pair
      have whole := drop_eq_getElem_cons low
      rw [eq, drop_zero] at whole
      rw [whole]
      rfl
    · cases first.symm.trans at_
      rfl
    · exact .inl (Option.some.inj (first.symm.trans at_))
  obtain ⟨halts', lit⟩ := halts_joinSeeks lawful halts owes lawful.pos
  exact ⟨stop, halts', lit⟩

end Peephole

end WireCodec
