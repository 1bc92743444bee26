import WireCodec.Proofs.Peephole.Checks
import WireCodec.Proofs.Peephole.Compaction

/-! Folded checks, piece by piece. The fold of a stretch of code depends on the run of checks
that is open before it and on what is asked for behind it; it says nothing of branches. Where
no run is open at the places branches lead to, it is the fold of the peephole pass. -/
namespace WireCodec.Peephole

open List

variable {τ ρ : Type} {n : UInt32} {run : Option UInt32} {i : Instr τ} {passed : UInt32}

lemma pace_mapTargets_eq (settle : τ → Nat) (i : Instr τ) : pace (i.mapTargets settle) = paceOf i := by
  cases i <;> rfl

@[simp] lemma paceOf_mapTargets (settle : τ → ρ) (i : Instr τ) : paceOf (i.mapTargets settle) = paceOf i := by
  cases i <;> rfl

lemma paceOf_eq_asks (kind : paceOf i = .asks n) : i = .check n := by
  have same := pace_eq_asks kind
  cases i <;> simp_all [Instr.mapTargets]

lemma openBehind_ends (kind : paceOf i = .ends) : openBehind run i = none := by
  simp [openBehind, kind]

def openAfter (run : Option UInt32) (code : List (Instr τ)) : Option UInt32 :=
  code.foldl openBehind run

@[simp] lemma openAfter_nil (run : Option UInt32) : openAfter run ([] : List (Instr τ)) = run := rfl

@[simp] lemma openAfter_cons (run : Option UInt32) (i : Instr τ) (code : List (Instr τ)) :
    openAfter run (i :: code) = openAfter (openBehind run i) code := rfl

@[simp] lemma openAfter_append (run : Option UInt32) (front back : List (Instr τ)) :
    openAfter run (front ++ back) = openAfter (openAfter run front) back := foldl_append

/-- Folds the checks of the code; `ahead` tells what is asked for behind it, for a run that is
open there. Answers what the run still asks for as well. -/
def fold (ahead : UInt32 → UInt32) : Option UInt32 → List (Instr τ) → UInt32 × List (Instr τ)
  | run, [] => ((run.map ahead).getD 0, [])
  | run, i :: rest => foldHead run i (fold ahead (openBehind run i) rest)

def nothing : UInt32 → UInt32 := fun _ => 0

section Fold

variable {ahead : UInt32 → UInt32} {run : Option UInt32} {i : Instr τ} {code : List (Instr τ)}

lemma fold_none_fst (ahead : UInt32 → UInt32) (code : List (Instr τ)) : (fold ahead none code).1 = 0 := by
  cases code with
  | nil => rfl
  | cons i rest =>
    unfold fold foldHead
    cases paceOf i <;> rfl

lemma fold_asks_some (kind : paceOf i = .asks n) : fold ahead (some passed) (i :: code) =
      (max (addCapped passed n) (fold ahead (some passed) code).1, .nop :: (fold ahead (some passed) code).2) := by
  simp [fold, foldHead, openBehind, kind]

lemma fold_asks_none (kind : paceOf i = .asks n) : fold ahead none (i :: code) =
      (0, .check (max n (fold ahead (some 0) code).1) :: (fold ahead (some 0) code).2) := by
  simp [fold, foldHead, openBehind, kind]

lemma fold_moves_some (kind : paceOf i = .moves n) : fold ahead (some passed) (i :: code) =
    ((fold ahead (some (addCapped passed n)) code).1, i :: (fold ahead (some (addCapped passed n)) code).2) := by
  simp [fold, foldHead, openBehind, kind]

lemma fold_moves_none (kind : paceOf i = .moves n) :
    fold ahead none (i :: code) = (0, i :: (fold ahead none code).2) := by
  simp [fold, foldHead, openBehind, kind]

lemma fold_ends (kind : paceOf i = .ends) : fold ahead run (i :: code) = (0, i :: (fold ahead none code).2) := by
  cases run <;> simp [fold, foldHead, openBehind, kind]

@[simp] lemma length_fold (ahead : UInt32 → UInt32) (run : Option UInt32) (code : List (Instr τ)) :
    (fold ahead run code).2.length = code.length := by
  induction code generalizing run with
  | nil => rfl
  | cons i rest ih =>
    unfold fold foldHead
    cases run <;> cases paceOf i <;> simp [ih]

lemma fold_append (front back : List (Instr τ)) : fold ahead run (front ++ back) =
      ((fold (fun passed => (fold ahead (some passed) back).1) run front).1,
        (fold (fun passed => (fold ahead (some passed) back).1) run front).2 ++
          (fold ahead (openAfter run front) back).2) := by
  induction front generalizing run with
  | nil =>
    cases run with
    | none => exact Prod.ext (fold_none_fst ahead back) rfl
    | some passed => rfl
  | cons i rest ih =>
    rw [cons_append, fold, fold, ih, openAfter_cons]
    unfold foldHead
    cases run <;> cases paceOf i <;> rfl

lemma fold_closed (closed : openAfter run code = none) (ahead ahead' : UInt32 → UInt32) :
    fold ahead run code = fold ahead' run code := by
  induction code generalizing run with
  | nil =>
    cases closed
    rfl
  | cons i rest ih =>
    rw [fold, fold, ih closed]

/-- Code without checks before its run ends asks for nothing, whatever is open before it. -/
def Quiet (ahead : UInt32 → UInt32) (code : List (Instr τ)) : Prop :=
  ∀ passed, fold ahead (some passed) code = (0, (fold ahead none code).2)

lemma quiet_ends (kind : paceOf i = .ends) : Quiet ahead (i :: code) := by
  intro passed
  rw [fold_ends kind, fold_ends kind]

lemma quiet_moves (kind : paceOf i = .moves n) (quiet : Quiet ahead code) : Quiet ahead (i :: code) := by
  intro passed
  rw [fold_moves_some kind, fold_moves_none kind, quiet]

lemma quiet_nil : Quiet nothing ([] : List (Instr τ)) := fun _ => rfl

lemma Quiet.append {front back : List (Instr τ)} (still : ∀ i ∈ front, ∃ n, paceOf i = .moves n)
    (quiet : Quiet ahead back) : Quiet ahead (front ++ back) := by
  induction front with
  | nil => exact quiet
  | cons i rest ih =>
    obtain ⟨n, kind⟩ := still i mem_cons_self
    exact quiet_moves kind (ih fun j mem => still j (mem_cons_of_mem _ mem))

lemma fold_append_apart {front back : List (Instr τ)} (apart : openAfter run front = none ∨ Quiet ahead back) :
    (fold ahead run (front ++ back)).2 = (fold nothing run front).2 ++ (fold ahead none back).2 := by
  rw [fold_append]
  rcases apart with closed | quiet
  · rw [closed, fold_closed closed _ nothing]
  · have asks : (fun passed => (fold ahead (some passed) back).1) = nothing :=
      funext fun passed => congrArg Prod.fst (quiet passed)
    rw [asks]
    cases openAfter run front with
    | none => rfl
    | some passed => rw [quiet passed]

lemma fold_map (settle : τ → ρ) (ahead : UInt32 → UInt32) (run : Option UInt32) (code : List (Instr τ)) :
    fold ahead run (code.map (Instr.mapTargets settle)) =
      ((fold ahead run code).1, (fold ahead run code).2.map (Instr.mapTargets settle)) := by
  induction code generalizing run with
  | nil => rfl
  | cons i rest ih =>
    have same : openBehind run (i.mapTargets settle) = openBehind run i := by
      rw [openBehind, paceOf_mapTargets, openBehind]
    rw [map_cons, fold, fold, same, ih]
    unfold foldHead
    rw [paceOf_mapTargets]
    cases run <;> cases paceOf i <;> rfl

@[simp] lemma openAfter_map (settle : τ → ρ) (run : Option UInt32) (code : List (Instr τ)) :
    openAfter run (code.map (Instr.mapTargets settle)) = openAfter run code := by
  induction code generalizing run with
  | nil => rfl
  | cons i rest ih =>
    rw [map_cons, openAfter_cons, openAfter_cons, ih, openBehind, paceOf_mapTargets, openBehind]

variable (unchecked : ∀ i ∈ code, ∀ n, paceOf i ≠ .asks n)
include unchecked

lemma fold_unchecked : (fold ahead run code).2 = code := by
  induction code generalizing run with
  | nil => rfl
  | cons i rest ih =>
    have own := unchecked i mem_cons_self
    have others := fun run => @ih run fun j mem => unchecked j (mem_cons_of_mem _ mem)
    rw [fold]
    unfold foldHead
    cases kind : paceOf i with
    | asks n => exact absurd kind (own n)
    | _ => cases run <;> simp [others]

lemma quiet_unchecked : Quiet nothing code := by
  induction code with
  | nil => exact quiet_nil
  | cons i rest ih =>
    have others := ih fun j mem => unchecked j (mem_cons_of_mem _ mem)
    cases kind : paceOf i with
    | asks n => exact absurd kind (unchecked i mem_cons_self n)
    | moves n => exact quiet_moves kind others
    | ends => exact quiet_ends kind

lemma openAfter_unchecked : openAfter none code = none := by
  induction code with
  | nil => rfl
  | cons i rest ih =>
    have own := unchecked i mem_cons_self
    have still : openBehind none i = none := by
      rw [openBehind]
      cases kind : paceOf i with
      | asks n => exact absurd kind (own n)
      | _ => rfl
    rw [openAfter_cons, still]
    exact ih fun j mem => unchecked j (mem_cons_of_mem _ mem)

end Fold

/-! The fold of the pass. -/

lemma foldChecksFrom_eq_fold (run : Option UInt32) (code : Marked)
    (closed : ∀ k i, code[k]? = some (i, true) → openAfter run ((code.map Prod.fst).take k) = none) :
    foldChecksFrom run code = fold nothing run (code.map Prod.fst) := by
  induction code generalizing run with
  | nil => cases run <;> rfl
  | cons head rest ih =>
    obtain ⟨i, marked⟩ := head
    have later : foldChecksFrom (openBehind run i) rest = fold nothing (openBehind run i) (rest.map Prod.fst) :=
      ih _ fun k j at_ => closed (k + 1) j at_
    have still : (if marked then none else run) = run := by
      cases marked with
      | false => rfl
      | true => exact (closed 0 i rfl).symm
    rw [foldChecksFrom_cons, still, later]
    rfl

end WireCodec.Peephole
