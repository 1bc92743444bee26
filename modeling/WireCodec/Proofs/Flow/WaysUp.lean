import Mathlib
import WireCodec.Flow.Dominance

/-! Ways up. Parents form a tree that leads to the entry, against the order of the blocks; two ways up
meet at one block and go on together. -/
namespace WireCodec.Graph

open List

variable {order : List Nat} {f f' : Nat → Option Nat} {a b m p x y z : Nat}

/-- `x` is met on the way up from a block whose parent is known. -/
inductive Above (f : Nat → Option Nat) (x : Nat) : Nat → Prop
  | here (known : (f x).isSome) : Above f x x
  | up {b a : Nat} (parent : f b = some a) (rest : Above f x a) : Above f x b

lemma Above.trans (first : Above f x y) (second : Above f y z) : Above f x z := by
  induction second with
  | here => exact first
  | up parent _ ih => exact .up parent ih

lemma Above.known (above : Above f x b) : (f b).isSome := by
  cases above with
  | here known => exact known
  | up parent _ => simp [parent]

lemma above_iff_parent (parent : f b = some a) : Above f x b ↔ x = b ∨ Above f x a := by
  constructor
  · intro above
    cases above with
    | here => exact .inl rfl
    | up parent' rest =>
      rw [parent] at parent'
      cases parent'
      exact .inr rest
  · rintro (rfl | above)
    · exact .here (by simp [parent])
    · exact .up parent above

/-- Parents lead up to the entry, against the order. -/
structure Tree (order : List Nat) (f : Nat → Option Nat) : Prop where
  first : order.idxOf 0 = 0
  root : f 0 = some 0
  listed : ∀ {b a}, f b = some a → b ∈ order
  known : ∀ {b a}, f b = some a → (f a).isSome
  below : ∀ {b a}, f b = some a → b ≠ 0 → order.idxOf a < order.idxOf b

namespace Tree

lemma above_root (tree : Tree order f) (above : Above f x b) (root : b = 0) : x = 0 := by
  induction above with
  | here => exact root
  | up parent _ ih =>
    subst root
    rw [tree.root] at parent
    cases parent
    exact ih rfl

lemma rank_le (tree : Tree order f) (above : Above f x b) : order.idxOf x ≤ order.idxOf b := by
  induction above with
  | here => exact le_rfl
  | @up b a parent above ih =>
    by_cases root : b = 0
    · exact le_of_eq (by rw [tree.above_root (.up parent above) root, root])
    · exact le_trans ih (le_of_lt (tree.below parent root))

lemma rank_lt (tree : Tree order f) (parent : f b = some a) (other : b ≠ 0) (above : Above f x a) :
    order.idxOf x < order.idxOf b :=
  lt_of_le_of_lt (tree.rank_le above) (tree.below parent other)

lemma above_congr {r : Nat} (tree : Tree order f) (same : ∀ z, order.idxOf z < r → f' z = f z) (above : Above f x z)
    (low : order.idxOf z < r) : Above f' x z := by
  induction above with
  | here known => exact .here (by rwa [same _ low])
  | @up b a parent above ih =>
    refine .up (same b low ▸ parent) (ih ?_)
    by_cases root : b = 0
    · subst root
      rw [tree.root] at parent
      cases parent
      exact low
    · exact Nat.lt_trans (tree.below parent root) low

end Tree

lemma Tree.climb (tree : Tree order f) (parent : f a = some p) (lower : order.idxOf b < order.idxOf a) :
    order.idxOf p < order.idxOf a ∧ ∀ x, Above f x p ∧ Above f x b ↔ Above f x a ∧ Above f x b := by
  have other : a ≠ 0 := by
    rintro rfl
    rw [tree.first] at lower
    cases lower
  refine ⟨tree.below parent other, fun x => ?_⟩
  rw [above_iff_parent parent]
  refine and_congr_left fun above => (or_iff_right ?_).symm
  rintro rfl
  exact absurd (tree.rank_le above) (Nat.not_le.mpr lower)

lemma above_meet (tree : Tree order f) (turns a b : Nat) (knownA : (f a).isSome) (knownB : (f b).isSome)
    (enough : order.idxOf a + order.idxOf b ≤ turns) : (f (meet order (fun a => (f a).getD 0) turns a b)).isSome ∧ ∀ x,
    Above f x (meet order (fun a => (f a).getD 0) turns a b) ↔ Above f x a ∧ Above f x b := by
  obtain ⟨p, parentA⟩ := Option.isSome_iff_exists.mp knownA
  obtain ⟨q, parentB⟩ := Option.isSome_iff_exists.mp knownB
  have same : order.idxOf a = order.idxOf b → a = b := (idxOf_inj (tree.listed parentA)).mp
  induction turns generalizing a b p q with
  | zero =>
    rw [meet, same (by omega)]
    exact ⟨knownB, fun x => (and_self_iff).symm⟩
  | succ turns ih =>
    rw [meet]
    split
    · rename_i lower
      obtain ⟨less, both⟩ := tree.climb parentA lower
      obtain ⟨p', parent'⟩ := Option.isSome_iff_exists.mp (tree.known parentA)
      simp only [parentA, Option.getD_some, ← both]
      exact ih p b (tree.known parentA) knownB (by omega) p' parent' q parentB (idxOf_inj (tree.listed parent')).mp
    · split
      · rename_i lower
        obtain ⟨less, both⟩ := tree.climb parentB lower
        obtain ⟨q', parent'⟩ := Option.isSome_iff_exists.mp (tree.known parentB)
        simp only [parentB, Option.getD_some, and_comm (a := Above f _ a), ← both]
        simp only [and_comm (b := Above f _ a)]
        exact ih a q knownA (tree.known parentB) (by omega) p parentA q' parent' (idxOf_inj (tree.listed parentA)).mp
      · cases same (by omega)
        exact ⟨knownA, fun x => (and_self_iff).symm⟩

/-- Where the ways up from several blocks meet. -/
lemma above_foldl_meet (tree : Tree order f) (blocks : List Nat) (a : Nat) (knownA : (f a).isSome)
    (known : ∀ p ∈ blocks, (f p).isSome) :
    let m := blocks.foldl (fun a p => meet order (fun a => (f a).getD 0) (order.idxOf p + order.idxOf a) p a) a
    (f m).isSome ∧ ∀ x, Above f x m ↔ Above f x a ∧ ∀ p ∈ blocks, Above f x p := by
  induction blocks generalizing a with
  | nil => exact ⟨knownA, fun x => by simp⟩
  | cons p blocks ih =>
    obtain ⟨knownP, known⟩ := List.forall_mem_cons.mp known
    obtain ⟨knownM, meets⟩ := above_meet tree (order.idxOf p + order.idxOf a) p a knownP knownA le_rfl
    obtain ⟨knownAll, all⟩ := ih _ knownM known
    refine ⟨knownAll, fun x => ?_⟩
    rw [foldl_cons, all, meets, List.forall_mem_cons]
    tauto

/-- Ways up in `f'` are those in `f` with blocks left out. -/
def Shortens (f' f : Nat → Option Nat) : Prop := ∀ z a, f z = some a → ∃ a', f' z = some a' ∧ Above f' a' a

namespace Shortens

lemma refl (tree : Tree order f) : Shortens f f := fun _ a parent => ⟨a, parent, .here (tree.known parent)⟩

lemma known (shortens : Shortens f' f) (known : (f z).isSome) : (f' z).isSome := by
  obtain ⟨a, parent⟩ := Option.isSome_iff_exists.mp known
  obtain ⟨a', parent', -⟩ := shortens z a parent
  simp [parent']

lemma above {z : Nat} (shortens : Shortens f' f) (tree : Tree order f) (tree' : Tree order f')
    (known : (f z).isSome) (above : Above f' x z) : Above f x z := by
  obtain ⟨a, parent⟩ := Option.isSome_iff_exists.mp known
  by_cases root : z = 0
  · rw [tree'.above_root above root, root]
    exact .here (root ▸ known)
  · obtain ⟨a', parent', skipped⟩ := shortens z a parent
    rcases (above_iff_parent parent').mp above with rfl | rest
    · exact .here known
    · have := tree.below parent root
      exact .up parent (shortens.above tree tree' (tree.known parent) (rest.trans skipped))
termination_by order.idxOf z

lemma above_of_rank (shortens : Shortens f' f) (tree : Tree order f) (old : Above f x p) (above : Above f' y p) (rank : order.idxOf y ≤ order.idxOf x) : Above f' y x := by
  induction old with
  | here => exact above
  | @up b a parent rest ih =>
    by_cases root : b = 0
    · rw [tree.above_root (.up parent rest) root]
      exact root ▸ above
    · obtain ⟨a', parent', skipped⟩ := shortens b a parent
      rcases (above_iff_parent parent').mp above with rfl | above
      · exact absurd (tree.rank_lt parent root rest) (Nat.not_lt.mpr rank)
      · exact ih (above.trans skipped)

end Shortens

end WireCodec.Graph
