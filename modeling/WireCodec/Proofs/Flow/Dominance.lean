import WireCodec.Proofs.Flow.Blocks
import WireCodec.Proofs.Flow.WaysUp
import WireCodec.Proofs.Program.Building

/-! Dominators. A sweep gives each block the place where the ways up from its predecessors meet. From
sweep to sweep a way up only loses blocks, so that the sweeps come to an end; it never loses a
dominator, and once nothing changes nothing else is left on it. -/
namespace WireCodec.Graph

open List Option

variable {g : Graph} {order blocks : List Nat} {f f' : Nat → Option Nat} {a b m p x y z r : Nat} {d : Dominance}

/-- Every way from the entry to `b` passes `a`. -/
def Dominates (g : Graph) (a b : Nat) : Prop := Reached g b ∧ ∀ way, Route g b way → a ∈ way

lemma Reached.dominates_self (reached : Reached g b) : Dominates g b b := by
  refine ⟨reached, fun way route => ?_⟩
  cases route <;> exact mem_cons_self

lemma Dominates.pred (dominates : Dominates g a b) (other : a ≠ b) (reached : Reached g p) (next : b ∈ g.succs p) :
    Dominates g a p :=
  ⟨reached, fun _ route => (List.mem_cons.mp (dominates.2 _ (route.step next))).resolve_left other⟩

/-! One block gets another parent. -/

def parentsOf (parents : Array (Option Nat)) (b : Nat) : Option Nat := parents[b]?.join

/-- `m` is where the ways up from the predecessors of `b` meet. -/
def Meets (g : Graph) (f : Nat → Option Nat) (b m : Nat) : Prop :=
  (f m).isSome ∧ ∀ x, Above f x m ↔ ∀ p ∈ g.preds b, (f p).isSome → Above f x p

lemma adopt_eq {parents : Array (Option Nat)} (tree : Tree order (parentsOf parents)) (pred : p ∈ g.preds b)
    (known : (parentsOf parents p).isSome) :
    ∃ m, g.adopt order parents b = parents.setIfInBounds b (some m) ∧ Meets g (parentsOf parents) b m := by
  have looked : ∀ q, q ∈ (g.preds b).filter (fun p => (parentsOf parents p).isSome) ↔
      q ∈ g.preds b ∧ (parentsOf parents q).isSome := fun q => List.mem_filter
  unfold adopt
  cases found : (g.preds b).filter (fun p => (parentsOf parents p).isSome) with
  | nil =>
    have := (looked p).mpr ⟨pred, known⟩
    rw [found] at this
    cases this
  | cons q rest =>
    rw [found] at looked
    have all : ∀ r ∈ q :: rest, (parentsOf parents r).isSome := fun r mem => ((looked r).mp mem).2
    obtain ⟨knownM, meets⟩ := above_foldl_meet tree rest q (all q mem_cons_self) fun r mem => all r (mem_cons_of_mem _ mem)
    refine ⟨_, by simp only [parentsOf] at found; rw [found]; rfl, knownM, fun x => ?_⟩
    refine (meets x).trans ?_
    rw [← List.forall_mem_cons (p := fun r => Above (parentsOf parents) x r)]
    exact ⟨fun each r mem known => each r ((looked r).mpr ⟨mem, known⟩), fun each r mem => each r ((looked r).mp mem).1 ((looked r).mp mem).2⟩

/-- What is known of the parents of blocks listed before place `r`: each is where the ways up from the
predecessors met. No dominator was passed over. -/
structure Good (g : Graph) (order : List Nat) (r : Nat) (f : Nat → Option Nat) : Prop where
  tree : Tree order f
  least : ∀ {v a}, f v = some a → v ≠ 0 → order.idxOf v < r →
    ∀ x, (∀ p ∈ g.preds v, (f p).isSome → Above f x p) → Above f x a
  onWay : ∀ {v a}, f v = some a → v ≠ 0 → order.idxOf v < r →
    ∀ p ∈ g.preds v, order.idxOf p < order.idxOf v → Above f a p
  dominators : ∀ {v a}, f v = some a → v ≠ 0 → ∀ y, Dominates g y v → y ≠ v → Dominates g y a

lemma eq_zero_of_dominates (dominates : Dominates g y 0) : y = 0 :=
  List.mem_singleton.mp (dominates.2 _ .entry)

lemma Good.above_of_dominates {r z : Nat} (good : Good g order r f) (known : (f z).isSome)
    (dominates : Dominates g y z) : Above f y z := by
  by_cases self : y = z
  · exact self ▸ .here (self ▸ known)
  · obtain ⟨a, parent⟩ := isSome_iff_exists.mp known
    have other : z ≠ 0 := by
      rintro rfl
      exact self (eq_zero_of_dominates dominates)
    have := good.tree.below parent other
    exact .up parent (good.above_of_dominates (good.tree.known parent) (good.dominators parent other y dominates self))
termination_by order.idxOf z

lemma Good.dominates_of_above (good : Good g order r f) (above : Above f m p)
    (dominates : Dominates g y p) (rank : order.idxOf y ≤ order.idxOf m) : Dominates g y m := by
  induction above with
  | here => exact dominates
  | @up b a parent rest ih =>
    by_cases root : b = 0
    · rw [good.tree.above_root (.up parent rest) root]
      exact root ▸ dominates
    · refine ih (good.dominators parent root y dominates ?_)
      rintro rfl
      exact absurd (good.tree.rank_lt parent root rest) (Nat.not_lt.mpr rank)

/-- A sweep that started with the parents `old` has come to place `r`. -/
structure Underway (g : Graph) (order : List Nat) (old : Nat → Option Nat) (r : Nat) (f : Nat → Option Nat) : Prop
    extends Good g order r f where
  shortens : Shortens f old
  later : ∀ z, r ≤ order.idxOf z → f z = old z
  known : ∀ z ∈ order, order.idxOf z < r → (f z).isSome

lemma parent_cases (own : f' b = some m) (same : ∀ z, z ≠ b → f' z = f z) (parent : f' z = some a) :
    (z = b ∧ a = m) ∨ (z ≠ b ∧ f z = some a) := by
  by_cases self : z = b
  · subst self
    exact .inl ⟨rfl, some.inj (parent.symm.trans own)⟩
  · exact .inr ⟨self, same z self ▸ parent⟩

lemma Tree.adopt (tree : Tree order f) (mem : b ∈ order) (other : b ≠ 0) (known : (f m).isSome)
    (low : order.idxOf m < order.idxOf b) (own : f' b = some m) (same : ∀ z, z ≠ b → f' z = f z) : Tree order f' := by
  have still : ∀ z, (f z).isSome → (f' z).isSome := by
    intro z known
    by_cases self : z = b
    · simp [self, own]
    · rwa [same z self]
  refine ⟨tree.first, (same 0 other.symm).trans tree.root, fun {z a} parent => ?_, fun {z a} parent => ?_,
    fun {z a} parent root => ?_⟩
  all_goals rcases parent_cases own same parent with ⟨rfl, rfl⟩ | ⟨-, parent⟩
  · exact mem
  · exact tree.listed parent
  · exact still _ known
  · exact still _ (tree.known parent)
  · exact low
  · exact tree.below parent root

section Adopt

variable {old : Nat → Option Nat} {r : Nat}

lemma Underway.passed_pred (formed : g.WellFormed) (ordered : Ordered g order) (now : Underway g order old r f)
    (mem : b ∈ order) (at_ : order.idxOf b = r) (other : b ≠ 0) :
    ∃ p ∈ g.preds b, (f p).isSome ∧ order.idxOf p < r := by
  obtain ⟨p, listed, next, before⟩ := ordered.led b mem other
  rw [at_] at before
  exact ⟨p, (formed.preds_iff p b (ordered.inside b mem)).mpr next, now.known p listed before, before⟩

lemma Underway.above_old (now : Underway g order old r f) (full : Good g order order.length old)
    (mem : b ∈ order) (at_ : order.idxOf b = r) (other : b ≠ 0) (meets : Meets g f b m) (pred : p ∈ g.preds b)
    (known : (f p).isSome) (before : order.idxOf p < r) (was : old b = some a) : Above f m a := by
  have onAll := (meets.2 m).mp (.here meets.1)
  have inside : order.idxOf b < order.length := idxOf_lt_length_of_mem mem
  have onOld : Above old m a := full.least was other inside m fun p pred known =>
    now.shortens.above full.tree now.tree known (onAll p pred (now.shortens.known known))
  have onWay : Above old a p := full.onWay was other inside p pred (at_ ▸ before)
  exact now.shortens.above_of_rank full.tree onWay (onAll p pred known) (full.tree.rank_le onOld)

lemma Underway.adopt (formed : g.WellFormed) (ordered : Ordered g order) (full : Good g order order.length old)
    (now : Underway g order old r f) (mem : b ∈ order) (at_ : order.idxOf b = r) (other : b ≠ 0) (meets : Meets g f b m)
    (own : f' b = some m) (same : ∀ z, z ≠ b → f' z = f z) : Underway g order old (r + 1) f' := by
  obtain ⟨first, pred, known, before⟩ := now.passed_pred formed ordered mem at_ other
  have onAll := (meets.2 m).mp (.here meets.1)
  have low : order.idxOf m < r := lt_of_le_of_lt (now.tree.rank_le (onAll first pred known)) before
  have tree' := now.tree.adopt mem other meets.1 (at_ ▸ low) own same
  have earlier : ∀ {z}, order.idxOf z < r → f' z = f z := fun {z} low => same z (by rintro rfl; omega)
  have carry : ∀ {x z}, Above f x z → order.idxOf z < r → Above f' x z := fun above =>
    now.tree.above_congr (fun _ => earlier) above
  have beyond : ∀ a, old b = some a → Above f' m a := fun a was =>
    carry (now.above_old full mem at_ other meets pred known before was) (at_ ▸ full.tree.below was other)
  have shorter : Shortens f' f := by
    intro z a parent
    by_cases self : z = b
    · subst self
      exact ⟨m, own, beyond a (now.later z (le_of_eq at_.symm) ▸ parent)⟩
    · have parent' := (same z self).trans parent
      exact ⟨a, parent', .here (tree'.known parent')⟩
  -- what is on all ways up now was so before
  have back : ∀ {x v}, (∀ p ∈ g.preds v, (f' p).isSome → Above f' x p) →
      ∀ p ∈ g.preds v, (f p).isSome → Above f x p := fun all p pred known =>
    shorter.above now.tree tree' known (all p pred (shorter.known known))
  have passed : ∀ {v}, v ≠ b → order.idxOf v < r + 1 → order.idxOf v < r := by
    intro v differ low
    refine Nat.lt_of_le_of_ne (Nat.le_of_lt_succ low) fun eq => differ ?_
    exact ((idxOf_inj mem).mp (at_.trans eq.symm)).symm
  refine ⟨⟨tree', fun {v a} parent root low x all => ?_, fun {v a} parent root low p pred less => ?_,
    fun {v a} parent root y dominates differ => ?_⟩, fun z a was => ?_, fun z high => ?_, fun z listed low => ?_⟩
  · rcases parent_cases own same parent with ⟨rfl, rfl⟩ | ⟨self, parent⟩
    · exact carry ((meets.2 x).mpr (back all)) ‹_›
    · have low := passed self low
      exact carry (now.least parent root low x (back all)) (Nat.lt_trans (now.tree.below parent root) low)
  · rcases parent_cases own same parent with ⟨rfl, rfl⟩ | ⟨self, parent⟩
    · rw [at_] at less
      have listed : p ∈ order := idxOf_lt_length_iff.mp (Nat.lt_trans less (at_ ▸ idxOf_lt_length_of_mem mem))
      exact carry (onAll p ‹_› (now.known p listed less)) less
    · have low := passed self low
      exact carry (now.onWay parent root low p ‹_› less) (Nat.lt_trans less low)
  · rcases parent_cases own same parent with ⟨rfl, rfl⟩ | ⟨-, parent⟩
    · have each : ∀ p ∈ g.preds v, (f p).isSome → Dominates g y p := fun p pred known => by
        obtain ⟨c, parent⟩ := isSome_iff_exists.mp known
        have next := (formed.preds_iff p v (ordered.inside v mem)).mp pred
        exact dominates.pred differ ((ordered.mem_iff p).mp (now.tree.listed parent)) next
      have above := (meets.2 y).mpr fun p pred known => now.above_of_dominates known (each p pred known)
      exact now.dominates_of_above (onAll first pred known) (each first pred known) (now.tree.rank_le above)
    · exact now.dominators parent root y dominates differ
  · by_cases self : z = b
    · subst self
      exact ⟨m, own, beyond a was⟩
    · obtain ⟨c, parent, skipped⟩ := now.shortens z a was
      have parent' := (same z self).trans parent
      rcases Nat.lt_or_ge (order.idxOf z) r with low | high
      · have := full.tree.rank_le (.up was (.here (full.tree.known was)))
        exact ⟨c, parent', carry skipped (lt_of_le_of_lt this low)⟩
      · cases (now.later z high ▸ parent).symm.trans was
        exact ⟨a, parent', .here (tree'.known parent')⟩
  · rw [same z (by rintro rfl; omega), now.later z (by omega)]
  · by_cases self : z = b
    · simp [self, own]
    · exact shorter.known (now.known z listed (passed self low))

end Adopt

/-! Sweeps. -/

variable {parents : Array (Option Nat)}

lemma parentsOf_set (low : b < parents.size) : parentsOf (parents.setIfInBounds b (some m)) b = some m ∧
    ∀ z, z ≠ b → parentsOf (parents.setIfInBounds b (some m)) z = parentsOf parents z := by
  refine ⟨?_, fun z other => ?_⟩
  · rw [parentsOf, Array.getElem?_setIfInBounds, if_pos rfl, if_pos low]
    rfl
  · rw [parentsOf, Array.getElem?_setIfInBounds, if_neg (Ne.symm other), parentsOf]

lemma Good.mono (good : Good g order order.length f) : Good g order r f :=
  ⟨good.tree, fun parent root _ => good.least parent root (idxOf_lt_length_of_mem (good.tree.listed parent)),
    fun parent root _ => good.onWay parent root (idxOf_lt_length_of_mem (good.tree.listed parent)), good.dominators⟩

lemma Good.start (good : Good g order order.length f) (le : r ≤ 1) : Underway g order f r f := by
  refine ⟨good.mono, .refl good.tree, fun _ _ => rfl, fun z listed low => ?_⟩
  have root : z = 0 := (idxOf_inj listed).mp (by rw [good.tree.first]; omega)
  simp [root, good.tree.root]

lemma underway_foldl {old : Nat → Option Nat} (formed : g.WellFormed) (ordered : Ordered g order)
    (full : Good g order order.length old) (front rest : List Nat) (split : order = front ++ rest) (begun : 0 ∈ front)
    (size : parents.size = g.size) (now : Underway g order old front.length (parentsOf parents)) :
    (rest.foldl (g.adopt order) parents).size = g.size ∧
      Underway g order old order.length (parentsOf (rest.foldl (g.adopt order) parents)) := by
  induction rest generalizing front parents with
  | nil =>
    rw [append_nil] at split
    exact ⟨size, split ▸ now⟩
  | cons b rest ih =>
    have fresh : b ∉ front := fun old => by
      have := ordered.nodup
      rw [split, nodup_middle, nodup_cons] at this
      exact this.1 (mem_append_left _ old)
    have mem : b ∈ order := split ▸ mem_append_right _ mem_cons_self
    have at_ : order.idxOf b = front.length := by
      rw [split, idxOf_append_of_notMem fresh, idxOf_cons_self, Nat.add_zero]
    have other : b ≠ 0 := by
      rintro rfl
      exact fresh begun
    obtain ⟨p, pred, known, -⟩ := now.passed_pred formed ordered mem at_ other
    obtain ⟨m, adopts, meets⟩ := adopt_eq now.tree pred known
    obtain ⟨own, same⟩ := parentsOf_set (m := m) (size ▸ ordered.inside b mem)
    rw [foldl_cons, adopts]
    refine ih (front ++ [b]) (by simp [split]) (mem_append_left _ begun) (by simpa using size) ?_
    rw [length_append, length_singleton]
    exact now.adopt formed ordered full mem at_ other meets own same

lemma Good.sweep (formed : g.WellFormed) (ordered : Ordered g order) (size : parents.size = g.size)
    (good : Good g order order.length (parentsOf parents)) : (g.sweep order parents).size = g.size ∧
      Underway g order (parentsOf parents) order.length (parentsOf (g.sweep order parents)) := by
  obtain ⟨rest, split⟩ : ∃ rest, order = [0] ++ rest := by
    cases at_ : order with
    | nil => simpa [at_] using ordered.first
    | cons b rest => exact ⟨rest, by simpa [at_] using ordered.first⟩
  rw [Graph.sweep, show order.tail = rest by rw [split]; rfl]
  exact underway_foldl formed ordered good [0] rest split mem_cons_self size (good.start le_rfl)

/-- How far down in the order the parents are. -/
def weight (g : Graph) (order : List Nat) (f : Nat → Option Nat) : Nat :=
  ((List.range g.size).map fun z => ((f z).map order.idxOf).getD g.size).sum

lemma length_order_le (ordered : Ordered g order) : order.length ≤ g.size :=
  length_le_of_nodup ordered.nodup ordered.inside

lemma weight_lt (ordered : Ordered g order) (tree' : Tree order f') (shortens : Shortens f' f) (low : z < g.size)
    (differ : f' z ≠ f z) : weight g order f' < weight g order f := by
  have few := length_order_le ordered
  have rank : ∀ {z a}, f' z = some a → order.idxOf a < g.size := fun parent => by
    obtain ⟨c, up⟩ := isSome_iff_exists.mp (tree'.known parent)
    exact lt_of_lt_of_le (idxOf_lt_length_of_mem (tree'.listed up)) few
  refine sum_lt_sum _ _ (fun z _ => ?_) ⟨z, List.mem_range.mpr low, ?_⟩
  · cases parent : f z with
    | some a =>
      obtain ⟨a', parent', above⟩ := shortens z a parent
      simpa [parent'] using tree'.rank_le above
    | none =>
      cases parent' : f' z with
      | some a' => simpa using le_of_lt (rank parent')
      | none => simp
  · cases parent : f z with
    | some a =>
      obtain ⟨a', parent', above⟩ := shortens z a parent
      obtain ⟨c, up⟩ := isSome_iff_exists.mp (tree'.known parent')
      have apart : order.idxOf a' ≠ order.idxOf a := fun same => differ (by
        rw [parent', parent, (idxOf_inj (tree'.listed up)).mp same])
      simpa [parent'] using Nat.lt_of_le_of_ne (tree'.rank_le above) apart
    | none =>
      obtain ⟨a', parent'⟩ := ne_none_iff_exists'.mp (parent ▸ differ)
      simpa [parent'] using rank parent'

/-- Sweeps enough come to parents that a sweep does not change. -/
lemma settle_spec (formed : g.WellFormed) (ordered : Ordered g order) (sweeps : Nat) (size : parents.size = g.size)
    (good : Good g order order.length (parentsOf parents)) (enough : weight g order (parentsOf parents) < sweeps) :
    (g.settle order sweeps parents).size = g.size ∧
      Good g order order.length (parentsOf (g.settle order sweeps parents)) ∧
      g.sweep order (g.settle order sweeps parents) = g.settle order sweeps parents := by
  induction sweeps generalizing parents with
  | zero => cases enough
  | succ sweeps ih =>
    rw [settle]
    split
    · rename_i fixed
      exact ⟨size, good, fixed⟩
    · rename_i changed
      obtain ⟨size', done⟩ := good.sweep formed ordered size
      obtain ⟨z, low, differ⟩ : ∃ z < g.size, parentsOf (g.sweep order parents) z ≠ parentsOf parents z := by
        by_contra none
        push Not at none
        refine changed (Array.ext (size'.trans size.symm) fun z low low' => ?_)
        simpa [parentsOf, low, low'] using none z (size' ▸ low)
      refine ih size' done.toGood ?_
      have := weight_lt ordered done.tree done.shortens low differ
      omega

/-! The parents that sweeps end with. -/

lemma getElem?_adopt (g : Graph) (order : List Nat) (parents : Array (Option Nat)) (other : z ≠ b) :
    (g.adopt order parents b)[z]? = parents[z]? := by
  unfold adopt
  split
  · rfl
  · rw [Array.getElem?_setIfInBounds, if_neg (Ne.symm other)]

lemma getElem?_foldl_adopt (g : Graph) (order : List Nat) (other : z ∉ blocks)
    (parents : Array (Option Nat)) : (blocks.foldl (g.adopt order) parents)[z]? = parents[z]? := by
  induction blocks generalizing parents with
  | nil => rfl
  | cons b blocks ih =>
    obtain ⟨apart, other⟩ := not_or.mp (mt List.mem_cons.mpr other)
    rw [foldl_cons, ih other, getElem?_adopt _ _ _ apart]

lemma adopt_eq_self (nodup : blocks.Nodup)
    (fixed : blocks.foldl (g.adopt order) parents = parents) : ∀ b ∈ blocks, g.adopt order parents b = parents := by
  induction blocks with
  | nil => exact nofun
  | cons b blocks ih =>
    obtain ⟨fresh, nodup⟩ := nodup_cons.mp nodup
    have first : g.adopt order parents b = parents := by
      refine Array.ext_getElem? fun z => ?_
      by_cases self : z = b
      · rw [self, ← getElem?_foldl_adopt g order fresh (g.adopt order parents b), ← foldl_cons, fixed]
      · exact getElem?_adopt g order parents self
    rw [foldl_cons, first] at fixed
    exact List.forall_mem_cons.mpr ⟨first, ih nodup fixed⟩

/-- What the parents are in the end. -/
structure Final (g : Graph) (order : List Nat) (f : Nat → Option Nat) : Prop extends Good g order order.length f where
  all : ∀ b ∈ order, (f b).isSome
  meets : ∀ {b a}, f b = some a → b ≠ 0 → Meets g f b a

lemma final_of_fixed (formed : g.WellFormed) (ordered : Ordered g order) (size : parents.size = g.size)
    (good : Good g order order.length (parentsOf parents)) (fixed : g.sweep order parents = parents) :
    Final g order (parentsOf parents) := by
  obtain ⟨-, done⟩ := good.sweep formed ordered size
  rw [fixed] at done
  have all := fun b mem => done.known b mem (idxOf_lt_length_of_mem mem)
  refine ⟨good, all, fun {b a} parent other => ?_⟩
  have mem := good.tree.listed parent
  obtain ⟨p, listed, next, -⟩ := ordered.led b mem other
  have low := ordered.inside b mem
  obtain ⟨m, adopts, meets⟩ := adopt_eq good.tree ((formed.preds_iff p b low).mpr next) (all p listed)
  have swept : b ∈ order.tail := by
    cases at_ : order with
    | nil => simp [at_] at mem
    | cons first rest =>
      have : first = 0 := by simpa [at_] using ordered.first
      exact (List.mem_cons.mp (at_ ▸ mem)).resolve_left (this ▸ other)
  rw [adopt_eq_self (ordered.nodup.sublist (tail_sublist _)) fixed b swept] at adopts
  have own := (parentsOf_set (m := m) (size ▸ low)).1
  rw [← adopts, parent, some.injEq] at own
  exact own ▸ meets

/-- The way up from a block holds its dominators. -/
lemma Final.above_iff (formed : g.WellFormed) (ordered : Ordered g order) (final : Final g order f) (mem : b ∈ order) :
    Above f a b ↔ Dominates g a b := by
  refine ⟨fun above => ⟨(ordered.mem_iff b).mp mem, fun way route => ?_⟩, final.above_of_dominates (final.all b mem)⟩
  induction route with
  | entry => exact List.mem_singleton.mpr (final.tree.above_root above rfl)
  | @step p b way before next ih =>
    by_cases root : b = 0
    · rw [final.tree.above_root above root, root]
      exact mem_cons_self
    · have listed : p ∈ order := (ordered.mem_iff p).mpr ⟨_, before⟩
      obtain ⟨c, parent⟩ := isSome_iff_exists.mp (final.all b mem)
      rcases (above_iff_parent parent).mp above with rfl | above
      · exact mem_cons_self
      · exact mem_cons_of_mem _ (ih listed (((final.meets parent root).2 a).mp above p
          ((formed.preds_iff p b (ordered.inside b mem)).mpr next) (final.all p listed)))

lemma parentsOf_start (pos : 0 < g.size) (b : Nat) :
    parentsOf ((Array.replicate g.size none).setIfInBounds 0 (some 0)) b = if b = 0 then some 0 else none := by
  by_cases root : b = 0
  · simp [parentsOf, root, pos]
  · rw [(parentsOf_set (by simpa using pos)).2 b root, if_neg root, parentsOf]
    by_cases low : b < g.size <;> simp [low]

lemma good_start (formed : g.WellFormed) (ordered : Ordered g order) :
    Good g order order.length (parentsOf ((Array.replicate g.size none).setIfInBounds 0 (some 0))) := by
  have only : ∀ {b a}, parentsOf ((Array.replicate g.size none).setIfInBounds 0 (some 0)) b = some a → b = 0 ∧ a = 0 := by
    intro b a parent
    rw [parentsOf_start formed.pos] at parent
    split at parent <;> cases parent
    exact ⟨‹_›, rfl⟩
  have root := parentsOf_start formed.pos 0
  have first : order.idxOf 0 = 0 := by
    cases at_ : order with
    | nil => rfl
    | cons b rest =>
      have : b = 0 := by simpa [at_] using ordered.first
      rw [this, idxOf_cons_self]
  refine ⟨⟨first, root, fun parent => ?_, fun parent => ?_, fun parent other => absurd (only parent).1 other⟩,
    fun parent other => absurd (only parent).1 other, fun parent other => absurd (only parent).1 other,
    fun parent other => absurd (only parent).1 other⟩
  · exact (only parent).1 ▸ mem_of_mem_head? ordered.first
  · rw [(only parent).2, root]
    rfl

lemma dominance_final (formed : g.WellFormed) : g.dominance.parents.size = g.size ∧ Final g g.reversePostorder
    g.dominance.parent? ∧ g.sweep g.reversePostorder g.dominance.parents = g.dominance.parents := by
  have ordered := formed.ordered
  have few : weight g g.reversePostorder (parentsOf ((Array.replicate g.size none).setIfInBounds 0 (some 0))) <
      g.size * g.size + 1 := by
    refine Nat.lt_succ_of_le (le_trans (sum_le_card_nsmul _ g.size ?_) (by simp))
    intro n mem
    obtain ⟨z, -, rfl⟩ := List.mem_map.mp mem
    rw [parentsOf_start formed.pos]
    split
    · simpa using le_trans idxOf_le_length (length_order_le ordered)
    · simp
  obtain ⟨size, good, fixed⟩ := settle_spec formed ordered _ (by simp) (good_start formed ordered) few
  exact ⟨size, final_of_fixed formed ordered size good fixed, fixed⟩

/-! Queries. -/

lemma isSome_parent?_iff (formed : g.WellFormed) : (g.dominance.parent? b).isSome ↔ Reached g b := by
  obtain ⟨-, final, -⟩ := dominance_final formed
  rw [← formed.ordered.mem_iff]
  refine ⟨fun known => ?_, final.all b⟩
  obtain ⟨a, parent⟩ := isSome_iff_exists.mp known
  exact final.tree.listed parent

lemma immediate?_eq (tree : Tree order d.parent?) (parent : d.parent? b = some a) :
    d.immediate? b = if b = 0 then none else some a := by
  rw [Dominance.immediate?, parent]
  split
  · rename_i root
    subst root
    rw [tree.root] at parent
    cases parent
    rfl
  · rename_i other
    have := tree.below parent other
    have differ : a ≠ b := by
      rintro rfl
      omega
    simp [differ]

lemma mem_wayUp (tree : Tree order d.parent?) (turns : Nat) (known : (d.parent? b).isSome)
    (enough : order.idxOf b < turns) : a ∈ d.wayUp turns b ↔ Above d.parent? a b := by
  obtain ⟨c, parent⟩ := isSome_iff_exists.mp known
  induction turns generalizing b c with
  | zero => cases enough
  | succ turns ih =>
    rw [Dominance.wayUp, immediate?_eq tree parent]
    by_cases root : b = 0
    · subst root
      simp only [if_true, List.mem_singleton]
      exact ⟨fun self => self.symm ▸ .here known, fun above => tree.above_root above rfl⟩
    · have less := tree.below parent root
      obtain ⟨e, parent'⟩ := isSome_iff_exists.mp (tree.known parent)
      rw [if_neg root, above_iff_parent parent, List.mem_cons, ih (tree.known parent) (by omega) e parent']

lemma mem_above_iff (formed : g.WellFormed) (reached : Reached g b) : a ∈ g.dominance.above b ↔ Dominates g a b := by
  obtain ⟨size, final, -⟩ := dominance_final formed
  have ordered := formed.ordered
  have mem := (ordered.mem_iff b).mpr reached
  have enough : g.reversePostorder.idxOf b < g.dominance.parents.size :=
    size ▸ lt_of_lt_of_le (idxOf_lt_length_of_mem mem) (length_order_le ordered)
  rw [Dominance.above, mem_wayUp final.tree _ (final.all b mem) enough, final.above_iff formed ordered mem]

lemma dominates_iff (formed : g.WellFormed) : g.dominance.dominates a b = true ↔ Dominates g a b := by
  rw [Dominance.dominates, Bool.and_eq_true, isSome_parent?_iff formed, List.contains_iff_mem]
  refine ⟨fun ⟨reached, mem⟩ => (mem_above_iff formed reached).mp mem, fun dominates => ?_⟩
  exact ⟨dominates.1, (mem_above_iff formed dominates.1).mpr dominates⟩

lemma dominates_parent_iff (formed : g.WellFormed) (parent : g.dominance.parent? b = some p) (other : b ≠ 0) :
    Dominates g a p ↔ Dominates g a b ∧ a ≠ b := by
  obtain ⟨-, final, -⟩ := dominance_final formed
  have ordered := formed.ordered
  obtain ⟨c, up⟩ := isSome_iff_exists.mp (final.tree.known parent)
  rw [← final.above_iff formed ordered (final.tree.listed parent), ← final.above_iff formed ordered (final.tree.listed up),
    above_iff_parent parent]
  refine ⟨fun above => ⟨.inr above, ?_⟩, fun ⟨above, differ⟩ => above.resolve_left differ⟩
  rintro rfl
  exact Nat.lt_irrefl _ (final.tree.rank_lt parent other above)

/-- `a` is the strict dominator of `b` that all others dominate. -/
def Nearest (g : Graph) (a b : Nat) : Prop :=
  Dominates g a b ∧ a ≠ b ∧ ∀ c, Dominates g c b → c ≠ b → Dominates g c a

lemma Dominates.antisymm (formed : g.WellFormed) (first : Dominates g a b) (second : Dominates g b a) : a = b := by
  obtain ⟨-, final, -⟩ := dominance_final formed
  have ordered := formed.ordered
  have memA := (ordered.mem_iff a).mpr second.1
  have up := final.tree.rank_le ((final.above_iff formed ordered ((ordered.mem_iff b).mpr first.1)).mpr first)
  have down := final.tree.rank_le ((final.above_iff formed ordered memA).mpr second)
  exact (idxOf_inj memA).mp (Nat.le_antisymm up down)

lemma nearest_parent (formed : g.WellFormed) (parent : g.dominance.parent? b = some p) (other : b ≠ 0) :
    Nearest g p b := by
  obtain ⟨-, final, -⟩ := dominance_final formed
  have reached := (isSome_parent?_iff formed).mp (final.tree.known parent)
  obtain ⟨dominates, differ⟩ := (dominates_parent_iff formed parent other).mp reached.dominates_self
  exact ⟨dominates, differ, fun c strict apart => (dominates_parent_iff formed parent other).mpr ⟨strict, apart⟩⟩

lemma immediate?_eq_some_iff (formed : g.WellFormed) : g.dominance.immediate? b = some a ↔ Nearest g a b := by
  obtain ⟨-, final, -⟩ := dominance_final formed
  constructor
  · intro is
    obtain ⟨parent, -⟩ := filter_eq_some_iff.mp is
    rw [immediate?_eq final.tree parent] at is
    split at is
    · cases is
    · exact nearest_parent formed parent ‹_›
  · intro nearest
    obtain ⟨p, parent⟩ := isSome_iff_exists.mp ((isSome_parent?_iff formed).mpr nearest.1.1)
    have other : b ≠ 0 := by
      rintro rfl
      exact nearest.2.1 (eq_zero_of_dominates nearest.1)
    obtain ⟨dominates, differ, least⟩ := nearest_parent formed parent other
    rw [immediate?_eq final.tree parent, if_neg other,
      (nearest.2.2 p dominates differ).antisymm formed (least a nearest.1 nearest.2.1)]

lemma immediate?_eq_none_iff (formed : g.WellFormed) : g.dominance.immediate? b = none ↔ b = 0 ∨ ¬ Reached g b := by
  obtain ⟨-, final, -⟩ := dominance_final formed
  rw [← isSome_parent?_iff formed]
  cases parent : g.dominance.parent? b with
  | none => simp [Dominance.immediate?, parent]
  | some p => simp [immediate?_eq final.tree parent]

/-- The dominators of the blocks of a built program. The sweeps come to an end; a block dominates
another if every way from the entry to it passes the block, and the parent of a block is the nearest of
its strict dominators. The entry has no parent, and blocks that cannot be reached have none. -/
theorem dominance_correct (d : Draft) (table : HandleTable) (p : Program) (built : d.build table = .ok p) :
    ∃ g, Graph.build? p.code = some g ∧ g.sweep g.reversePostorder g.dominance.parents = g.dominance.parents ∧
      (∀ a b, g.dominance.dominates a b = true ↔ Reached g b ∧ ∀ way, Route g b way → a ∈ way) ∧
      (∀ a b, g.dominance.immediate? b = some a ↔ Nearest g a b) ∧
      ∀ b, g.dominance.immediate? b = none ↔ b = 0 ∨ ¬ Reached g b := by
  have lawful := (verifyCode_eq_ok_iff.mp (Draft.build_checked built)).1
  obtain ⟨g, graph, flow⟩ := build?_some lawful
  have formed := flow.wellFormed lawful
  exact ⟨g, graph, (dominance_final formed).2.2, fun _ _ => dominates_iff formed,
    fun _ _ => immediate?_eq_some_iff formed, fun _ => immediate?_eq_none_iff formed⟩

def diamond : Program :=
  ⟨"diamond", .decode, #[.branchImm .eq (.r 0) 0 3, .movImm (.r 0) 1, .jump 4, .movImm (.r 0) 2, .halt]⟩

theorem dominance_correct_diamond :
    ∃ g, Graph.build? diamond.code = some g ∧ Nearest g 0 3 ∧ ¬ ∀ way, Route g 3 way → 1 ∈ way := by
  have built : (⟨"diamond", .decode, #[.branchImm .eq (.r 0) 0 0, .movImm (.r 0) 1, .jump 1, .movImm (.r 0) 2, .halt],
      #[some 3, some 4]⟩ : Draft).build Builtin.table = .ok diamond := rfl
  have found : (Graph.build? diamond.code).map (fun g => (g.dominance.immediate? 3, g.dominance.dominates 1 3)) =
      some (some 0, false) := by decide +kernel
  obtain ⟨g, graph, -, dominates, nearest, -⟩ := dominance_correct _ _ _ built
  rw [graph, Option.map_some, Option.some.injEq, Prod.mk.injEq] at found
  have near := (nearest 0 3).mp found.1
  refine ⟨g, graph, near, fun all => ?_⟩
  rw [(dominates 1 3).mpr ⟨near.1.1, all⟩] at found
  cases found.2

/-- The reverse postorder of the blocks of a built program. The walk comes to its end; it lists the blocks that can be
reached, each once, the entry first, and every other one behind a predecessor. An edge to a block that is not further
down in the list closes a cycle. -/
theorem reversePostorder_valid (d : Draft) (table : HandleTable) (p : Program) (built : d.build table = .ok p) :
    ∃ g, Graph.build? p.code = some g ∧ (Walk.run g g.turns (.start g)).way = [] ∧
      g.reversePostorder = (Walk.run g g.turns (.start g)).order ∧ g.reversePostorder.Nodup ∧
      g.reversePostorder.head? = some 0 ∧ (∀ b, b ∈ g.reversePostorder ↔ Reached g b) ∧
      (∀ b ∈ g.reversePostorder, b ≠ 0 →
        ∃ a ∈ g.preds b, a ∈ g.reversePostorder ∧ g.reversePostorder.idxOf a < g.reversePostorder.idxOf b) ∧
      ∀ a ∈ g.reversePostorder, ∀ b ∈ g.reversePostorder, b ∈ g.succs a →
        g.reversePostorder.idxOf b ≤ g.reversePostorder.idxOf a → g.Leads b a := by
  have lawful := (verifyCode_eq_ok_iff.mp (Draft.build_checked built)).1
  obtain ⟨g, graph, flow⟩ := build?_some lawful
  have formed := flow.wellFormed lawful
  obtain ⟨nodup, first, inside, mem_iff, led, back⟩ := formed.ordered
  refine ⟨g, graph, formed.run_start.2, if_neg (Nat.ne_of_gt formed.pos), nodup, first, mem_iff, fun b mem other => ?_,
    fun a mem b _ => back a mem b⟩
  obtain ⟨a, listed, next, before⟩ := led b mem other
  exact ⟨a, (formed.preds_iff a b (inside b mem)).mpr next, listed, before⟩

def loop : Program :=
  ⟨"loop", .decode, #[.movImm (.r 0) 1, .branchImm .eq (.r 0) 0 3, .jump 1, .halt]⟩

theorem reversePostorder_valid_loop : ∃ g, Graph.build? loop.code = some g ∧ g.reversePostorder = [0, 1, 2, 3] ∧
    1 ∈ g.succs 2 ∧ g.Leads 1 2 := by
  have built : (⟨"loop", .decode, #[.movImm (.r 0) 1, .branchImm .eq (.r 0) 0 1, .jump 0, .halt],
      #[some 1, some 3]⟩ : Draft).build Builtin.table = .ok loop := rfl
  have found : (Graph.build? loop.code).map (fun g => (g.reversePostorder, g.succs 2)) = some ([0, 1, 2, 3], [1]) := by
    decide +kernel
  obtain ⟨g, graph, -, -, -, -, -, -, back⟩ := reversePostorder_valid _ _ _ built
  rw [graph, Option.map_some, Option.some.injEq, Prod.mk.injEq] at found
  have next : 1 ∈ g.succs 2 := by simp [found.2]
  rw [found.1] at back
  exact ⟨g, graph, found.1, next, back 2 (by decide) 1 (by decide) next (by decide)⟩

end WireCodec.Graph
