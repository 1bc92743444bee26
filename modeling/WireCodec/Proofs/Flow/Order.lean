import WireCodec.Flow.Order
import WireCodec.Proofs.Peephole.Refinement

/-! The depth-first order. A walk that has come to an end has listed the blocks that can be reached
from the entry, each once, and each but the entry after a block that it can follow. An edge leads back in the list
only to a block that leads to where the edge starts. -/
namespace WireCodec.Graph

open List

variable {g : Graph} {w : Walk} {l : List Nat} {n : Nat} {b : Nat}

lemma nodup_eraseDups {α : Type} [BEq α] [LawfulBEq α] (n : Nat) (xs : List α)
    (short : xs.length ≤ n) : xs.eraseDups.Nodup := by
  induction n generalizing xs with
  | zero =>
    obtain rfl := length_eq_zero_iff.mp (Nat.le_zero.mp short)
    simp
  | succ n ih =>
    cases xs with
    | nil => simp
    | cons x xs =>
      rw [eraseDups_cons, nodup_cons, mem_eraseDups]
      refine ⟨by simp, ih _ ?_⟩
      have := length_filter_le (fun b => !b == x) xs
      rw [length_cons] at short
      omega

lemma subperm_range (nodup : l.Nodup) (inside : ∀ b ∈ l, b < n) : l <+~ range n :=
  nodup.subperm fun b mem => mem_range.mpr (inside b mem)

lemma length_le_of_nodup (nodup : l.Nodup) (inside : ∀ b ∈ l, b < n) : l.length ≤ n := by
  simpa using (subperm_range nodup inside).length_le

/-- Every edge leads to a block, and predecessors are those whose successor a block is. -/
structure WellFormed (g : Graph) : Prop where
  pos : 0 < g.size
  closed : ∀ b, ∀ s ∈ g.succs b, s < g.size
  preds_iff : ∀ a b, b < g.size → (a ∈ g.preds b ↔ b ∈ g.succs a)

/-- A way from the entry to a block, with the blocks it passes, latest first. -/
inductive Route (g : Graph) : Nat → List Nat → Prop
  | entry : Route g 0 [0]
  | step {a b : Nat} {way : List Nat} (before : Route g a way) (next : b ∈ g.succs a) : Route g b (b :: way)

def Reached (g : Graph) (b : Nat) : Prop := ∃ way, Route g b way

lemma Reached.step {a b : Nat} (reached : Reached g a) (next : b ∈ g.succs a) : Reached g b :=
  reached.elim fun _ route => ⟨_, route.step next⟩

def Leads (g : Graph) : Nat → Nat → Prop := Relation.ReflTransGen fun a b => b ∈ g.succs a

lemma sum_turnsAt (g : Graph) : ((range g.size).map g.turnsAt).sum = g.turns := by
  rw [sum_eq_foldr, foldr_map, turns]

namespace Walk

/-- The order that is left if every block on the way is finished now. -/
def listing (w : Walk) : List Nat := (w.way.map (·.1)).reverse ++ w.order

/-- The blocks met are listed, each behind one that it can follow. -/
structure Listed (g : Graph) (met : Array Bool) (listing : List Nat) : Prop where
  size : met.size = g.size
  known : ∀ b < g.size, met[b]?.getD true = true ↔ b ∈ listing
  inside : ∀ b ∈ listing, b < g.size
  nodup : listing.Nodup
  first : listing.head? = some 0
  reached : ∀ b ∈ listing, Reached g b
  led : ∀ b ∈ listing, b ≠ 0 → ∃ a, b ∈ g.succs a ∧ [a, b] <+ listing

/-- A successor that was looked at: it is listed behind the block, or leads to it. -/
structure Looked (g : Graph) (listing : List Nat) (b s : Nat) : Prop where
  mem : s ∈ listing
  forward : [b, s] <+ listing ∨ g.Leads s b

lemma Looked.mono {listing listing' : List Nat} {s : Nat} (grows : listing <+ listing') (looked : Looked g listing b s) :
    Looked g listing' b s :=
  ⟨grows.subset looked.mem, looked.forward.imp_left (·.trans grows)⟩

/-- What holds all along a walk. -/
structure Sound (g : Graph) (w : Walk) : Prop where
  listed : Listed g w.met w.listing
  finished : ∀ b ∈ w.order, ∀ s ∈ g.succs b, Looked g w.listing b s
  begun : ∀ e ∈ w.way, (∀ s ∈ e.2, s ∈ g.succs e.1) ∧ ∀ s ∈ g.succs e.1, s ∈ e.2 ∨ Looked g w.listing e.1 s
  chain : (w.way.map (·.1)).IsChain fun b a => b ∈ g.succs a

lemma leads_of_chain {s : Nat} {way : List Nat} (chain : (b :: way).IsChain fun b a => b ∈ g.succs a)
    (on : s ∈ b :: way) : g.Leads s b := by
  induction way generalizing b with
  | nil =>
    cases mem_singleton.mp on
    exact .refl
  | cons a way ih =>
    obtain ⟨next, chain⟩ := isChain_cons_cons.mp chain
    rcases mem_cons.mp on with rfl | on
    · exact .refl
    · exact (ih chain on).tail next

lemma sound_start (pos : 0 < g.size) : (start g).Sound g := by
  have only : (start g).listing = [0] := rfl
  refine ⟨⟨by simp [start], fun b low => ?_, ?_, nodup_singleton 0, rfl, ?_, ?_⟩, nofun, fun e mem => ?_, .singleton _⟩
  · simp only [only, mem_singleton]
    simp only [start, Array.getElem?_setIfInBounds, Array.size_replicate, Array.getElem?_replicate, low, if_true]
    grind
  · simpa [only] using pos
  · simpa [only] using ⟨_, Route.entry⟩
  · simp [only]
  · cases mem_singleton.mp mem
    exact ⟨fun _ => id, fun _ => .inl⟩

lemma Listed.enter {met : Array Bool} {front back : List Nat} {s : Nat} (listed : Listed g met (front ++ back))
    (on : b ∈ front) (next : s ∈ g.succs b) (low : s < g.size) (fresh : met[s]?.getD true = false) :
    Listed g (met.setIfInBounds s true) (front ++ s :: back) := by
  obtain ⟨size, known, inside, nodup, first, reached, led⟩ := listed
  have grows : front ++ back <+ front ++ s :: back := (Sublist.refl front).append (sublist_cons_self s back)
  have mem : ∀ c, c ∈ front ++ s :: back ↔ c ∈ front ++ back ∨ c = s := by
    intro c
    simp only [mem_append, mem_cons]
    tauto
  have all : ∀ {P : Nat → Prop}, (∀ c ∈ front ++ back, P c) → P s → ∀ c ∈ front ++ s :: back, P c := by
    intro P old new c listed
    rcases (mem c).mp listed with listed | rfl
    · exact old c listed
    · exact new
  have unlisted : s ∉ front ++ back := fun listed => by
    rw [(known s low).mpr listed] at fresh
    cases fresh
  refine ⟨by simpa using size, fun c low => ?_, all inside low, ?_, ?_,
    all reached ((reached b (mem_append_left _ on)).step next), all (fun c listed other => ?_) fun _ => ?_⟩
  · rw [mem, ← known c low, Array.getElem?_setIfInBounds]
    grind
  · exact nodup_middle.mpr (nodup_cons.mpr ⟨unlisted, nodup⟩)
  · cases front with
    | nil => cases on
    | cons c rest => exact first
  · obtain ⟨a, follows, earlier⟩ := led c listed other
    exact ⟨a, follows, earlier.trans grows⟩
  · have before : [b] <+ front := singleton_sublist.mpr on
    exact ⟨b, next, before.append (singleton_sublist.mpr mem_cons_self)⟩

lemma Sound.step (formed : g.WellFormed) (sound : w.Sound g) : (w.step g).Sound g := by
  obtain ⟨listed, finished, begun, chain⟩ := sound
  unfold Walk.step
  split
  · exact ⟨listed, finished, begun, chain⟩
  · rename_i b way at_
    have same : (Walk.mk way w.met (b :: w.order)).listing = w.listing := by simp [listing, at_]
    obtain ⟨⟨-, looked⟩, others⟩ := forall_mem_cons.mp (at_ ▸ begun)
    refine ⟨same ▸ listed, forall_mem_cons.mpr ⟨fun s succ => ?_, same ▸ finished⟩, same ▸ others, ?_⟩
    · exact same ▸ (looked s succ).resolve_left nofun
    · exact (at_ ▸ chain).tail
  · rename_i b s rest way at_
    obtain ⟨⟨ahead, looked⟩, others⟩ := forall_mem_cons.mp (at_ ▸ begun)
    have next := ahead s mem_cons_self
    have low := formed.closed b s next
    have lessAhead : ∀ t ∈ rest, t ∈ g.succs b := fun t mem => ahead t (mem_cons_of_mem _ mem)
    -- the successor looked at is listed now
    have lessWaits : ∀ listing, w.listing <+ listing → Looked g listing b s →
        ∀ t ∈ g.succs b, t ∈ rest ∨ Looked g listing b t := by
      intro listing old new t succ
      rcases looked t succ with waits | known
      · rcases mem_cons.mp waits with rfl | waits
        · exact .inr new
        · exact .inl waits
      · exact .inr (known.mono old)
    have split : w.listing = ((way.map (·.1)).reverse ++ [b]) ++ w.order := by simp [listing, at_]
    have chain : (b :: way.map (·.1)).IsChain fun b a => b ∈ g.succs a := by simpa [at_] using chain
    by_cases known : w.has s = true
    · rw [if_pos known]
      have same : (Walk.mk ((b, rest) :: way) w.met w.order).listing = w.listing := by simp [listing, at_]
      have mem := (listed.known s low).mp known
      refine ⟨same ▸ listed, same ▸ finished, forall_mem_cons.mpr ⟨⟨lessAhead, ?_⟩, same ▸ others⟩, chain⟩
      -- a block on the way leads to the current one, and a finished one is listed behind it
      refine same ▸ lessWaits _ (Sublist.refl _) ⟨mem, ?_⟩
      rw [split, mem_append] at mem
      rcases mem with on | done
      · exact .inr (leads_of_chain chain (by simpa [or_comm] using on))
      · rw [split]
        exact .inl ((sublist_append_right _ [b]).append (singleton_sublist.mpr done))
    · rw [if_neg known]
      have new : ∀ met, (Walk.mk ((s, g.succs s) :: (b, rest) :: way) met w.order).listing =
          ((way.map (·.1)).reverse ++ [b]) ++ s :: w.order := by simp [listing]
      have grows : w.listing <+ ((way.map (·.1)).reverse ++ [b]) ++ s :: w.order := by
        rw [split]
        exact (Sublist.refl _).append (sublist_cons_self s _)
      have behind : [b, s] <+ ((way.map (·.1)).reverse ++ [b]) ++ s :: w.order :=
        (sublist_append_right _ [b]).append (singleton_sublist.mpr mem_cons_self)
      refine ⟨?_, ?_, ?_, isChain_cons_cons.mpr ⟨next, chain⟩⟩ <;> rw [new]
      · exact (split ▸ listed).enter (by simp) next low (Bool.eq_false_iff.mpr known)
      · exact fun c done t succ => (finished c done t succ).mono grows
      · refine forall_mem_cons.mpr ⟨⟨fun _ => id, fun _ => .inl⟩,
          forall_mem_cons.mpr ⟨⟨lessAhead, lessWaits _ grows ⟨by simp, .inl behind⟩⟩, fun e on => ?_⟩⟩
        exact ⟨(others e on).1, fun t succ => ((others e on).2 t succ).imp_right (·.mono grows)⟩

/-- The turns a walk still takes for the blocks on its way. -/
def due (w : Walk) : Nat := (w.way.map fun e => e.2.length + 1).sum

/-- The turns taken by a walk that finishes the blocks it has met. -/
def cost (g : Graph) (w : Walk) : Nat := (w.listing.map g.turnsAt).sum

lemma due_step (goesOn : w.way ≠ []) : (w.step g).due + w.cost g + 1 = w.due + (w.step g).cost g := by
  unfold Walk.step
  split
  · contradiction
  · rename_i b way at_
    simp [due, cost, listing, at_]
    omega
  · rename_i b s rest way at_
    split
    · simp [due, cost, listing, at_]
      omega
    · simp [due, cost, listing, at_, turnsAt]
      omega

lemma Sound.cost_le (sound : w.Sound g) : w.cost g ≤ g.turns := by
  rw [← sum_turnsAt]
  obtain ⟨l, perm, sub⟩ := subperm_range sound.listed.nodup sound.listed.inside
  calc w.cost g = (l.map g.turnsAt).sum := ((perm.map _).sum_eq).symm
    _ ≤ _ := (sub.map _).sum_le_sum fun _ _ => Nat.zero_le _

lemma Sound.run (formed : g.WellFormed) (turns : Nat) (sound : w.Sound g) (enough : g.turns + w.due ≤ turns + w.cost g)
    : (Walk.run g turns w).Sound g ∧ (Walk.run g turns w).way = [] := by
  induction turns generalizing w with
  | zero =>
    refine ⟨sound, ?_⟩
    have bound := sound.cost_le
    have none : w.due = 0 := by omega
    cases at_ : w.way with
    | nil => exact at_
    | cons e way => simp [due, at_] at none
  | succ turns ih =>
    rw [Walk.run]
    split
    · rename_i done
      exact ⟨sound, isEmpty_iff.mp done⟩
    · rename_i goesOn
      have spent := due_step (g := g) (mt isEmpty_iff.mpr goesOn)
      exact ih (sound.step formed) (by omega)

end Walk

lemma idxOf_lt_of_sublist {a : Nat} (nodup : l.Nodup) (sub : [a, b] <+ l) : l.idxOf a < l.idxOf b := by
  induction l with
  | nil => cases sub
  | cons c l ih =>
    obtain ⟨fresh, nodup⟩ := nodup_cons.mp nodup
    cases sub with
    | cons _ sub =>
      have inA : a ∈ l := sub.subset mem_cons_self
      have inB : b ∈ l := sub.subset (mem_cons_of_mem _ mem_cons_self)
      rw [idxOf_cons_ne _ (by grind), idxOf_cons_ne _ (by grind)]
      exact Nat.succ_lt_succ (ih nodup sub)
    | cons_cons _ sub =>
      have inB : b ∈ l := sub.subset mem_cons_self
      rw [idxOf_cons_self, idxOf_cons_ne _ (by grind)]
      exact Nat.succ_pos _

/-- The reachable blocks, each once, the entry first, and each other block behind one that it can
follow. -/
structure Ordered (g : Graph) (order : List Nat) : Prop where
  nodup : order.Nodup
  first : order.head? = some 0
  inside : ∀ b ∈ order, b < g.size
  mem_iff : ∀ b, b ∈ order ↔ Reached g b
  led : ∀ b ∈ order, b ≠ 0 → ∃ a ∈ order, b ∈ g.succs a ∧ order.idxOf a < order.idxOf b
  back : ∀ a ∈ order, ∀ b ∈ g.succs a, order.idxOf b ≤ order.idxOf a → g.Leads b a

lemma WellFormed.run_start (formed : g.WellFormed) :
    (Walk.run g g.turns (.start g)).Sound g ∧ (Walk.run g g.turns (.start g)).way = [] :=
  (Walk.sound_start formed.pos).run formed g.turns (by simp [Walk.due, Walk.cost, Walk.listing, Walk.start, turnsAt])

lemma WellFormed.ordered (formed : g.WellFormed) : Ordered g g.reversePostorder := by
  have pos := formed.pos
  obtain ⟨⟨listed, finished, -, -⟩, ended⟩ := formed.run_start
  have order : (Walk.run g g.turns (.start g)).listing = g.reversePostorder := by
    rw [reversePostorder, if_neg (Nat.ne_of_gt pos), Walk.listing, ended]
    rfl
  have done : (Walk.run g g.turns (.start g)).order = g.reversePostorder := by
    rw [reversePostorder, if_neg (Nat.ne_of_gt pos)]
  rw [order] at listed finished
  rw [done] at finished
  refine ⟨listed.nodup, listed.first, listed.inside, fun b => ⟨listed.reached b, ?_⟩, fun b mem other => ?_,
    fun a mem b next back => ?_⟩
  · rintro ⟨way, route⟩
    induction route with
    | entry => exact mem_of_mem_head? listed.first
    | step _ next ih => exact (finished _ ih _ next).mem
  · obtain ⟨a, follows, earlier⟩ := listed.led b mem other
    exact ⟨a, earlier.subset mem_cons_self, follows, idxOf_lt_of_sublist listed.nodup earlier⟩
  · exact (finished a mem b next).forward.resolve_left fun forward =>
      Nat.not_lt.mpr back (idxOf_lt_of_sublist listed.nodup forward)

lemma WellFormed.lt_of_reached (formed : g.WellFormed) (reached : Reached g b) : b < g.size :=
  formed.ordered.inside b ((formed.ordered.mem_iff b).mpr reached)

lemma getElem?_reachable (g : Graph) (b : Nat) :
    g.reachable[b]? = if b < g.size then some (decide (b ∈ g.reversePostorder)) else none := by
  rw [reachable, Peephole.getElem?_setMarks]
  grind

end WireCodec.Graph
