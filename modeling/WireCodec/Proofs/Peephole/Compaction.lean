import WireCodec.Proofs.Peephole.Refinement

/-! Code without its no-ops does what it did. An instruction moves to the place that tells how
many instructions before it are kept, and branches follow; in lawful code a halt is kept behind
every branch target, so that compaction succeeds. -/
namespace WireCodec

open List

namespace Peephole

open Machine

variable {σ : Type} {table rules : HandleTable} {caller : Caller σ} {p : Program} {i : Instr Nat} {pc t : Nat}
  {code : Instrs}

def kept (i : Instr Nat) : Bool := !i.isNop

def rank (code : Instrs) (t : Nat) : Nat := (code.take t).countP kept

lemma kept_eq_true_iff : kept i = true ↔ i ≠ .nop := by
  cases i <;> simp [kept, Instr.isNop]

lemma getElem?_ranksFrom (code : Instrs) (n : Nat) (low : t ≤ code.length) :
    (ranksFrom code n)[t]? = some (n + rank code t) := by
  induction code generalizing n t with
  | nil =>
    cases Nat.le_zero.mp low
    rfl
  | cons i rest ih =>
    cases t with
    | zero => rfl
    | succ t =>
      rw [ranksFrom, getElem?_cons_succ, ih _ (Nat.le_of_succ_le_succ low), rank, rank,
        take_succ_cons, countP_cons, kept]
      cases i.isNop <;> simp
      omega

lemma length_ranksFrom (code : Instrs) (n : Nat) : (ranksFrom code n).length = code.length + 1 := by
  induction code generalizing n with
  | nil => rfl
  | cons i rest ih => rw [ranksFrom, length_cons, ih, length_cons]

lemma rank_succ (at_ : code[pc]? = some i) : rank code (pc + 1) = rank code pc + if kept i then 1 else 0 := by
  rw [rank, rank, take_add_one, at_, countP_append]
  simp [countP_cons]

lemma getElem?_filter_rank (at_ : code[pc]? = some i) (keep : kept i = true) :
    (code.filter kept)[rank code pc]? = some i :=
  getElem?_filter_countP at_ keep

lemma rank_lt (lawful : Lawful rules code) (low : t < code.length) : rank code t < code.countP kept := by
  have last := lawful.last
  rw [getLast?_eq_getElem?] at last
  have split : code.countP kept = rank code t + (code.drop t).countP kept := by
    rw [rank, ← countP_append, take_append_drop]
  have mem : Instr.halt ∈ code.drop t := by
    rw [mem_iff_getElem?]
    refine ⟨code.length - 1 - t, ?_⟩
    rw [getElem?_drop, ← last]
    congr 1
    omega
  have positive : 0 < (code.drop t).countP kept := List.countP_pos_iff.mpr ⟨_, mem, rfl⟩
  omega

lemma mapM_eq_ok {α β ε : Type} {f : α → Except ε β} {g : α → β} {l : List α}
    (each : ∀ a ∈ l, f a = .ok (g a)) : l.mapM f = .ok (l.map g) := by
  induction l with
  | nil => rfl
  | cons a l ih =>
    obtain ⟨first, rest⟩ := List.forall_mem_cons.mp each
    rw [mapM_cons, first, ih rest]
    rfl

def compacted (code : Instrs) : Instrs :=
  (code.filter kept).map (Instr.mapTargets (rank code))

lemma mapTargets_congr {f g : Nat → Nat} (same : ∀ t ∈ i.targets, f t = g t) : i.mapTargets f = i.mapTargets g := by
  cases i with
  | switch src ts fallback =>
    simp only [Instr.targets, mem_append, mem_singleton] at same
    simp only [Instr.mapTargets]
    rw [map_congr_left fun t mem => same t (.inl mem), same fallback (.inr rfl)]
  | _ => simp_all [Instr.mapTargets, Instr.targets]

lemma compact_eq (code : Instrs) :
    compact code = (code.filter kept).mapM (retarget (code.countP kept) (rank code)) := by
  have ranked : (fun t => ((ranksFrom code 0).toArray[t]?).getD (keptCount code)) = rank code := by
    funext t
    rw [getElem?_toArray]
    by_cases low : t ≤ code.length
    · rw [getElem?_ranksFrom code 0 low, Nat.zero_add, Option.getD_some]
    · rw [getElem?_eq_none (by rw [length_ranksFrom]; omega), rank, take_of_length_le (by omega)]
      rfl
  unfold compact
  simp only [ranked]
  rfl

lemma retarget_eq_ok (inside : ∀ t ∈ i.targets, rank code t < code.countP kept) :
    retarget (code.countP kept) (rank code) i = .ok (i.mapTargets (rank code)) := by
  have none : i.targets.reverse.find? (fun t => code.countP kept ≤ rank code t) = none := by
    rw [find?_eq_none]
    intro t target
    rw [decide_eq_true_eq, Nat.not_le]
    exact inside t (List.mem_reverse.mp target)
  rw [retarget, none]

lemma compact_eq_ok (lawful : Lawful rules code) : compact code = .ok (compacted code) := by
  rw [compact_eq]
  exact mapM_eq_ok fun i mem => retarget_eq_ok fun t target =>
    rank_lt lawful ((lawful.each i (List.mem_filter.mp mem).1).inside t target)

/-! The rules. -/

lemma mapTargets_eq_nop_iff {g : Nat → Nat} : i.mapTargets g = .nop ↔ i = .nop := by
  cases i <;> simp [Instr.mapTargets]

lemma pace_mapTargets (g : Nat → Nat) (i : Instr Nat) : pace (i.mapTargets g) = pace i := by
  cases i <;> rfl

lemma length_compacted (code : Instrs) : (compacted code).length = code.countP kept := by
  rw [compacted, length_map, countP_eq_length_filter]

lemma nop_not_mem_compacted (code : Instrs) : .nop ∉ compacted code := by
  intro mem
  obtain ⟨i, member, eq⟩ := List.mem_map.mp mem
  exact kept_eq_true_iff.mp (List.mem_filter.mp member).2 (mapTargets_eq_nop_iff.mp eq)

lemma getLast?_filter_kept (lawful : Lawful rules code) : (code.filter kept).getLast? = some .halt := by
  obtain ⟨front, eq⟩ := List.getLast?_eq_some_iff.mp lawful.last
  rw [eq, filter_append]
  simp [kept, Instr.isNop]

lemma lawful_compacted (lawful : Lawful rules code) : Lawful rules (compacted code) :=
  lawful.of_sublist filter_sublist (getLast?_filter_kept lawful) fun _ low =>
    countP_eq_length_filter ▸ rank_lt lawful low

lemma demand_filter_kept (code : Instrs) : demand? ((code.filter kept).map pace) = demand? (code.map pace) := by
  induction code with
  | nil => rfl
  | cons i rest ih =>
    rw [filter_cons]
    split
    · rw [map_cons, map_cons]
      cases pace i <;> simp only [demand?, ih]
    · rename_i drop
      have nop : i = .nop := by
        by_contra notNop
        exact drop (kept_eq_true_iff.mpr notNop)
      subst nop
      rw [ih, map_cons, show pace .nop = .moves 0 from rfl, demand?]
      cases demand? (rest.map pace) <;> simp

lemma drop_filter_kept (code : Instrs) (k : Nat) : ∃ k', (code.filter kept).drop k = (code.drop k').filter kept := by
  induction code generalizing k with
  | nil => exact ⟨0, by simp⟩
  | cons i rest ih =>
    rw [filter_cons]
    split
    · rename_i keep
      cases k with
      | zero => exact ⟨0, by simp [keep]⟩
      | succ k =>
        obtain ⟨k', eq⟩ := ih k
        exact ⟨k' + 1, eq⟩
    · obtain ⟨k', eq⟩ := ih k
      exact ⟨k' + 1, eq⟩

lemma bounded_compacted {size : Nat} (bounded : Bounded size code) : Bounded size (compacted code) := by
  intro k need asked
  have paces : ((compacted code).drop k).map pace = ((code.filter kept).drop k).map pace := by
    rw [compacted, ← map_drop, map_map]
    exact map_congr_left fun i _ => pace_mapTargets _ i
  obtain ⟨k', eq⟩ := drop_filter_kept code k
  rw [paces, eq, demand_filter_kept] at asked
  exact bounded k' need asked

/-! Runs. -/

/-- Places with a kept instruction at them or behind them. -/
def Ahead (code : Instrs) (pc : Nat) : Prop := rank code pc < code.countP kept

lemma thins_compacted (last : (code.filter kept).getLast? = some .halt)
    (targets : ∀ i ∈ code, ∀ t ∈ i.targets, Ahead code t) : Thins code (compacted code) (rank code) (Ahead code) := by
  intro pc ahead
  have low : pc < code.length := by
    by_contra high
    rw [Ahead, rank, take_of_length_le (by omega)] at ahead
    exact Nat.lt_irrefl _ ahead
  have at_ := getElem?_eq_getElem low
  have succ := rank_succ at_
  by_cases keep : kept code[pc] = true
  · have moved := getElem?_filter_rank at_ keep
    rw [if_pos keep] at succ
    refine .inl ⟨_, at_, by rw [compacted, getElem?_map, moved]; rfl, targets _ (getElem_mem low), fun goesOn => ⟨?_, succ⟩⟩
    -- what is kept last is the halt
    by_contra final
    rw [Ahead] at ahead final
    rw [getLast?_eq_getElem?, ← countP_eq_length_filter,
      show code.countP kept - 1 = rank code pc by omega, moved] at last
    rw [Option.some.inj last] at goesOn
    cases goesOn
  · rw [if_neg keep] at succ
    have nop : code[pc] = .nop := not_not.mp (mt kept_eq_true_iff.mpr keep)
    exact .inr ⟨nop ▸ at_, by rwa [Ahead, succ], succ⟩

lemma repeats_compacted (lawful : Lawful rules code) : Repeats table caller p code (compacted code) := by
  intro m s stop f halts
  have thins := thins_compacted (getLast?_filter_kept lawful) fun i mem t target =>
    rank_lt lawful ((lawful.each i mem).inside t target)
  obtain ⟨halts', i, at_, moved⟩ := halts.thinned thins (rank_lt lawful lawful.pos)
  refine ⟨_, halts', fun ⟨width, value, there⟩ => ⟨width, value, ?_⟩⟩
  rw [moved, Option.some.injEq] at there
  rw [at_]
  cases i <;> simp_all [Instr.mapTargets]

end Peephole

end WireCodec
