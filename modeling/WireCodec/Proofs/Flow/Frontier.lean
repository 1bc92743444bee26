import WireCodec.Flow.Frontier
import WireCodec.Proofs.Flow.Dominance

/-! Frontiers and join points. On the way up from a predecessor of a join, the blocks below the parent
of the join are those that dominate the predecessor but not the join. Join values are needed where the
frontiers of the writers lead, again and again. -/
namespace WireCodec.Graph

open List

variable {g : Graph} {order : List Nat} {a b p : Nat}

/-- Dominance of `a` ends at `b`. -/
def InFrontier (g : Graph) (a b : Nat) : Prop :=
  Reached g a ∧ Reached g b ∧ (∃ p ∈ g.preds b, Reached g p ∧ Dominates g a p) ∧ ¬ (Dominates g a b ∧ a ≠ b)

lemma mem_takeWhile_wayUp {d : Dominance} {top : Nat} (tree : Tree order d.parent?) (turns : Nat)
    (onWay : Above d.parent? top p) (enough : order.idxOf p < turns) :
    a ∈ (d.wayUp turns p).takeWhile (· ≠ top) ↔ Above d.parent? a p ∧ ¬ Above d.parent? a top := by
  induction turns generalizing p with
  | zero => cases enough
  | succ turns ih =>
    obtain ⟨c, parent⟩ := Option.isSome_iff_exists.mp onWay.known
    rw [Dominance.wayUp, takeWhile_cons]
    by_cases last : p = top
    · simp [last]
    · have root : p ≠ 0 := by
        rintro rfl
        exact last (tree.above_root onWay rfl).symm
      have further := ((above_iff_parent parent).mp onWay).resolve_left (Ne.symm last)
      have less := tree.below parent root
      have under : ¬ Above d.parent? p top := fun above =>
        Nat.lt_irrefl _ (tree.rank_lt parent root (above.trans further))
      rw [if_pos (by simpa using last), immediate?_eq tree parent, if_neg root, List.mem_cons,
        ih further (by omega), above_iff_parent parent]
      refine ⟨?_, fun both => both.1.imp_right fun above => ⟨above, both.2⟩⟩
      rintro (rfl | ⟨above, free⟩)
      · exact ⟨.inl rfl, under⟩
      · exact ⟨.inr above, free⟩

lemma Above.known_top {f : Nat → Option Nat} {x : Nat} (above : Above f x b) : (f x).isSome := by
  induction above with
  | here known => exact known
  | up _ _ ih => exact ih

lemma endsAt_iff (formed : g.WellFormed) (noWay : g.preds 0 = []) :
    g.endsAt g.dominance a b = true ↔ InFrontier g a b := by
  obtain ⟨size, final, -⟩ := dominance_final formed
  have ordered := formed.ordered
  have reached_iff := @isSome_parent?_iff g
  rw [endsAt]
  cases parent : g.dominance.parent? b with
  | none =>
    refine ⟨nofun, fun ⟨_, reached, _⟩ => ?_⟩
    have := (reached_iff formed).mpr reached
    simp [parent] at this
  | some top =>
    have reachedB : Reached g b := (reached_iff formed).mp (by simp [parent])
    by_cases root : b = 0
    · subst root
      simp [InFrontier, noWay]
    have meets := (final.meets parent root).2
    have onAll := (meets top).mp (.here (final.tree.known parent))
    have between : ∀ p ∈ g.preds b, (g.dominance.parent? p).isSome →
        (a ∈ (g.dominance.above p).takeWhile (· ≠ top) ↔ Dominates g a p ∧ ¬ (Dominates g a b ∧ a ≠ b)) := by
      intro p pred known
      have mem := (ordered.mem_iff p).mpr ((reached_iff formed).mp known)
      have enough : g.reversePostorder.idxOf p < g.dominance.parents.size :=
        size ▸ lt_of_lt_of_le (idxOf_lt_length_of_mem mem) (length_order_le ordered)
      obtain ⟨c, up⟩ := Option.isSome_iff_exists.mp (final.tree.known parent)
      rw [Dominance.above, mem_takeWhile_wayUp final.tree _ (onAll p pred known) enough,
        final.above_iff formed ordered mem, final.above_iff formed ordered (final.tree.listed up),
        dominates_parent_iff formed parent root]
    simp only [Bool.and_eq_true, decide_eq_true_eq, List.any_eq_true, List.contains_iff_mem, List.mem_filter]
    constructor
    · rintro ⟨-, p, ⟨pred, known⟩, met⟩
      obtain ⟨dominates, free⟩ := (between p pred known).mp met
      have above := (final.above_iff formed ordered ((ordered.mem_iff p).mpr dominates.1)).mpr dominates
      exact ⟨(reached_iff formed).mp above.known_top, reachedB, ⟨p, pred, dominates.1, dominates⟩, free⟩
    · rintro ⟨-, -, ⟨p, pred, reached, dominates⟩, free⟩
      have known := (reached_iff formed).mpr reached
      refine ⟨?_, p, ⟨pred, known⟩, (between p pred known).mpr ⟨dominates, free⟩⟩
      -- the dominators of an only predecessor dominate the block
      by_contra single
      have only : ∀ q ∈ g.preds b, (g.dominance.parent? q).isSome → q = p := by
        intro q other knownQ
        have memP := List.mem_filter (p := fun p => (g.dominance.parent? p).isSome).mpr ⟨pred, known⟩
        have memQ := List.mem_filter (p := fun p => (g.dominance.parent? p).isSome).mpr ⟨other, knownQ⟩
        obtain ⟨q', is⟩ := List.length_eq_one_iff.mp
          (Nat.le_antisymm (Nat.le_of_lt_succ (Nat.not_le.mp single)) (length_pos_of_mem memP))
        rw [is, List.mem_singleton] at memP memQ
        rw [memP, memQ]
      have above := (final.above_iff formed ordered ((ordered.mem_iff p).mpr reached)).mpr dominates
      have onTop := (meets a).mpr fun q other knownQ => only q other knownQ ▸ above
      obtain ⟨c, up⟩ := Option.isSome_iff_exists.mp (final.tree.known parent)
      exact free ((dominates_parent_iff formed parent root).mp
        ((final.above_iff formed ordered (final.tree.listed up)).mp onTop))

lemma mem_frontiers_iff (formed : g.WellFormed) (noWay : g.preds 0 = []) :
    b ∈ (g.frontiers g.dominance)[a]?.getD [] ↔ InFrontier g a b := by
  rcases Nat.lt_or_ge a g.size with low | high
  · simp only [frontiers, Array.getElem?_ofFn, low, dif_pos, Option.getD_some, List.mem_filter, List.mem_range,
      endsAt_iff formed noWay]
    exact and_iff_right_of_imp fun ends => formed.lt_of_reached ends.2.1
  · simp only [frontiers, Array.getElem?_ofFn, Nat.not_lt.mpr high, dif_neg, not_false_iff, Option.getD_none]
    exact ⟨nofun, fun ends => absurd (formed.lt_of_reached ends.1) (Nat.not_lt.mpr high)⟩

/-! Spreading. -/

/-- The least set that holds what the starts lead to and what its own blocks lead to. -/
inductive Spread (starts : Nat → Prop) (leads : Nat → Nat → Prop) : Nat → Prop
  | start {a b : Nat} (begins : starts a) (edge : leads a b) : Spread starts leads b
  | next {a b : Nat} (before : Spread starts leads a) (edge : leads a b) : Spread starts leads b

section Spreading

variable {frontier : Nat → List Nat} {starts : Nat → Prop} {size : Nat} {work queued found : List Nat}

/-- What was queued is a start or was found, and once it is taken up its frontier is found. -/
structure Spreading (frontier : Nat → List Nat) (starts : Nat → Prop) (size : Nat) (work queued found : List Nat) :
    Prop where
  nodup : queued.Nodup
  inside : ∀ a ∈ queued, a < size
  waits : ∀ a ∈ work, a ∈ queued
  begun : ∀ a, starts a → a ∈ queued
  origin : ∀ a ∈ queued, starts a ∨ Spread starts (fun a b => b ∈ frontier a) a
  taken : ∀ a ∈ queued, a ∈ work ∨ ∀ b ∈ frontier a, b ∈ found
  sound : ∀ b ∈ found, b ∈ queued ∧ Spread starts (fun a b => b ∈ frontier a) b

lemma Spreading.mem_iff (done : Spreading frontier starts size [] queued found) :
    b ∈ found ↔ Spread starts (fun a b => b ∈ frontier a) b := by
  refine ⟨fun mem => (done.sound b mem).2, fun spread => ?_⟩
  induction spread with
  | start starts leads => exact (done.taken _ (done.begun _ starts)).resolve_left nofun _ leads
  | next _ leads ih => exact (done.taken _ (done.sound _ ih).1).resolve_left nofun _ leads

lemma Spreading.step (nodup : ∀ a, (frontier a).Nodup) (inside : ∀ a, ∀ b ∈ frontier a, b < size)
    (now : Spreading frontier starts size (a :: work) queued found) :
    let fresh := (frontier a).filter (!found.contains ·)
    let next := fresh.filter (!queued.contains ·)
    Spreading frontier starts size (next.reverse ++ work) (queued ++ next) (found ++ fresh) := by
  intro fresh next
  have memFresh : ∀ b, b ∈ fresh ↔ b ∈ frontier a ∧ b ∉ found := by simp [fresh]
  have memNext : ∀ b, b ∈ next ↔ b ∈ fresh ∧ b ∉ queued := by simp [next]
  have spreads : ∀ b ∈ frontier a, Spread starts (fun a b => b ∈ frontier a) b := fun b leads =>
    (now.origin a (now.waits a mem_cons_self)).elim (.start · leads) (.next · leads)
  refine ⟨?_, ?_, ?_, fun a begins => mem_append_left _ (now.begun a begins), ?_, ?_, ?_⟩
  · refine now.nodup.append (((nodup a).filter _).filter _) fun b old new => ?_
    exact ((memNext b).mp new).2 old
  · refine List.forall_mem_append.mpr ⟨now.inside, fun b new => ?_⟩
    exact inside a b ((memFresh b).mp ((memNext b).mp new).1).1
  · refine List.forall_mem_append.mpr ⟨fun b new => mem_append_right _ (List.mem_reverse.mp new), fun b waits => ?_⟩
    exact mem_append_left _ (now.waits b (mem_cons_of_mem _ waits))
  · refine List.forall_mem_append.mpr ⟨now.origin, fun b new => .inr (spreads b ?_)⟩
    exact ((memFresh b).mp ((memNext b).mp new).1).1
  · refine List.forall_mem_append.mpr ⟨fun b old => ?_, fun b new => .inl ?_⟩
    · rcases now.taken b old with waits | all
      · rcases List.mem_cons.mp waits with rfl | waits
        · refine .inr fun c leads => ?_
          by_cases known : c ∈ found
          · exact mem_append_left _ known
          · exact mem_append_right _ ((memFresh c).mpr ⟨leads, known⟩)
        · exact .inl (mem_append_right _ waits)
      · exact .inr fun c leads => mem_append_left _ (all c leads)
    · exact mem_append_left _ (List.mem_reverse.mpr new)
  · refine List.forall_mem_append.mpr ⟨fun b old => ?_, fun b new => ?_⟩
    · exact ⟨mem_append_left _ (now.sound b old).1, (now.sound b old).2⟩
    · refine ⟨?_, spreads b ((memFresh b).mp new).1⟩
      by_cases old : b ∈ queued
      · exact mem_append_left _ old
      · exact mem_append_right _ ((memNext b).mpr ⟨new, old⟩)

lemma Spreading.length_le (now : Spreading frontier starts size work queued found) : queued.length ≤ size :=
  length_le_of_nodup now.nodup now.inside

/-- Blocks are queued once, so that as many turns as there are blocks suffice. -/
lemma mem_spread (nodup : ∀ a, (frontier a).Nodup) (inside : ∀ a, ∀ b ∈ frontier a, b < size) (turns : Nat)
    (now : Spreading frontier starts size work queued found) (enough : size + work.length ≤ turns + queued.length) :
    b ∈ spread frontier turns work queued found ↔ Spread starts (fun a b => b ∈ frontier a) b := by
  induction turns generalizing work queued found with
  | zero =>
    have := now.length_le
    cases work with
    | nil => exact now.mem_iff
    | cons a work =>
      rw [length_cons] at enough
      omega
  | succ turns ih =>
    cases work with
    | nil => exact now.mem_iff
    | cons a work =>
      rw [spread]
      refine ih (now.step nodup inside) ?_
      simp only [length_append, length_reverse, length_cons] at enough ⊢
      omega

end Spreading

/-! Join values. -/

variable {code : Array (Instr Nat)} {table : HandleTable} {reg : Reg}

def Writes (g : Graph) (code : Array (Instr Nat)) (reg : Reg) (b : Nat) : Prop :=
  ∃ (pc : Nat) (i : Instr Nat), code[pc]? = some i ∧ g.blockOf[pc]? = some b ∧ reg ∈ i.defs

lemma mem_extract_iff {i : Instr Nat} {start stop : Nat} :
    i ∈ code.extract start stop ↔ ∃ pc, start ≤ pc ∧ pc < stop ∧ code[pc]? = some i := by
  rw [Array.mem_extract_iff_getElem]
  constructor
  · rintro ⟨k, low, is⟩
    exact ⟨start + k, by omega, by omega, Array.getElem?_eq_some_iff.mpr ⟨by omega, is⟩⟩
  · rintro ⟨pc, behind, ahead, at_⟩
    obtain ⟨low, is⟩ := Array.getElem?_eq_some_iff.mp at_
    refine ⟨pc - start, by omega, ?_⟩
    simpa only [Nat.add_sub_cancel' behind] using is

lemma mem_writers_iff (flow : Describes code.toList g) (formed : g.WellFormed) :
    b ∈ g.writers code reg ↔ Reached g b ∧ Writes g code reg b := by
  have ordered := formed.ordered
  have holds : ∀ (low : b < g.size) pc i, code[pc]? = some i →
      (g.blocks[b].start ≤ pc ∧ pc < g.blocks[b].stop ↔ g.blockOf[pc]? = some b) := by
    intro low pc i at_
    have inside := (List.getElem?_eq_some_iff.mp (Array.getElem?_toList ▸ at_)).1
    rw [(spans_spec (flow.span b _ (Array.getElem?_eq_getElem low))).2.2.2 pc inside, flow.numbered,
      getElem?_numbers inside, Option.some.injEq]
  rw [writers, List.mem_filter, List.mem_range, Bool.and_eq_true]
  refine ⟨fun ⟨low, reached, writes⟩ => ?_, fun ⟨reached, pc, i, at_, number, defs⟩ => ?_⟩
  · rw [getElem?_reachable, if_pos low, Option.getD_some, decide_eq_true_eq, ordered.mem_iff] at reached
    rw [Array.getElem?_eq_getElem low] at writes
    obtain ⟨i, mem, defs⟩ := Array.any_eq_true'.mp writes
    obtain ⟨pc, behind, ahead, at_⟩ := mem_extract_iff.mp mem
    exact ⟨reached, pc, i, at_, (holds low pc i at_).mp ⟨behind, ahead⟩, List.contains_iff_mem.mp defs⟩
  · have mem := (ordered.mem_iff b).mpr reached
    have low := ordered.inside b mem
    obtain ⟨behind, ahead⟩ := (holds low pc i at_).mpr number
    refine ⟨low, by simp [getElem?_reachable, low, mem], ?_⟩
    rw [Array.getElem?_eq_getElem low]
    exact Array.any_eq_true'.mpr ⟨i, mem_extract_iff.mpr ⟨pc, behind, ahead, at_⟩, List.contains_iff_mem.mpr defs⟩

lemma mem_joinsOf_iff (flow : Describes code.toList g) (formed : g.WellFormed) (noWay : g.preds 0 = []) :
    b ∈ g.joinsOf (fun b => (g.frontiers g.dominance)[b]?.getD []) code reg ↔
      Spread (fun a => Reached g a ∧ Writes g code reg a) (InFrontier g) b := by
  have leads : (fun a b => b ∈ (g.frontiers g.dominance)[a]?.getD []) = InFrontier g :=
    funext fun a => funext fun b => propext (mem_frontiers_iff formed noWay)
  rw [joinsOf, ← leads]
  refine @mem_spread _ _ _ g.size _ _ _ (fun a => ?_) (fun a b ends => ?_) _
    ⟨?_, fun a mem => ?_, fun _ => id, fun a => ?_, fun a mem => .inl ?_, fun _ => .inl, nofun⟩ le_rfl
  · simp only [frontiers, Array.getElem?_ofFn]
    split
    · exact nodup_range.filter _
    · exact nodup_nil
  · exact formed.lt_of_reached ((mem_frontiers_iff formed noWay).mp ends).2.1
  · exact nodup_reverse.mpr (nodup_range.filter _)
  · exact List.mem_range.mp (List.mem_filter.mp (List.mem_reverse.mp mem)).1
  · exact fun starts => List.mem_reverse.mpr ((mem_writers_iff flow formed).mpr starts)
  · exact (mem_writers_iff flow formed).mp (List.mem_reverse.mp mem)

lemma mem_joins_iff : (∃ regs, (g.joins code)[b]? = some regs ∧ reg ∈ regs) ↔
    b < g.size ∧ b ∈ g.joinsOf (fun b => (g.frontiers g.dominance)[b]?.getD []) code reg := by
  rw [joins]
  rcases Nat.lt_or_ge b g.size with low | high
  · simp [low, reg.mem_all]
  · simp [high]

/-- The frontiers of the blocks of a built program, no branch of which leads back to the first
instruction, and the join values that its registers need. A block is in the frontier of another that
dominates a predecessor of it but not, strictly, the block; and a join value is needed at the least set
of blocks that holds the frontiers of all blocks that write the register and of its own blocks. -/
theorem frontiers_correct (d : Draft) (table : HandleTable) (p : Program) (built : d.build table = .ok p)
    (forward : ∀ i ∈ p.code, 0 ∉ i.targets) : ∃ g, Graph.build? p.code = some g ∧
      (∀ a b, b ∈ (g.frontiers g.dominance)[a]?.getD [] ↔ Reached g a ∧ Reached g b ∧
        (∃ p ∈ g.preds b, Reached g p ∧ Dominates g a p) ∧ ¬ (Dominates g a b ∧ a ≠ b)) ∧
      ∀ reg b, (∃ regs, (g.joins p.code)[b]? = some regs ∧ reg ∈ regs) ↔
        Spread (fun a => Reached g a ∧ Writes g p.code reg a) (InFrontier g) b := by
  have lawful := (verifyCode_eq_ok_iff.mp (Draft.build_checked built)).1
  obtain ⟨g, graph, flow⟩ := build?_some lawful
  have formed := flow.wellFormed lawful
  have noWay : g.preds 0 = [] := by
    refine List.eq_nil_iff_forall_not_mem.mpr fun b pred => ?_
    obtain ⟨i, mem, target⟩ := flow.entry lawful ((formed.preds_iff b 0 formed.pos).mp pred)
    exact forward i (Array.mem_toList_iff.mp mem) target
  refine ⟨g, graph, fun a b => mem_frontiers_iff formed noWay, fun reg b => ?_⟩
  rw [mem_joins_iff, mem_joinsOf_iff flow formed noWay]
  refine and_iff_right_of_imp fun spread => ?_
  cases spread with
  | start _ ends | next _ ends => exact formed.lt_of_reached ends.2.1

theorem frontiers_correct_diamond : ∃ g, Graph.build? diamond.code = some g ∧ InFrontier g 1 3 ∧
      Spread (fun a => Reached g a ∧ Writes g diamond.code (.r 0) a) (InFrontier g) 3 := by
  have built : (⟨"diamond", .decode, #[.branchImm .eq (.r 0) 0 0, .movImm (.r 0) 1, .jump 1, .movImm (.r 0) 2, .halt],
      #[some 3, some 4]⟩ : Draft).build Builtin.table = .ok diamond := rfl
  have found : (Graph.build? diamond.code).map (fun g =>
      ((g.frontiers g.dominance)[1]?.getD [], (g.joins diamond.code)[3]?)) = some ([3], some [.r 0]) := by decide +kernel
  obtain ⟨g, graph, frontier, joins⟩ := frontiers_correct _ _ _ built (by decide)
  rw [graph, Option.map_some, Option.some.injEq, Prod.mk.injEq] at found
  exact ⟨g, graph, (frontier 1 3).mp (found.1 ▸ mem_cons_self), (joins (.r 0) 3).mp ⟨_, found.2, mem_cons_self⟩⟩

end WireCodec.Graph
