import WireCodec.Flow.Pruning
import WireCodec.Proofs.Flow.Blocks
import WireCodec.Proofs.Program.Building

/-! Dropping unreachable blocks. A run never comes to an instruction that is dropped, and what stays
obeys the rules: a branch that stays leads to a block that stays. -/
namespace WireCodec

open List Machine

namespace Graph

variable {code : Instrs} {g : Graph} {table : HandleTable} {pc t : Nat} {i : Instr Nat}

def stays (g : Graph) (pc : Nat) : Bool := ((g.blockOf[pc]?).map fun b => g.kept[b]?.getD false).getD false

/-- How many instructions stay before a place. -/
def place (g : Graph) (t : Nat) : Nat := (List.range t).countP g.stays

def pruned (g : Graph) (code : Instrs) : Instrs :=
  ((code.zipIdx.filter fun e => g.stays e.2).map (·.1)).map (Instr.mapTargets g.place)

lemma place_succ (stay : g.stays pc = true) : g.place (pc + 1) = g.place pc + 1 := by
  simp [place, range_succ, stay]

lemma place_mono {a b : Nat} (le : a ≤ b) : g.place a ≤ g.place b :=
  (range_sublist.mpr le).countP_le

lemma getElem?_kept (g : Graph) {b : Nat} (low : b < g.size) :
    g.kept[b]? = some (decide (b ∈ g.reversePostorder ∨ b = g.size - 1)) := by
  have marked := g.getElem?_reachable b
  rw [if_pos low] at marked
  have inside := (Array.getElem?_eq_some_iff.mp marked).1
  rw [kept, Array.getElem?_setIfInBounds, marked]
  grind

section

variable (flow : Describes code g) (lawful : Lawful table code)
include flow lawful

lemma stays_iff : g.stays pc = true ↔ ∃ b, g.blockOf[pc]? = some b ∧ (Reached g b ∨ b + 1 = g.size) := by
  have order := (flow.wellFormed lawful).ordered
  rw [stays, flow.numbered]
  rcases Nat.lt_or_ge pc code.length with low | high
  · have inside := flow.number_lt low
    simp only [getElem?_numbers low, Option.map_some, Option.getD_some, g.getElem?_kept inside, decide_eq_true_eq,
      order.mem_iff, Option.some.injEq, exists_eq_left']
    exact or_congr_right (by omega)
  · simp [Array.getElem?_eq_none (size_numbers code ▸ high)]

lemma stays_last : g.stays (code.length - 1) = true := by
  have pos := lawful.pos
  have low : code.length - 1 < code.length := by omega
  have count := (numberOf_eq_iff low).mp rfl
  rw [Nat.sub_add_cancel pos] at count
  exact (stays_iff flow lawful).mpr ⟨_, flow.numbered ▸ getElem?_numbers low, .inr (count ▸ flow.size.symm)⟩

lemma place_lt (low : t < code.length) : g.place t < g.place code.length := by
  have last := place_succ (stays_last flow lawful)
  have before := place_mono (g := g) (Nat.le_sub_one_of_lt low)
  rw [Nat.sub_add_cancel lawful.pos] at last
  omega

lemma stays_target (at_ : code[pc]? = some i)
    (stay : g.stays pc = true) (target : t ∈ i.targets) : g.stays t = true := by
  have low := (List.getElem?_eq_some_iff.mp at_).1
  have lowTarget := lawful.target at_ target
  obtain ⟨b, number, reached⟩ := (stays_iff flow lawful).mp stay
  rw [flow.numbered, getElem?_numbers low, Option.some.injEq] at number
  subst number
  refine (stays_iff flow lawful).mpr ⟨_, flow.numbered ▸ getElem?_numbers lowTarget, .inl ?_⟩
  rcases reached with reached | last
  · exact reached.step (flow.branch at_ target)
  -- a branch in the last block would be the last instruction, which is the halt
  · have final := lawful.last
    rw [getLast?_eq_getElem?] at final
    have lowLast := (List.getElem?_eq_some_iff.mp final).1
    have same : numberOf code (code.length - 1) = numberOf code pc := by
      rw [numberOf_eq_iff lowLast, last, flow.size, Nat.sub_add_cancel lawful.pos]
    obtain ⟨⟨start, stop⟩, span⟩ : ∃ range, (spans code)[numberOf code pc]? = some range :=
      ⟨_, getElem?_eq_getElem (length_spans lawful.pos ▸ numberOf_lt low)⟩
    have stop := (ends_of_target at_ target).eq_stop low span
    rw [← same] at span
    have stopLast := Ends.eq_stop (.inl (Nat.sub_add_cancel lawful.pos)) lowLast span
    rw [show pc = code.length - 1 by omega, final] at at_
    cases at_
    cases target

end

lemma countP_zipIdx (n : Nat) (low : n ≤ code.length) :
    (code.zipIdx.take n).countP (fun e => g.stays e.2) = g.place n := by
  rw [place, show (fun e : Instr Nat × Nat => g.stays e.2) = g.stays ∘ Prod.snd from rfl, ← countP_map,
    map_take, zipIdx_map_snd, ← range_eq_range', take_range, Nat.min_eq_left low]

lemma getElem?_pruned (at_ : code[pc]? = some i) (stay : g.stays pc = true) :
    (pruned g code)[g.place pc]? = some (i.mapTargets g.place) := by
  have low := (List.getElem?_eq_some_iff.mp at_).1
  have entry : code.zipIdx[pc]? = some (i, pc) := by simp [getElem?_zipIdx, at_]
  have found := @getElem?_filter_countP _ (fun e => g.stays e.2) _ _ _ entry stay
  rw [countP_zipIdx pc (le_of_lt low)] at found
  rw [pruned, getElem?_map, getElem?_map, found]
  rfl

lemma lawful_pruned (flow : Describes code g) (lawful : Lawful table code) : Lawful table (pruned g code) := by
  have sub : (code.zipIdx.filter fun e => g.stays e.2).map (·.1) <+ code := by
    have := (filter_sublist (p := fun e : Instr Nat × Nat => g.stays e.2) (l := code.zipIdx)).map Prod.fst
    rwa [zipIdx_map_fst] at this
  have length : ((code.zipIdx.filter fun e => g.stays e.2).map (·.1)).length = g.place code.length := by
    rw [length_map, ← countP_eq_length_filter, ← countP_zipIdx _ le_rfl, take_of_length_le (le_of_eq length_zipIdx)]
  refine lawful.of_sublist sub ?_ fun t low => length ▸ place_lt flow lawful low
  have final : code.zipIdx.getLast? = some (.halt, code.length - 1) := by
    rw [getLast?_zipIdx, lawful.last, Nat.zero_add]
    rfl
  obtain ⟨front, split⟩ := List.getLast?_eq_some_iff.mp final
  rw [split, filter_append, map_append]
  simp [stays_last flow lawful]

lemma nop_not_mem_pruned (noNop : Instr.nop ∉ code) : Instr.nop ∉ pruned g code := by
  intro mem
  obtain ⟨i, member, same⟩ := List.mem_map.mp mem
  obtain ⟨entry, listed, rfl⟩ := List.mem_map.mp member
  exact noNop (Peephole.mapTargets_eq_nop_iff.mp same ▸ fst_mem_of_mem_zipIdx (List.mem_filter.mp listed).1)

lemma thins_pruned (flow : Describes code g) (lawful : Lawful table code) :
    Thins code (pruned g code) g.place fun pc => pc < code.length ∧ Reached g (numberOf code pc) := by
  rintro pc ⟨low, reached⟩
  have at_ := getElem?_eq_getElem low
  have stay : g.stays pc = true := (stays_iff flow lawful).mpr ⟨_, flow.numbered ▸ getElem?_numbers low, .inl reached⟩
  refine .inl ⟨_, at_, getElem?_pruned at_ stay, fun t target => ?_, fun falls => ⟨?_, place_succ stay⟩⟩
  · exact ⟨lawful.target at_ target, reached.step (flow.branch at_ target)⟩
  · obtain ⟨j, next⟩ := lawful.succ at_ fun halt => by
      rw [halt] at falls
      cases falls
    have more := (List.getElem?_eq_some_iff.mp next).1
    rcases flow.fall at_ falls more with same | follows
    · exact ⟨more, same ▸ reached⟩
    · exact ⟨more, reached.step follows⟩

end Graph

open WireCodec.Graph

variable {code : Instrs} {g : Graph} {table : HandleTable} {p : Program}

lemma getElem?_placesFrom (next : Nat) (keeps : List Bool) (k : Nat) (keep : keeps[k]? = some true) :
    (placesFrom next keeps)[k]? = some (some (next + (keeps.take k).count true)) := by
  induction keeps generalizing next k with
  | nil => cases keep
  | cons first rest ih =>
    cases k with
    | zero =>
      obtain rfl := Option.some.inj keep
      simp [placesFrom]
    | succ k =>
      cases first <;> simp [placesFrom, ih _ k keep]
      omega

lemma relocate_eq_ok {i : Instr Nat} {n pc : Nat} (stay : ∀ t ∈ i.targets, t < n ∧ g.stays t = true) :
    relocate (placesFrom 0 ((List.range n).map g.stays)).toArray pc i = .ok (i.mapTargets g.place) := by
  have places : ∀ t ∈ i.targets, (placesFrom 0 ((List.range n).map g.stays))[t]? = some (some (g.place t)) := by
    intro t target
    obtain ⟨low, stays⟩ := stay t target
    rw [getElem?_placesFrom 0 _ t (by simp [low, stays]), ← map_take, take_range, Nat.min_eq_left (le_of_lt low),
      Nat.zero_add, List.count, countP_map, place]
    congr 3
    funext k
    simp
  rw [relocate, if_pos]
  · exact congrArg _ (Peephole.mapTargets_congr fun t target => by simp [places t target])
  · exact List.all_eq_true.mpr fun t target => by simp [places t target]

lemma pruned_eq_self (all : ∀ pc < code.length, g.stays pc = true) (lawful : Lawful table code) :
    pruned g code = code := by
  have same : ∀ t ≤ code.length, g.place t = t := by
    intro t le
    rw [place, countP_eq_length.mpr fun pc mem => all pc (lt_of_lt_of_le (List.mem_range.mp mem) le), length_range]
  rw [pruned, filter_eq_self.mpr fun e mem => all e.2 (snd_lt_of_mem_zipIdx mem), zipIdx_map_fst]
  refine (map_congr_left fun i mem => ?_).trans (map_id code)
  rw [Peephole.mapTargets_congr (g := id) fun t target => same t (le_of_lt ((lawful.each i mem).inside t target))]
  exact i.mapTargets_id

lemma marks_eq (flow : Describes code g) :
    (g.blockOf.toList.map fun b => g.kept[b]?.getD false) = (List.range code.length).map g.stays := by
  refine ext_getElem? fun pc => ?_
  rw [getElem?_map, getElem?_map, Array.getElem?_toList]
  rcases Nat.lt_or_ge pc code.length with low | high
  · simp [low, stays, flow.numbered, getElem?_numbers low]
  · simp [high, flow.numbered, size_numbers]

lemma Program.prune_eq_ok (flow : Describes p.code.toList g) (lawful : Lawful table p.code.toList) :
    p.prune g = .ok (p.withCode (pruned g p.code.toList)) := by
  rw [prune]
  split
  · rename_i all
    rw [pruned_eq_self (fun pc low => ?_) lawful, p.withCode_toList]
    · rfl
    · have kept := g.getElem?_kept (flow.number_lt low)
      have inside := (Array.getElem?_eq_some_iff.mp kept).1
      have keep := Array.all_eq_true.mp all _ inside
      simp_all [stays, flow.numbered, getElem?_numbers low]
  · have entries : ((p.code.toList.zip ((List.range p.code.toList.length).map g.stays)).zipIdx) =
        p.code.toList.zipIdx.map fun e => ((e.1, g.stays e.2), e.2) := by
      refine ext_getElem? fun pc => ?_
      rcases Nat.lt_or_ge pc p.code.toList.length with low | high
      · simp_all
      · simp_all
    have relocated := Peephole.mapM_eq_ok (l := (p.code.toList.zipIdx.filter fun e => g.stays e.2).map
        fun e => ((e.1, g.stays e.2), e.2))
      (f := fun entry => relocate (placesFrom 0 ((List.range p.code.toList.length).map g.stays)).toArray entry.2 entry.1.1)
      (g := fun entry => entry.1.1.mapTargets g.place) fun entry mem => ?_
    · simp only [marks_eq flow, entries, filter_map, Function.comp_def, relocated]
      rw [pruned, map_map, map_map]
      rfl
    · obtain ⟨⟨i, pc⟩, listed, rfl⟩ := List.mem_map.mp mem
      obtain ⟨there, stay⟩ := List.mem_filter.mp listed
      have at_ := mem_zipIdx_iff_getElem?.mp there
      exact relocate_eq_ok fun t target => ⟨lawful.target at_ target, stays_target flow lawful at_ stay target⟩

lemma Program.verify_pruned (flow : Describes p.code.toList g) (checked : verifyCode table p.code.toList = .ok ()) :
    verifyCode table (p.withCode (pruned g p.code.toList)).code.toList = .ok () := by
  obtain ⟨lawful, noNop⟩ := verifyCode_eq_ok_iff.mp checked
  exact verifyCode_eq_ok_iff.mpr ⟨lawful_pruned flow lawful, nop_not_mem_pruned noNop⟩

/-- The graph of a program that passes the check can be built, and what is left of the program
after pruning passes the check. -/
lemma Program.prune_ok (checked : verifyCode table p.code.toList = .ok ()) : ∃ g q, Graph.build? p.code = some g ∧
    p.prune g = .ok q ∧ q.job = p.job ∧ verifyCode table q.code.toList = .ok () := by
  have lawful := (verifyCode_eq_ok_iff.mp checked).1
  obtain ⟨g, built, flow⟩ := build?_some lawful
  exact ⟨g, _, built, prune_eq_ok flow lawful, rfl, verify_pruned flow checked⟩

/-- Pruning a built program succeeds and leaves a program that passes the check: the instructions of
the blocks that can be reached and of the last block, in order, with branches that lead where they
led. It does what the program did. -/
theorem Program.prune_keeps_runs (d : Draft) (table : HandleTable) (p : Program) (built : d.build table = .ok p) :
    ∃ (g : Graph) (q : Program) (keep : Nat → Bool) (place : Nat → Nat),
      Graph.build? p.code = some g ∧ p.prune g = .ok q ∧ verifyCode table q.code.toList = .ok () ∧
      (∀ pc, keep pc = true ↔ ∃ b, g.blockOf[pc]? = some b ∧ (Reached g b ∨ b + 1 = g.size)) ∧
      q.code.toList = ((p.code.toList.zipIdx.filter fun e => keep e.2).map (·.1)).map (Instr.mapTargets place) ∧
      (∀ pc i, p.code[pc]? = some i → keep pc = true →
        q.code[place pc]? = some (i.mapTargets place) ∧ ∀ t ∈ i.targets, keep t = true) ∧
      ∀ {σ : Type} (handles : HandleTable) (caller : Caller σ) (c : Context) (s : σ),
        run handles caller q c s = run handles caller p c s := by
  have checked := Draft.build_checked built
  have lawful := (verifyCode_eq_ok_iff.mp checked).1
  obtain ⟨g, graph, flow⟩ := build?_some lawful
  refine ⟨g, _, g.stays, g.place, graph, prune_eq_ok flow lawful, verify_pruned flow checked,
    fun pc => stays_iff flow lawful, rfl, fun pc i at_ stay => ?_, fun handles caller c s => ?_⟩
  · rw [← Array.getElem?_toList] at at_
    exact ⟨p.withCode_getElem? .. ▸ getElem?_pruned at_ stay, fun t => stays_target flow lawful at_ stay⟩
  · have start : Reached g (numberOf p.code.toList 0) := by
      rw [(numberOf_eq_iff lawful.pos).mpr (opened_one lawful.pos)]
      exact ⟨_, .entry⟩
    have same := @Thins.runFrom_eq _ _ handles caller p _ _ _ _ (thins_pruned flow lawful) ⟨lawful.pos, start⟩
      (.start c) s
    rw [p.withCode_toList] at same
    exact same

def jumpOver : Program := ⟨"over", .decode, #[.jump 2, .movImm (.r 0) 1, .halt]⟩

theorem Program.prune_keeps_runs_jumpOver : ∃ g q, Graph.build? jumpOver.code = some g ∧ jumpOver.prune g = .ok q ∧
    q.code = #[.jump 1, .halt] ∧ ∀ (c : Context) (s : Unit), run Builtin.table (fun _ _ _ _ => none) q c s = run
    Builtin.table (fun _ _ _ _ => none) jumpOver c s := by
  have built : (⟨"over", .decode, #[.jump 0, .movImm (.r 0) 1, .halt], #[some 2]⟩ : Draft).build Builtin.table =
      .ok jumpOver := rfl
  obtain ⟨g, q, -, -, graph, pruned, -, -, -, -, same⟩ := Program.prune_keeps_runs _ _ _ built
  have code : ((Graph.build? jumpOver.code).bind fun g => (jumpOver.prune g).toOption).map (·.code) =
      some #[.jump 1, .halt] := by decide +kernel
  rw [graph, Option.bind_some, pruned] at code
  exact ⟨g, q, graph, pruned, Option.some.inj code, same _ _⟩

end WireCodec
