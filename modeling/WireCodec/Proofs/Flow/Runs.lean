import WireCodec.Proofs.Flow.Pruning

/-! The flow graph describes every run. Blocks divide the code into runs of instructions that are as
long as they can be, and a step of the machine either goes on inside its block or leaves it from its
last instruction to the start of a block that can follow. -/
namespace WireCodec

open Machine List

/-- Where control goes from instruction `pc`, unless the run stops. -/
def Control.leads (pc : Nat) : Control → Option Nat
  | .next => some (pc + 1)
  | .jump target => some target
  | .stop => none

namespace Graph

variable {code : Instrs} {g : Graph} {table : HandleTable} {a b t pc start stop start' stop' : Nat}
  {block : Block}

/-- The blocks follow each other from the start of the code to its end, none is empty, and each
instruction has the number of the block that holds it. -/
structure Divides (g : Graph) (size : Nat) : Prop where
  first : g.blocks[0]?.map (·.start) = some 0
  nonempty : ∀ (b : Nat) (block : Block), g.blocks[b]? = some block → block.start < block.stop
  consecutive : ∀ (b : Nat) (block next : Block), g.blocks[b]? = some block → g.blocks[b + 1]? = some next →
    next.start = block.stop
  last : ∀ block, g.blocks[g.size - 1]? = some block → block.stop = size
  holds : ∀ pc b, g.blockOf[pc]? = some b ↔
    ∃ block : Block, g.blocks[b]? = some block ∧ block.start ≤ pc ∧ pc < block.stop

lemma spans_consecutive (span : (spans code)[b]? = some (start, stop))
    (span' : (spans code)[b + 1]? = some (start', stop')) : start' = stop := by
  obtain ⟨-, last⟩ := List.getElem?_zip_eq_some.mp span
  obtain ⟨first, -⟩ := List.getElem?_zip_eq_some.mp span'
  have low := (List.getElem?_eq_some_iff.mp first).1
  rw [stops, getElem?_append_left (by rw [length_drop]; omega), getElem?_drop, Nat.add_comm, first] at last
  exact Option.some.inj last

lemma spans_start (span : (spans code)[b]? = some (start, stop)) : (leaders code)[start]? = some true := by
  obtain ⟨first, -⟩ := List.getElem?_zip_eq_some.mp span
  obtain ⟨_, rfl, leads, -⟩ := getElem?_startsFrom.mp first
  rwa [Nat.zero_add]

lemma eq_start_of_leads (leads : (leaders code)[t]? = some true) (low : t < code.length)
    (span : (spans code)[numberOf code t]? = some (start, stop)) : t = start := by
  obtain ⟨less, inside, -, holds⟩ := spans_spec span
  obtain ⟨behind, -⟩ := (holds t low).mpr rfl
  have number := (holds start (by omega)).mp ⟨le_rfl, less⟩
  by_contra other
  have := opened_mono code (show start + 1 ≤ t by omega)
  rw [(numberOf_eq_iff (by omega)).mp number, ← (numberOf_eq_iff low).mp rfl, opened_succ, if_pos leads] at this
  omega

lemma cause_of_leads (leads : (leaders code)[pc + 1]? = some true) :
    (∃ i, code[pc]? = some i ∧ i.isTerminator = true) ∨ ∃ i ∈ code, pc + 1 ∈ i.targets := by
  have low := (List.getElem?_eq_some_iff.mp leads).1
  rw [length_leaders] at low
  have at_ := getElem?_eq_getElem (Nat.lt_of_succ_lt low)
  obtain ⟨marked, pair⟩ := Peephole.mark_getElem? at_
  obtain ⟨next, nextPair⟩ := Peephole.mark_getElem? (getElem?_eq_getElem low)
  have cause : (leaders code)[pc + 1]? = some (code[pc].isTerminator || next) :=
    (leadersFrom_succ pair).trans (by rw [nextPair]; rfl)
  rw [cause, Option.some.injEq, Bool.or_eq_true] at leads
  rcases leads with ends | rfl
  · exact .inl ⟨_, at_, ends⟩
  · exact .inr (List.mem_flatMap.mp (Peephole.mem_targets_of_mark nextPair))

namespace Describes

lemma block_of (flow : Describes code g) (low : b < g.size) :
    ∃ block, g.blocks[b]? = some block ∧ (spans code)[b]? = some (block.start, block.stop) :=
  ⟨_, Array.getElem?_eq_getElem low, flow.span b _ (Array.getElem?_eq_getElem low)⟩

lemma divides (flow : Describes code g) (lawful : Lawful table code) : Divides g code.length where
  first := by
    obtain ⟨block, at_, span⟩ := flow.block_of (flow.wellFormed lawful).pos
    have zero := (numberOf_eq_iff lawful.pos).mpr (opened_one lawful.pos)
    have := ((spans_spec span).2.2.2 0 lawful.pos).mpr zero
    rw [at_, Option.map_some, Nat.le_zero.mp this.1]
  nonempty b block at_ := (spans_spec (flow.span b block at_)).1
  consecutive b block next at_ at' := spans_consecutive (flow.span b block at_) (flow.span (b + 1) next at')
  last block at_ := by
    obtain ⟨less, inside, -, holds⟩ := spans_spec (flow.span _ block at_)
    have low : code.length - 1 < code.length := by have := lawful.pos; omega
    have number : numberOf code (code.length - 1) = g.size - 1 := by
      rw [numberOf, flow.size, Nat.sub_add_cancel lawful.pos]
    have := (holds _ low).mpr number
    omega
  holds pc b := by
    rw [flow.numbered]
    constructor
    · intro number
      have low := (Array.getElem?_eq_some_iff.mp number).1
      rw [size_numbers] at low
      obtain rfl := Option.some.inj ((getElem?_numbers low).symm.trans number)
      obtain ⟨block, at_, span⟩ := flow.block_of (flow.number_lt low)
      exact ⟨block, at_, ((spans_spec span).2.2.2 pc low).mpr rfl⟩
    · rintro ⟨block, at_, inside⟩
      obtain ⟨-, most, -, holds⟩ := spans_spec (flow.span b block at_)
      rw [getElem?_numbers (by omega), (holds pc (by omega)).mp inside]

lemma separated (flow : Describes code g) {next : Block} (at_ : g.blocks[b]? = some block)
    (at' : g.blocks[b + 1]? = some next) :
    (∃ i, code[block.stop - 1]? = some i ∧ i.isTerminator = true) ∨ ∃ i ∈ code, next.start ∈ i.targets := by
  have span := flow.span b block at_
  obtain ⟨less, -, -, -⟩ := spans_spec span
  have leads := spans_start (flow.span (b + 1) next at')
  rw [spans_consecutive span (flow.span (b + 1) next at')] at leads ⊢
  rw [show block.stop = block.stop - 1 + 1 by omega] at leads
  have cause := cause_of_leads leads
  rwa [Nat.sub_add_cancel (by omega)] at cause

lemma lands (flow : Describes code g) (lawful : Lawful table code) {i : Instr Nat} (at_ : code[pc]? = some i)
    (target : t ∈ i.targets) : ∃ there, g.blocks[numberOf code t]? = some there ∧ t = there.start := by
  have low := lawful.target at_ target
  obtain ⟨there, is, span⟩ := flow.block_of (flow.number_lt low)
  exact ⟨there, is, eq_start_of_leads (leaders_target at_ target low) low span⟩

variable {σ : Type} {caller : Caller σ} {eof : ErrorCode} {i : Instr Nat} {m m' : Machine} {s s' : σ} {control : Control}
  {pc' : Nat} {handles : HandleTable}

lemma step (flow : Describes code g) (lawful : Lawful table code) (at_ : code[pc]? = some i)
    (here : g.blocks[numberOf code pc]? = some block)
    (stepped : stepAny handles caller eof i m s = some (.ok (control, m', s'))) (leads : control.leads pc = some pc') :
    pc' = pc + 1 ∧ pc' < block.stop ∨ pc + 1 = block.stop ∧
      ∃ next ∈ block.succs, ∃ there, g.blocks[next]? = some there ∧ pc' = there.start := by
  have low := (List.getElem?_eq_some_iff.mp at_).1
  have span := flow.span _ block here
  have succs : g.succs (numberOf code pc) = block.succs := by rw [Graph.succs, here]
  cases control with
  | stop => cases leads
  | jump target =>
    obtain rfl := Option.some.inj leads
    have target := stepAny_jump stepped
    exact .inr ⟨(ends_of_target at_ target).eq_stop low span, _, succs ▸ flow.branch at_ target, flow.lands lawful at_ target⟩
  | next =>
    obtain rfl := Option.some.inj leads
    have falls := fallsThrough_of_next stepped
    obtain ⟨j, after⟩ := lawful.succ at_ (by rintro rfl; cases falls)
    have more := (List.getElem?_eq_some_iff.mp after).1
    obtain ⟨-, -, -, holds⟩ := spans_spec span
    have number := numberOf_succ more
    split at number
    · rename_i starts
      obtain ⟨there, is, span'⟩ := flow.block_of (flow.number_lt more)
      refine .inr ⟨Ends.eq_stop (.inr starts) low span, numberOf code (pc + 1), ?_, there, is,
        eq_start_of_leads starts more span'⟩
      exact succs ▸ (flow.fall at_ falls more).resolve_left (by omega)
    · exact .inl ⟨rfl, ((holds (pc + 1) more).mpr number).2⟩

/-- A run comes only to instructions of blocks that can be reached. -/
lemma visits {p : Program} (flow : Describes p.code.toList g) (lawful : Lawful table p.code.toList) {c : Context}
    {s₀ : σ} (visits : Visits handles caller p c s₀ pc m s) :
    pc < p.code.size ∧ Reached g (numberOf p.code.toList pc) := by
  induction visits with
  | start =>
    rw [(numberOf_eq_iff lawful.pos).mpr (opened_one lawful.pos)]
    exact ⟨by simpa using lawful.pos, _, .entry⟩
  | next _ at_ stepped ih =>
    rw [← Array.getElem?_toList] at at_
    have falls := fallsThrough_of_next stepped
    obtain ⟨j, after⟩ := lawful.succ at_ (by rintro rfl; cases falls)
    have more := (List.getElem?_eq_some_iff.mp after).1
    refine ⟨by simpa using more, ?_⟩
    rcases flow.fall at_ falls more with same | next
    · exact same ▸ ih.2
    · exact ih.2.step next
  | jump _ at_ stepped ih =>
    rw [← Array.getElem?_toList] at at_
    have target := stepAny_jump stepped
    exact ⟨by simpa using lawful.target at_ target, ih.2.step (flow.branch at_ target)⟩

end Describes

/-- The flow graph of a built program. Its blocks divide the code, each entered at its start only and
left at its end only, and two of them are separated only after a terminator or before a branch target.
In every run, control goes on inside a block, or from its end to the start of one of its successors. -/
theorem blocks_describe_runs (d : Draft) (table : HandleTable) (p : Program) (built : d.build table = .ok p) :
    ∃ g, Graph.build? p.code = some g ∧ Divides g p.code.size ∧
      (∀ a b, a ∈ g.preds b ↔ b ∈ g.succs a) ∧ (∀ b, (g.succs b).Nodup ∧ (g.preds b).Nodup) ∧
      (∀ (b : Nat) (block next : Block), g.blocks[b]? = some block → g.blocks[b + 1]? = some next →
        (∃ i, p.code[block.stop - 1]? = some i ∧ i.isTerminator = true) ∨ ∃ i ∈ p.code, next.start ∈ i.targets) ∧
      ∀ {σ : Type} (handles : HandleTable) (caller : Caller σ) (c : Context) (s₀ : σ) (pc : Nat) (m : Machine) (s : σ),
        Visits handles caller p c s₀ pc m s →
        ∃ b block, g.blockOf[pc]? = some b ∧ g.blocks[b]? = some block ∧ Reached g b ∧
          ∀ i control m' s' pc', p.code[pc]? = some i →
            stepAny handles caller p.job.eofCode i m s = some (.ok (control, m', s')) → control.leads pc = some pc' →
            pc' = pc + 1 ∧ pc' < block.stop ∨ pc + 1 = block.stop ∧
              ∃ next ∈ block.succs, ∃ there, g.blocks[next]? = some there ∧ pc' = there.start := by
  have lawful := (verifyCode_eq_ok_iff.mp (Draft.build_checked built)).1
  obtain ⟨g, graph, flow⟩ := build?_some lawful
  have formed := flow.wellFormed lawful
  refine ⟨g, graph, by simpa using flow.divides lawful, fun a b => ?_, flow.nodup, fun b block next at_ at' => ?_,
    fun handles caller c s₀ pc m s visits => ?_⟩
  · by_cases low : b < g.size
    · exact flow.preds_iff a b low
    · have none : g.preds b = [] := by rw [Graph.preds, Array.getElem?_eq_none (Nat.not_lt.mp low)]
      simpa [none] using fun next => low (formed.closed a b next)
  · simpa using flow.separated at_ at'
  · obtain ⟨low, reached⟩ := flow.visits lawful visits
    rw [← Array.length_toList] at low
    obtain ⟨block, here, -⟩ := flow.block_of (flow.number_lt low)
    refine ⟨_, block, flow.numbered ▸ getElem?_numbers low, here, reached, fun i control m' s' pc' at_ stepped leads => ?_⟩
    rw [← Array.getElem?_toList] at at_
    exact flow.step lawful at_ here stepped leads

def forked : Program := ⟨"forked", .decode, #[.switch (.r 0) [1, 1] 2, .movImm (.r 0) 1, .halt]⟩

theorem blocks_describe_runs_forked : ∃ g, Graph.build? forked.code = some g ∧ g.succs 0 = [1, 2] ∧
      ∃ block, g.blocks[0]? = some block ∧ ∃ next ∈ block.succs, ∃ there, g.blocks[next]? = some there ∧ there.start = 1 := by
  have built : (⟨"forked", .decode, #[.switch (.r 0) [0, 0] 1, .movImm (.r 0) 1, .halt], #[some 1, some 2]⟩ : Draft).build
      Builtin.table = .ok forked := rfl
  have found : (Graph.build? forked.code).map (fun g => (g.succs 0, g.blockOf[0]?, g.blocks[0]?.map (·.stop))) =
      some ([1, 2], some 0, some 1) := by decide +kernel
  obtain ⟨g, graph, -, -, -, -, runs⟩ := blocks_describe_runs _ _ _ built
  rw [graph, Option.map_some, Option.some.injEq, Prod.mk.injEq, Prod.mk.injEq] at found
  obtain ⟨b, block, number, here, -, steps⟩ := runs Builtin.table (fun _ _ _ _ => none)
    (.start #[] ⟨#[]⟩ 0 0 false) () 0 _ _ .start
  obtain rfl := Option.some.inj (number.symm.trans found.2.1)
  have stop : block.stop = 1 := by simpa [here] using found.2.2
  refine ⟨g, graph, found.1, block, here, ?_⟩
  rcases steps _ _ _ _ 1 rfl rfl rfl with ⟨-, more⟩ | ⟨-, next, mem, there, is, start⟩
  · omega
  · exact ⟨next, mem, there, is, start.symm⟩

end Graph

end WireCodec
