import WireCodec.Proofs.Flow.Order

/-! The blocks of a program. Blocks are numbered by their starts, so the number of an instruction's
block tells how many blocks start before it or at it. The last instruction of a block decides which
blocks can follow: those of its targets, and the next block if it falls through. -/
namespace WireCodec

open List

variable {stop start : Nat}

lemma Instr.isTerminator_of_target {τ : Type} {t : τ} (i : Instr τ) (target : t ∈ i.targets) :
    i.isTerminator = true := by
  cases i <;> first | rfl | cases target

namespace Graph

variable {code : Instrs} {g : Graph} {i : Instr Nat} {a b s t pc : Nat}

/-! Where blocks start. -/

lemma length_leadersFrom (opens : Bool) (l : List (Instr Nat × Bool)) : (leadersFrom opens l).length = l.length := by
  induction l generalizing opens with
  | nil => rfl
  | cons entry rest ih => simp [leadersFrom, ih]

lemma length_leaders (code : Instrs) : (leaders code).length = code.length :=
  (length_leadersFrom _ _).trans (Peephole.length_mark code)

lemma leadersFrom_succ {opens : Bool} {l : List (Instr Nat × Bool)} {k : Nat} {marked : Bool}
    (at_ : l[k]? = some (i, marked)) :
    (leadersFrom opens l)[k + 1]? = (l[k + 1]?).map fun entry => i.isTerminator || entry.2 := by
  induction l generalizing opens k with
  | nil => cases at_
  | cons entry rest ih =>
    cases k with
    | zero =>
      obtain rfl := Option.some.inj at_
      cases rest <;> rfl
    | succ k => exact ih at_

lemma leaders_zero (pos : 0 < code.length) : (leaders code)[0]? = some true := by
  obtain ⟨marked, pair⟩ := Peephole.mark_getElem? (getElem?_eq_getElem pos)
  change (leadersFrom true (Peephole.mark code))[0]? = _
  revert pair
  cases Peephole.mark code with
  | nil => exact nofun
  | cons entry rest => simp [leadersFrom]

lemma leaders_after (at_ : code[pc]? = some i) (ends : i.isTerminator = true) (low : pc + 1 < code.length) :
    (leaders code)[pc + 1]? = some true := by
  obtain ⟨marked, pair⟩ := Peephole.mark_getElem? at_
  obtain ⟨next, nextPair⟩ := Peephole.mark_getElem? (getElem?_eq_getElem low)
  exact (leadersFrom_succ pair).trans (by simp [nextPair, ends])

lemma leaders_target (at_ : code[pc]? = some i) (target : t ∈ i.targets) (low : t < code.length) :
    (leaders code)[t]? = some true := by
  cases t with
  | zero => exact leaders_zero low
  | succ t =>
    obtain ⟨j, -, pair⟩ := Peephole.mark_target at_ target low
    obtain ⟨marked, before⟩ := Peephole.mark_getElem? (getElem?_eq_getElem (Nat.lt_of_succ_lt low))
    exact (leadersFrom_succ before).trans (by simp [pair])

/-- How many blocks start before a place. -/
def opened (code : Instrs) (pc : Nat) : Nat := ((leaders code).take pc).count true

def numberOf (code : Instrs) (pc : Nat) : Nat := opened code (pc + 1) - 1

lemma opened_succ (code : Instrs) (pc : Nat) :
    opened code (pc + 1) = opened code pc + if (leaders code)[pc]? = some true then 1 else 0 := by
  rw [opened, opened, take_add_one, count_append]
  cases (leaders code)[pc]? with
  | none => rfl
  | some marked => cases marked <;> rfl

lemma opened_mono (code : Instrs) (le : a ≤ b) : opened code a ≤ opened code b :=
  ((take_sublist_take_left le).count_le true)

lemma opened_one (pos : 0 < code.length) : opened code 1 = 1 := by
  rw [opened_succ, if_pos (leaders_zero pos)]
  rfl

lemma opened_length (code : Instrs) : opened code code.length = (leaders code).count true := by
  rw [opened, ← length_leaders, take_length]

lemma numberOf_eq_iff (low : pc < code.length) : numberOf code pc = b ↔ opened code (pc + 1) = b + 1 := by
  have : opened code 1 ≤ opened code (pc + 1) := opened_mono code (by omega)
  rw [opened_one (by omega)] at this
  rw [numberOf]
  omega

lemma length_startsFrom (index : Nat) (marks : List Bool) : (startsFrom index marks).length = marks.count true := by
  induction marks generalizing index with
  | nil => rfl
  | cons marked rest ih => cases marked <;> simp [startsFrom, ih]

lemma getElem?_startsFrom {index : Nat} {marks : List Bool} : (startsFrom index marks)[b]? = some s ↔
    ∃ k, s = index + k ∧ marks[k]? = some true ∧ (marks.take k).count true = b := by
  induction marks generalizing index b with
  | nil => simp [startsFrom]
  | cons marked rest ih =>
    have shift : (∃ k, s = index + k ∧ (marked :: rest)[k]? = some true ∧ ((marked :: rest).take k).count true = b) ↔
        (s = index ∧ marked = true ∧ b = 0) ∨
          ∃ k, s = index + 1 + k ∧ rest[k]? = some true ∧ (marked :: rest.take k).count true = b := by
      constructor
      · rintro ⟨_ | k, is, here, count⟩
        · exact .inl ⟨is, by simpa using here, by simpa using count.symm⟩
        · exact .inr ⟨k, by omega, here, count⟩
      · rintro (⟨is, here, count⟩ | ⟨k, is, here, count⟩)
        · exact ⟨0, is, by simpa using here, by simpa using count.symm⟩
        · exact ⟨k + 1, by omega, here, count⟩
    rw [shift]
    cases marked with
    | false => simp [startsFrom, ih]
    | true =>
      cases b with
      | zero => simp [startsFrom, eq_comm]
      | succ b => simp [startsFrom, ih]

lemma length_blockIndexFrom (seen : Nat) (marks : List Bool) : (blockIndexFrom seen marks).length = marks.length := by
  induction marks generalizing seen with
  | nil => rfl
  | cons marked rest ih => simp [blockIndexFrom, ih]

lemma getElem?_blockIndexFrom (seen : Nat) (marks : List Bool) (k : Nat) (low : k < marks.length) :
    (blockIndexFrom seen marks)[k]? = some (seen + (marks.take (k + 1)).count true - 1) := by
  induction marks generalizing seen k with
  | nil => simp at low
  | cons marked rest ih =>
    cases k with
    | zero => cases marked <;> simp [blockIndexFrom]
    | succ k =>
      rw [blockIndexFrom, getElem?_cons_succ, ih _ k (by simpa using low)]
      cases marked <;> simp

def spans (code : Instrs) : List (Nat × Nat) :=
  (startsFrom 0 (leaders code)).zip (stops (startsFrom 0 (leaders code)) code.length)

def numbers (code : Instrs) : Array Nat := (blockIndexFrom 0 (leaders code)).toArray

lemma size_numbers (code : Instrs) : (numbers code).size = code.length := by
  simp [numbers, length_blockIndexFrom, length_leaders]

lemma getElem?_numbers (low : pc < code.length) : (numbers code)[pc]? = some (numberOf code pc) := by
  rw [numbers, getElem?_toArray, getElem?_blockIndexFrom 0 _ _ (by rwa [length_leaders]),
    numberOf, opened, Nat.zero_add]

lemma length_spans (pos : 0 < code.length) : (spans code).length = opened code code.length := by
  have least : opened code 1 ≤ opened code code.length := opened_mono code pos
  rw [opened_one pos, opened_length] at least
  simp only [spans, stops, length_zip, length_append, length_drop, length_singleton, length_startsFrom, opened_length]
  omega

/-- The instruction is the last one of its block. -/
def Ends (code : Instrs) (pc : Nat) : Prop :=
  pc + 1 = code.length ∨ (leaders code)[pc + 1]? = some true

lemma ends_of_target (at_ : code[pc]? = some i) (target : t ∈ i.targets) : Ends code pc := by
  rcases Nat.lt_or_ge (pc + 1) code.length with more | last
  · exact .inr (leaders_after at_ (i.isTerminator_of_target target) more)
  · have := (List.getElem?_eq_some_iff.mp at_).1
    exact .inl (by omega)

lemma spans_spec (span : (spans code)[b]? = some (start, stop)) : start < stop ∧ stop ≤ code.length ∧
    Ends code (stop - 1) ∧ ∀ pc < code.length, start ≤ pc ∧ pc < stop ↔ numberOf code pc = b := by
  obtain ⟨first, last⟩ := List.getElem?_zip_eq_some.mp span
  obtain ⟨_, rfl, leads, before⟩ := getElem?_startsFrom.mp first
  rw [Nat.zero_add] at *
  rename_i start
  have low := (List.getElem?_eq_some_iff.mp leads).1
  rw [length_leaders] at low
  have after : opened code (start + 1) = b + 1 := by rw [opened_succ, if_pos leads, opened, before]
  -- what holds of the stop, whether another block starts there or the code ends
  have stops : stop ≤ code.length ∧ opened code stop = b + 1 ∧
      (stop = code.length ∨ (leaders code)[stop]? = some true) := by
    rw [Graph.stops, getElem?_append] at last
    split at last
    · rw [getElem?_drop] at last
      obtain ⟨_, rfl, leads', before'⟩ := getElem?_startsFrom.mp last
      rw [Nat.zero_add] at *
      have := (List.getElem?_eq_some_iff.mp leads').1
      rw [length_leaders] at this
      exact ⟨by omega, by rw [opened, before']; omega, .inr leads'⟩
    · rename_i high
      obtain ⟨low, is⟩ := List.getElem?_eq_some_iff.mp last
      have inside := (List.getElem?_eq_some_iff.mp first).1
      simp only [length_drop, length_startsFrom, length_singleton, ← opened_length] at high low inside
      simp only [getElem_singleton] at is
      exact ⟨by omega, by rw [← is]; omega, .inl is.symm⟩
  obtain ⟨inside, total, ends⟩ := stops
  have less : start < stop := by
    by_contra high
    have := opened_mono code (Nat.not_lt.mp high)
    rw [total, opened, before] at this
    omega
  refine ⟨less, inside, ?_, fun pc low => ?_⟩
  · rwa [Ends, show stop - 1 + 1 = stop by omega]
  · rw [numberOf_eq_iff low]
    constructor
    · rintro ⟨behind, ahead⟩
      have least := opened_mono code (Nat.succ_le_succ behind)
      have most := opened_mono code (Nat.succ_le_of_lt ahead)
      simp only [Nat.succ_eq_add_one] at least most
      omega
    · intro count
      refine ⟨Nat.not_lt.mp fun early => ?_, Nat.not_le.mp fun late => ?_⟩
      · have := opened_mono code (Nat.succ_le_of_lt early)
        rw [Nat.succ_eq_add_one, count, opened, before] at this
        omega
      · have next := opened_succ code stop
        rw [if_pos (ends.resolve_left (by omega)), total] at next
        have := opened_mono code (Nat.succ_le_succ late)
        simp only [Nat.succ_eq_add_one] at this
        omega

lemma numberOf_lt (low : pc < code.length) : numberOf code pc < opened code code.length := by
  have := (numberOf_eq_iff low).mp rfl
  have := opened_mono code (Nat.succ_le_of_lt low)
  simp only [Nat.succ_eq_add_one] at this
  omega

lemma numberOf_succ (low : pc + 1 < code.length) :
    numberOf code (pc + 1) = numberOf code pc + if (leaders code)[pc + 1]? = some true then 1 else 0 := by
  rw [numberOf_eq_iff low, opened_succ, (numberOf_eq_iff (Nat.lt_of_succ_lt low)).mp rfl]
  omega

lemma Ends.eq_stop (ends : Ends code pc) (low : pc < code.length)
    (span : (spans code)[numberOf code pc]? = some (start, stop)) : pc + 1 = stop := by
  obtain ⟨-, inside, -, holds⟩ := spans_spec span
  obtain ⟨behind, ahead⟩ := (holds pc low).mpr rfl
  by_contra other
  have next := numberOf_succ (show pc + 1 < code.length by omega)
  rw [if_pos (ends.resolve_left (by omega)), (holds (pc + 1) (by omega)).mp (by omega)] at next
  omega

/-! What can follow a block. -/

lemma mapM_some {α β : Type} {f : α → Option β} {xs : List α} (all : ∀ x ∈ xs, ∃ y, f x = some y) : ∃ ys, xs.mapM f =
    some ys ∧ ys.length = xs.length ∧ ∀ (k : Nat) (x : α), xs[k]? = some x → ys[k]? = f x := by
  induction xs with
  | nil => exact ⟨[], rfl, rfl, nofun⟩
  | cons x xs ih =>
    obtain ⟨y, first⟩ := all x mem_cons_self
    obtain ⟨ys, rest, len, each⟩ := ih fun x mem => all x (mem_cons_of_mem _ mem)
    refine ⟨y :: ys, by simp [mapM_cons, first, rest], by simp [len], fun k x' at_ => ?_⟩
    cases k with
    | zero =>
      obtain rfl := Option.some.inj at_
      exact first.symm
    | succ k => exact each k x' at_

lemma successors?_some {blockOf : Array Nat} {last : Instr Nat} (count b : Nat)
    (inside : ∀ t ∈ last.targets, t < blockOf.size) : ∃ succs, successors? blockOf count b last = some succs ∧
    succs.Nodup ∧ ∀ s, s ∈ succs ↔ (∃ t ∈ last.targets, blockOf[t]? = some s) ∨ last.fallsThrough = true ∧ s = b + 1 ∧ b
    + 1 < count := by
  obtain ⟨branches, made, length, each⟩ := mapM_some (f := fun t => blockOf[t]?)
    fun t mem => ⟨_, Array.getElem?_eq_getElem (inside t mem)⟩
  have branched : ∀ s, s ∈ branches ↔ ∃ t ∈ last.targets, blockOf[t]? = some s := by
    intro s
    constructor
    · intro mem
      obtain ⟨k, low, is⟩ := List.mem_iff_getElem.mp mem
      have at_ := getElem?_eq_getElem (length ▸ low)
      exact ⟨_, getElem_mem (length ▸ low), (each k _ at_).symm.trans (is ▸ getElem?_eq_getElem low)⟩
    · rintro ⟨t, mem, number⟩
      obtain ⟨k, at_⟩ := mem_iff_getElem?.mp mem
      exact mem_of_getElem? ((each k t at_).trans number)
  refine ⟨_, by simp [successors?, made]; rfl, nodup_eraseDups _ _ le_rfl, fun s => ?_⟩
  rw [mem_eraseDups, List.mem_append, branched]
  refine or_congr_right ?_
  cases last.fallsThrough
  · simp
  · by_cases more : b + 1 < count <;> simp [more]

/-- The blocks that can follow a numbered one. -/
def following? (code : Instrs) (entry : (Nat × Nat) × Nat) : Option (List Nat) :=
  (code[entry.1.2 - 1]?).bind fun last =>
    successors? (numbers code) (startsFrom 0 (leaders code)).length entry.2 last

def ofSuccs (code : Instrs) (succs : List (List Nat)) : Graph :=
  let preds (b : Nat) : List Nat := (List.range succs.length).filter fun a =>
    (succs[a]?.getD []).contains b
  ⟨(((spans code).zip succs).mapIdx fun b (span, next) => ⟨span.1, span.2, next, preds b⟩).toArray, numbers code⟩

lemma build?_eq (code : Instrs) :
    build? code.toArray = ((spans code).zipIdx.mapM (following? code)).map (ofSuccs code) := by
  have bound : ∀ r : Option (List (List Nat)), r.map (ofSuccs code) = r >>= fun succs => pure (ofSuccs code succs) := by
    rintro (_ | succs) <;> rfl
  rw [bound]
  simp only [build?, size_toArray, getElem?_toArray]
  rfl

/-- The graph tells how the code is divided into blocks and which block can follow which. -/
structure Describes (code : Instrs) (g : Graph) : Prop where
  numbered : g.blockOf = numbers code
  size : g.size = opened code code.length
  span : ∀ (b : Nat) (block : Block), g.blocks[b]? = some block → (spans code)[b]? = some (block.start, block.stop)
  succs_iff : ∀ b s, s ∈ g.succs b ↔ ∃ pc i, code[pc]? = some i ∧ numberOf code pc = b ∧ Ends code pc ∧
    ((∃ t ∈ i.targets, numberOf code t = s) ∨ i.fallsThrough = true ∧ s = b + 1 ∧ b + 1 < g.size)
  preds_iff : ∀ a b, b < g.size → (a ∈ g.preds b ↔ b ∈ g.succs a)
  nodup : ∀ b, (g.succs b).Nodup ∧ (g.preds b).Nodup

variable {table : HandleTable}

lemma following?_some (lawful : Lawful table code) (span : (spans code)[b]? = some (start, stop)) :
    ∃ next, following? code ((start, stop), b) = some next ∧ next.Nodup ∧
      ∀ s, s ∈ next ↔ ∃ pc i, code[pc]? = some i ∧ numberOf code pc = b ∧ Ends code pc ∧
        ((∃ t ∈ i.targets, numberOf code t = s) ∨
          i.fallsThrough = true ∧ s = b + 1 ∧ b + 1 < opened code code.length) := by
  obtain ⟨less, inside, ends, holds⟩ := spans_spec span
  have low : stop - 1 < code.length := by omega
  have number := (holds (stop - 1) low).mp (by omega)
  have at_ := getElem?_eq_getElem low
  obtain ⟨next, is, once, mem⟩ := successors?_some (startsFrom 0 (leaders code)).length b
    fun t target => (size_numbers code).symm ▸ lawful.target at_ target
  refine ⟨next, by rw [following?, at_, Option.bind_some, is], once, fun s => ?_⟩
  have numbered : (∃ t ∈ code[stop - 1].targets, (numbers code)[t]? = some s) ↔
      ∃ t ∈ code[stop - 1].targets, numberOf code t = s := by
    refine exists_congr fun t => and_congr_right fun target => ?_
    rw [getElem?_numbers (lawful.target at_ target), Option.some.injEq]
  rw [mem, numbered, length_startsFrom, ← opened_length]
  constructor
  · exact fun leads => ⟨stop - 1, _, at_, number, ends, leads⟩
  · rintro ⟨pc, i, there, rfl, ends', leads⟩
    have same : stop - 1 = pc := by
      rw [← ends'.eq_stop (List.getElem?_eq_some_iff.mp there).1 span, Nat.add_sub_cancel]
    subst same
    rw [at_] at there
    cases there
    exact leads

lemma build?_some (lawful : Lawful table code) : ∃ g, build? code.toArray = some g ∧ Describes code g := by
  have each : ∀ entry ∈ (spans code).zipIdx, ∃ next, following? code entry = some next := by
    intro entry mem
    obtain ⟨next, is, -⟩ := following?_some lawful (mem_zipIdx_iff_getElem?.mp mem)
    exact ⟨next, is⟩
  obtain ⟨succs, made, length, answers⟩ := mapM_some each
  rw [length_zipIdx] at length
  have size : (ofSuccs code succs).size = opened code code.length := by
    simp [Graph.size, ofSuccs, length, length_spans lawful.pos]
  have count : succs.length = opened code code.length := length.trans (length_spans lawful.pos)
  have block : ∀ b block, (ofSuccs code succs).blocks[b]? = some block →
      (spans code)[b]? = some (block.start, block.stop) ∧ succs[b]? = some block.succs ∧
        block.preds = (List.range succs.length).filter fun a => (succs[a]?.getD []).contains b := by
    intro b block at_
    simp only [ofSuccs, getElem?_toArray, getElem?_mapIdx, Option.map_eq_some_iff, Prod.exists,
      List.getElem?_zip_eq_some] at at_
    obtain ⟨start, stop, next, ⟨span, succs⟩, rfl⟩ := at_
    exact ⟨span, succs, rfl⟩
  have next : ∀ b, (ofSuccs code succs).succs b = succs[b]?.getD [] := by
    intro b
    rw [Graph.succs]
    cases at_ : (ofSuccs code succs).blocks[b]? with
    | some found => simp [(block b found at_).2.1]
    | none =>
      have high := Array.getElem?_eq_none_iff.mp at_
      rw [getElem?_eq_none (by rw [count, ← size]; exact high)]
      rfl
  refine ⟨ofSuccs code succs, by rw [build?_eq, made, Option.map_some], rfl, size, fun b found at_ => (block b found at_).1,
    fun b s => ?_, fun a b low => ?_, fun b => ⟨?_, ?_⟩⟩
  · rw [next, size]
    cases span : (spans code)[b]? with
    | some range =>
      obtain ⟨following, is, -, mem⟩ := following?_some lawful span
      have entry : (spans code).zipIdx[b]? = some (range, b) := by simp [getElem?_zipIdx, span]
      rw [answers b _ entry, is]
      exact mem s
    | none =>
      have high := List.getElem?_eq_none_iff.mp span
      rw [getElem?_eq_none (by rw [length]; exact high)]
      refine ⟨nofun, ?_⟩
      rintro ⟨pc, i, at_, rfl, -⟩
      have := numberOf_lt (List.getElem?_eq_some_iff.mp at_).1
      rw [length_spans lawful.pos] at high
      omega
  · have at_ := Array.getElem?_eq_getElem low
    rw [Graph.preds, at_, next]
    simp only [(block b _ at_).2.2, List.mem_filter, List.mem_range, List.contains_iff_mem, and_iff_right_iff_imp]
    intro mem
    by_contra high
    rw [getElem?_eq_none (Nat.not_lt.mp high)] at mem
    cases mem
  · rw [next]
    cases span : (spans code)[b]? with
    | some range =>
      obtain ⟨following, is, once, -⟩ := following?_some lawful span
      have entry : (spans code).zipIdx[b]? = some (range, b) := by simp [getElem?_zipIdx, span]
      rwa [answers b _ entry, is]
    | none => rw [getElem?_eq_none (by rw [length]; exact List.getElem?_eq_none_iff.mp span)]; exact nodup_nil
  · rw [Graph.preds]
    split
    · rename_i found at_
      rw [(block b found at_).2.2]
      exact nodup_range.filter _
    · exact nodup_nil

namespace Describes

variable (flow : Describes code g)
include flow

lemma number_lt (low : pc < code.length) : numberOf code pc < g.size :=
  flow.size ▸ numberOf_lt low

lemma branch (at_ : code[pc]? = some i) (target : t ∈ i.targets) : numberOf code t ∈ g.succs (numberOf code pc) :=
  (flow.succs_iff _ _).mpr ⟨pc, i, at_, rfl, ends_of_target at_ target, .inl ⟨t, target, rfl⟩⟩

lemma fall (at_ : code[pc]? = some i) (falls : i.fallsThrough = true) (more : pc + 1 < code.length) : numberOf code
    (pc + 1) = numberOf code pc ∨ numberOf code (pc + 1) ∈ g.succs (numberOf code pc) := by
  have next := numberOf_succ more
  split at next
  · rename_i leads
    refine .inr ((flow.succs_iff _ _).mpr ⟨pc, i, at_, rfl, .inr leads, .inr ⟨falls, next, ?_⟩⟩)
    exact next ▸ flow.number_lt more
  · exact .inl next

lemma wellFormed (lawful : Lawful table code) : g.WellFormed := by
  refine ⟨Nat.zero_lt_of_lt (flow.number_lt lawful.pos), fun b s next => ?_, flow.preds_iff⟩
  obtain ⟨pc, i, at_, -, -, ⟨t, target, rfl⟩ | ⟨-, rfl, low⟩⟩ := (flow.succs_iff b s).mp next
  · exact flow.number_lt (lawful.target at_ target)
  · exact low

lemma entry (lawful : Lawful table code) (next : 0 ∈ g.succs b) :
    ∃ i ∈ code, 0 ∈ i.targets := by
  obtain ⟨pc, i, at_, -, -, ⟨t, target, number⟩ | ⟨-, other, -⟩⟩ := (flow.succs_iff b 0).mp next
  · refine ⟨i, mem_of_getElem? at_, ?_⟩
    have low := lawful.target at_ target
    cases t with
    | zero => exact target
    | succ t =>
      rw [numberOf_succ low, if_pos (leaders_target at_ target low)] at number
      cases number
  · cases other

end Describes

end Graph

end WireCodec
