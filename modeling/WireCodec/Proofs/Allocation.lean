import WireCodec.Allocation
import WireCodec.Proofs.Flow.Order

/-! Register allocation. Registers claim places in a fixed order, and the place of a register is the one
with its number in that order: machine registers first, then spill slots. All else follows from this. -/
namespace WireCodec

open List Allocation

variable {limits : Limits} {name : String} {regs joined : List Reg} {reg other : Reg} {loc : Location} {n k : Nat}
  {places : List (Reg × Location)} {code : Instrs} {a : Allocation}

/-- The registers that need a place: the root pointer and those some instruction reads or writes. -/
def Program.registers (p : Program) : List Reg :=
  Reg.all.filter fun reg => reg = .p 0 || p.code.any fun i => i.uses.contains reg || i.defs.contains reg

def Limits.capacity (limits : Limits) : Nat := min limits.registers 6 + limits.spillSlots

namespace Allocation

def machine (limits : Limits) : List PhysReg := PhysReg.all.take limits.registers

lemma length_machine (limits : Limits) : (machine limits).length = min limits.registers 6 := length_take ..

lemma place?_eq_some_iff : place? limits n = some loc ↔ (∃ phys, (machine limits)[n]? = some phys ∧ loc = .reg phys) ∨ ∃
    slot, n = (machine limits).length + slot ∧ slot < limits.spillSlots ∧ loc = .spill slot := by
  rw [place?, ← machine]
  cases at_ : (machine limits)[n]? with
  | some phys =>
    have low := (List.getElem?_eq_some_iff.mp at_).1
    constructor
    · exact fun is => .inl ⟨phys, rfl, (Option.some.inj is).symm⟩
    · rintro (⟨_, ⟨⟩, rfl⟩ | ⟨slot, rfl, -⟩)
      · rfl
      · omega
  | none =>
    have high := List.getElem?_eq_none_iff.mp at_
    dsimp only
    split
    · refine ⟨fun is => .inr ⟨n - (machine limits).length, by omega, ‹_›, (Option.some.inj is).symm⟩, ?_⟩
      rintro (⟨_, ⟨⟩, -⟩ | ⟨slot, rfl, -, rfl⟩)
      rw [Nat.add_sub_cancel_left]
    · refine ⟨by rintro ⟨⟩, ?_⟩
      rintro (⟨_, ⟨⟩, -⟩ | ⟨slot, rfl, low, -⟩)
      omega

lemma place?_isSome_iff : (∃ loc, place? limits n = some loc) ↔ n < limits.capacity := by
  simp only [place?_eq_some_iff, Limits.capacity, ← length_machine]
  constructor
  · rintro ⟨_, ⟨_, at_, -⟩ | ⟨slot, rfl, low, -⟩⟩
    · exact Nat.lt_add_right _ (List.getElem?_eq_some_iff.mp at_).1
    · omega
  · intro low
    by_cases inside : n < (machine limits).length
    · exact ⟨_, .inl ⟨_, getElem?_eq_getElem inside, rfl⟩⟩
    · exact ⟨_, .inr ⟨n - (machine limits).length, by omega, by omega, rfl⟩⟩

lemma nodup_machine (limits : Limits) : (machine limits).Nodup :=
  (take_sublist _ _).nodup (by decide)

lemma place?_inj (here : place? limits n = some loc) (there : place? limits k = some loc) : n = k := by
  rcases place?_eq_some_iff.mp here with ⟨phys, at_, rfl⟩ | ⟨slot, rfl, -, rfl⟩ <;>
    rcases place?_eq_some_iff.mp there with ⟨_, at', same⟩ | ⟨_, rfl, -, same⟩ <;> cases same
  · exact List.getElem?_inj (List.getElem?_eq_some_iff.mp at_).1 (nodup_machine limits) |>.mp (at_.trans at'.symm)
  · rfl

lemma assignFrom_ok (made : assignFrom name limits n regs = .ok places) : n + regs.length ≤ max n limits.capacity ∧
      places.map (·.1) = regs ∧ ∀ (k : Nat) entry, places[k]? = some entry → place? limits (n + k) = some entry.2 := by
  induction regs generalizing n places with
  | nil =>
    cases made
    exact ⟨Nat.le_max_left _ _, rfl, nofun⟩
  | cons reg rest ih =>
    rw [assignFrom] at made
    cases place : place? limits n with
    | none => simp [place] at made
    | some loc =>
      have room : n < limits.capacity := place?_isSome_iff.mp ⟨loc, place⟩
      cases others : assignFrom name limits (n + 1) rest with
      | error e => simp [place, others, bind, Except.bind] at made
      | ok entries =>
        rw [place, others] at made
        cases made
        obtain ⟨low, keys, each⟩ := ih others
        refine ⟨by simp only [length_cons]; omega, by rw [map_cons, keys], fun k entry at_ => ?_⟩
        cases k with
        | zero => cases at_; exact place
        | succ k => rw [← each k entry at_, Nat.add_right_comm, Nat.add_assoc]

lemma exists_assignFrom (name : String) (room : n + regs.length ≤ limits.capacity) :
    ∃ places, assignFrom name limits n regs = .ok places := by
  induction regs generalizing n with
  | nil => exact ⟨[], rfl⟩
  | cons reg rest ih =>
    rw [length_cons] at room
    obtain ⟨loc, place⟩ := place?_isSome_iff.mpr (show n < limits.capacity by omega)
    obtain ⟨others, made⟩ := ih (n := n + 1) (by omega)
    exact ⟨(reg, loc) :: others, by rw [assignFrom, place, made]; rfl⟩

lemma nodup_order (code : Instrs) (joined : List Reg) : (order code joined).Nodup :=
  Graph.nodup_eraseDups _ _ le_rfl

lemma mem_order : reg ∈ order code joined ↔ reg = .p 0 ∨ ∃ i ∈ code, reg ∈ i.uses ∨ reg ∈ i.defs := by
  simp only [order, mem_eraseDups, mem_cons, mem_append, mem_filter, mem_flatMap]
  grind

lemma mem_registers {p : Program} : reg ∈ p.registers ↔ reg ∈ order p.code.toList joined := by
  simp only [Program.registers, mem_filter, reg.mem_all, true_and, mem_order, Bool.or_eq_true, decide_eq_true_eq,
    Array.any_eq_true', contains_iff_mem, Array.mem_toList_iff]

lemma length_registers (p : Program) (joined : List Reg) : p.registers.length = (order p.code.toList joined).length :=
  ((perm_ext_iff_of_nodup (Nodup.filter _ (by decide)) (nodup_order _ _)).mpr fun _ => mem_registers).length_eq

lemma length_order (code : Instrs) (joined : List Reg) : (order code joined).length ≤ 19 :=
  (subperm_of_subset (nodup_order code joined) fun reg _ => reg.mem_all).length_le

lemma idxOf_eraseDups_lt {xs ys : List Reg} (front : reg ∈ xs) (back : other ∉ xs) :
    ((xs ++ ys).eraseDups).idxOf reg < ((xs ++ ys).eraseDups).idxOf other := by
  rw [eraseDups_append]
  have front : reg ∈ xs.eraseDups := mem_eraseDups.mpr front
  have back : other ∉ xs.eraseDups := fun mem => back (mem_eraseDups.mp mem)
  rw [idxOf_append_of_mem front, idxOf_append_of_notMem back]
  exact Nat.lt_add_right _ (idxOf_lt_length_of_mem front)

lemma lookup_eq_some_iff (nodup : (places.map (·.1)).Nodup) : places.lookup reg = some loc ↔ (reg, loc) ∈ places := by
  induction places with
  | nil => exact ⟨nofun, nofun⟩
  | cons entry rest ih =>
    obtain ⟨key, place⟩ := entry
    obtain ⟨fresh, nodup⟩ := nodup_cons.mp nodup
    rw [lookup_cons]
    by_cases same : reg = key
    · subst same
      have other : (reg, loc) ∉ rest := fun mem => fresh (mem_map.mpr ⟨_, mem, rfl⟩)
      simp [other, eq_comm]
    · rw [beq_eq_false_iff_ne.mpr same, mem_cons, or_iff_right fun is => same (congrArg Prod.fst is)]
      exact ih nodup

/-- A list of places in which the place of each register has its own number. -/
structure Ordered (limits : Limits) (a : Allocation) (regs : List Reg) : Prop where
  keys : a.places.map (·.1) = regs
  nodup : regs.Nodup
  each : ∀ (k : Nat) entry, a.places[k]? = some entry → place? limits k = some entry.2

lemma spillCount_from (each : ∀ (k : Nat) entry, places[k]? = some entry → place? limits (n + k) = some entry.2) :
    spillCount ⟨places⟩ = n + places.length - max n (machine limits).length := by
  induction places generalizing n with
  | nil =>
    simp [spillCount]
  | cons entry rest ih =>
    have tail : spillCount ⟨rest⟩ = _ := ih (n := n + 1) fun k entry at_ => by
      rw [← each (k + 1) entry at_, Nat.add_right_comm, Nat.add_assoc]
    rw [spillCount] at tail ⊢
    rw [countP_cons, tail, length_cons]
    rcases place?_eq_some_iff.mp (each 0 entry rfl) with ⟨phys, at_, is⟩ | ⟨slot, low, -, is⟩
    · have := (List.getElem?_eq_some_iff.mp at_).1
      rw [is, if_neg Bool.false_ne_true]
      omega
    · rw [is, if_pos rfl]
      omega

lemma testBit_pointers (bits : UInt64) (low : ∀ reg slot, (reg, .spill slot) ∈ places → slot < 64) :
    (places.foldl (fun bits entry => match entry with
      | (.p _, .spill slot) => if slot < 64 then bits ||| (1 <<< slot.toUInt64) else bits
      | _ => bits) bits).toNat.testBit k = true ↔
      bits.toNat.testBit k = true ∨ ∃ p, (.p p, .spill k) ∈ places := by
  induction places generalizing bits with
  | nil => simp
  | cons entry rest ih =>
    rw [foldl_cons, ih _ fun reg slot mem => low reg slot (mem_cons_of_mem _ mem)]
    rcases entry with ⟨reg | reg, phys | slot⟩
    · simp
    · simp
    · simp
    · have small := low (.p reg) slot mem_cons_self
      have bit : ((1 : UInt64) <<< slot.toUInt64).toNat = 2 ^ slot := by
        have fits : 2 ^ slot < 18446744073709551616 := Nat.pow_lt_pow_right (m := slot) (n := 64) (a := 2) (by omega) small
        simp [UInt64.toNat_shiftLeft, Nat.mod_eq_of_lt small, Nat.one_shiftLeft, fits]
      simp only [small, if_true, UInt64.toNat_or, Nat.testBit_or, bit, Nat.testBit_two_pow, Bool.or_eq_true,
        decide_eq_true_eq, mem_cons, Prod.mk.injEq, Reg.p.injEq, Location.spill.injEq, exists_or, or_assoc,
        exists_and_right, exists_eq, true_and, eq_comm (a := k)]

namespace Ordered

variable {a : Allocation}

variable (ordered : Ordered limits a regs)
include ordered

lemma mem_places : (reg, loc) ∈ a.places ↔ ∃ k, regs[k]? = some reg ∧ place? limits k = some loc := by
  rw [mem_iff_getElem?, ← ordered.keys]
  refine exists_congr fun k => ?_
  rw [getElem?_map, Option.map_eq_some_iff]
  constructor
  · exact fun at_ => ⟨⟨_, at_, rfl⟩, ordered.each k _ at_⟩
  · rintro ⟨⟨⟨_, _⟩, at_, rfl⟩, place⟩
    cases (ordered.each k _ at_).symm.trans place
    exact at_

lemma location?_eq_some_iff : a.location? reg = some loc ↔ ∃ k, regs[k]? = some reg ∧ place? limits k = some loc := by
  rw [← ordered.mem_places]
  exact lookup_eq_some_iff (ordered.keys ▸ ordered.nodup)

lemma isSome_location?_iff : (∃ loc, a.location? reg = some loc) ↔ reg ∈ regs := by
  simp only [ordered.location?_eq_some_iff, mem_iff_getElem?]
  refine ⟨fun ⟨_, k, at_, _⟩ => ⟨k, at_⟩, fun ⟨k, at_⟩ => ?_⟩
  rw [← ordered.keys, getElem?_map, Option.map_eq_some_iff] at at_
  obtain ⟨entry, there, rfl⟩ := at_
  exact ⟨entry.2, k, by rw [← ordered.keys, getElem?_map, there]; rfl, ordered.each k entry there⟩

lemma taken_iff : (∃ reg, a.location? reg = some loc) ↔ ∃ k < regs.length, place? limits k = some loc := by
  simp only [ordered.location?_eq_some_iff]
  constructor
  · rintro ⟨reg, k, at_, place⟩
    exact ⟨k, (List.getElem?_eq_some_iff.mp at_).1, place⟩
  · rintro ⟨k, low, place⟩
    exact ⟨_, k, getElem?_eq_getElem low, place⟩

lemma spillCount_eq : a.spillCount = regs.length - (machine limits).length := by
  have counted := spillCount_from (n := 0) (by simpa using ordered.each)
  rw [counted, ← ordered.keys, length_map, Nat.zero_add, Nat.zero_max]

lemma testBit_spillPointerMap (few : regs.length ≤ 19) (k : Nat) :
    a.spillPointerMap.toNat.testBit k = true ↔ ∃ p, a.location? (.p p) = some (.spill k) := by
  have low : ∀ reg slot, (reg, .spill slot) ∈ a.places → slot < 64 := by
    intro reg slot mem
    obtain ⟨k, at_, place⟩ := ordered.mem_places.mp mem
    have := (List.getElem?_eq_some_iff.mp at_).1
    rcases place?_eq_some_iff.mp place with ⟨_, -, ⟨⟩⟩ | ⟨_, _, -, ⟨⟩⟩
    omega
  refine (testBit_pointers 0 low).trans ?_
  simp [location?, lookup_eq_some_iff (ordered.keys ▸ ordered.nodup)]

end Ordered

end Allocation

structure Program.Allocated (p : Program) (limits : Limits) (joined : List Reg) (a : Allocation) : Prop where
  total : ∀ reg, (∃ loc, a.location? reg = some loc) ↔ reg ∈ p.registers
  apart : ∀ reg other loc, a.location? reg = some loc → a.location? other = some loc → reg = other
  machine : ∃ n ≤ limits.registers, ∀ phys, (∃ reg, a.location? reg = some (.reg phys)) ↔ phys ∈ PhysReg.all.take n
  spills : ∀ slot, (∃ reg, a.location? reg = some (.spill slot)) ↔ slot < a.spillCount
  /-- A joined register is in memory only when everything behind it in the order is, further out. -/
  priority : ∀ reg other slot, reg ≠ .p 0 → reg ∉ joined → other ∈ joined → a.location? other = some (.spill slot) →
    ∀ loc, a.location? reg = some loc → ∃ further, loc = .spill further ∧ slot < further
  pointers : ∀ k, a.spillPointerMap.toNat.testBit k = true ↔ ∃ i, a.location? (.p i) = some (.spill k)

namespace Allocation

lemma Ordered.machine_iff (ordered : Ordered limits a regs) (phys : PhysReg) :
    (∃ reg, a.location? reg = some (.reg phys)) ↔ phys ∈ PhysReg.all.take (min regs.length limits.registers) := by
  rw [ordered.taken_iff, ← take_take, mem_iff_getElem?]
  refine exists_congr fun k => ?_
  rw [place?_eq_some_iff, getElem?_take, machine, Option.ite_none_right_eq_some]
  refine and_congr_right fun _ => ⟨?_, fun at_ => .inl ⟨phys, at_, rfl⟩⟩
  rintro (⟨_, at_, ⟨⟩⟩ | ⟨_, -, -, ⟨⟩⟩)
  exact at_

lemma Ordered.spill_iff (ordered : Ordered limits a regs) (room : regs.length ≤ limits.capacity)
    (slot : Nat) : (∃ reg, a.location? reg = some (.spill slot)) ↔ slot < a.spillCount := by
  rw [ordered.taken_iff, ordered.spillCount_eq]
  rw [Limits.capacity, ← length_machine] at room
  constructor
  · rintro ⟨k, low, place⟩
    rcases place?_eq_some_iff.mp place with ⟨_, -, ⟨⟩⟩ | ⟨_, _, -, ⟨⟩⟩
    omega
  · intro low
    exact ⟨(machine limits).length + slot, by omega, place?_eq_some_iff.mpr (.inr ⟨slot, rfl, by omega, rfl⟩)⟩

lemma idxOf_order_lt (away : reg ≠ .p 0) (plain : reg ∉ joined) (joins : other ∈ joined)
    (mem : other ∈ order code joined) : (order code joined).idxOf other < (order code joined).idxOf reg := by
  rw [order, ← cons_append]
  refine idxOf_eraseDups_lt ?_ ?_
  · simp only [mem_order] at mem
    simp only [mem_cons, mem_filter, mem_flatMap, mem_append, contains_iff_mem]
    grind
  · simp [away, plain]

lemma Ordered.priority (ordered : Ordered limits a regs) (before : regs.idxOf other < regs.idxOf reg)
    (spilled : a.location? other = some (.spill n)) (there : a.location? reg = some loc) :
    ∃ further, loc = .spill further ∧ n < further := by
  obtain ⟨i, at_, place⟩ := ordered.location?_eq_some_iff.mp spilled
  obtain ⟨j, at', place'⟩ := ordered.location?_eq_some_iff.mp there
  have here : regs.idxOf other = i := by
    obtain ⟨low, rfl⟩ := List.getElem?_eq_some_iff.mp at_
    exact ordered.nodup.idxOf_getElem i low
  have behind : regs.idxOf reg = j := by
    obtain ⟨low, rfl⟩ := List.getElem?_eq_some_iff.mp at'
    exact ordered.nodup.idxOf_getElem j low
  rcases place?_eq_some_iff.mp place with ⟨_, -, ⟨⟩⟩ | ⟨_, _, -, ⟨⟩⟩
  rcases place?_eq_some_iff.mp place' with ⟨_, inside, -⟩ | ⟨further, _, -, rfl⟩
  · have := (List.getElem?_eq_some_iff.mp inside).1
    omega
  · exact ⟨further, rfl, by omega⟩

end Allocation

namespace Program

variable {p : Program}

lemma ordered_of_allocate (made : p.allocate limits joined = .ok a) :
    p.registers.length ≤ limits.capacity ∧ Ordered limits a (order p.code.toList joined) := by
  rw [allocate] at made
  cases assigned : assignFrom p.name limits 0 (order p.code.toList joined) with
  | error e => simp [assigned, bind, Except.bind] at made
  | ok places =>
    rw [assigned] at made
    cases made
    obtain ⟨room, keys, each⟩ := assignFrom_ok assigned
    rw [length_registers p joined]
    exact ⟨by simpa using room, keys, nodup_order _ _, by simpa using each⟩

lemma exists_allocate_iff : (∃ a, p.allocate limits joined = .ok a) ↔ p.registers.length ≤ limits.capacity := by
  refine ⟨fun ⟨a, made⟩ => (ordered_of_allocate made).1, fun room => ?_⟩
  obtain ⟨places, assigned⟩ := exists_assignFrom p.name
    (n := 0) (by rwa [Nat.zero_add, ← length_registers p joined])
  exact ⟨⟨places⟩, by rw [allocate, assigned]; rfl⟩

/-- Places are found exactly when there are enough of them, and then every register has its own. -/
theorem allocate_sound_and_complete (p : Program) (limits : Limits) (joined : List Reg) :
    ((∃ a, p.allocate limits joined = .ok a) ↔ p.registers.length ≤ min limits.registers 6 + limits.spillSlots) ∧
      ∀ a, p.allocate limits joined = .ok a → p.Allocated limits joined a := by
  refine ⟨exists_allocate_iff, fun a made => ?_⟩
  obtain ⟨room, ordered⟩ := ordered_of_allocate made
  constructor
  case total => exact fun reg => by rw [ordered.isSome_location?_iff, Allocation.mem_registers]
  case apart =>
    intro reg other loc here there
    obtain ⟨i, at_, place⟩ := ordered.location?_eq_some_iff.mp here
    obtain ⟨j, at', place'⟩ := ordered.location?_eq_some_iff.mp there
    cases Allocation.place?_inj place place'
    exact Option.some.inj (at_.symm.trans at')
  case machine => exact ⟨_, Nat.min_le_right _ _, ordered.machine_iff⟩
  case spills => exact ordered.spill_iff (Allocation.length_registers p joined ▸ room)
  case priority =>
    intro reg other slot away plain joins spilled loc there
    have mem := ordered.isSome_location?_iff.mp ⟨_, spilled⟩
    exact ordered.priority (Allocation.idxOf_order_lt away plain joins mem) spilled there
  case pointers => exact ordered.testBit_spillPointerMap (Allocation.length_order _ _)

def crowded : Program := ⟨"crowded", .decode, #[.movImm (.r 0) 1, .movImm (.r 1) 2, .halt]⟩

theorem allocate_crowded : (∃ a, crowded.allocate ⟨1, 2⟩ [.r 1] = .ok a ∧ a.location? (.r 1) = some (.spill 0) ∧
      ∃ further, a.location? (.r 0) = some (.spill further) ∧ 0 < further) ∧
    ¬ ∃ a, crowded.allocate ⟨1, 1⟩ [.r 1] = .ok a := by
  have made : crowded.allocate ⟨1, 2⟩ [.r 1] =
    .ok ⟨[(.p 0, .reg .rbp), (.r 1, .spill 0), (.r 0, .spill 1)]⟩ := by decide +kernel
  have allocated := (allocate_sound_and_complete crowded ⟨1, 2⟩ [.r 1]).2 _ made
  obtain ⟨loc, there⟩ := (allocated.total (.r 0)).mpr (by decide +kernel)
  obtain ⟨further, rfl, behind⟩ := allocated.priority (.r 0) (.r 1) 0 (by decide) (by decide) (by decide) rfl loc there
  refine ⟨⟨_, made, rfl, further, there, behind⟩, ?_⟩
  rw [(allocate_sound_and_complete crowded ⟨1, 1⟩ [.r 1]).1]
  decide +kernel

end Program

end WireCodec
