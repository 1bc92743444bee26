import WireCodec.Proofs.Heap
import WireCodec.Proofs.Wire.Skip

/-! Well-formed values on the wire, without their types. Skipping passes exactly those. -/
namespace WireCodec

open List
open Tag (fixedSize? isValue map stop string struct)

variable {tag : UInt8}

def countBytes (n : Nat) : List UInt8 := beBytes 4 n.toUInt64

def At (buf : Bytes) (pos : Nat) (data : List UInt8) : Prop :=
  (⟨buf⟩ : Heap).Spans pos data ∧ pos + data.length ≤ buf.size

namespace At

variable {buf : Bytes} {pos n : Nat} {a b data : List UInt8}

lemma append : At buf pos (a ++ b) ↔ At buf pos a ∧ At buf (pos + a.length) b := by
  unfold At
  rw [Heap.spans_append, length_append]
  constructor
  · rintro ⟨⟨first, second⟩, inside⟩
    exact ⟨⟨first, by omega⟩, second, by omega⟩
  · rintro ⟨⟨first, _⟩, second, inside⟩
    exact ⟨⟨first, second⟩, by omega⟩

lemma nil (inside : pos ≤ buf.size) : At buf pos [] := ⟨fun _ _ at_ => by (cases at_), inside⟩

lemma slice (at_ : At buf pos data) : slice? buf pos data.length = some data := at_.1.slice at_.2

lemma of_slice (cut : slice? buf pos n = some data) : At buf pos data ∧ data.length = n := by
  obtain ⟨spans, length, inside⟩ := @Heap.spans_of_slice ⟨buf⟩ _ _ _ cut
  exact ⟨⟨spans, by rw [length]; exact inside⟩, length⟩

lemma exists_of_le (inside : pos + n ≤ buf.size) : ∃ data, At buf pos data ∧ data.length = n :=
  ⟨_, of_slice (if_pos inside)⟩

lemma single {byte : UInt8} : At buf pos [byte] ↔ buf[pos]? = some byte := by
  constructor
  · intro at_
    exact at_.1 0 byte rfl
  · intro found
    refine ⟨fun k b is => ?_, (Array.getElem?_eq_some_iff.mp found).1⟩
    cases k with
    | zero =>
      cases is
      exact found
    | succ k => cases is

lemma eq (at_ : At buf pos a) (at' : At buf pos b) (length : a.length = b.length) : a = b := by
  have first := at_.slice
  rw [length, at'.slice] at first
  exact (Option.some.inj first).symm

end At

lemma length_countBytes (n : Nat) : (countBytes n).length = 4 := length_beBytes _ _

lemma toNat_beWord_countBytes {n : Nat} (low : n < 2 ^ 31) : (beWord (countBytes n)).toNat = n := by
  rw [countBytes, toNat_beWord_beBytes (by decide)]
  simp only [Nat.toUInt64_eq, UInt64.toNat_ofNat']
  omega

lemma eq_countBytes {data : List UInt8} (length : data.length = 4) : data = countBytes (beWord data).toNat := by
  have bytes := beBytes_beWord (show data.length ≤ 8 by omega)
  rw [length] at bytes
  rw [countBytes]
  conv => lhs; rw [← bytes]
  congr 1
  apply UInt64.toNat_inj.mp
  simp only [Nat.toUInt64_eq, UInt64.toNat_ofNat']
  exact (Nat.mod_eq_of_lt (beWord data).toNat_lt).symm

/-! Values by their tags. `inner` says what the values inside them are. -/
namespace Raw

variable {inner : UInt8 → List UInt8 → Prop}

inductive Fields (inner : UInt8 → List UInt8 → Prop) : List UInt8 → Prop
  | stop : Fields inner [stop]
  | field {tag : UInt8} {id payload rest : List UInt8} (notStop : tag ≠ stop) (number : id.length = 2)
      (value : inner tag payload) (others : Fields inner rest) : Fields inner ([tag] ++ (id ++ (payload ++ rest)))

inductive Row (inner : UInt8 → List UInt8 → Prop) : List UInt8 → List UInt8 → Prop
  | nil : Row inner [] []
  | cons {tag : UInt8} {tags payload rest : List UInt8} (value : inner tag payload) (others : Row inner tags rest) :
      Row inner (tag :: tags) (payload ++ rest)

inductive Rows (inner : UInt8 → List UInt8 → Prop) (tags : List UInt8) : Nat → List UInt8 → Prop
  | nil : Rows inner tags 0 []
  | cons {n : Nat} {first rest : List UInt8} (row : Row inner tags first) (others : Rows inner tags n rest) :
      Rows inner tags (n + 1) (first ++ rest)

/-- A value that holds others. -/
inductive Composite (inner : UInt8 → List UInt8 → Prop) : UInt8 → List UInt8 → Prop
  | struct {bytes : List UInt8} (fields : Fields inner bytes) : Composite inner struct bytes
  | sequence {tag elem : UInt8} {n : Nat} {bytes : List UInt8} (is : tag = Tag.list ∨ tag = Tag.set)
      (short : n < 2 ^ 31) (valid : n ≠ 0 → isValue elem = true) (rows : Rows inner [elem] n bytes) :
      Composite inner tag ([elem] ++ (countBytes n ++ bytes))
  | map {key elem : UInt8} {n : Nat} {bytes : List UInt8} (short : n < 2 ^ 31)
      (valid : n ≠ 0 → isValue key = true ∧ isValue elem = true) (rows : Rows inner [key, elem] n bytes) :
      Composite inner map ([key] ++ ([elem] ++ (countBytes n ++ bytes)))

/-- A value that holds no others. -/
inductive Simple : UInt8 → List UInt8 → Prop
  | fixed {tag : UInt8} {bytes : List UInt8} (size : fixedSize? tag = some bytes.length) : Simple tag bytes
  | string {data : List UInt8} (short : data.length < 2 ^ 31) : Simple string (countBytes data.length ++ data)

end Raw

/-- A well-formed value of a tag that nests no deeper than `depth`. -/
def Raw : (depth : Nat) → UInt8 → List UInt8 → Prop
  | 0, tag, bytes => Raw.Simple tag bytes
  | depth + 1, tag, bytes => Raw.Simple tag bytes ∨ Raw.Composite (Raw depth) tag bytes

namespace Skip

variable {buf : Bytes} {pos after : Nat}

/-- Skipping passes exactly the bytes that a grammar allows. -/
def Passes (buf : Bytes) (pos : Nat) (r : Result Nat) (grammar : List UInt8 → Prop) : Prop :=
  ∀ after, r = .ok after ↔ ∃ bytes, At buf pos bytes ∧ after = pos + bytes.length ∧ grammar bytes

lemma passes_advance (n : Nat) : Passes buf pos (advance buf pos n) fun bytes => bytes.length = n := by
  intro after
  rw [advance_eq_ok]
  constructor
  · rintro ⟨rfl, inside⟩
    obtain ⟨data, at_, length⟩ := At.exists_of_le inside
    exact ⟨data, at_, by rw [length], length⟩
  · rintro ⟨bytes, at_, rfl, rfl⟩
    exact ⟨rfl, at_.2⟩

variable {n : Nat} {r : Result Nat} {f : Nat → Result Nat}

lemma count_eq_ok : count buf pos = .ok n ↔ At buf pos (countBytes n) ∧ n < 2 ^ 31 := by
  unfold count
  constructor
  · intro ok
    split at ok
    · cases ok
    · rename_i data cut
      obtain ⟨at_, length⟩ := At.of_slice cut
      simp only at ok
      split at ok
      · cases ok
        rename_i short
        rw [← eq_countBytes length]
        exact ⟨at_, short⟩
      · cases ok
  · rintro ⟨at_, short⟩
    have cut := at_.slice
    rw [length_countBytes] at cut
    rw [cut]
    simp only [toNat_beWord_countBytes short]
    exact if_pos short

lemma Passes.congr {grammar grammar' : List UInt8 → Prop} (passes : Passes buf pos r grammar)
    (same : ∀ bytes, grammar' bytes ↔ grammar bytes) : Passes buf pos r grammar' := by
  intro after
  simp only [same]
  exact passes after

lemma passes_ok (inside : pos ≤ buf.size) : Passes buf pos (.ok pos) (· = []) := by
  intro after
  constructor
  · intro ok
    cases ok
    exact ⟨[], .nil inside, rfl, rfl⟩
  · rintro ⟨_, _, rfl, rfl⟩
    rfl

lemma Passes.bind {first second : List UInt8 → Prop} (passes : Passes buf pos r first)
    (rest : ∀ mid, pos ≤ mid → mid ≤ buf.size → Passes buf mid (f mid) second) :
    Passes buf pos (r >>= f) fun bytes => ∃ a b, bytes = a ++ b ∧ first a ∧ second b := by
  intro after
  rw [bind_eq_ok]
  constructor
  · rintro ⟨mid, passed, ok⟩
    obtain ⟨a, atA, rfl, isA⟩ := (passes mid).mp passed
    obtain ⟨b, atB, rfl, isB⟩ := (rest _ (Nat.le_add_right _ _) atA.2 after).mp ok
    exact ⟨a ++ b, At.append.mpr ⟨atA, atB⟩, by rw [length_append, Nat.add_assoc], a, b, rfl, isA, isB⟩
  · rintro ⟨_, at_, rfl, a, b, rfl, isA, isB⟩
    obtain ⟨atA, atB⟩ := At.append.mp at_
    exact ⟨_, (passes _).mpr ⟨a, atA, rfl, isA⟩, (rest _ (Nat.le_add_right _ _) atA.2 _).mpr
      ⟨b, atB, by rw [length_append, Nat.add_assoc], isB⟩⟩

lemma passes_read {α : Type} {r : Result α} {f : α → Result Nat} {bytes : α → List UInt8} {valid : α → Prop}
    {grammar : α → List UInt8 → Prop} (length : ∀ a, (bytes a).length = n)
    (read : ∀ a, r = .ok a ↔ At buf pos (bytes a) ∧ valid a)
    (rest : ∀ a, pos + n ≤ buf.size → Passes buf (pos + n) (f a) (grammar a)) :
    Passes buf pos (r >>= f) fun all => ∃ a others, all = bytes a ++ others ∧ valid a ∧ grammar a others := by
  intro after
  rw [bind_eq_ok]
  constructor
  · rintro ⟨a, ok, passed⟩
    obtain ⟨at_, is⟩ := (read a).mp ok
    have inside := at_.2
    rw [length] at inside
    obtain ⟨others, atRest, rfl, isRest⟩ := (rest a inside after).mp passed
    exact ⟨bytes a ++ others, At.append.mpr ⟨at_, by rwa [length]⟩, by rw [length_append, length, Nat.add_assoc],
      a, others, rfl, is, isRest⟩
  · rintro ⟨_, at_, rfl, a, others, rfl, is, isRest⟩
    obtain ⟨at_, atRest⟩ := At.append.mp at_
    have inside := at_.2
    rw [length] at inside atRest
    exact ⟨a, (read a).mpr ⟨at_, is⟩, (rest a inside _).mpr
      ⟨others, atRest, by rw [length_append, length, Nat.add_assoc], isRest⟩⟩

lemma passes_byte {f : UInt8 → Result Nat} {grammar : UInt8 → List UInt8 → Prop}
    (rest : ∀ b, pos + 1 ≤ buf.size → Passes buf (pos + 1) (f b) (grammar b)) :
    Passes buf pos (byte buf pos >>= f) fun all => ∃ b others, all = [b] ++ others ∧ True ∧ grammar b others :=
  passes_read (fun _ => rfl) (fun _ => byte_eq_ok.trans (At.single.symm.trans (iff_of_eq (and_true _).symm))) rest

lemma passes_count {grammar : Nat → List UInt8 → Prop}
    (rest : ∀ n, pos + 4 ≤ buf.size → Passes buf (pos + 4) (f n) (grammar n)) :
    Passes buf pos (count buf pos >>= f) fun all =>
      ∃ n others, all = countBytes n ++ others ∧ n < 2 ^ 31 ∧ grammar n others :=
  passes_read length_countBytes (fun _ => count_eq_ok) rest

section Inner

variable {skip : UInt8 → Nat → Result Nat} {inner : UInt8 → List UInt8 → Prop} {tags : List UInt8} {size : Nat}

section

variable (passes : ∀ tag pos, Passes buf pos (skip tag pos) (inner tag))
include passes

lemma passes_fields (fuel : Nat)
    (enough : buf.size < pos + fuel) : Passes buf pos (fields buf skip fuel pos) (Raw.Fields inner) := by
  induction fuel generalizing pos with
  | zero =>
    intro after
    refine ⟨nofun, ?_⟩
    rintro ⟨bytes, at_, _⟩
    have := at_.2
    omega
  | succ fuel ih =>
    -- the bytes behind a tag
    let others : UInt8 → List UInt8 → Prop := fun tag bytes =>
      if tag = stop then bytes = [] else ∃ id more, bytes = id ++ more ∧ id.length = 2 ∧
        ∃ payload rest, more = payload ++ rest ∧ inner tag payload ∧ Raw.Fields inner rest
    refine (@passes_byte buf pos _ others fun tag inside => ?_).congr fun bytes => ?_
    · by_cases stop : tag = stop
      · simp only [others, if_pos stop]
        exact passes_ok inside
      · simp only [others, if_neg stop]
        exact (passes_advance 2).bind fun start ahead _ => (passes tag start).bind fun mid ahead' _ => ih (by omega)
    · constructor
      · intro fields
        cases fields with
        | stop => exact ⟨stop, [], rfl, trivial, (if_pos rfl).mpr rfl⟩
        | field notStop number value rest =>
          exact ⟨_, _, rfl, trivial, (if_neg notStop).mpr ⟨_, _, rfl, number, _, _, rfl, value, rest⟩⟩
      · rintro ⟨tag, rest, rfl, -, is⟩
        by_cases stop : tag = stop
        · simp only [others, if_pos stop] at is
          rw [stop, is]
          exact .stop
        · simp only [others, if_neg stop] at is
          obtain ⟨id, _, rfl, number, payload, rest, rfl, value, fields⟩ := is
          exact .field stop number value fields

lemma passes_row (tags : List UInt8)
    (inside : pos ≤ buf.size) : Passes buf pos (row skip tags pos) (Raw.Row inner tags) := by
  induction tags generalizing pos with
  | nil =>
    refine (passes_ok inside).congr fun bytes => ⟨fun row => ?_, ?_⟩
    · cases row
      rfl
    · rintro rfl
      exact .nil
  | cons tag tags ih =>
    refine ((passes tag pos).bind fun mid _ inside => ih inside).congr fun bytes => ⟨fun row => ?_, ?_⟩
    · cases row with
      | cons value others => exact ⟨_, _, rfl, value, others⟩
    · rintro ⟨_, _, rfl, value, others⟩
      exact .cons value others

lemma passes_rows (tags : List UInt8) (n : Nat)
    (inside : pos ≤ buf.size) : Passes buf pos (rows skip tags n pos) (Raw.Rows inner tags n) := by
  induction n generalizing pos with
  | zero =>
    refine (passes_ok inside).congr fun bytes => ⟨fun rows => ?_, ?_⟩
    · cases rows
      rfl
    · rintro rfl
      exact .nil
  | succ n ih =>
    refine ((passes_row passes tags inside).bind fun mid _ inside => ih inside).congr fun bytes => ⟨fun rows => ?_, ?_⟩
    · cases rows with
      | cons row others => exact ⟨_, _, rfl, row, others⟩
    · rintro ⟨_, _, rfl, row, others⟩
      exact .cons row others

end

section

variable (fixed : ∀ tag n bytes, fixedSize? tag = some n → (inner tag bytes ↔ bytes.length = n))
  (given : rowSize? tags = some size)
include fixed given

lemma row_of_size (bytes : List UInt8) : Raw.Row inner tags bytes ↔ bytes.length = size := by
  induction tags generalizing size bytes with
  | nil =>
    cases given
    constructor
    · intro row
      cases row
      rfl
    · intro length
      rw [eq_nil_of_length_eq_zero length]
      exact .nil
  | cons tag tags ih =>
    simp only [rowSize?, foldr_cons, Option.bind_eq_bind, Option.bind_eq_some_iff] at given
    obtain ⟨first, givenFirst, rest, givenRest, sum⟩ := given
    cases sum
    constructor
    · intro row
      cases row with
      | cons value others =>
        rw [length_append, (fixed tag first _ givenFirst).mp value, (ih givenRest _).mp others]
    · intro length
      rw [← take_append_drop first bytes]
      refine .cons ((fixed tag first _ givenFirst).mpr ?_) ((ih givenRest _).mpr ?_)
      · rw [length_take]
        omega
      · rw [length_drop]
        omega

lemma rows_of_size (n : Nat) (bytes : List UInt8) : Raw.Rows inner tags n bytes ↔ bytes.length = size * n := by
  induction n generalizing bytes with
  | zero =>
    constructor
    · intro rows
      cases rows
      rfl
    · intro length
      rw [eq_nil_of_length_eq_zero length]
      exact .nil
  | succ n ih =>
    rw [Nat.mul_succ]
    constructor
    · intro rows
      cases rows with
      | cons row others =>
        rw [length_append, (row_of_size fixed given _).mp row, (ih _).mp others, Nat.add_comm]
    · intro length
      rw [← take_append_drop size bytes]
      refine .cons ((row_of_size fixed given _).mpr ?_) ((ih _).mpr ?_)
      · rw [length_take]
        omega
      · rw [length_drop]
        omega

end

lemma passes_elements (passes : ∀ tag pos, Passes buf pos (skip tag pos) (inner tag))
    (fixed : ∀ tag n bytes, fixedSize? tag = some n → (inner tag bytes ↔ bytes.length = n))
    (tags : List UInt8) (n : Nat) (inside : pos ≤ buf.size) :
    Passes buf pos (elements buf skip tags n pos) fun bytes =>
      (n ≠ 0 → tags.all isValue = true) ∧ Raw.Rows inner tags n bytes := by
  intro after
  unfold elements
  by_cases zero : n = 0
  · subst zero
    rw [if_pos rfl]
    have nothing := passes_rows passes tags 0 inside after
    exact nothing.trans ⟨fun ⟨bytes, at_, is, rows⟩ => ⟨bytes, at_, is, fun other => absurd rfl other, rows⟩,
      fun ⟨bytes, at_, is, _, rows⟩ => ⟨bytes, at_, is, rows⟩⟩
  · rw [if_neg zero]
    by_cases valid : tags.all isValue = true
    · rw [if_pos valid]
      have each : ∀ bytes, (n ≠ 0 → tags.all isValue = true) ∧ Raw.Rows inner tags n bytes ↔
          Raw.Rows inner tags n bytes := fun bytes => ⟨And.right, fun rows => ⟨fun _ => valid, rows⟩⟩
      simp only [each]
      split
      · rename_i size given
        simp only [rows_of_size fixed given]
        exact passes_advance (size * n) after
      · exact passes_rows passes tags n inside after
    · rw [if_neg valid]
      exact ⟨nofun, fun ⟨_, _, _, all, _⟩ => absurd (all zero) valid⟩

end Inner

lemma fixed_raw (depth : Nat) (tag : UInt8) (n : Nat) (bytes : List UInt8) (given : fixedSize? tag = some n) :
    Raw depth tag bytes ↔ bytes.length = n := by
  have simple : Raw.Simple tag bytes ↔ bytes.length = n := by
    constructor
    · intro value
      cases value with
      | fixed size => exact Option.some.inj (size.symm.trans given)
      | string => cases given
    · rintro rfl
      exact .fixed given
  cases depth with
  | zero => exact simple
  | succ depth =>
    refine ⟨fun value => value.elim simple.mp fun composite => ?_, fun length => .inl (simple.mpr length)⟩
    cases composite with
    | struct => cases given
    | sequence is => rcases is with rfl | rfl <;> cases given
    | map => cases given

lemma not_simple {bytes : List UInt8} (notFixed : fixedSize? tag = none) (other : tag ≠ string) :
    ¬ Raw.Simple tag bytes := by
  intro simple
  cases simple with
  | fixed size => cases notFixed.symm.trans size
  | string => exact other rfl

section Value

variable {inner : Inner} {grammar : UInt8 → List UInt8 → Prop} {tag : UInt8}

def OneOf (inner : Inner) (grammar : UInt8 → List UInt8 → Prop) (tag : UInt8) (bytes : List UInt8) : Prop :=
  Raw.Simple tag bytes ∨ (inner.isSome = true ∧ Raw.Composite grammar tag bytes)

lemma passes_nested {body : (UInt8 → Nat → Result Nat) → Result Nat} (other : ∀ bytes, ¬ Raw.Simple tag bytes)
    (passes : ∀ skip, inner = some skip → Passes buf pos (body skip) (Raw.Composite grammar tag)) :
    Passes buf pos (value.nested inner pos body) (OneOf inner grammar tag) := by
  cases inner with
  | none => exact fun after => ⟨nofun, fun ⟨bytes, _, _, is⟩ => is.elim (fun simple => absurd simple (other bytes)) nofun⟩
  | some skip =>
    exact (passes skip rfl).congr fun bytes => (or_iff_right (other bytes)).trans (and_iff_right rfl)

lemma passes_string : Passes buf pos (do
    let n ← count buf pos
    advance buf (pos + 4) n) (OneOf inner grammar string) := by
  refine (passes_count fun n _ => passes_advance n).congr fun bytes => ⟨fun is => ?_, ?_⟩
  · rcases is with simple | ⟨_, composite⟩
    · cases simple with
      | fixed size => cases size
      | string short => exact ⟨_, _, rfl, short, rfl⟩
    · cases composite with
      | sequence is => rcases is with is | is <;> cases is
  · rintro ⟨_, data, rfl, short, rfl⟩
    exact .inl (.string short)

variable {skip : UInt8 → Nat → Result Nat} (passes : ∀ tag pos, Passes buf pos (skip tag pos) (grammar tag))
  (fixed : ∀ tag n bytes, fixedSize? tag = some n → (grammar tag bytes ↔ bytes.length = n))
include passes

lemma passes_struct : Passes buf pos (fields buf skip (buf.size + 1) pos) (Raw.Composite grammar struct) := by
  refine (passes_fields passes _ (by omega)).congr fun bytes => ⟨fun composite => ?_, .struct⟩
  cases composite with
  | struct fields => exact fields
  | sequence kind => rcases kind with kind | kind <;> cases kind

include fixed

lemma passes_sequence (sequence : tag = Tag.list ∨ tag = Tag.set) : Passes buf pos (do
    let elem ← byte buf pos
    let n ← count buf (pos + 1)
    elements buf skip [elem] n (pos + 5)) (Raw.Composite grammar tag) := by
  refine (passes_byte fun elem _ => passes_count fun n inside => passes_elements passes fixed [elem] n inside).congr
    fun bytes => ⟨fun composite => ?_, ?_⟩
  · cases composite with
    | struct | map => rcases sequence with kind | kind <;> cases kind
    | sequence _ short valid rows =>
      exact ⟨_, _, rfl, trivial, _, _, rfl, short, fun some_ => by simpa using valid some_, rows⟩
  · rintro ⟨elem, _, rfl, -, n, _, rfl, short, valid, rows⟩
    exact .sequence sequence short (fun some_ => by simpa using valid some_) rows

lemma passes_map : Passes buf pos (do
    let key ← byte buf pos
    let elem ← byte buf (pos + 1)
    let n ← count buf (pos + 2)
    elements buf skip [key, elem] n (pos + 6)) (Raw.Composite grammar map) := by
  refine (passes_byte fun key _ => passes_byte fun elem _ => passes_count fun n inside =>
    passes_elements passes fixed [key, elem] n inside).congr fun bytes => ⟨fun composite => ?_, ?_⟩
  · cases composite with
    | sequence kind => rcases kind with kind | kind <;> cases kind
    | map short valid rows =>
      exact ⟨_, _, rfl, trivial, _, _, rfl, trivial, _, _, rfl, short, fun some_ => by simpa using valid some_, rows⟩
  · rintro ⟨key, _, rfl, -, elem, _, rfl, -, n, _, rfl, short, valid, rows⟩
    exact .map short (fun some_ => by simpa using valid some_) rows

omit passes in
lemma passes_value (passes : ∀ skip, inner = some skip → ∀ tag pos, Passes buf pos (skip tag pos) (grammar tag))
    (tag : UInt8) : Passes buf pos (value buf inner tag pos) (OneOf inner grammar tag) := by
  unfold value
  split
  · rename_i n given
    refine (passes_advance n).congr fun bytes => ⟨fun is => ?_, ?_⟩
    · rcases is with simple | ⟨_, composite⟩
      · cases simple with
        | fixed size => exact Option.some.inj (size.symm.trans given)
        | string => cases given
      · cases composite with
        | struct => cases given
        | sequence kind => rcases kind with rfl | rfl <;> cases given
        | map => cases given
    · rintro rfl
      exact .inl (.fixed given)
  rename_i notFixed
  split
  · rename_i string
    subst string
    exact passes_string
  rename_i notString
  have other : ∀ bytes, ¬ Raw.Simple tag bytes := fun bytes => not_simple notFixed notString
  split
  · rename_i struct
    subst struct
    exact passes_nested other fun skip given => passes_struct (passes skip given)
  rename_i notStruct
  split
  · rename_i sequence
    exact passes_nested other fun skip given => passes_sequence (passes skip given) fixed (by simpa using sequence)
  rename_i notSequence
  split
  · rename_i map
    subst map
    exact passes_nested other fun skip given => passes_map (passes skip given) fixed
  · rename_i notMap
    refine fun after => ⟨nofun, ?_⟩
    rintro ⟨bytes, _, _, simple | ⟨_, composite⟩⟩
    · exact absurd simple (other bytes)
    · cases composite with
      | struct => exact absurd rfl notStruct
      | sequence kind => exact absurd (by simpa using kind) notSequence
      | map => exact absurd rfl notMap

end Value

end Skip

/-- Skipping a value passes exactly the well-formed values of its tag. -/
lemma skip_passes (buf : Bytes) (depth : Nat) (tag : UInt8) (pos : Nat) :
    Skip.Passes buf pos (skip buf depth tag pos) (Raw depth tag) := by
  induction depth generalizing tag pos with
  | zero =>
    intro after
    refine (Skip.passes_value (Skip.fixed_raw 0) (fun _ eq => by cases eq) tag after).trans ?_
    simp only [Skip.OneOf, Option.isSome_none, Bool.false_eq_true, false_and, or_false]
    rfl
  | succ depth ih =>
    intro after
    refine (Skip.passes_value (Skip.fixed_raw depth) (fun inner eq tag pos => ?_) tag after).trans ?_
    · cases eq
      exact ih tag pos
    · simp only [Skip.OneOf, Option.isSome_some, true_and]
      rfl

lemma skip_ahead {buf : Bytes} {depth : Nat} {pos after : Nat}
    (ok : skip buf depth tag pos = .ok after) : pos ≤ after ∧ after ≤ buf.size := by
  obtain ⟨bytes, at_, rfl, _⟩ := (skip_passes buf depth tag pos after).mp ok
  exact ⟨Nat.le_add_right _ _, at_.2⟩

namespace Raw

variable {inner inner' : UInt8 → List UInt8 → Prop} {tag : UInt8} {tags bytes : List UInt8}
  {pieces : List (List UInt8)}

section Wider

variable (wider : ∀ tag bytes, inner tag bytes → inner' tag bytes)

include wider

lemma Fields.imp (fields : Fields inner bytes) : Fields inner' bytes := by
  induction fields with
  | stop => exact .stop
  | field notStop number value _ ih => exact .field notStop number (wider _ _ value) ih

lemma Row.imp (row : Row inner tags bytes) : Row inner' tags bytes := by
  induction row with
  | nil => exact .nil
  | cons value _ ih => exact .cons (wider _ _ value) ih

lemma Rows.imp {n : Nat} (rows : Rows inner tags n bytes) : Rows inner' tags n bytes := by
  induction rows with
  | nil => exact .nil
  | cons row _ ih => exact .cons (row.imp wider) ih

lemma Composite.imp (composite : Composite inner tag bytes) : Composite inner' tag bytes := by
  cases composite with
  | struct fields => exact .struct (fields.imp wider)
  | sequence is short valid rows => exact .sequence is short valid (rows.imp wider)
  | map short valid rows => exact .map short valid (rows.imp wider)

end Wider

variable {depth : Nat} {elem : UInt8}

lemma succ (raw : Raw depth tag bytes) : Raw (depth + 1) tag bytes := by
  induction depth generalizing tag bytes with
  | zero => exact .inl raw
  | succ depth ih => exact Or.imp_right (Composite.imp fun _ _ => ih) raw

lemma mono {deeper : Nat} (le : depth ≤ deeper) (raw : Raw depth tag bytes) : Raw deeper tag bytes := by
  induction le with
  | refl => exact raw
  | step _ ih => exact ih.succ

end Raw

end WireCodec
