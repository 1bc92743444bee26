import WireCodec.Proofs.Schema.Alignment
import WireCodec.Proofs.Text
import WireCodec.Proofs.Value.Storing

/-! Values survive the arena. A value that was stored is read back as it was given, up to its absent fields: a field
with a default reads as its default, and one that is stored in place reads as zeroed memory. Storing changes no byte
that was there before, whether it succeeds or not. -/
namespace WireCodec

open List TypeDesc

namespace TypeDesc

mutual
/-- The value of zeroed memory of a type. There is none where a header or a pointer is nil. -/
def blank : TypeDesc → Option Value
  | ⟨_, kind, _, _, _, _, _, _, fields⟩ =>
    if kind = .struct then some (.struct (blankSlots fields)) else (Scalar.ofBits? kind 0).map .scalar

def blankSlots : List FieldDesc → List (Option Value)
  | [] => []
  | ⟨_, _, requiredness, type, default, _⟩ :: rest =>
    (if requiredness = .optional && default.isNone && type.kind.isScalar then none else blank type) :: blankSlots rest
end

end TypeDesc

def Field.filler (field : FieldDesc) : Option Value :=
  match field.default with
  | some default => some (.scalar default)
  | none => if field.isBoxed then none else field.type.blank

namespace Value

/-- A value has the form of a type. -/
inductive Fits (known : Registry) : TypeDesc → Value → Prop
  | scalar {t : TypeDesc} {s : Scalar} (kind : s.kind = t.kind) : Fits known t (.scalar s)
  | string {t : TypeDesc} {s : String} (kind : t.kind = .string) : Fits known t (.string s)
  | binary {t : TypeDesc} {data : List UInt8} (kind : t.kind = .binary) : Fits known t (.binary data)
  | list {t : TypeDesc} {items : List Value} (kind : t.kind = .list) (each : ∀ v ∈ items, Fits known t.part v) :
      Fits known t (.list items)
  | set {t : TypeDesc} {items : List Value} (kind : t.kind = .set) (each : ∀ v ∈ items, Fits known t.part v) :
      Fits known t (.set items)
  | map {t : TypeDesc} {entries : List (Value × Value)} (kind : t.kind = .map)
      (eachKey : ∀ e ∈ entries, Fits known t.keyPart e.1) (each : ∀ e ∈ entries, Fits known t.part e.2) :
      Fits known t (.map entries)
  | struct {t : TypeDesc} {slots : List (Option Value)} (length : slots.length = (t.recordFields known).length)
      (each : ∀ (i : Nat) (field : FieldDesc) v, (t.recordFields known)[i]? = some field → slots[i]? = some (some v) →
        Fits known field.type v) : Fits known t (.struct slots)

mutual
/-- A value with its absent fields filled in. Of a container, as many elements as its count says. -/
def settled (known : Registry) (t : TypeDesc) : Value → Value
  | .list items => .list (Content.counted (settledItems known t.part items))
  | .set items => .set (Content.counted (settledItems known t.part items))
  | .map entries => .map (Content.counted (settledEntries known t.keyPart t.part entries))
  | .struct slots => .struct (settledSlots known (t.recordFields known) slots)
  | v => v

def settledItems (known : Registry) (t : TypeDesc) : List Value → List Value
  | [] => []
  | v :: rest => settled known t v :: settledItems known t rest

def settledEntries (known : Registry) (key elem : TypeDesc) : List (Value × Value) → List (Value × Value)
  | [] => []
  | (k, v) :: rest => (settled known key k, settled known elem v) :: settledEntries known key elem rest

def settledSlots (known : Registry) : List FieldDesc → List (Option Value) → List (Option Value)
  | field :: fields, some v :: slots => some (settled known field.type v) :: settledSlots known fields slots
  | field :: fields, none :: slots => field.filler :: settledSlots known fields slots
  | _, _ => []
end

lemma settledItems_eq_map (known : Registry) (t : TypeDesc) (items : List Value) :
    settledItems known t items = items.map (settled known t) := by
  induction items with
  | nil => rfl
  | cons v rest ih => rw [settledItems, ih, map_cons]

lemma settledEntries_eq_map (known : Registry) (key elem : TypeDesc) (entries : List (Value × Value)) :
    settledEntries known key elem entries = entries.map fun e => (settled known key e.1, settled known elem e.2) := by
  induction entries with
  | nil => rfl
  | cons e rest ih => rw [settledEntries, ih, map_cons]

end Value

lemma Scalar.ofBits?_bits (s : Scalar) : Scalar.ofBits? s.kind s.bits = some s := by
  cases s with
  | bool b => cases b <;> rfl
  | i8 | i16 | i32 | i64 => simp [kind, bits, ofBits?]
  | double w => rfl

namespace Content

variable {known : Registry} {t : TypeDesc} {fields : List FieldDesc}

lemma isNil_ofValue (v : Value) : (ofValue known t v).isNil = false := by
  cases v <;> rfl

lemma counted_map {α β : Type} (f : α → β) (elems : List α) : counted (elems.map f) = (counted elems).map f := by
  rw [counted, length_map, counted, map_take]

abbrev Reads (known : Registry) (t : TypeDesc) (c : Content) (v : Option Value) : Prop :=
  c.Solid ∧ v = if c.isNil then none else some (c.value known t)

lemma reads_slots (each : ∀ field ∈ fields, Reads known field.type (zero field.type) field.type.blank) :
    (∀ c ∈ zeroSlots fields, c.Solid) ∧ blankSlots fields = slotValues known fields (zeroSlots fields) := by
  induction fields with
  | nil => exact ⟨nofun, rfl⟩
  | cons field rest ih =>
    obtain ⟨solid, reads⟩ := each field mem_cons_self
    obtain ⟨others, same⟩ := ih fun f mem => each f (mem_cons_of_mem _ mem)
    have unfolded : blankSlots (field :: rest) =
        (if field.isBoxed then none else field.type.blank) :: blankSlots rest := by
      cases field
      rw [blankSlots]
      rfl
    rw [zeroSlots_cons, unfolded, slotValues, same, reads]
    by_cases boxed : field.isBoxed = true
    · rw [if_pos boxed, if_pos boxed]
      exact ⟨forall_mem_cons.mpr ⟨.nil, others⟩, rfl⟩
    · rw [if_neg boxed, if_neg boxed]
      exact ⟨forall_mem_cons.mpr ⟨solid, others⟩, rfl⟩

lemma reads_zero (t : TypeDesc) : Reads known t (zero t) t.blank := by
  induction t using field_induction with
  | step t ih =>
    have unfolded : t.blank =
        if t.kind = .struct then some (.struct (blankSlots t.fields)) else (Scalar.ofBits? t.kind 0).map .scalar := by
      cases t
      rw [blank]
    rw [zero_eq, unfolded]
    by_cases struct : t.kind = .struct
    · obtain ⟨solid, same⟩ := reads_slots ih
      rw [if_pos struct, if_pos struct, same]
      refine ⟨.record solid, ?_⟩
      change _ = some (value known t _)
      rw [value, recordFields_struct struct]
    · rw [if_neg struct, if_neg struct]
      cases kind : t.kind <;> first
        | exact absurd kind struct
        | exact ⟨.nil, rfl⟩
        | exact ⟨.word 0, by simp [Kind.isScalar, Kind.scalarSize?, isNil, value, kind, Scalar.ofBits?]⟩

lemma reads_absent {field : FieldDesc} (default : ∀ d, field.default = some d → d.kind = field.type.kind) :
    Reads known field.type (absent field) field.filler := by
  unfold absent Field.filler
  rcases Option.eq_none_or_eq_some field.default with given | ⟨d, given⟩
  · simp only [given]
    by_cases boxed : field.isBoxed = true
    · rw [if_pos boxed, if_pos boxed]
      exact ⟨.nil, rfl⟩
    · rw [if_neg boxed, if_neg boxed]
      exact reads_zero field.type
  · simp only [given]
    refine ⟨.word _, ?_⟩
    change _ = some (value known field.type _)
    rw [value, ← default d given, Scalar.ofBits?_bits, Option.getD_some]

lemma has_aim (sound : known.Sound) (has : known.Has t) {aim : TypeDesc} (found : t.aim? known = some aim) :
    known.Has aim := by
  refine aim?.partial_correctness known (fun t aim => known.Has t → known.Has aim) ?_ t aim found has
  intro follow ih t aim found has
  split at found
  · rename_i pointer
    cases next : t.pointee known with
    | error issue =>
      rw [next] at found
      cases found
    | ok target =>
      rw [next] at found
      refine ih target aim found (sound.recordType has ?_)
      simp only [recordType, pointer, next]
  · cases found
    exact has

lemma field_of_record (sound : known.Sound) (has : known.Has t) {field : FieldDesc} (mem : field ∈ t.recordFields known)
    : known.Has field.type ∧ ∀ d, field.default = some d → d.kind = field.type.kind := by
  obtain ⟨record, hasRecord, inRecord⟩ : ∃ record, known.Has record ∧ field ∈ record.fields := by
    unfold recordFields at mem
    split at mem
    · rename_i record isRecord
      have hasRecord := sound.recordType has isRecord
      split at mem
      · cases found : record.aim? known with
        | none =>
          rw [found] at mem
          cases mem
        | some aim =>
          rw [found] at mem
          exact ⟨aim, has_aim sound hasRecord found, mem⟩
      · exact ⟨record, hasRecord, mem⟩
    · cases mem
  exact ⟨sound.field hasRecord inRecord, fun d given =>
    ((sound.shaped record hasRecord).laidOut.defaults field inRecord d given).2⟩

/-- What a stored value holds reads as the value, with its absent fields filled in. -/
abbrev Survives (known : Registry) (t : TypeDesc) (v : Value) : Prop :=
  (ofValue known t v).Solid ∧ (ofValue known t v).value known t = v.settled known t

lemma reads_items {items : List Value} {part : TypeDesc} (each : ∀ v ∈ items, Survives known part v) :
    (Content.items (counted (ofItems known part items))).Solid ∧
      values known part (counted (ofItems known part items)) = counted (Value.settledItems known part items) := by
  rw [ofItems_eq_map, counted_map, values_eq_map, Value.settledItems_eq_map, counted_map, map_map]
  refine ⟨.items ?_ ?_, map_congr_left fun v mem => (each v (mem_of_mem_take mem)).2⟩
  · exact forall_mem_map.mpr fun v _ => isNil_ofValue v
  · exact forall_mem_map.mpr fun v mem => (each v (mem_of_mem_take mem)).1

lemma reads_entries {entries : List (Value × Value)} {key elem : TypeDesc}
    (eachKey : ∀ e ∈ entries, Survives known key e.1) (each : ∀ e ∈ entries, Survives known elem e.2) :
    (Content.entries (counted (ofKeys known key entries)) (counted (ofElems known elem entries))).Solid ∧
      (values known key (counted (ofKeys known key entries))).zip (values known elem (counted (ofElems known elem entries))) =
        counted (Value.settledEntries known key elem entries) := by
  rw [ofKeys_eq_map, ofElems_eq_map, counted_map, counted_map, values_eq_map, values_eq_map, Value.settledEntries_eq_map,
    counted_map, map_map, map_map, zip_map']
  refine ⟨.entries ?_ ?_, map_congr_left fun e mem => ?_⟩
  · exact forall_mem_append.mpr ⟨forall_mem_map.mpr fun e _ => isNil_ofValue e.1, forall_mem_map.mpr fun e _ => isNil_ofValue e.2⟩
  · exact forall_mem_append.mpr ⟨forall_mem_map.mpr fun e mem => (eachKey e (mem_of_mem_take mem)).1,
      forall_mem_map.mpr fun e mem => (each e (mem_of_mem_take mem)).1⟩
  · exact Prod.ext (eachKey e (mem_of_mem_take mem)).2 (each e (mem_of_mem_take mem)).2

lemma reads_fields {slots : List (Option Value)}
    (default : ∀ field ∈ fields, ∀ d, field.default = some d → d.kind = field.type.kind)
    (each : ∀ (i : Nat) (field : FieldDesc) v, fields[i]? = some field → slots[i]? = some (some v) →
      Survives known field.type v) : (∀ c ∈ ofSlots known fields slots, c.Solid) ∧
      slotValues known fields (ofSlots known fields slots) = Value.settledSlots known fields slots := by
  induction fields generalizing slots with
  | nil => cases slots <;> exact ⟨nofun, rfl⟩
  | cons field fields ih =>
    cases slots with
    | nil => exact ⟨nofun, rfl⟩
    | cons slot rest =>
      obtain ⟨others, same⟩ := ih (fun f mem => default f (mem_cons_of_mem _ mem)) fun i f v at_ held =>
        each (i + 1) f v at_ held
      cases slot with
      | none =>
        obtain ⟨solid, reads⟩ := @reads_absent known field (default field mem_cons_self)
        rw [ofSlots, slotValues, Value.settledSlots, same, reads]
        exact ⟨forall_mem_cons.mpr ⟨solid, others⟩, rfl⟩
      | some v =>
        obtain ⟨solid, reads⟩ := each 0 field v rfl rfl
        rw [ofSlots, slotValues, Value.settledSlots, same, reads, isNil_ofValue]
        exact ⟨forall_mem_cons.mpr ⟨solid, others⟩, rfl⟩

lemma survives (sound : known.Sound) (fit : known.EntriesFit) {v : Value} (fits : v.Fits known t)
    (has : known.Has t) : Survives known t v := by
  induction fits with
  | scalar kind =>
    refine ⟨.word _, ?_⟩
    rw [ofValue, value, ← kind, Scalar.ofBits?_bits, Option.getD_some, Value.settled]
    all_goals simp
  | string kind =>
    refine ⟨.blob _, ?_⟩
    rw [ofValue, value, if_pos kind, Text.lossy_toUTF8, Value.settled]
    all_goals simp
  | binary kind =>
    refine ⟨.blob _, ?_⟩
    rw [ofValue, value, if_neg (by rw [kind]; decide), Value.settled]
    all_goals simp
  | list kind each ih =>
    obtain ⟨elem, is⟩ := sound.sequence has (.inl kind)
    obtain ⟨solid, reads⟩ := reads_items fun v mem => ih v mem (is.part ▸ is.hasElem)
    refine ⟨solid, ?_⟩
    rw [ofValue, value, if_neg (by rw [kind]; decide), reads, Value.settled]
  | set kind each ih =>
    obtain ⟨elem, is⟩ := sound.sequence has (.inr kind)
    obtain ⟨solid, reads⟩ := reads_items fun v mem => ih v mem (is.part ▸ is.hasElem)
    refine ⟨solid, ?_⟩
    rw [ofValue, value, if_pos kind, reads, Value.settled]
  | map kind eachKey each ihKey ih =>
    obtain ⟨key, elem, layout, is⟩ := sound.map fit has kind
    obtain ⟨solid, reads⟩ := reads_entries (fun e mem => ihKey e mem (is.keyPart ▸ is.hasKey)) fun e mem =>
      ih e mem (is.part ▸ is.hasElem)
    refine ⟨solid, ?_⟩
    rw [ofValue, value, reads, Value.settled]
  | struct length each ih =>
    obtain ⟨solid, reads⟩ := reads_fields (fun field mem => (field_of_record sound has mem).2) fun i field v at_ held =>
      ih i field v at_ held (field_of_record sound has (mem_of_getElem? at_)).1
    refine ⟨.record solid, ?_⟩
    rw [ofValue, value, reads, Value.settled]

end Content

/-- Values survive the arena. What was stored is read back with its absent fields filled in, where a record that is
absent in place reads as zeroed memory does. No byte that was there before changes, whether storing succeeds or not. -/
theorem loadValue_allocValue {known : Registry} (built : known.Built) (sizes : ∀ t, known.Has t → t.size.toNat < 2 ^ 31)
    {t : TypeDesc} (has : known.Has t) {heap : Heap} (started : heap.Started) {v : Value} (fits : v.Fits known t) :
    (∀ off heap', allocValue known t v heap = .ok off heap' → loadValue known heap' off t = .ok (v.settled known t)) ∧
    (∀ (off : UInt32) blank, heap.size ≤ Heap.limit → off.toNat + t.size.toNat ≤ heap.size →
      heap.Clear off.toNat t.size.toNat → t.blank = some blank → loadValue known heap off t = .ok blank) ∧
    heap.size ≤ (StoreM.after (allocValue known t v) heap).size ∧
      ∀ k < heap.size, (StoreM.after (allocValue known t v) heap).bytes[k]? = heap.bytes[k]? := by
  have sound := built.sound
  have entries := built.entriesFit sizes
  have reads : ∀ {heap : Heap} {off : UInt32} {c : Content} {lo : Nat},
      Holds known heap lo heap.size false off.toNat t c → heap.size ≤ Heap.limit → off.toNat + t.size.toNat ≤ heap.size →
      c.Solid → c.isNil = false → loadValue known heap off t = .ok (c.value known t) := by
    intro heap off c lo holds small inside solid full
    have load := (holds.loads sound entries has small le_rfl inside (.inr solid)).1 rfl fun isNil =>
      absurd (full.symm.trans isNil) (by rintro ⟨⟩)
    rw [show off.toNat.toUInt32 = off from UInt32.ofNat_toNat] at load
    rw [loadValue, load]
    rfl
  refine ⟨fun off heap' ran => ?_, fun off blank small inside clear is => ?_, ?_⟩
  · obtain ⟨small, _, inside, _, holds⟩ := holds_of_allocValue sound entries has started ran
    obtain ⟨solid, settled⟩ := Content.survives sound entries fits has
    rw [← settled]
    exact reads holds small inside solid (Content.isNil_ofValue v)
  · obtain ⟨solid, same⟩ := @Content.reads_zero known t
    rw [is] at same
    split at same
    · cases same
    · rename_i full
      obtain rfl := Option.some.inj same
      have holds : Holds known heap 0 heap.size false off.toNat t (Content.zero t) := holds_zero sound t has clear inside
      exact reads holds small inside solid (by simpa using full)
  · rcases allocValue_small known t v heap with small | stops
    · have frame := (leaves_allocValue sound entries has v started small).1
      exact ⟨frame.grows, fun k low => frame.same k low (by rintro ⟨⟩)⟩
    · rw [StoreM.after, stops]
      exact ⟨le_rfl, fun _ _ => rfl⟩

/-! A record with a field of each sort that may be absent. -/
namespace Gaps

def number : TypeDesc := .scalar .i32 0
def link : TypeDesc := .pointer (.weak 3) 1
def spot : TypeDesc := ⟨2, .struct, "Spot", 4, 4, none, none, none, [⟨1, "x", .required, number, none, 0⟩]⟩
def holder : TypeDesc := ⟨3, .struct, "Holder", 20, 4, none, none, none,
  [⟨1, "count", .required, number, none, 0⟩, ⟨2, "limit", .optional, number, some (.i32 9), 4⟩,
    ⟨3, "extra", .optional, number, none, 8⟩, ⟨4, "spot", .default, spot, none, 12⟩,
    ⟨5, "next", .optional, link, none, 16⟩]⟩
def schema : Registry := ⟨#[some number, some link, some spot, some holder]⟩

lemma built : schema.Built := by
  have madeSpot : record "Spot" [⟨1, "x", .required, number, none, 0⟩] 2 = .ok spot := rfl
  have madeHolder : record "Holder" [⟨1, "count", .required, number, none, 0⟩,
      ⟨2, "limit", .optional, number, some (.i32 9), 0⟩, ⟨3, "extra", .optional, number, none, 0⟩,
      ⟨4, "spot", .default, spot, none, 0⟩, ⟨5, "next", .optional, link, none, 0⟩] 3 = .ok holder := rfl
  refine .define rfl ?_ madeHolder (.reserve (.define rfl ?_ madeSpot (.reserve (.weakPointer 3 (.scalar .i32 rfl .empty)))))
  · simp only [mem_cons, not_mem_nil, or_false, forall_eq_or_imp, forall_eq]
    exact ⟨rfl, rfl, rfl, rfl, rfl⟩
  · simp only [mem_singleton, forall_eq]
    rfl

lemma size_lt (t : TypeDesc) (has : schema.Has t) : t.size.toNat < 2 ^ 31 := by
  have known : t = number ∨ t = link ∨ t = spot ∨ t = holder := by
    simpa [schema] using Array.mem_of_getElem? (Option.join_eq_some_iff.mp has)
  rcases known with rfl | rfl | rfl | rfl <;> decide

def last : Value := .struct [some (.scalar (.i32 7)), none, some (.scalar (.i32 5)), none, none]
def first : Value := .struct [none, none, none, none, some last]

lemma fits_last : last.Fits schema link := by
  refine .struct rfl fun i field v at_ held => ?_
  match i with
  | 0 | 2 =>
    cases at_
    cases held
    exact .scalar rfl
  | 1 | 3 | 4 => cases held
  | i + 5 => cases held

lemma fits_first : first.Fits schema holder := by
  refine .struct rfl fun i field v at_ held => ?_
  match i with
  | 0 | 1 | 2 | 3 => cases held
  | 4 =>
    cases at_
    cases held
    exact fits_last
  | i + 5 => cases held

end Gaps

/-- Two records, the first of which has only a pointer to the second. -/
theorem loadValue_allocValue_gaps : ∃ off heap', allocValue Gaps.schema Gaps.holder Gaps.first .empty = .ok off heap' ∧
    loadValue Gaps.schema heap' off Gaps.holder = .ok (.struct [some (.scalar (.i32 0)), some (.scalar (.i32 9)), none,
      some (.struct [some (.scalar (.i32 0))]), some (.struct [some (.scalar (.i32 7)), some (.scalar (.i32 9)),
        some (.scalar (.i32 5)), some (.struct [some (.scalar (.i32 0))]), none])]) :=
  ⟨8, _, rfl, (@loadValue_allocValue Gaps.schema Gaps.built Gaps.size_lt Gaps.holder rfl .empty le_rfl Gaps.first
    Gaps.fits_first).1 8 _ rfl⟩

end WireCodec
