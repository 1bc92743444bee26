import WireCodec.Proofs.Heap
import WireCodec.Proofs.Schema.Forms
import WireCodec.Value.Load

/-! What memory of a type holds, apart from where it is: the stored words and bytes, and a tree of
them for containers and records. Memory that holds a content can be read back as the value of the
content, and holds it as long as its bytes stay. -/
namespace WireCodec

open List

variable {data : Nat}

namespace Value

mutual
lemma beq_iff (a b : Value) : beq a b = true ↔ a = b := by
  match a with
  | .scalar a | .string a | .binary a => cases b <;> simp [beq]
  | .list as | .set as => cases b <;> simp [beq, beqItems_iff as]
  | .map as => cases b <;> simp [beq, beqEntries_iff as]
  | .struct as => cases b <;> simp [beq, beqSlots_iff as]

lemma beqItems_iff (as bs : List Value) : beqItems as bs = true ↔ as = bs := by
  match as with
  | [] => cases bs <;> simp [beqItems]
  | a :: as => cases bs <;> simp [beqItems, beq_iff a, beqItems_iff as]

lemma beqEntries_iff (as bs : List (Value × Value)) : beqEntries as bs = true ↔ as = bs := by
  match as, bs with
  | [], [] => simp [beqEntries]
  | [], _ :: _ => simp [beqEntries]
  | _ :: _, [] => simp [beqEntries]
  | (k, v) :: as, (l, w) :: bs => simp [beqEntries, beq_iff k, beq_iff v, beqEntries_iff as]

lemma beqSlots_iff (as bs : List (Option Value)) : beqSlots as bs = true ↔ as = bs := by
  match as, bs with
  | [], [] => simp [beqSlots]
  | [], _ :: _ => simp [beqSlots]
  | _ :: _, [] => simp [beqSlots]
  | none :: as, none :: bs => simp [beqSlots, beqSlots_iff as]
  | none :: as, some b :: bs => simp [beqSlots]
  | some a :: as, none :: bs => simp [beqSlots]
  | some a :: as, some b :: bs => simp [beqSlots, beq_iff a, beqSlots_iff as]
end

instance : LawfulBEq Value where
  eq_of_beq same := (beq_iff _ _).mp same
  rfl := (beq_iff _ _).mpr rfl

instance : DecidableEq Value := fun a b => decidable_of_iff (a == b) beq_iff_eq

end Value

/-- What a slot of the arena holds. The entries of a map are its keys and its values, in order;
`nil` is what a slot holds that refers to nothing. -/
inductive Content where
  | word (w : UInt64)
  | blob (data : List UInt8)
  | items (elems : List Content)
  | entries (keys elems : List Content)
  | record (slots : List Content)
  | nil

namespace TypeDesc

def part (t : TypeDesc) : TypeDesc := t.elem.getD t

def keyPart (t : TypeDesc) : TypeDesc := t.key.getD t

/-- The type that a pointer leads to in the end; any other type leads to itself. -/
def aim? (known : Registry) (t : TypeDesc) : Option TypeDesc :=
  if t.kind = .pointer then
    match t.pointee known with
    | .ok next => next |>.aim? known
    | .error _ => none
  else some t
partial_fixpoint

def recordFields (known : Registry) (t : TypeDesc) : List FieldDesc :=
  match t.recordType known with
  | .ok record => if record.kind = .pointer then (record.aim? known).elim [] (·.fields) else record.fields
  | .error _ => []

end TypeDesc

section Parts

variable {known : Registry} {t key elem record : TypeDesc} {layout : TypeDesc.EntryLayout}

lemma Registry.IsSequence.part (is : known.IsSequence t elem) : t.part = elem := by
  rw [TypeDesc.part, is.elem?, Option.getD_some]

lemma Registry.IsMap.part (is : known.IsMap t key elem layout) : t.part = elem := by
  rw [TypeDesc.part, is.elem?, Option.getD_some]

lemma Registry.IsMap.keyPart (is : known.IsMap t key elem layout) : t.keyPart = key := by
  rw [TypeDesc.keyPart, is.key?, Option.getD_some]

lemma TypeDesc.recordType_struct (kind : t.kind = .struct) : t.recordType known = .ok t := by
  simp only [recordType, kind]

lemma TypeDesc.recordFields_struct (kind : t.kind = .struct) : t.recordFields known = t.fields := by
  rw [recordFields, recordType_struct kind]
  exact if_neg (by rw [kind]; nofun)

lemma TypeDesc.recordFields_target (isRecord : t.recordType known = .ok record)
    (kind : record.kind = .struct ∨ record.kind = .pointer) : t.recordFields known = record.recordFields known := by
  rw [recordFields, isRecord]
  rcases kind with struct | pointer
  · rw [recordFields_struct struct]
    exact if_neg (by rw [struct]; nofun)
  · have next : record.recordType known = record.pointee known := by simp only [recordType, pointer]
    rw [recordFields, next]
    change (if record.kind = .pointer then _ else _) = _
    rw [if_pos pointer, aim?, if_pos pointer]
    cases record.pointee known with
    | error => rfl
    | ok aim =>
      by_cases chain : aim.kind = .pointer
      · exact (if_pos chain).symm
      · change (aim.aim? known).elim [] _ = if aim.kind = .pointer then _ else _
        rw [aim?, if_neg chain, if_neg chain]
        rfl

end Parts

namespace Content

def isNil : Content → Bool
  | nil => true
  | _ => false

lemma induction {motive : Content → Prop} (word : ∀ w, motive (.word w)) (blob : ∀ data, motive (.blob data))
    (items : ∀ elems, (∀ c ∈ elems, motive c) → motive (.items elems))
    (entries : ∀ keys elems, (∀ c ∈ keys, motive c) → (∀ c ∈ elems, motive c) → motive (.entries keys elems))
    (record : ∀ slots, (∀ c ∈ slots, motive c) → motive (.record slots)) (nil : motive .nil)
    (c : Content) : motive c := by
  match c with
  | .word w => exact word w
  | .blob data => exact blob data
  | .items elems => exact items elems fun c _ => induction word blob items entries record nil c
  | .entries keys elems =>
    exact entries keys elems (fun c _ => induction word blob items entries record nil c)
      fun c _ => induction word blob items entries record nil c
  | .record slots => exact record slots fun c _ => induction word blob items entries record nil c
  | .nil => exact nil

/-- What reading back memory of a type gives that refers to nothing. -/
def emptyValue (known : Registry) (t : TypeDesc) : Value :=
  match t.kind with
  | .string => .string (Text.lossy [])
  | .binary => .binary []
  | .set => .set []
  | .map => .map []
  | .pointer => Value.absent (t.recordFields known).length
  | _ => .list []

mutual
def value (known : Registry) (t : TypeDesc) : Content → Value
  | .word w => .scalar ((Scalar.ofBits? t.kind w).getD (.bool false))
  | .blob data => if t.kind = .string then .string (Text.lossy data) else .binary data
  | .items elems =>
    if t.kind = .set then .set (values known t.part elems) else .list (values known t.part elems)
  | .entries keys elems => .map ((values known t.keyPart keys).zip (values known t.part elems))
  | .record slots => .struct (slotValues known (t.recordFields known) slots)
  | .nil => emptyValue known t

def values (known : Registry) (t : TypeDesc) : List Content → List Value
  | [] => []
  | c :: rest => value known t c :: values known t rest

/-- The values of the fields of a record; one that refers to nothing is absent. -/
def slotValues (known : Registry) : List FieldDesc → List Content → List (Option Value)
  | field :: fields, c :: rest =>
    (if c.isNil then none else some (value known field.type c)) :: slotValues known fields rest
  | _, _ => []
end

lemma values_eq_map (known : Registry) (t : TypeDesc) (elems : List Content) :
    values known t elems = elems.map (value known t) := by
  induction elems with
  | nil => rfl
  | cons c rest ih => rw [values, ih, map_cons]

end Content

namespace Content

/-- A content whose containers have no element that refers to nothing. -/
inductive Solid : Content → Prop
  | word (w : UInt64) : Solid (.word w)
  | blob (data : List UInt8) : Solid (.blob data)
  | items {elems : List Content} (full : ∀ c ∈ elems, c.isNil = false) (each : ∀ c ∈ elems, Solid c) :
      Solid (.items elems)
  | entries {keys elems : List Content} (full : ∀ c ∈ keys ++ elems, c.isNil = false)
      (each : ∀ c ∈ keys ++ elems, Solid c) : Solid (.entries keys elems)
  | record {slots : List Content} (each : ∀ c ∈ slots, Solid c) : Solid (.record slots)
  | nil : Solid .nil

variable {keys elems slots : List Content}

lemma Solid.of_items (solid : (Content.items elems).Solid) : ∀ c ∈ elems, c.isNil = false ∧ c.Solid := by
  cases solid with
  | items full each => exact fun c mem => ⟨full c mem, each c mem⟩

lemma Solid.of_entries (solid : (Content.entries keys elems).Solid) :
    ∀ c ∈ keys ++ elems, c.isNil = false ∧ c.Solid := by
  cases solid with
  | entries full each => exact fun c mem => ⟨full c mem, each c mem⟩

lemma Solid.of_record (solid : (Content.record slots).Solid) : ∀ c ∈ slots, c.Solid := by
  cases solid with
  | record each => exact each

end Content

/-- A header at `addr` for `count` things in `size` bytes from `data` on. -/
structure HeaderAt (heap : Heap) (lo hi addr data count size : Nat) : Prop where
  first : heap.Word addr 4 data.toUInt64
  second : heap.Word (addr + 4) 4 count.toUInt64
  some_ : data ≠ 0
  low : lo ≤ data
  high : data + size ≤ hi
  countFits : count < 2 ^ 32

lemma HeaderAt.mono {heap heap' : Heap} {lo hi lo' hi' addr count size : Nat}
    (head : HeaderAt heap lo hi addr data count size) (same : heap.Same heap' addr (addr + 8))
    (grown : heap.size ≤ heap'.size) (low : lo' ≤ lo) (high : hi ≤ hi') : HeaderAt heap' lo' hi' addr data count size :=
  ⟨head.first.same (same.mono le_rfl (by omega)) grown,
    head.second.same (same.mono (Nat.le_add_right _ _) (by omega)) grown, head.some_,
    le_trans low head.low, le_trans head.high high, head.countFits⟩

/-- The slot at `addr` of a type holds a content, with what it refers to between `lo` and `hi`. A
`boxed` slot refers to a cell that holds the content. -/
inductive Holds (known : Registry) (heap : Heap) (lo hi : Nat) :
    (boxed : Bool) → Nat → TypeDesc → Content → Prop
  | noCell {addr : Nat} {t : TypeDesc} (at_ : heap.Word addr 4 0) : Holds known heap lo hi true addr t .nil
  | cell {addr : Nat} {t : TypeDesc} {w : UInt64} (data : Nat) (at_ : heap.Word addr 4 data.toUInt64)
      (some_ : data ≠ 0) (low : lo ≤ data) (high : data + 8 ≤ hi) (isScalar : t.kind.isScalar = true)
      (inner : heap.Word data t.size.toNat w) (fits : w.toNat < 256 ^ t.size.toNat) :
      Holds known heap lo hi true addr t (.word w)
  | word {addr : Nat} {t : TypeDesc} {w : UInt64} (isScalar : t.kind.isScalar = true)
      (at_ : heap.Word addr t.size.toNat w) (fits : w.toNat < 256 ^ t.size.toNat) :
      Holds known heap lo hi false addr t (.word w)
  | noHeader {addr : Nat} {t : TypeDesc} (hasHeader : t.kind.hasHeader = true)
      (first : heap.Word addr 4 0) (second : heap.Word (addr + 4) 4 0) :
      Holds known heap lo hi false addr t .nil
  | noTarget {addr : Nat} {t : TypeDesc} (kind : t.kind = .pointer) (at_ : heap.Word addr 4 0) :
      Holds known heap lo hi false addr t .nil
  | blob {addr : Nat} {t : TypeDesc} {bytes : List UInt8} (data : Nat) (kind : t.kind = .string ∨ t.kind = .binary)
      (head : HeaderAt heap lo hi addr data bytes.length bytes.length) (at_ : heap.Spans data bytes) :
      Holds known heap lo hi false addr t (.blob bytes)
  | items {addr : Nat} {t elem : TypeDesc} {elems : List Content} (data : Nat) (is : known.IsSequence t elem)
      (head : HeaderAt heap lo hi addr data elems.length (elems.length * elem.size.toNat))
      (each : ∀ i c, elems[i]? = some c → Holds known heap lo hi false (data + i * elem.size.toNat) elem c) :
      Holds known heap lo hi false addr t (.items elems)
  | entries {addr : Nat} {t key elem : TypeDesc} {layout : TypeDesc.EntryLayout}
      {keys elems : List Content} (data : Nat) (is : known.IsMap t key elem layout)
      (length : elems.length = keys.length)
      (head : HeaderAt heap lo hi addr data keys.length (keys.length * layout.stride.toNat))
      (eachKey : ∀ i c, keys[i]? = some c → Holds known heap lo hi false (data + i * layout.stride.toNat) key c)
      (each : ∀ i c, elems[i]? = some c →
        Holds known heap lo hi false (data + i * layout.stride.toNat + layout.valueOffset.toNat) elem c) :
      Holds known heap lo hi false addr t (.entries keys elems)
  | record {addr : Nat} {t : TypeDesc} {slots : List Content} (kind : t.kind = .struct)
      (length : slots.length = t.fields.length)
      (each : ∀ (i : Nat) (field : FieldDesc) c, t.fields[i]? = some field → slots[i]? = some c →
        Holds known heap lo hi field.isBoxed (addr + field.offset.toNat) field.type c) :
      Holds known heap lo hi false addr t (.record slots)
  | target {addr : Nat} {t record : TypeDesc} {slots : List Content} (data : Nat) (kind : t.kind = .pointer)
      (isRecord : t.recordType known = .ok record) (at_ : heap.Word addr 4 data.toUInt64) (some_ : data ≠ 0)
      (low : lo ≤ data) (high : data + record.size.toNat ≤ hi)
      (inner : Holds known heap lo hi false data record (.record slots)) :
      Holds known heap lo hi false addr t (.record slots)

namespace Holds

variable {known : Registry} {heap heap' : Heap} {lo hi lo' hi' addr n : Nat} {boxed : Bool} {t : TypeDesc}
  {c : Content} {elems : List Content}

def slotSize (boxed : Bool) (t : TypeDesc) : Nat := if boxed then 4 else t.size.toNat

lemma slotSize_header (shaped : t.Shaped) (header : t.kind.hasHeader = true) : slotSize false t = 8 :=
  congrArg UInt32.toNat (shaped.size_header header)

lemma slotSize_pointer (shaped : t.Shaped) (kind : t.kind = .pointer) : slotSize false t = 4 :=
  congrArg UInt32.toNat (shaped.size_pointer kind)

lemma slotSize_field (field : FieldDesc) : slotSize field.isBoxed field.type = field.slotSize.toNat := by
  unfold slotSize Field.slotSize
  split <;> rfl

lemma mul_add_le {i : Nat} (low : i < n) (k : Nat) : i * k + k ≤ n * k := by
  have := Nat.mul_le_mul_right k (Nat.succ_le_of_lt low)
  rwa [Nat.succ_mul] at this

/-! Where the parts of containers and records are. -/

section Inside

variable {data i : Nat} {key elem : TypeDesc} {layout : TypeDesc.EntryLayout} {keys elems : List Content}

lemma elem_inside (head : HeaderAt heap lo hi addr data elems.length (elems.length * elem.size.toNat))
    (at_ : elems[i]? = some c) :
    lo ≤ data + i * elem.size.toNat ∧ data + i * elem.size.toNat + slotSize false elem ≤ hi := by
  have := mul_add_le (List.getElem?_eq_some_iff.mp at_).1 elem.size.toNat
  have := head.low
  have := head.high
  exact ⟨by omega, show _ + elem.size.toNat ≤ hi by omega⟩

section

variable (is : known.IsMap t key elem layout)
  (head : HeaderAt heap lo hi addr data keys.length (keys.length * layout.stride.toNat))
  (low : i < keys.length)
include is head low

lemma key_inside : lo ≤ data + i * layout.stride.toNat ∧ data + i * layout.stride.toNat + slotSize false key ≤ hi := by
  have bounds := TypeDesc.EntryLayout.bounds is.layout?
  have := mul_add_le low layout.stride.toNat
  have := head.low
  have := head.high
  exact ⟨by omega, show _ + key.size.toNat ≤ hi by omega⟩

lemma value_inside : lo ≤ data + i * layout.stride.toNat + layout.valueOffset.toNat ∧ data + i * layout.stride.toNat +
    layout.valueOffset.toNat + slotSize false elem ≤ hi := by
  have bounds := TypeDesc.EntryLayout.bounds is.layout?
  have := mul_add_le low layout.stride.toNat
  have := head.low
  have := head.high
  exact ⟨by omega, show _ + elem.size.toNat ≤ hi by omega⟩

end

lemma slot_inside (sound : known.Sound) (has : known.Has t) {field : FieldDesc} (mem : field ∈ t.fields) (addr : Nat) :
    addr + field.offset.toNat + slotSize field.isBoxed field.type ≤ addr + slotSize false t := by
  have inside := (sound.shaped t has).laidOut.inside field mem
  rw [slotSize_field]
  exact show _ ≤ addr + t.size.toNat by omega

end Inside

lemma mono (sound : known.Sound) (holds : Holds known heap lo hi boxed addr t c) (has : known.Has t)
    (same : heap.Same heap' addr (addr + slotSize boxed t)) (range : heap.Same heap' lo hi)
    (grown : heap.size ≤ heap'.size) (low : lo' ≤ lo) (high : hi ≤ hi') : Holds known heap' lo' hi' boxed addr t c := by
  have headed : ∀ {t : TypeDesc}, known.Has t → t.kind.hasHeader = true → slotSize false t = 8 :=
    fun has => slotSize_header (sound.shaped _ has)
  have pointed : ∀ {t : TypeDesc}, known.Has t → t.kind = .pointer → slotSize false t = 4 :=
    fun has => slotSize_pointer (sound.shaped _ has)
  induction holds with
  | noCell at_ => exact .noCell (at_.same same grown)
  | @cell addr t w data at_ some_ first last isScalar inner fits =>
    have small := (sound.shaped _ has).size_le isScalar
    exact .cell data (at_.same same grown) some_ (le_trans low first) (le_trans last high) isScalar
      (inner.same (range.mono first (by omega)) grown) fits
  | word isScalar at_ fits => exact .word isScalar (at_.same same grown) fits
  | noHeader hasHeader first second =>
    rw [headed has hasHeader] at same
    exact .noHeader hasHeader (first.same (same.mono le_rfl (by omega)) grown)
      (second.same (same.mono (Nat.le_add_right _ _) (by omega)) grown)
  | noTarget kind at_ => exact .noTarget kind (at_.same (pointed has kind ▸ same) grown)
  | blob data kind head at_ =>
    exact .blob data kind (head.mono (headed has (Kind.hasHeader_of_blob kind) ▸ same) grown low high)
      (at_.same (range.mono head.low head.high))
  | items data is head each ih =>
    refine .items data is (head.mono (headed has is.hasHeader ▸ same) grown low high) fun i c at_ => ?_
    obtain ⟨first, last⟩ := elem_inside head at_
    exact ih i c at_ is.hasElem (range.mono first last)
  | entries data is length head eachKey each ihKey ih =>
    refine .entries data is length (head.mono (headed has is.hasHeader ▸ same) grown low high)
      (fun i c at_ => ?_) fun i c at_ => ?_
    · obtain ⟨first, last⟩ := key_inside is head (List.getElem?_eq_some_iff.mp at_).1
      exact ihKey i c at_ is.hasKey (range.mono first last)
    · obtain ⟨first, last⟩ := value_inside is head (length ▸ (List.getElem?_eq_some_iff.mp at_).1)
      exact ih i c at_ is.hasElem (range.mono first last)
  | record kind length each ih =>
    refine .record kind length fun i field c at_ held => ?_
    have mem := mem_of_getElem? at_
    exact ih i field c at_ held (sound.field has mem) (same.mono (Nat.le_add_right _ _) (slot_inside sound has mem _))
  | target data kind isRecord at_ some_ first last inner ih =>
    exact .target data kind isRecord (at_.same (pointed has kind ▸ same) grown) some_
      (le_trans low first) (le_trans last high) (ih (sound.recordType has isRecord) (range.mono first last))

/-! Reading back. -/

lemma word_of {width : Nat} {w : UInt64} (is : heap.Word addr width w) (small : heap.size ≤ Heap.limit)
    (short : width ≤ 8) (fits : w.toNat < 256 ^ width) : LoadM.word heap addr.toUInt32 width = pure w := by
  unfold LoadM.word
  rw [is.read (by unfold Heap.limit at small; omega) short fits]
  rfl

lemma word32_of (is : heap.Word addr 4 n.toUInt64) (small : heap.size ≤ Heap.limit)
    (fits : n < 2 ^ 32) : LoadM.word32 heap addr.toUInt32 = pure n.toUInt32 := by
  have toNat := toNat_toUInt64 fits
  rw [LoadM.word32, word_of is small (by decide) (by rw [toNat]; exact fits), pure_bind]
  congr 1
  apply UInt32.toNat_inj.mp
  rw [UInt64.toNat_toUInt32, toNat, Heap.toNat_toUInt32 fits, Nat.mod_eq_of_lt fits]

lemma toUInt32_ne_nil (some_ : n ≠ 0) (low : n < 2 ^ 32) : n.toUInt32 ≠ Heap.nil := by
  intro zero
  have := congrArg UInt32.toNat zero
  rw [Heap.toNat_toUInt32 low] at this
  exact some_ this

lemma toUInt32_add {k : Nat} : (n + k).toUInt32 = n.toUInt32 + k.toUInt32 := by
  simp

lemma header_of {count : Nat} (first : heap.Word addr 4 data.toUInt64)
    (second : heap.Word (addr + 4) 4 count.toUInt64) (small : heap.size ≤ Heap.limit) (dataFits : data < 2 ^ 32)
    (countFits : count < 2 ^ 32) : LoadM.header heap addr.toUInt32 = pure (data.toUInt32, count) := by
  have next : addr.toUInt32 + 4 = (addr + 4).toUInt32 := toUInt32_add.symm
  rw [LoadM.header, word32_of first small dataFits, pure_bind, next, word32_of second small countFits, pure_bind,
    Heap.toNat_toUInt32 countFits]

lemma row_succ (data i k : Nat) : data + (i + 1) * k = data + k + i * k := by
  rw [Nat.succ_mul, Nat.add_comm (i * k), Nat.add_assoc]

open Registry (load loadItems loadEntries loadSlots loadField)

lemma loadItems_of {elem : TypeDesc} (low : data + elems.length * elem.size.toNat < 2 ^ 32)
    (each : ∀ i c, elems[i]? = some c →
      load known heap (data + i * elem.size.toNat).toUInt32 elem = pure (c.value known elem)) :
    loadItems known heap elem elems.length data = pure (Content.values known elem elems) := by
  induction elems generalizing data with
  | nil => rw [length_nil, loadItems, Content.values]
  | cons c rest ih =>
    rw [length_cons, Nat.succ_mul] at low
    have fits : offset? data = some data.toUInt32 := if_pos (by omega)
    have first := each 0 c rfl
    rw [Nat.zero_mul, Nat.add_zero] at first
    rw [length_cons, loadItems, fits, Content.values]
    simp only [LoadM.inReach, pure_bind, first]
    rw [ih (by omega) fun i c at_ => row_succ data i _ ▸ each (i + 1) c at_]
    rfl

lemma loadEntries_of {key elem : TypeDesc} {layout : TypeDesc.EntryLayout} {keys : List Content} (length : elems.length = keys.length)
    (bounds : layout.valueOffset.toNat + elem.size.toNat ≤ layout.stride.toNat)
    (low : data + keys.length * layout.stride.toNat < 2 ^ 32) (eachKey : ∀ i c, keys[i]? = some c →
      load known heap (data + i * layout.stride.toNat).toUInt32 key = pure (c.value known key))
    (each : ∀ i c, elems[i]? = some c →
      load known heap (data + i * layout.stride.toNat + layout.valueOffset.toNat).toUInt32 elem =
        pure (c.value known elem)) : loadEntries known heap key elem layout keys.length data =
      pure ((Content.values known key keys).zip (Content.values known elem elems)) := by
  induction keys generalizing data elems with
  | nil => rw [length_nil, loadEntries, Content.values, zip_nil_left]
  | cons k rest ih =>
    cases elems with
    | nil => cases length
    | cons c others =>
      rw [length_cons, Nat.succ_mul] at low
      have fits : offset? data = some data.toUInt32 := if_pos (by omega)
      have fits' : offset? (data + layout.valueOffset.toNat) = some (data + layout.valueOffset.toNat).toUInt32 :=
        if_pos (by omega)
      have first := eachKey 0 k rfl
      have second := each 0 c rfl
      rw [Nat.zero_mul, Nat.add_zero] at first second
      rw [length_cons, loadEntries, fits, fits', Content.values, Content.values]
      simp only [LoadM.inReach, pure_bind, first, second]
      rw [ih (Nat.succ.inj length) (by omega) (fun i c at_ => row_succ data i _ ▸ eachKey (i + 1) c at_)
        fun i c at_ => row_succ data i _ ▸ each (i + 1) c at_]
      rfl

def fieldValue (known : Registry) (field : FieldDesc) (c : Content) : Option Value :=
  if c.isNil then none else some (c.value known field.type)

lemma loadSlots_of {fields : List FieldDesc} {slots : List Content} (length : slots.length = fields.length)
    (low : ∀ field ∈ fields, addr + field.offset.toNat < 2 ^ 32)
    (each : ∀ (i : Nat) (field : FieldDesc) c, fields[i]? = some field → slots[i]? = some c →
      loadField known heap (addr + field.offset.toNat).toUInt32 field = pure (fieldValue known field c)) :
    addr < 2 ^ 32 → loadSlots known heap addr.toUInt32 fields = pure (Content.slotValues known fields slots) := by
  intro start
  induction fields generalizing slots with
  | nil =>
    rw [loadSlots]
    cases slots <;> rfl
  | cons field rest ih =>
    cases slots with
    | nil => cases length
    | cons c others =>
      have fits : offset? (addr.toUInt32.toNat + field.offset.toNat) = some (addr + field.offset.toNat).toUInt32 := by
        rw [Heap.toNat_toUInt32 start]
        exact if_pos (low field mem_cons_self)
      rw [loadSlots, fits, Content.slotValues]
      simp only [LoadM.inReach, pure_bind, each 0 field c rfl rfl]
      rw [ih (Nat.succ.inj length) (fun f mem => low f (mem_cons_of_mem _ mem))
        fun i f c at_ held => each (i + 1) f c at_ held]
      rfl

def Suits (kind : Kind) : Content → Prop
  | .word _ => kind.isScalar = true
  | .blob _ => kind = .string ∨ kind = .binary
  | .items _ => kind = .list ∨ kind = .set
  | .entries .. => kind = .map
  | .record _ => kind = .struct ∨ kind = .pointer
  | .nil => kind.hasHeader = true ∨ kind = .pointer

section

variable (holds : Holds known heap lo hi false addr t c)
include holds

lemma suits : Suits t.kind c := by
  cases holds with
  | word isScalar => exact isScalar
  | noHeader hasHeader => exact .inl hasHeader
  | noTarget kind => exact .inr kind
  | blob _ kind => exact kind
  | items _ is => exact is.kind
  | entries _ is => exact is.kind
  | record kind => exact .inl kind
  | target _ kind => exact .inr kind

lemma eq_record (kind : t.kind = .struct) : ∃ slots, c = .record slots := by
  have suits := kind ▸ holds.suits
  cases c with
  | record slots => exact ⟨slots, rfl⟩
  | _ => exact absurd suits (by rw [Suits]; decide)

lemma eq_word (isScalar : t.kind.isScalar = true) :
    ∃ w, c = .word w ∧ heap.Word addr t.size.toNat w ∧ w.toNat < 256 ^ t.size.toNat := by
  have suits := holds.suits
  cases c with
  | word w =>
    cases holds with
    | word _ at_ fits => exact ⟨w, rfl, at_, fits⟩
  | _ => exact absurd suits (by rw [Suits]; revert isScalar; cases t.kind <;> decide)

lemma firstWord (kind : t.kind.hasHeader = true ∨ t.kind = .pointer)
    (top : hi < 2 ^ 32) : ∃ n, heap.Word addr 4 n.toUInt64 ∧ n < 2 ^ 32 ∧ (n = 0 ↔ c.isNil = true) := by
  have refer : ∀ {n : Nat} {c : Content}, n ≠ 0 → c.isNil = false → (n = 0 ↔ c.isNil = true) :=
    fun some_ full => ⟨fun zero => absurd zero some_, fun none_ => by rw [full] at none_; cases none_⟩
  cases holds with
  | word isScalar => exact absurd isScalar (by revert kind; cases t.kind <;> decide)
  | noHeader _ first => exact ⟨0, first, by decide, by simp [Content.isNil]⟩
  | noTarget _ at_ => exact ⟨0, at_, by decide, by simp [Content.isNil]⟩
  | blob data _ head | items data _ head | entries data _ _ head =>
    exact ⟨data, head.first, by have := head.high; omega, refer head.some_ rfl⟩
  | record struct => exact absurd kind (by rw [struct]; decide)
  | target data _ _ at_ some_ _ high inner => exact ⟨data, at_, by omega, refer some_ rfl⟩

end

lemma pointee_of {record : TypeDesc} (kind : t.kind = .pointer) (isRecord : t.recordType known = .ok record) :
    t.pointee known = .ok record := by
  simpa only [TypeDesc.recordType, kind] using isRecord

/-- Reading back a slot gives the value of what it holds. To read an element that refers to nothing takes a schema
whose pointers lead to records. -/
lemma loads (sound : known.Sound) (entries : known.EntriesFit) (holds : Holds known heap lo hi boxed addr t c)
    (has : known.Has t) (small : heap.size ≤ Heap.limit) (top : hi ≤ heap.size)
    (inside : addr + slotSize boxed t ≤ heap.size) (whole : known.Usable ∨ c.Solid) :
    (boxed = false → (c.isNil = true → known.Usable) → load known heap addr.toUInt32 t = pure (c.value known t)) ∧
    (boxed = true → ∀ field : FieldDesc, field.type = t → field.isBoxed = true →
      loadField known heap addr.toUInt32 field = pure (fieldValue known field c)) := by
  have limit : heap.size < 2 ^ 32 := by
    unfold Heap.limit at small
    omega
  have scalar : ∀ {t : TypeDesc} {addr : Nat} {w : UInt64}, known.Has t → t.kind.isScalar = true →
      heap.Word addr t.size.toNat w → w.toNat < 256 ^ t.size.toNat →
      load known heap addr.toUInt32 t = pure (Content.value known t (.word w)) := by
    intro t addr w has isScalar at_ fits
    obtain ⟨_, _, _, size⟩ := (sound.shaped _ has).width isScalar
    have read := word_of at_ small ((sound.shaped _ has).size_le isScalar) fits
    rw [load, Content.value]
    cases kind : t.kind <;> rw [kind] at isScalar size <;> first
      | (simp only [size, Option.getD_some, read, pure_bind]; rfl)
      | cases isScalar
  have element : ∀ {elems : List Content} {c : Content}, known.Usable ∨ (∀ c ∈ elems, c.isNil = false ∧ c.Solid) →
      c ∈ elems → (known.Usable ∨ c.Solid) ∧ (c.isNil = true → known.Usable) := by
    rintro elems c (usable | full) mem
    · exact ⟨.inl usable, fun _ => usable⟩
    · exact ⟨.inr (full c mem).2, fun isNil => absurd (isNil.symm.trans (full c mem).1) (by rintro ⟨⟩)⟩
  induction holds with
  | noCell at_ =>
    refine ⟨by rintro ⟨⟩, fun _ field same isBoxed => ?_⟩
    have read := word32_of (n := 0) at_ small (by decide)
    rw [loadField, if_pos isBoxed, read]
    rfl
  | @cell addr t w data at_ some_ low high isScalar inner fits =>
    refine ⟨by rintro ⟨⟩, fun _ field same isBoxed => ?_⟩
    have read := word32_of at_ small (by omega)
    have some' := toUInt32_ne_nil some_ (show data < 2 ^ 32 by omega)
    rw [loadField, if_pos isBoxed, read, pure_bind, if_neg some', same, scalar has isScalar inner fits]
    simp only [pure_bind, fieldValue, Content.isNil, same]
    rfl
  | word isScalar at_ fits => exact ⟨fun _ _ => scalar has isScalar at_ fits, by rintro ⟨⟩⟩
  | @noHeader addr t hasHeader first second =>
    refine ⟨fun _ _ => ?_, by rintro ⟨⟩⟩
    have read : LoadM.header heap addr.toUInt32 = pure (Nat.toUInt32 0, 0) :=
      header_of first second small (by decide) (by decide)
    have none_ : LoadM.bytes heap (Nat.toUInt32 0) 0 = pure [] := by
      have nothing : heap.Spans 0 [] := fun _ _ at_ => by cases at_
      unfold LoadM.bytes Heap.slice?
      change LoadM.inReach (WireCodec.slice? heap.bytes 0 ([] : List UInt8).length) = _
      rw [nothing.slice (Nat.zero_le _)]
      rfl
    rw [load, Content.value, Content.emptyValue]
    cases kind : t.kind with
    | string | binary => simp only [read, pure_bind, none_]
    | list | set =>
      obtain ⟨elem, is⟩ := sound.sequence has (by simp [kind])
      simp only [TypeDesc.elem?, is.elem?, LoadM.ofSchema, read, pure_bind]
      rw [loadItems]
      rfl
    | map =>
      obtain ⟨key, elem, layout, is⟩ := sound.map entries has kind
      simp only [TypeDesc.elem?, TypeDesc.key?, is.elem?, is.key?, LoadM.ofSchema, LoadM.inReach, is.layout?, read, pure_bind]
      rw [loadEntries]
      rfl
    | _ =>
      rw [kind] at hasHeader
      cases hasHeader
  | @noTarget addr t kind at_ =>
    refine ⟨fun _ nils => ?_, by rintro ⟨⟩⟩
    obtain ⟨record, ok, struct, _⟩ := (nils rfl).record has (.inr kind)
    have read := word32_of (n := 0) at_ small (by decide)
    rw [load, Content.value, Content.emptyValue]
    simp only [kind, pointee_of kind ok, LoadM.ofSchema, pure_bind, read]
    rw [TypeDesc.recordFields_target ok (.inl struct), TypeDesc.recordFields_struct struct]
    rfl
  | @blob addr t bytes data kind head at_ =>
    refine ⟨fun _ _ => ?_, by rintro ⟨⟩⟩
    have range := head.high
    have read := header_of head.first head.second small (by omega) head.countFits
    have got : LoadM.bytes heap data.toUInt32 bytes.length = pure bytes := by
      unfold LoadM.bytes Heap.slice?
      rw [Heap.toNat_toUInt32 (by omega), at_.slice (by omega)]
      rfl
    rw [load, Content.value]
    rcases kind with kind | kind <;> simp only [kind, read, pure_bind, got] <;> rfl
  | @items addr t elem elems data is head each ih =>
    refine ⟨fun _ _ => ?_, by rintro ⟨⟩⟩
    have range := head.high
    have read := header_of head.first head.second small (by omega) head.countFits
    have items : loadItems known heap elem elems.length data = pure (Content.values known elem elems) := by
      refine loadItems_of (by omega) fun i c at_ => ?_
      obtain ⟨inner, nils⟩ := element (whole.imp_right Content.Solid.of_items) (mem_of_getElem? at_)
      exact (ih i c at_ is.hasElem (le_trans (elem_inside head at_).2 top) inner).1 rfl nils
    have toNat : data.toUInt32.toNat = data := Heap.toNat_toUInt32 (by omega)
    rw [load, Content.value]
    rcases is.kind with kind | kind <;>
      simp only [kind, TypeDesc.elem?, TypeDesc.part, is.elem?, Option.getD_some, LoadM.ofSchema, pure_bind, read, toNat,
        items] <;> rfl
  | @entries addr t key elem layout keys elems data is length head eachKey each ihKey ih =>
    refine ⟨fun _ _ => ?_, by rintro ⟨⟩⟩
    have range := head.high
    have bounds := TypeDesc.EntryLayout.bounds is.layout?
    have read := header_of head.first head.second small (by omega) head.countFits
    have parts := whole.imp_right Content.Solid.of_entries
    have entries : loadEntries known heap key elem layout keys.length data =
        pure ((Content.values known key keys).zip (Content.values known elem elems)) := by
      refine loadEntries_of length bounds.2 (by omega) (fun i c at_ => ?_) fun i c at_ => ?_
      · have room := key_inside is head (List.getElem?_eq_some_iff.mp at_).1
        obtain ⟨inner, nils⟩ := element parts (mem_append_left _ (mem_of_getElem? at_))
        exact (ihKey i c at_ is.hasKey (le_trans room.2 top) inner).1 rfl nils
      · have room := value_inside is head (length ▸ (List.getElem?_eq_some_iff.mp at_).1)
        obtain ⟨inner, nils⟩ := element parts (mem_append_right _ (mem_of_getElem? at_))
        exact (ih i c at_ is.hasElem (le_trans room.2 top) inner).1 rfl nils
    have toNat : data.toUInt32.toNat = data := Heap.toNat_toUInt32 (by omega)
    rw [load, Content.value]
    simp only [is.kind, TypeDesc.elem?, TypeDesc.key?, TypeDesc.part, TypeDesc.keyPart, is.elem?, is.key?,
      Option.getD_some, LoadM.ofSchema, LoadM.inReach, is.layout?, pure_bind, read, toNat, entries]
  | @record addr t slots kind length each ih =>
    refine ⟨fun _ _ => ?_, by rintro ⟨⟩⟩
    have fits : ∀ field ∈ t.fields, addr + field.offset.toNat + slotSize field.isBoxed field.type ≤ heap.size :=
      fun field mem => le_trans (slot_inside sound has mem addr) inside
    suffices slots : loadSlots known heap addr.toUInt32 t.fields = pure (Content.slotValues known t.fields slots) by
      rw [load, Content.value, TypeDesc.recordFields_struct kind]
      simp only [kind, slots, pure_bind]
    refine loadSlots_of length (fun field mem => ?_) (fun i field c at_ held => ?_) (by omega)
    · have := fits field mem
      omega
    · have mem := mem_of_getElem? at_
      have hasField := sound.field has mem
      have read := ih i field c at_ held hasField (fits field mem)
        (whole.imp_right fun solid => solid.of_record c (mem_of_getElem? held))
      by_cases isBoxed : field.isBoxed = true
      · exact read.2 isBoxed field rfl isBoxed
      · have plain : field.isBoxed = false := by simpa using isBoxed
        have inner := each i field c at_ held
        rw [plain] at inner
        have read := read.1 plain
        by_cases refers : field.type.kind.hasHeader = true ∨ field.type.kind = .pointer
        · obtain ⟨n, first, low, nil_⟩ := inner.firstWord refers (by omega)
          have read' := word32_of first small low
          rw [loadField, if_neg isBoxed, if_pos (by simpa using refers), read', pure_bind]
          by_cases zero : n = 0
          · rw [if_pos (by rw [zero]; rfl), fieldValue, if_pos (nil_.mp zero)]
          · have full : ¬ c.isNil = true := fun isNil => zero (nil_.mpr isNil)
            rw [if_neg (toUInt32_ne_nil zero low), read fun isNil => absurd isNil full, pure_bind, fieldValue, if_neg full]
        · have full : c.isNil = false := by
            cases c with
            | nil => exact absurd inner.suits refers
            | _ => rfl
          rw [loadField, if_neg isBoxed, if_neg (by simpa using refers),
            read fun isNil => absurd (full.symm.trans isNil) (by rintro ⟨⟩), pure_bind, fieldValue, full]
          rfl
  | @target addr t record slots data kind isRecord at_ some_ low high inner ih =>
    refine ⟨fun _ _ => ?_, by rintro ⟨⟩⟩
    have read := word32_of at_ small (by omega)
    have some' := toUInt32_ne_nil some_ (show data < 2 ^ 32 by omega)
    have inner' := (ih (sound.recordType has isRecord) (le_trans high top) whole).1 rfl (by rintro ⟨⟩)
    rw [load]
    simp only [kind, pointee_of kind isRecord, LoadM.ofSchema, pure_bind, read, if_neg some', inner']
    simp only [Content.value, TypeDesc.recordFields_target isRecord inner.suits]

lemma loadValue_of (usable : known.Usable) (holds : Holds known heap lo hi false addr t c) (has : known.Has t)
    (small : heap.size ≤ Heap.limit) (top : hi ≤ heap.size) (inside : addr + t.size.toNat ≤ heap.size) :
    loadValue known heap addr.toUInt32 t = .ok (c.value known t) := by
  rw [loadValue, (holds.loads usable.sound usable.entries has small top inside (.inl usable)).1 rfl fun _ => usable]
  rfl

end Holds

end WireCodec
