import WireCodec.Proofs.Value.Storing

/-! The pointer slots of a value: the words in it that refer to other memory, at every depth. Which
slots these are stays as long as the bytes of the value stay. -/
namespace WireCodec

def Heap.link (heap : Heap) (addr : Nat) : Nat := ((heap.read32? addr.toUInt32).getD 0).toNat

/-- `a` is a pointer slot that is not nil, in the value that the slot at `addr` of a type holds. -/
inductive LinkAt (known : Registry) (heap : Heap) : (boxed : Bool) → Nat → TypeDesc → Nat → Prop
  | cell {addr : Nat} {t : TypeDesc} (some_ : heap.link addr ≠ 0) : LinkAt known heap true addr t addr
  | own {addr : Nat} {t : TypeDesc} (refers : t.kind.hasHeader = true ∨ t.kind = .pointer)
      (some_ : heap.link addr ≠ 0) : LinkAt known heap false addr t addr
  | item {addr i a : Nat} {t elem : TypeDesc} (is : known.IsSequence t elem) (some_ : heap.link addr ≠ 0)
      (low : i < heap.link (addr + 4))
      (inner : LinkAt known heap false (heap.link addr + i * elem.size.toNat) elem a) :
      LinkAt known heap false addr t a
  | key {addr i a : Nat} {t key elem : TypeDesc} {layout : TypeDesc.EntryLayout}
      (is : known.IsMap t key elem layout) (some_ : heap.link addr ≠ 0) (low : i < heap.link (addr + 4))
      (inner : LinkAt known heap false (heap.link addr + i * layout.stride.toNat) key a) :
      LinkAt known heap false addr t a
  | value {addr i a : Nat} {t key elem : TypeDesc} {layout : TypeDesc.EntryLayout}
      (is : known.IsMap t key elem layout) (some_ : heap.link addr ≠ 0) (low : i < heap.link (addr + 4))
      (inner : LinkAt known heap false (heap.link addr + i * layout.stride.toNat + layout.valueOffset.toNat) elem a) :
      LinkAt known heap false addr t a
  | field {addr a : Nat} {t : TypeDesc} {field : FieldDesc} (kind : t.kind = .struct) (mem : field ∈ t.fields)
      (inner : LinkAt known heap field.isBoxed (addr + field.offset.toNat) field.type a) :
      LinkAt known heap false addr t a
  | target {addr a : Nat} {t record : TypeDesc} (kind : t.kind = .pointer) (some_ : heap.link addr ≠ 0)
      (isRecord : t.recordType known = .ok record) (inner : LinkAt known heap false (heap.link addr) record a) :
      LinkAt known heap false addr t a

section Words

variable {heap heap' : Heap} {addr n : Nat}

lemma Heap.Word.link (is : heap.Word addr 4 n.toUInt64) (small : heap.size ≤ Heap.limit)
    (low : n < 2 ^ 32) : heap.link addr = n := by
  have toNat : n.toUInt64.toNat = n := by
    simp only [Nat.toUInt64_eq, UInt64.toNat_ofNat']
    omega
  have read := is.read (by unfold Heap.limit at small; omega) (by decide) (by rw [toNat]; exact low)
  rw [Heap.link, Heap.read32?, read, Option.map_some, Option.getD_some, UInt64.toNat_toUInt32, toNat,
    Nat.mod_eq_of_lt low]

lemma Heap.Same.link (same : heap.Same heap' addr (addr + 4)) (inside : addr + 4 ≤ heap.size)
    (grown : heap.size ≤ heap'.size) (small : heap.size ≤ Heap.limit) : heap'.link addr = heap.link addr := by
  have place : addr.toUInt32.toNat = addr := Heap.toNat_toUInt32 (by unfold Heap.limit at small; omega)
  obtain ⟨data, cut⟩ : ∃ data, WireCodec.slice? heap.bytes addr 4 = some data := ⟨_, if_pos inside⟩
  obtain ⟨spans, length, _⟩ := Heap.spans_of_slice cut
  have cut' := (spans.same (by rw [length]; exact same)).slice (by rw [length]; omega)
  rw [length] at cut'
  simp only [Heap.link, Heap.read32?, Heap.read?, Heap.slice?, place, cut, cut']

lemma Heap.Clear.link {size : Nat} (clear : heap.Clear addr size) (wide : 4 ≤ size)
    (inside : addr + size ≤ heap.size) (small : heap.size ≤ Heap.limit) : heap.link addr = 0 :=
  Heap.Word.link ((clear.part le_rfl (by omega)).word (by omega)) small (by decide)

end Words

/-! The pointer slots by the form of a type. -/

section Forms

variable {known : Registry} {heap : Heap} {addr a : Nat} {t elem key record : TypeDesc} {layout : TypeDesc.EntryLayout}

lemma linkAt_cell : LinkAt known heap true addr t a ↔ a = addr ∧ heap.link addr ≠ 0 := by
  constructor
  · rintro ⟨some_⟩
    exact ⟨rfl, some_⟩
  · rintro ⟨rfl, some_⟩
    exact .cell some_

lemma not_linkAt_scalar (isScalar : t.kind.isScalar = true) : ¬ LinkAt known heap false addr t a := by
  intro link
  cases link with
  | own refers =>
    rcases refers with header | kind
    · exact absurd (isScalar.symm.trans (Kind.isScalar_of_hasHeader header)) nofun
    · exact absurd isScalar (by rw [kind]; nofun)
  | item is => rcases is.kind with kind | kind <;> exact absurd isScalar (by rw [kind]; nofun)
  | key is | value is => exact absurd isScalar (by rw [is.kind]; nofun)
  | field kind | target kind => exact absurd isScalar (by rw [kind]; nofun)

lemma LinkAt.link_ne (link : LinkAt known heap false addr t a)
    (refers : t.kind.hasHeader = true ∨ t.kind = .pointer) : heap.link addr ≠ 0 := by
  cases link with
  | field kind => simp [kind, Kind.hasHeader] at refers
  | _ => assumption

lemma linkAt_blob (kind : t.kind = .string ∨ t.kind = .binary) :
    LinkAt known heap false addr t a ↔ a = addr ∧ heap.link addr ≠ 0 := by
  have header := Kind.hasHeader_of_blob kind
  refine ⟨fun link => ⟨?_, link.link_ne (.inl header)⟩, fun ⟨same, some_⟩ => same ▸ .own (.inl header) (same ▸ some_)⟩
  cases link with
  | item is | key is | value is => grind [is.kind]
  | _ => grind

lemma linkAt_sequence (is : known.IsSequence t elem) : LinkAt known heap false addr t a ↔ heap.link addr ≠ 0 ∧
    (a = addr ∨ ∃ i < heap.link (addr + 4), LinkAt known heap false (heap.link addr + i * elem.size.toNat) elem a) := by
  have kind := is.kind
  have header := is.hasHeader
  refine ⟨fun link => ⟨link.link_ne (.inl header), ?_⟩, ?_⟩
  · cases link with
    | own => exact .inl rfl
    | item is' _ low inner =>
      cases is.elem?.symm.trans is'.elem?
      exact .inr ⟨_, low, inner⟩
    | key is' | value is' => grind [is'.kind]
    | _ => grind
  · rintro ⟨some_, rfl | ⟨i, low, inner⟩⟩
    · exact .own (.inl header) some_
    · exact .item is some_ low inner

lemma linkAt_map (is : known.IsMap t key elem layout) : LinkAt known heap false addr t a ↔ heap.link addr ≠ 0 ∧
    (a = addr ∨ ∃ i < heap.link (addr + 4), LinkAt known heap false (heap.link addr + i * layout.stride.toNat) key a ∨
      LinkAt known heap false (heap.link addr + i * layout.stride.toNat + layout.valueOffset.toNat) elem a) := by
  have kind := is.kind
  have header : t.kind.hasHeader = true := by rw [kind]; rfl
  have same : ∀ {key' elem' : TypeDesc} {layout' : TypeDesc.EntryLayout}, known.IsMap t key' elem' layout' →
      key' = key ∧ elem' = elem ∧ layout' = layout := by
    intro key' elem' layout' is'
    cases is.key?.symm.trans is'.key?
    cases is.elem?.symm.trans is'.elem?
    cases is.layout?.symm.trans is'.layout?
    exact ⟨rfl, rfl, rfl⟩
  refine ⟨fun link => ⟨link.link_ne (.inl header), ?_⟩, ?_⟩
  · cases link with
    | own => exact .inl rfl
    | item is' => grind [is'.kind]
    | key is' _ low inner =>
      obtain ⟨rfl, rfl, rfl⟩ := same is'
      exact .inr ⟨_, low, .inl inner⟩
    | value is' _ low inner =>
      obtain ⟨rfl, rfl, rfl⟩ := same is'
      exact .inr ⟨_, low, .inr inner⟩
    | _ => grind
  · rintro ⟨some_, rfl | ⟨i, low, inner | inner⟩⟩
    · exact .own (.inl header) some_
    · exact .key is some_ low inner
    · exact .value is some_ low inner

lemma linkAt_struct (kind : t.kind = .struct) : LinkAt known heap false addr t a ↔
    ∃ field ∈ t.fields, LinkAt known heap field.isBoxed (addr + field.offset.toNat) field.type a := by
  refine ⟨fun link => ?_, fun ⟨field, mem, inner⟩ => .field kind mem inner⟩
  cases link with
  | own refers => simp [kind, Kind.hasHeader] at refers
  | field _ mem inner => exact ⟨_, mem, inner⟩
  | item is | key is | value is => grind [is.kind]
  | target is => cases kind.symm.trans is

lemma linkAt_pointer (kind : t.kind = .pointer) (isRecord : t.recordType known = .ok record) : LinkAt known heap false
    addr t a ↔ heap.link addr ≠ 0 ∧ (a = addr ∨ LinkAt known heap false (heap.link addr) record a) := by
  refine ⟨fun link => ⟨link.link_ne (.inr kind), ?_⟩, ?_⟩
  · cases link with
    | own => exact .inl rfl
    | target _ _ isRecord' inner =>
      cases isRecord.symm.trans isRecord'
      exact .inr inner
    | item is | key is | value is => grind [is.kind]
    | field is => cases kind.symm.trans is
  · rintro ⟨some_, rfl | inner⟩
    · exact .own (.inr kind) some_
    · exact .target kind some_ isRecord inner

end Forms

section Slots

variable {known : Registry} {heap heap' : Heap} {lo hi addr a : Nat} {boxed : Bool} {t : TypeDesc} {c : Content}

variable (sound : known.Sound)
include sound

lemma four_le_size (has : known.Has t) (refers : t.kind.hasHeader = true ∨ t.kind = .pointer) : 4 ≤ t.size.toNat := by
  rcases refers with header | pointer
  · rw [(sound.shaped t has).size_header header]
    decide
  · rw [(sound.shaped t has).size_pointer pointer]
    decide

lemma LinkAt.same (link : LinkAt known heap' boxed addr t a) (has : known.Has t)
    (same : heap.Same heap' addr (addr + Holds.slotSize boxed t)) (inside : addr + Holds.slotSize boxed t ≤ heap.size)
    (grown : heap.size ≤ heap'.size) (small : heap.size ≤ Heap.limit) : ∃ a', LinkAt known heap boxed addr t a' := by
  have refers : ∀ {addr : Nat} {t : TypeDesc}, known.Has t → t.kind.hasHeader = true ∨ t.kind = .pointer →
      heap.Same heap' addr (addr + Holds.slotSize false t) → addr + Holds.slotSize false t ≤ heap.size →
      heap'.link addr ≠ 0 → ∃ a', LinkAt known heap false addr t a' := by
    intro addr t has refers same inside some_
    have wide : 4 ≤ Holds.slotSize false t := four_le_size sound has refers
    rw [(same.mono le_rfl (by omega)).link (by omega) grown small] at some_
    exact ⟨addr, .own refers some_⟩
  induction link with
  | cell some_ => exact ⟨_, .cell (same.link inside grown small ▸ some_)⟩
  | own is some_ => exact refers has is same inside some_
  | item is some_ =>
    exact refers has (.inl is.hasHeader) same inside some_
  | key is some_ | value is some_ => exact refers has (.inl (by rw [is.kind]; rfl)) same inside some_
  | target kind some_ => exact refers has (.inr kind) same inside some_
  | @field addr a t field kind mem inner ih =>
    have room := Holds.slot_inside sound has mem addr
    obtain ⟨a', link⟩ := ih (sound.field has mem) (same.mono (by omega) room) (le_trans room inside)
    exact ⟨a', .field kind mem link⟩

lemma Vacant.unlinked (vacant : Vacant known heap boxed addr t) (a : Nat) : ¬ LinkAt known heap boxed addr t a := by
  intro link
  obtain ⟨has, started, small, inside, clear⟩ := vacant
  have refers : ∀ {addr : Nat} {t : TypeDesc}, known.Has t → t.kind.hasHeader = true ∨ t.kind = .pointer →
      addr + Holds.slotSize false t ≤ heap.size → heap.Clear addr (Holds.slotSize false t) → heap.link addr = 0 :=
    fun has refers inside clear => clear.link (four_le_size sound has refers) inside small
  induction link with
  | cell some_ => exact some_ (clear.link le_rfl inside small)
  | own is some_ => exact some_ (refers has is inside clear)
  | item is some_ => exact some_ (refers has (.inl is.hasHeader) inside clear)
  | key is some_ | value is some_ => exact some_ (refers has (.inl (by rw [is.kind]; rfl)) inside clear)
  | target kind some_ => exact some_ (refers has (.inr kind) inside clear)
  | @field addr a t field kind mem inner ih =>
    have room := Holds.slot_inside sound has mem addr
    exact ih (sound.field has mem) (le_trans room inside) (clear.part (by omega) room)

/-- The pointer slots of what a slot holds stay while its bytes and those of the range stay. -/
lemma Holds.linkAt_iff (holds : Holds known heap lo hi boxed addr t c) (has : known.Has t)
    (same : heap.Same heap' addr (addr + slotSize boxed t)) (range : heap.Same heap' lo hi) (high : hi ≤ heap.size)
    (grown : heap.size ≤ heap'.size) (small : heap'.size ≤ Heap.limit) :
    LinkAt known heap' boxed addr t a ↔ LinkAt known heap boxed addr t a := by
  have small' : heap.size ≤ Heap.limit := le_trans grown small
  have headed : ∀ {t : TypeDesc}, known.Has t → t.kind.hasHeader = true → slotSize false t = 8 :=
    fun has => slotSize_header (sound.shaped _ has)
  have pointed : ∀ {t : TypeDesc}, known.Has t → t.kind = .pointer → slotSize false t = 4 :=
    fun has => slotSize_pointer (sound.shaped _ has)
  have four : ∀ {addr : Nat} {n : Nat}, heap.Word addr 4 n.toUInt64 → n < 2 ^ 32 → heap.Same heap' addr (addr + 4) →
      heap.link addr = n ∧ heap'.link addr = n := fun word low same =>
    ⟨word.link small' low, (same.link word.2 grown small').trans (word.link small' low)⟩
  have bound : ∀ {n : Nat}, n ≤ hi → n < 2 ^ 32 := by
    unfold Heap.limit at small'
    intro n le
    omega
  have heads : ∀ {addr data count size : Nat} {t : TypeDesc}, known.Has t → t.kind.hasHeader = true →
      HeaderAt heap lo hi addr data count size → heap.Same heap' addr (addr + slotSize false t) →
      (heap.link addr = data ∧ heap'.link addr = data) ∧ heap.link (addr + 4) = count ∧ heap'.link (addr + 4) = count := by
    intro addr data count size t has header head same
    rw [headed has header] at same
    have := head.high
    exact ⟨four head.first (bound (by omega)) (same.mono le_rfl (by omega)),
      four head.second head.countFits (same.mono (by omega) (by omega))⟩
  induction holds generalizing a with
  | noCell at_ =>
    obtain ⟨is, is'⟩ := four at_ (by decide) same
    rw [linkAt_cell, linkAt_cell, is, is']
  | cell data at_ some_ low high' =>
    obtain ⟨is, is'⟩ := four at_ (bound (by omega)) same
    rw [linkAt_cell, linkAt_cell, is, is']
  | word isScalar =>
    exact iff_of_false (not_linkAt_scalar isScalar) (not_linkAt_scalar isScalar)
  | noHeader hasHeader first =>
    rw [headed has hasHeader] at same
    obtain ⟨is, is'⟩ := four first (by decide) (same.mono le_rfl (by omega))
    exact iff_of_false (fun link => link.link_ne (.inl hasHeader) is') fun link => link.link_ne (.inl hasHeader) is
  | noTarget kind at_ =>
    obtain ⟨is, is'⟩ := four at_ (by decide) (pointed has kind ▸ same)
    exact iff_of_false (fun link => link.link_ne (.inr kind) is') fun link => link.link_ne (.inr kind) is
  | blob data kind head at_ =>
    obtain ⟨⟨is, is'⟩, _⟩ := heads has (Kind.hasHeader_of_blob kind) head same
    rw [linkAt_blob kind, linkAt_blob kind, is, is']
  | items data is head each ih =>
    obtain ⟨⟨first, first'⟩, second, second'⟩ := heads has is.hasHeader head same
    rw [linkAt_sequence is, linkAt_sequence is, first, first', second, second']
    refine and_congr_right fun _ => or_congr_right (exists_congr fun i => and_congr_right fun low => ?_)
    have at_ := List.getElem?_eq_getElem low
    obtain ⟨first, last⟩ := elem_inside head at_
    exact ih i _ at_ is.hasElem (range.mono first last)
  | entries data is length head eachKey each ihKey ih =>
    obtain ⟨⟨first, first'⟩, second, second'⟩ := heads has (by rw [is.kind]; rfl) head same
    rw [linkAt_map is, linkAt_map is, first, first', second, second']
    refine and_congr_right fun _ => or_congr_right (exists_congr fun i => and_congr_right fun low => ?_)
    obtain ⟨firstKey, lastKey⟩ := key_inside is head low
    obtain ⟨first, last⟩ := value_inside is head low
    exact or_congr (ihKey i _ (List.getElem?_eq_getElem low) is.hasKey (range.mono firstKey lastKey))
      (ih i _ (List.getElem?_eq_getElem (length ▸ low)) is.hasElem (range.mono first last))
  | @record addr t slots kind length each ih =>
    rw [linkAt_struct kind, linkAt_struct kind]
    refine exists_congr fun field => and_congr_right fun mem => ?_
    obtain ⟨i, low, at_⟩ := List.getElem_of_mem mem
    exact ih i field _ (List.getElem?_eq_some_iff.mpr ⟨low, at_⟩) (List.getElem?_eq_getElem (length ▸ low))
      (sound.field has mem) (same.mono (Nat.le_add_right _ _) (slot_inside sound has mem addr))
  | target data kind isRecord at_ some_ first last inner ih =>
    obtain ⟨is, is'⟩ := four at_ (bound (by omega)) (pointed has kind ▸ same)
    rw [linkAt_pointer kind isRecord, linkAt_pointer kind isRecord, is, is']
    exact and_congr_right fun _ => or_congr_right (ih (sound.recordType has isRecord) (range.mono first last))

lemma Holds.linkAt_keep {owned : Nat → Prop} (holds : Holds known heap lo heap.size boxed addr t c) (has : known.Has t)
    (step : heap.Extends heap' owned) (inside : addr + slotSize boxed t ≤ heap.size)
    (apart : ∀ k, Within addr (slotSize boxed t) k → ¬ owned k) (above : ∀ k, lo ≤ k → k < heap.size → ¬ owned k)
    (a : Nat) : LinkAt known heap' boxed addr t a ↔ LinkAt known heap boxed addr t a :=
  holds.linkAt_iff sound has (step.range inside fun k low high => apart k ⟨low, high⟩)
    (step.range le_rfl above) le_rfl step.grows step.small

end Slots

end WireCodec
