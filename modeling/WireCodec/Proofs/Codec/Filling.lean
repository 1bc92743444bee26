import WireCodec.Proofs.Codec.Parsing

/-! Bytes that spell a content of a type are read as that content, whatever the slot held before. -/
namespace WireCodec

open Lowering List Reading

variable {pieces : List (List UInt8)} {data : UInt64} {elems : List Content}
  {nested : Visit} {sizes : Nat → Nat}

/-- No container has a container directly as an element, a key or a value. -/
structure Registry.Flat (known : Registry) : Prop where
  elems : ∀ t elem, known.Has t → t.elem = some elem → elem.kind.isContainer = false
  keys : ∀ t key, known.Has t → t.key = some key → key.kind.isContainer = false

lemma mul_le_length_flatten {m : Nat} (each : ∀ piece ∈ pieces, m ≤ piece.length) :
    pieces.length * m ≤ pieces.flatten.length := by
  induction pieces with
  | nil => simp
  | cons piece rest ih =>
    have first := each piece mem_cons_self
    have others := ih fun piece mem => each piece (mem_cons_of_mem _ mem)
    rw [length_cons, Nat.succ_mul, flatten_cons, length_append]
    omega

section

variable {known : Registry} {left inner addr s s' start : Nat} {t key elem : TypeDesc} {bytes : List UInt8}
  {base : UInt64} {off : UInt32} {boxed : Bool} {c : Content} {layout : TypeDesc.EntryLayout}
  {entries : List (Part × Part)} {parts : List Part} {has : known.Has elem} {p : Spot known}

lemma Spells.minWireSize_le (sound : known.Sound) (spells : Spells known boxed left t bytes c s s')
    (has : known.Has t) : t.kind.minWireSize.toNat ≤ bytes.length := by
  induction spells with
  | cell isScalar length | word isScalar length => rw [(sound.shaped _ has).minWireSize isScalar, length]
  | blob kind short =>
    rw [length_append, length_countBytes]
    rcases kind with kind | kind <;> rw [kind] <;> exact Nat.le_add_right 4 _
  | items pieces sizes is =>
    simp only [length_append, length_singleton, length_countBytes]
    rcases is.kind with kind | kind <;> rw [kind] <;> change 5 ≤ _ <;> omega
  | entries keyPieces pieces sizes middles is =>
    simp only [length_append, length_singleton, length_countBytes]
    rw [is.kind]
    change 6 ≤ _
    omega
  | record occs sizes kind =>
    rw [kind, length_append]
    exact Nat.le_add_left 1 _
  | target kind isRecord struct _ ih =>
    have one := ih (sound.recordType has isRecord)
    rw [struct] at one
    rw [kind]
    exact one

lemma entryLoop_eq {e : Entry} {entry : Nat → UInt64 → Act Unit} {count : UInt64}
    (frames : Inside e.isSimple left inner) :
    entryLoop e left count data entry = Act.each (entry inner) e.stride count.toNat data := by
  unfold entryLoop
  unfold Inside at frames
  by_cases simple : e.isSimple = true
  · rw [if_pos simple] at frames ⊢
    rw [frames]
  · rw [if_neg simple] at frames ⊢
    rw [frames]
    rfl

lemma fills_container {α : Type} {xs : List α} {piece : α → List UInt8} {row : α → Nat → List (Spot known)}
    {isSet : Bool} {entry : Nat → UInt64 → Act Unit} {content : Content} {e : Entry} {keyTags : List UInt8} {tag : UInt8}
    (sound : known.Sound) (has : known.Has t) (header : t.kind.hasHeader = true) (short : xs.length < 2 ^ 31)
    (keyed : keyTags.length = if e.key.isSome then 1 else 0)
    (tags : xs ≠ [] → tag = e.elem.kind.tag ∧ ∀ key, e.key = some key → keyTags = [key.kind.tag])
    (frames : xs ≠ [] → Inside e.isSimple left inner) (stride : e.stride.toNat < 2 ^ 31)
    (place : base.toNat + off.toNat = addr) (near : off.toNat < 2 ^ 31)
    (least : ∀ a ∈ xs, e.minSize.toNat ≤ (piece a).length)
    (inRow : ∀ a start, ∀ p ∈ row a start, start ≤ p.addr ∧ p.addr + p.width ≤ start + e.stride.toNat)
    (through : Through (fun a s s' => s ≤ s' ∧ ∀ place : UInt64,
      FillsAll (entry inner place) (piece a) (row a place.toNat) s s') xs (Heap.after s (xs.length * e.stride.toNat)) s')
    (check : isSet = true → ∀ (c : Scene) (lo : Nat) (data : UInt64), c.Ready →
      (∀ p ∈ Spot.each row e.stride.toNat data.toNat xs, p.addr + p.width ≤ c.heap.size ∧ p.HeldIn c.heap lo) →
      Act.distinct known e.elem data xs.length.toUInt64 c = .ok () c)
    (build : ∀ (heap : Heap) lo lo' data, lo ≤ lo' →
      HeaderAt heap lo heap.size addr data xs.length (xs.length * e.stride.toNat) →
      (∀ p ∈ Spot.each row e.stride.toNat data xs, p.HeldIn heap lo') → Holds known heap lo heap.size false addr t content)
    (links : ∀ (heap : Heap) a, heap.link addr ≠ 0 → heap.link (addr + 4) = xs.length →
      (LinkAt known heap false addr t a ↔
        a = addr ∨ ∃ p ∈ Spot.each row e.stride.toNat (heap.link addr) xs, p.Links heap a)) :
    Fills known (container known isSet e false left base off entry)
      (keyTags ++ ([tag] ++ (countBytes xs.length ++ xs.flatMap piece))) false addr t content s s' := by
  intro c ready size fits at_ inside
  subst size
  have within := fun data => @Spot.within_each known α row e.stride.toNat data xs inRow
  have grows := through.le And.left
  have long : xs.length * e.minSize.toNat ≤ (xs.flatMap piece).length := by
    rw [flatMap_def, ← length_map piece]
    exact mul_le_length_flatten (forall_mem_map.mpr least)
  rw [Holds.slotSize_header (sound.shaped t has) header] at inside ⊢
  have regroup : keyTags ++ ([tag] ++ (countBytes xs.length ++ xs.flatMap piece)) = keyTags ++ ([tag] ++ countBytes xs.length) ++ xs.flatMap piece := by
    simp only [append_assoc]
  have headLength : (keyTags ++ ([tag] ++ countBytes xs.length)).length = keyTags.length + 5 := by
    simp only [length_append, length_singleton, length_countBytes]
  rw [regroup] at at_ ⊢
  obtain ⟨atHead, atBody⟩ := At.append.mp at_
  obtain ⟨c₁, head, heap₁, went₁⟩ := went_containerHead ready short keyed atHead
  rw [headLength] at atBody
  have at₁ := went₁.ahead atBody
  have ready₁ := ready.went went₁
  obtain ⟨c₂, data, made, start, size₂, first, second, clear, went₂, reports₂⟩ := @went_makeRoom e base off c₁ ready₁ xs.length short
    (by have := at₁.2; omega) stride (by rw [heap₁]; exact le_trans grows fits) near (by rw [place, heap₁]; exact inside)
  rw [place, heap₁] at reports₂
  rw [place] at first second went₂
  rw [heap₁] at size₂ start first clear
  have up := c.heap.le_next
  have next := ready.started.next_ne
  have ready₂ := ready₁.went went₂
  have looped : FillsAll (if xs.length.toUInt64 = 0 then pure () else do
      entryLoop e left xs.length.toUInt64 data entry
      if isSet then Act.distinct known e.elem data xs.length.toUInt64 else pure ()) (xs.flatMap piece) (Spot.each row e.stride.toNat data.toNat xs)
      (Heap.after c.heap.size (xs.length * e.stride.toNat)) s' := by
    by_cases none_ : xs = []
    · subst none_
      cases through
      exact fillsAll_pure _
    · have some_ := fun is => none_ (eq_nil_of_length_eq_zero ((toUInt64_eq_zero (by omega)).mp is))
      rw [if_neg some_, entryLoop_eq (frames none_), toNat_toUInt64 (by omega)]
      refine (fillsAll_each sound stride inRow through ?_).check fun c lo ready held => ?_
      · rw [start]
        exact le_rfl
      · cases isSet with
        | false => rfl
        | true => exact check rfl c lo data ready held
  have room : ∀ p ∈ Spot.each row e.stride.toNat data.toNat xs, p.addr + p.width ≤ c₂.heap.size := fun p mem => by
    have := within _ p mem
    omega
  obtain ⟨c₃, ran, went₃, size₃, held, reports₃⟩ := looped c₂ ready₂ size₂ fits (went₂.ahead at₁)
    (fun p mem => le_trans (room p mem) (le_of_eq size₂))
  have grown := went₃.heap.grows
  have apart : ∀ k, k < addr + 8 → ¬ ∃ p ∈ Spot.each row e.stride.toNat data.toNat xs, p.Covers k := by
    rintro k high ⟨p, mem, own⟩
    have := within _ p mem
    omega
  have first₃ := first.same (went₃.heap.range first.2 fun k _ high => apart k (by omega)) grown
  have second₃ := second.same (went₃.heap.range second.2 fun k _ high => apart k (by omega)) grown
  refine ⟨c₃, ?_, ?_, size₃, ?_, fun unlinked => ?_⟩
  · rw [container, Act.bind_ok head, Act.bind_ok (checkTags_ok short fun some_ => tags fun none_ => some_ (by rw [none_]; rfl)), Act.bind_ok made]
    exact ran
  · rw [length_append, headLength]
    refine ((went₁.mono fun k _ => False.elim).trans went₂ fun _ _ => id).trans went₃ fun k low inside => ?_
    obtain ⟨p, mem, own⟩ := inside
    have := within _ p mem
    omega
  · rw [start] at held
    exact build _ _ _ c.heap.next (by omega) ⟨first₃, second₃, next, up, by omega, by omega⟩ held
  · have told : Reports c c₂ (Within addr 8) (· = addr) := by
      refine (silent_containerHead _ head).andThen (reports₂ ?_) (le_of_eq (by rw [heap₁]))
      by_contra some_
      exact unlinked _ (.own (.inl header) some_)
    have later := reports₃ fun p mem => Vacant.unlinked sound ⟨p.has, ready₂.started, ready₂.small, room p mem,
      clear.part (le_trans (le_of_eq start.symm) (within _ p mem).1) (start ▸ (within _ p mem).2)⟩
    have link := first₃.link went₃.heap.small (by have := went₃.heap.small; unfold Heap.limit at this; omega)
    refine (told.trans later (by omega) went₃.heap (fun k low inside => ?_) ?_).congr fun a => ?_
    · obtain ⟨p, mem, own⟩ := inside
      have := within _ p mem
      omega
    · rintro a rfl k in_
      exact apart k (by omega)
    · rw [links _ _ (by rw [link]; exact next) (second₃.link went₃.heap.small (by omega)), link, start]

def itemSpots (has : known.Has elem) : Nat → List Part → List (Spot known) :=
  Spot.each (fun part place => [⟨false, place, elem, part.2, has⟩]) elem.size.toNat

lemma mem_itemSpots : p ∈ itemSpots has start parts ↔
      ∃ (i : Nat) (part : Part), parts[i]? = some part ∧ p = ⟨false, start + i * elem.size.toNat, elem, part.2, has⟩ := by
  simp only [itemSpots, Spot.mem_each, mem_singleton]

lemma inRow_item (has : known.Has elem) (part : Part) (start : Nat) :
    ∀ p ∈ [(⟨false, start, elem, part.2, has⟩ : Spot known)], start ≤ p.addr ∧ p.addr + p.width ≤ start + elem.size.toNat :=
  forall_mem_singleton.mpr ⟨le_rfl, le_rfl⟩

lemma distinct_items (usable : known.Usable) (has : known.Has elem) (short : parts.length < 2 ^ 31)
    (c : Scene) (lo : Nat) (data : UInt64) (ready : c.Ready)
    (held : ∀ p ∈ itemSpots has data.toNat parts, p.addr + p.width ≤ c.heap.size ∧ p.HeldIn c.heap lo) :
    Act.distinct known elem data parts.length.toUInt64 c =
      if (Content.values known elem (parts.map Prod.snd)).Nodup then .ok () c
      else .error (.codec .duplicateSetElement c.pos) c := by
  by_cases none_ : parts = []
  · subst none_
    rfl
  have each : ∀ (i : Nat) (part : Part), parts[i]? = some part → data.toNat + i * elem.size.toNat + elem.size.toNat ≤
      c.heap.size ∧ Holds known c.heap lo c.heap.size false (data.toNat + i * elem.size.toNat) elem part.2 :=
    fun i part at_ => held _ (mem_itemSpots.mpr ⟨i, part, at_, rfl⟩)
  have back : ∀ (i : Nat) v, (Content.values known elem (parts.map Prod.snd))[i]? = some v →
      loadValue known c.heap (data.toNat + i * elem.size.toNat).toUInt32 elem = .ok v := by
    intro i v at_
    rw [Content.values_eq_map, map_map, getElem?_map, Option.map_eq_some_iff] at at_
    obtain ⟨part, found, rfl⟩ := at_
    exact (each i part found).2.loadValue_of usable has ready.small le_rfl (each i part found).1
  have total : (Content.values known elem (parts.map Prod.snd)).length = parts.length := by
    rw [Holds.length_values, length_map]
  have inside : data.toNat + parts.length * elem.size.toNat < 2 ^ 32 := by
    have small := ready.small
    unfold Heap.limit at small
    obtain ⟨n, last⟩ := Nat.exists_eq_succ_of_ne_zero fun zero => none_ (eq_nil_of_length_eq_zero zero)
    have := (each n _ (getElem?_eq_getElem (by omega))).1
    rw [last, Nat.succ_mul]
    omega
  have check := Writing.distinct_eq (by rw [total]; exact inside) (by rw [total]; omega) back
  rwa [total, Nat.toUInt64_eq, UInt64.ofNat_toNat] at check

lemma fills_items {tag : UInt8} (usable : known.Usable) (compact : known.Compact) (has : known.Has t)
    (is : known.IsSequence t elem) (short : parts.length < 2 ^ 31)
    (tags : parts ≠ [] → tag = elem.kind.tag ∧ Inside (isSimple elem) left inner)
    (distinct : t.kind = .set → (Content.values known elem (parts.map Prod.snd)).Nodup)
    (through : Through (fun part s s' => Spells known false inner elem part.1 part.2 s s' ∧ ∀ place : UInt64,
      Fills known (value known (fun _ => nested) elem true inner place 0) part.1 false place.toNat elem part.2 s s') parts
      (Heap.after s (parts.length * elem.size.toNat)) s')
    (place : base.toNat + off.toNat = addr) (near : off.toNat < 2 ^ 31) :
    Fills known (value known (fun _ => nested) t false left base off)
      ([tag] ++ (countBytes parts.length ++ parts.flatMap Prod.fst)) false addr t (.items (parts.map Prod.snd)) s s' := by
  rw [value_sequence _ _ _ _ is]
  refine @fills_container known left inner addr s s' t base off Part parts Prod.fst
    (fun part place => [⟨false, place, elem, part.2, is.hasElem⟩]) _ _ _ (.ofList elem) [] tag usable.sound has is.hasHeader
    short rfl (fun some_ => ⟨(tags some_).1, fun _ given => (by cases given)⟩)
    (fun some_ => by simpa [Entry.isSimple, Entry.ofList] using (tags some_).2) (compact.sizes elem is.hasElem) place near
    (fun part mem => ?_) (inRow_item is.hasElem) (through.imp fun _ both => ⟨both.1.grows, fun place => (both.2 place).one⟩)
    (fun set c lo data ready held => ?_) (fun heap lo lo' data le head held => ?_) fun heap a some_ count => ?_
  · obtain ⟨_, _, spells, _⟩ := through.mem mem
    simpa [toNat_minSize, Entry.ofList] using spells.minWireSize_le usable.sound is.hasElem
  · exact (distinct_items usable is.hasElem short c lo data ready held).trans (if_pos (distinct (of_decide_eq_true set)))
  · refine .items data is ((length_map Prod.snd).symm ▸ head) fun i c at_ => ?_
    obtain ⟨part, found, rfl⟩ := Option.map_eq_some_iff.mp ((getElem?_map ..).symm.trans at_)
    exact (held _ (mem_itemSpots.mpr ⟨i, part, found, rfl⟩)).widen usable.sound is.hasElem le le_rfl
  · rw [linkAt_sequence is, count, and_iff_right some_]
    refine or_congr_right ⟨?_, ?_⟩
    · rintro ⟨i, low, link⟩
      exact ⟨_, mem_itemSpots.mpr ⟨i, _, getElem?_eq_getElem low, rfl⟩, link⟩
    · rintro ⟨p, mem, link⟩
      obtain ⟨i, part, at_, rfl⟩ := mem_itemSpots.mp mem
      exact ⟨i, (List.getElem?_eq_some_iff.mp at_).1, link⟩

lemma entryRoom_ok {c : Scene} (sound : known.Sound) (hasKey : known.Has key)
    (enough : c.pos.toNat + (key.kind.minWireSize.toNat + elem.kind.minWireSize.toNat) ≤ c.wire.size) :
    entryRoom key elem c = .ok () c := by
  unfold entryRoom
  by_cases joined : isJoined key elem = true
  · rw [if_pos joined]
    have isScalar : key.kind.isScalar = true := by
      simp only [isJoined, Bool.and_eq_true] at joined
      exact joined.1
    have shaped := sound.shaped key hasKey
    rw [shaped.minWireSize isScalar, ← Writing.bytes_width shaped isScalar] at enough
    have short := Kind.minWireSize_le elem.kind
    have total : ((Writing.width key).bytes.toUInt32 + elem.kind.minWireSize).toUInt64.toNat =
        (Writing.width key).bytes + elem.kind.minWireSize.toNat := by
      rw [UInt32.toNat_toUInt64, UInt32.toNat_add]
      cases Writing.width key <;> simp [Width.bytes] <;> omega
    exact need_ok (by rwa [total])
  · rw [if_neg joined]
    rfl

def entrySpots (hasKey : known.Has key) (has : known.Has elem) (layout : TypeDesc.EntryLayout) :
    Nat → List (Part × Part) → List (Spot known) :=
  Spot.each (fun entry place => [⟨false, place, key, entry.1.2, hasKey⟩,
    ⟨false, place + layout.valueOffset.toNat, elem, entry.2.2, has⟩]) layout.stride.toNat

lemma mem_entrySpots {hasKey : known.Has key} : p ∈ entrySpots hasKey has layout start entries ↔
      ∃ (i : Nat) (entry : Part × Part), entries[i]? = some entry ∧
        (p = ⟨false, start + i * layout.stride.toNat, key, entry.1.2, hasKey⟩ ∨
          p = ⟨false, start + i * layout.stride.toNat + layout.valueOffset.toNat, elem, entry.2.2, has⟩) := by
  simp only [entrySpots, Spot.mem_each, mem_cons, not_mem_nil, or_false]

lemma fillsAll_entry {entry : Part × Part} {r : Nat} (sound : known.Sound)
    (is : known.IsMap t key elem layout) (spellsKey : Spells known false inner key entry.1.1 entry.1.2 s r)
    (spells : Spells known false inner elem entry.2.1 entry.2.2 r s')
    (fillsKey : Fills known (value known (fun _ => nested) key true inner base 0) entry.1.1 false base.toNat key entry.1.2 s r)
    (fills : Fills known (value known (fun _ => nested) elem true inner base layout.valueOffset) entry.2.1 false
      (base.toNat + layout.valueOffset.toNat) elem entry.2.2 r s') : FillsAll (do
        entryRoom key elem
        value known (fun _ => nested) key true inner base 0
        value known (fun _ => nested) elem true inner base layout.valueOffset) (entryBytes entry)
      [(⟨false, base.toNat, key, entry.1.2, is.hasKey⟩ : Spot known),
        ⟨false, base.toNat + layout.valueOffset.toNat, elem, entry.2.2, is.hasElem⟩] s s' := by
  have bounds := TypeDesc.EntryLayout.bounds is.layout?
  refine (fillsKey.one.bind sound fills.one spells.grows ?_).behind [] fun c ready at_ => ?_
  · simp only [mem_singleton, forall_eq]
    intro k own own'
    change Within base.toNat key.size.toNat k at own
    change Within (base.toNat + layout.valueOffset.toNat) elem.size.toNat k at own'
    omega
  · have whole := at_.2
    have longKey := spellsKey.minWireSize_le sound is.hasKey
    have long := spells.minWireSize_le sound is.hasElem
    simp only [nil_append, length_append] at whole
    exact ⟨c, Act.bind_ok (entryRoom_ok sound is.hasKey (by omega)), rfl, ⟨rfl, rfl⟩, rfl, rfl, .refl ready.small⟩

lemma inRow_entry (is : known.IsMap t key elem layout) (entry : Part × Part)
    (start : Nat) : ∀ p ∈ [(⟨false, start, key, entry.1.2, is.hasKey⟩ : Spot known),
      ⟨false, start + layout.valueOffset.toNat, elem, entry.2.2, is.hasElem⟩],
      start ≤ p.addr ∧ p.addr + p.width ≤ start + layout.stride.toNat := by
  have bounds := TypeDesc.EntryLayout.bounds is.layout?
  have slotKey : Holds.slotSize false key = key.size.toNat := rfl
  have slotElem : Holds.slotSize false elem = elem.size.toNat := rfl
  simp only [forall_mem_cons, Spot.width, slotKey, slotElem]
  exact ⟨⟨le_rfl, by omega⟩, ⟨by omega, by omega⟩, nofun⟩

lemma fills_entries {keyTag tag : UInt8}
    (usable : known.Usable) (compact : known.Compact) (has : known.Has t) (is : known.IsMap t key elem layout)
    (short : entries.length < 2 ^ 31) (tags : entries ≠ [] → (keyTag = key.kind.tag ∧ tag = elem.kind.tag) ∧
      Inside (isSimple elem && isSimple key) left inner)
    (through : Through (fun entry s s' => ∃ r, (Spells known false inner key entry.1.1 entry.1.2 s r ∧ ∀ place : UInt64,
        Fills known (value known (fun _ => nested) key true inner place 0) entry.1.1 false place.toNat key entry.1.2 s r) ∧
      Spells known false inner elem entry.2.1 entry.2.2 r s' ∧ ∀ place : UInt64,
        Fills known (value known (fun _ => nested) elem true inner place layout.valueOffset) entry.2.1 false
          (place.toNat + layout.valueOffset.toNat) elem entry.2.2 r s') entries
      (Heap.after s (entries.length * layout.stride.toNat)) s')
    (place : base.toNat + off.toNat = addr) (near : off.toNat < 2 ^ 31) :
    Fills known (value known (fun _ => nested) t false left base off)
      ([keyTag] ++ ([tag] ++ (countBytes entries.length ++ entries.flatMap entryBytes))) false addr t
      (.entries ((entries.map Prod.fst).map Prod.snd) ((entries.map Prod.snd).map Prod.snd)) s s' := by
  have sound := usable.sound
  rw [value_map _ _ _ _ is]
  refine @fills_container known left inner addr s s' t base off (Part × Part) entries entryBytes
    (fun entry place => [⟨false, place, key, entry.1.2, is.hasKey⟩,
      ⟨false, place + layout.valueOffset.toNat, elem, entry.2.2, is.hasElem⟩]) _ _ _
    ⟨some key, elem, layout.valueOffset, layout.stride⟩ [keyTag] tag sound has is.hasHeader short rfl
    (fun some_ => ⟨(tags some_).1.2, fun key' given => ?_⟩)
    (fun some_ => by simpa [Entry.isSimple] using (tags some_).2) (compact.strides t key elem layout has is) place near
    (fun entry mem => ?_) (inRow_entry is) (through.imp fun _ both => by
      obtain ⟨r, ⟨spellsKey, fillsKey⟩, spells, fills⟩ := both
      exact ⟨le_trans spellsKey.grows spells.grows, fun place =>
        fillsAll_entry sound is spellsKey spells (fillsKey place) (fills place)⟩) (by rintro ⟨⟩)
    (fun heap lo lo' data le head held => ?_) fun heap a some_ count => ?_
  · cases given
    rw [(tags some_).1.1]
  · obtain ⟨_, _, _, ⟨spellsKey, _⟩, spells, _⟩ := through.mem mem
    rw [toNat_minSize, Nat.add_comm, entryBytes, length_append]
    exact Nat.add_le_add (spellsKey.minWireSize_le sound is.hasKey) (spells.minWireSize_le sound is.hasElem)
  · refine .entries data is (by simp only [length_map]) (by simpa only [length_map] using head) (fun i c at_ => ?_)
      fun i c at_ => ?_
    all_goals
      simp only [getElem?_map, Option.map_eq_some_iff] at at_
      obtain ⟨_, ⟨entry, found, rfl⟩, rfl⟩ := at_
    · exact (held _ (mem_entrySpots.mpr ⟨i, entry, found, .inl rfl⟩)).widen sound is.hasKey le le_rfl
    · exact (held _ (mem_entrySpots.mpr ⟨i, entry, found, .inr rfl⟩)).widen sound is.hasElem le le_rfl
  · rw [linkAt_map is, count, and_iff_right some_]
    refine or_congr_right ⟨?_, ?_⟩
    · rintro ⟨i, low, link⟩
      have found := getElem?_eq_getElem low
      rcases link with link | link
      · exact ⟨_, mem_entrySpots.mpr ⟨i, _, found, .inl rfl⟩, link⟩
      · exact ⟨_, mem_entrySpots.mpr ⟨i, _, found, .inr rfl⟩, link⟩
    · rintro ⟨p, mem, link⟩
      obtain ⟨i, entry, at_, rfl | rfl⟩ := mem_entrySpots.mp mem
      · exact ⟨i, (List.getElem?_eq_some_iff.mp at_).1, .inl link⟩
      · exact ⟨i, (List.getElem?_eq_some_iff.mp at_).1, .inr link⟩

end

end WireCodec
