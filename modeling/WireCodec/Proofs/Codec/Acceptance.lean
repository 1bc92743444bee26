import WireCodec.Proofs.Codec.Records

/-! Whatever is read was spelled by the bytes that were read. -/
namespace WireCodec

open Lowering List Reading
open Act (alloc bind_eq_ok each)

variable {c' c : Scene} {bytes : List UInt8} {n : Nat}

/-- Where a reader succeeds, the wire spells a content that fits into the arena. -/
def Told (known : Registry) (x : Act Unit) (boxed : Bool) (left addr : Nat) (t : TypeDesc) : Prop :=
  ∀ c c' : Scene, c.Ready → c.pos.toNat ≤ c.wire.size → addr + Holds.slotSize boxed t ≤ c.heap.size → x c = .ok () c' →
    ∃ bytes content s', At c.wire c.pos.toNat bytes ∧
      Spells known boxed left t bytes content c.heap.size s' ∧ s' ≤ Heap.limit

lemma Went.back {owned : Nat → Prop} (went : Went c c' n owned)
    (at_ : At c'.wire c'.pos.toNat bytes) : At c.wire (c.pos.toNat + n) bytes := by
  rwa [went.wire, went.pos] at at_

section Inversions

variable {c c' : Scene} {word : UInt64}

lemma read_eq_ok (ready : c.Ready) {width : Width} {signed : Bool} (ran : Act.read eof width signed c = .ok word c') : ∃
    data, At c.wire c.pos.toNat data ∧ data.length = width.bytes ∧ word = Machine.widen width signed (beWord data) ∧
    c'.heap = c.heap ∧ Went c c' width.bytes fun _ => False := by
  cases cut : slice? c.wire c.pos.toNat width.bytes with
  | none =>
    rw [Act.read, cut] at ran
    cases ran
  | some data =>
    obtain ⟨at_, length⟩ := At.of_slice cut
    obtain ⟨c₁, read, heap₁, went₁⟩ := went_read ready width signed at_ length
    cases ran.symm.trans read
    exact ⟨data, at_, length, rfl, heap₁, went₁⟩

lemma need_eq_ok {n : UInt64} (ran : Act.need eof n c = .ok () c') : c' = c ∧ c.pos.toNat + n.toNat ≤ c.wire.size := by
  rw [Act.need_apply] at ran
  split at ran
  · cases ran
    exact ⟨rfl, by assumption⟩
  · cases ran

lemma after_le_of_alloc {count data : UInt64} (ran : alloc count c = .ok data c') :
    Heap.after c.heap.size count.toNat ≤ Heap.limit := by
  cases got : c.heap.alloc? count.toNat with
  | none =>
    rw [alloc, got] at ran
    cases ran
  | some pair =>
    have made := Heap.alloc?_eq_some got
    rw [after_eq, ← made.size]
    exact made.small

lemma count_eq_ok (ready : c.Ready) (ran : Act.read eof .w4 true c = .ok word c') (nonneg : isNegative word = false) : ∃
    n < 2 ^ 31, word = n.toUInt64 ∧ At c.wire c.pos.toNat (countBytes n) ∧ c'.heap = c.heap ∧ Went c c' 4 fun _ =>
    False := by
  obtain ⟨data, at_, length, rfl, heap, went⟩ := read_eq_ok ready ran
  have four : data.length = 4 := length
  have low : (beWord data).toNat < 2 ^ 32 := by
    rw [toNat_beWord (by omega)]
    have := beNat_lt data
    rwa [four] at this
  have short := (isNegative_widen_four low).mp nonneg
  refine ⟨(beWord data).toNat, short, ?_, ?_, heap, went⟩
  · rw [widen_four_of_lt short, Nat.toUInt64_eq, UInt64.ofNat_toNat]
  · rw [← eq_countBytes four]
    exact at_

end Inversions

section Told

variable {known : Registry} {left inner addr : Nat} {t key elem : TypeDesc} {base : UInt64} {off : UInt32}
  {entry : Nat → UInt64 → Act Unit} {layout : TypeDesc.EntryLayout} {x : Act Unit} {e : Entry}

lemma told_word (shaped : t.Shaped) (isScalar : t.kind.isScalar = true) : Told known (do
      let word ← Act.read eof (Writing.width t) false
      Act.store (Writing.width t) word base off) false left addr t := by
  intro c c' ready _ inside ran
  obtain ⟨width, of, wide, _⟩ := shaped.width isScalar
  have same : Writing.width t = width := by rw [Writing.width, of, Option.getD_some]
  obtain ⟨word, c₁, read, _⟩ := bind_eq_ok.mp ran
  obtain ⟨data, at_, length, _⟩ := read_eq_ok ready read
  exact ⟨data, _, _, at_, .word isScalar (by rw [length, same, wide]), ready.small⟩

lemma told_cell {field : FieldDesc} {nested : Visit} (shaped : field.type.Shaped) (isBoxed : field.isBoxed = true) :
    Told known (Reading.field known (fun _ => nested) left base field) true left (base.toNat + field.offset.toNat) field.type := by
  intro c c' ready _ inside ran
  have isScalar := Field.isScalar_of_isBoxed isBoxed
  obtain ⟨width, of, wide, _⟩ := shaped.width isScalar
  have same : Writing.width field.type = width := by rw [Writing.width, of, Option.getD_some]
  rw [Reading.field, if_pos isBoxed, same] at ran
  obtain ⟨cell, c₁, allocated, ran₁⟩ := bind_eq_ok.mp ran
  obtain ⟨_, c₂, linked, ran₂⟩ := bind_eq_ok.mp ran₁
  obtain ⟨word, c₃, read, _⟩ := bind_eq_ok.mp ran₂
  have fits := after_le_of_alloc allocated
  obtain ⟨c₁', cell', allocated', _, _, _, _, went₁⟩ := went_alloc boxSize.toUInt64 fits
  cases allocated.symm.trans allocated'
  have grown := went₁.heap.grows
  change _ + 4 ≤ _ at inside
  obtain ⟨c₂', linked', _, _, went₂, _⟩ := went_storePtr (ready.went went₁) cell base field.offset (by omega)
  cases linked.symm.trans linked'
  obtain ⟨data, at_, length, _⟩ := read_eq_ok ((ready.went went₁).went went₂) read
  exact ⟨data, _, _, went₁.back (went₂.back at_), .cell isScalar (by rw [length, wide]), fits⟩

lemma told_blob (kind : t.kind = .string ∨ t.kind = .binary) :
    Told known (Reading.blob base off) false left addr t := by
  intro c c' ready _ inside ran
  obtain ⟨len, c₁, read, ran₁⟩ := bind_eq_ok.mp ran
  by_cases nonneg : isNegative len = false
  · rw [nonneg] at ran₁
    obtain ⟨n, short, rfl, at_, heap₁, went₁⟩ := count_eq_ok ready read nonneg
    obtain ⟨_, c₂, needed, ran₂⟩ := bind_eq_ok.mp ran₁
    obtain ⟨rfl, enough⟩ := need_eq_ok needed
    obtain ⟨data, c₃, allocated, _⟩ := bind_eq_ok.mp ran₂
    have fits := after_le_of_alloc allocated
    rw [toNat_toUInt64 (by omega)] at enough fits
    obtain ⟨bytes, atBytes, rfl⟩ := At.exists_of_le enough
    rw [heap₁] at fits
    refine ⟨countBytes bytes.length ++ bytes, _, _, At.append.mpr ⟨at_, ?_⟩, .blob kind short, fits⟩
    rw [length_countBytes]
    exact went₁.back atBytes
  · rw [Bool.not_eq_false] at nonneg
    rw [nonneg] at ran₁
    cases ran₁

lemma container_eq_ok {isSet : Bool} (ready : c.Ready)
    (stride : e.stride.toNat < 2 ^ 31) (near : off.toNat < 2 ^ 31) (inside : base.toNat + off.toNat + 8 ≤ c.heap.size)
    (ran : container known isSet e false left base off entry c = .ok () c') :
    ∃ (keyTags : List UInt8) (tag : UInt8) (n : Nat), n < 2 ^ 31 ∧ keyTags.length = (if e.key.isSome then 1 else 0) ∧
      (n ≠ 0 → tag = e.elem.kind.tag ∧ ∀ key, e.key = some key → keyTags = [key.kind.tag]) ∧
      At c.wire c.pos.toNat (keyTags ++ ([tag] ++ countBytes n)) ∧
      Heap.after c.heap.size (n * e.stride.toNat) ≤ Heap.limit ∧
      ∃ (c₂ : Scene) (data : UInt64) (owned : Nat → Prop), c₂.Ready ∧
        c₂.heap.size = Heap.after c.heap.size (n * e.stride.toNat) ∧
        c₂.heap.size = data.toNat + n * e.stride.toNat ∧ Went c c₂ (keyTags.length + 5) owned ∧ (n ≠ 0 → (do
          entryLoop e left n.toUInt64 data entry
          if isSet then Act.distinct known e.elem data n.toUInt64 else pure ()) c₂ = .ok () c') := by
  obtain ⟨head, c₁, headed, ran₁⟩ := bind_eq_ok.mp ran
  obtain ⟨_, c₁', checked, ran₂⟩ := bind_eq_ok.mp ran₁
  obtain ⟨data, c₂, made, ran₃⟩ := bind_eq_ok.mp ran₂
  -- the head
  obtain ⟨_, c₀, needed, headed₁⟩ := bind_eq_ok.mp headed
  obtain ⟨rfl, _⟩ := need_eq_ok needed
  obtain ⟨keyWord, k₁, keyRead, headed₂⟩ := bind_eq_ok.mp headed₁
  obtain ⟨tagWord, k₂, tagRead, headed₃⟩ := bind_eq_ok.mp headed₂
  obtain ⟨countWord, k₃, countRead, headed₄⟩ := bind_eq_ok.mp headed₃
  obtain ⟨keyTags, atKey, keyed, wentKey⟩ : ∃ keyTags : List UInt8, (c₀.pos.toNat ≤ c₀.wire.size → At c₀.wire c₀.pos.toNat keyTags) ∧
      keyTags.length = (if e.key.isSome then 1 else 0) ∧ Went c₀ k₁ keyTags.length fun _ => False := by
    unfold Reading.keyTag at keyRead
    split at keyRead
    · rename_i some_
      obtain ⟨data, at_, length, _, _, went⟩ := read_eq_ok ready keyRead
      exact ⟨data, fun _ => at_, length.trans (if_pos some_).symm, by rw [length]; exact went⟩
    · rename_i none_
      cases keyRead
      exact ⟨[], fun inWire => At.nil inWire, (if_neg none_).symm, rfl, rfl, .refl ready.small⟩
  have ready₁ := ready.went wentKey
  obtain ⟨tags, atTag, tagLength, _, _, wentTag⟩ := read_eq_ok ready₁ tagRead
  obtain ⟨tag, rfl⟩ := List.length_eq_one_iff.mp tagLength
  have ready₂ := ready₁.went wentTag
  by_cases nonneg : isNegative countWord = false
  · obtain ⟨n, short, rfl, atCount, _, wentCount⟩ := count_eq_ok ready₂ countRead nonneg
    have inWire : c₀.pos.toNat ≤ c₀.wire.size := by
      have := (wentKey.back atTag).2
      omega
    have atHead : At c₀.wire c₀.pos.toNat (keyTags ++ ([tag] ++ countBytes n)) :=
      At.append.mpr ⟨atKey inWire, At.append.mpr ⟨wentKey.back atTag, by
        rw [Nat.add_assoc]
        exact (wentKey.trans wentTag fun _ _ => id).back atCount⟩⟩
    obtain ⟨c₁'', headed', heap₁, went₁⟩ := went_containerHead ready short keyed atHead
    cases headed.symm.trans headed'
    have ready₁' := ready.went went₁
    -- the tags
    have tags : n ≠ 0 → tag = e.elem.kind.tag ∧ ∀ key, e.key = some key → keyTags = [key.kind.tag] := by
      intro some_
      unfold checkTags at checked
      rw [if_neg (mt (toUInt64_eq_zero (by omega)).mp some_)] at checked
      split at checked
      · cases checked
      · rename_i same
        refine ⟨UInt8.toUInt64_inj.mp (Decidable.not_not.mp same), fun key given => ?_⟩
        rw [given] at checked
        simp only at checked
        split at checked
        · cases checked
        · rename_i sameKey
          rw [given] at keyed
          obtain ⟨keyTag, rfl⟩ := List.length_eq_one_iff.mp keyed
          have single : beWord [keyTag] = keyTag.toUInt64 := by simp [beWord]
          rw [single] at sameKey
          rw [UInt8.toUInt64_inj.mp (Decidable.not_not.mp sameKey)]
    have unchanged := checkTags_ok (c := c₁) short tags
    cases checked.symm.trans unchanged
    -- the room
    obtain ⟨_, m₁, needed', made₁⟩ := bind_eq_ok.mp made
    obtain ⟨rfl, enough⟩ := need_eq_ok needed'
    obtain ⟨data', m₂, allocated, _⟩ := bind_eq_ok.mp made₁
    have fits := after_le_of_alloc allocated
    rw [toNat_mul_immWord_of_lt short stride] at fits
    rw [toNat_mul_immWord_of_lt short (minSize_lt e)] at enough
    obtain ⟨c₂', data'', made', start, size₂, _, _, _, went₂, _⟩ := went_makeRoom ready₁' short enough stride fits near
      (by rw [heap₁]; exact inside)
    cases made.symm.trans made'
    rw [heap₁] at fits size₂ start
    refine ⟨keyTags, tag, n, short, keyed, tags, atHead, fits, c₂, data, _, ready₁'.went went₂, size₂, by omega,
      (went₁.mono fun k _ => False.elim).trans went₂ fun _ _ => id, fun some_ => ?_⟩
    rwa [if_neg (mt (toUInt64_eq_zero (by omega)).mp some_)] at ran₃
  · rw [Bool.not_eq_false] at nonneg
    simp only [nonneg] at headed₄
    cases headed₄

variable {nested : Visit}

lemma FillsAll.went {spots : List (Spot known)} {s' : Nat} (fills : FillsAll x bytes spots c.heap.size s')
    (ready : c.Ready) (fits : s' ≤ Heap.limit) (at_ : At c.wire c.pos.toNat bytes)
    (inside : ∀ p ∈ spots, p.addr + p.width ≤ c.heap.size) (ran : x c = .ok () c') : c'.heap.size = s' ∧
    (Went c c' bytes.length fun k => ∃ p ∈ spots, p.Covers k) ∧ ∀ p ∈ spots, p.HeldIn c'.heap c.heap.size := by
  obtain ⟨c'', ran', went, size, held, _⟩ := fills c ready rfl fits at_ inside
  cases ran.symm.trans ran'
  exact ⟨size, went, held⟩

/-- A reader that succeeds where the wire spells a content and only there, and fills its slot with it. -/
structure Parses (known : Registry) (x : Act Unit) (boxed : Bool) (left addr : Nat) (t : TypeDesc) : Prop where
  told : Told known x boxed left addr t
  fills : ∀ {bytes c s s'}, Spells known boxed left t bytes c s s' → Fills known x bytes boxed addr t c s s'

lemma Parses.run {boxed : Bool} {c c' : Scene} (parses : Parses known x boxed left addr t)
    (ready : c.Ready) (inWire : c.pos.toNat ≤ c.wire.size) (inside : addr + Holds.slotSize boxed t ≤ c.heap.size)
    (ran : x c = .ok () c') : ∃ bytes content, At c.wire c.pos.toNat bytes ∧
      Spells known boxed left t bytes content c.heap.size c'.heap.size ∧ Went c c' bytes.length fun _ => True := by
  obtain ⟨bytes, content, s', at_, spells, fits⟩ := parses.told c c' ready inWire inside ran
  obtain ⟨c'', ran', went, rfl, _⟩ := parses.fills spells c ready rfl fits at_ inside
  cases ran.symm.trans ran'
  exact ⟨bytes, content, at_, spells, went.mono fun _ _ _ => trivial⟩

section Entries

variable {α : Type} {piece : α → List UInt8} {row : α → Nat → List (Spot known)}

lemma told_each {step : α → Nat → Nat → Prop} {body : UInt64 → Act Unit} {stride : UInt32}
    (near : stride.toNat < 2 ^ 31)
    (told : ∀ (place : UInt64) (c c' : Scene), c.Ready → c.pos.toNat ≤ c.wire.size →
      place.toNat + stride.toNat ≤ c.heap.size → body place c = .ok () c' →
      ∃ a, At c.wire c.pos.toNat (piece a) ∧ step a c.heap.size c'.heap.size ∧ Went c c' (piece a).length fun _ => True) (ready : c.Ready) (inWire : c.pos.toNat ≤ c.wire.size)
    (inside : base.toNat + n * stride.toNat ≤ c.heap.size) (ran : each body stride n base c = .ok () c') :
    ∃ xs : List α, xs.length = n ∧ Through step xs c.heap.size c'.heap.size ∧ c'.heap.size ≤ Heap.limit ∧
      At c.wire c.pos.toNat (xs.flatMap piece) := by
  induction n generalizing base c with
  | zero =>
    cases ran
    exact ⟨[], rfl, .nil, ready.small, At.nil inWire⟩
  | succ n ih =>
    rw [Nat.succ_mul] at inside
    rw [each] at ran
    obtain ⟨_, c₁, first, others⟩ := bind_eq_ok.mp ran
    obtain ⟨a, at_, reads, went⟩ := told base c c₁ ready inWire (by omega) first
    have small := ready.small
    unfold Heap.limit at small
    have next := @toNat_add_immWord base stride near (by omega)
    have grown := went.heap.grows
    obtain ⟨xs, length, through, fits, atRest⟩ := ih (ready.went went) (went.inWire at_) (by omega) others
    exact ⟨a :: xs, by rw [length_cons, length], .cons reads through, fits, At.append.mpr ⟨at_, went.back atRest⟩⟩

lemma entryLoop_eq_ok {data : UInt64} (short : n < 2 ^ 31)
    (ran : entryLoop e left n.toUInt64 data entry c = .ok () c') : ∃ inner, Inside e.isSimple left inner ∧
    (inner = left ∨ inner + 1 = left) ∧ each (entry inner) e.stride n data c = .ok () c' := by
  unfold entryLoop at ran
  rw [toNat_toUInt64 (by omega)] at ran
  by_cases simple : e.isSimple = true
  · rw [if_pos simple] at ran
    exact ⟨left, by rw [Inside, if_pos simple], .inl rfl, ran⟩
  · rw [if_neg simple] at ran
    cases left with
    | zero => cases ran
    | succ left => exact ⟨left, by rw [Inside, if_neg simple], .inr rfl, ran⟩

lemma told_container {step : Nat → α → Nat → Nat → Prop} {e : Entry} {isSet : Bool}
    {entry : Nat → UInt64 → Act Unit} (sound : known.Sound) (has : known.Has t) (header : t.kind.hasHeader = true)
    (stride : e.stride.toNat < 2 ^ 31) (near : off.toNat < 2 ^ 31)
    (inRow : ∀ a start, ∀ p ∈ row a start, start ≤ p.addr ∧ p.addr + p.width ≤ start + e.stride.toNat)
    (told : ∀ inner, inner = left ∨ inner + 1 = left → ∀ (place : UInt64) (c c' : Scene), c.Ready →
      c.pos.toNat ≤ c.wire.size → place.toNat + e.stride.toNat ≤ c.heap.size → entry inner place c = .ok () c' →
      ∃ a, At c.wire c.pos.toNat (piece a) ∧ step inner a c.heap.size c'.heap.size ∧
        Went c c' (piece a).length fun _ => True)
    (fills : ∀ {inner}, inner = left ∨ inner + 1 = left → ∀ {a s s'}, step inner a s s' → s ≤ s' ∧ ∀ place : UInt64,
      FillsAll (entry inner place) (piece a) (row a place.toNat) s s')
    (spells : ∀ {keyTags : List UInt8} {tag : UInt8} {inner : Nat} {xs : List α} {s s' : Nat}, xs.length < 2 ^ 31 →
      keyTags.length = (if e.key.isSome then 1 else 0) → (xs ≠ [] → (tag = e.elem.kind.tag ∧
        ∀ key, e.key = some key → keyTags = [key.kind.tag]) ∧ Inside e.isSimple left inner) →
      Through (step inner) xs (Heap.after s (xs.length * e.stride.toNat)) s' →
      (isSet = true → xs ≠ [] → ∃ (c c' : Scene) (lo : Nat) (data : UInt64), c.Ready ∧
        (∀ p ∈ Spot.each row e.stride.toNat data.toNat xs, p.addr + p.width ≤ c.heap.size ∧ p.HeldIn c.heap lo) ∧
        Act.distinct known e.elem data xs.length.toUInt64 c = .ok () c') →
      ∃ content, Spells known false left t (keyTags ++ ([tag] ++ (countBytes xs.length ++ xs.flatMap piece))) content s s') :
    Told known (container known isSet e false left base off entry) false left (base.toNat + off.toNat) t := by
  intro c c' ready inWire inside ran
  rw [Holds.slotSize_header (sound.shaped t has) header] at inside
  obtain ⟨keyTags, tag, n, short, keyed, tags, atHead, fits, c₂, data, owned, ready₂, size₂, block, went, loop⟩ :=
    container_eq_ok ready stride near inside ran
  have headLength : (keyTags ++ ([tag] ++ countBytes n)).length = keyTags.length + 5 := by
    simp only [length_append, length_singleton, length_countBytes]
  by_cases zero : n = 0
  · subst zero
    obtain ⟨content, spelled⟩ := @spells keyTags tag left [] c.heap.size _ short keyed (fun some_ => absurd rfl some_) .nil
      fun _ some_ => absurd rfl some_
    exact ⟨_, content, _, by simpa using atHead, spelled, fits⟩
  · obtain ⟨_, c₃, looped, checked⟩ := bind_eq_ok.mp (loop zero)
    obtain ⟨inner, frames, near', looped'⟩ := entryLoop_eq_ok short looped
    obtain ⟨xs, rfl, through, fits₃, atBody⟩ := told_each stride (told inner near') ready₂
      ((headLength ▸ went).inWire atHead) (le_of_eq block.symm) looped'
    obtain ⟨content, spelled⟩ := @spells keyTags tag inner xs c.heap.size _ short keyed (fun _ => ⟨tags zero, frames⟩)
      (size₂ ▸ through) fun set _ => by
        subst set
        have filled := fillsAll_each sound stride inRow (through.imp fun _ => fills near') (le_of_eq block.symm)
        have room : ∀ p ∈ Spot.each row e.stride.toNat data.toNat xs, p.addr + p.width ≤ c₂.heap.size := fun p mem => by
          have := Spot.within_each inRow p mem
          omega
        obtain ⟨_, went₃, held⟩ := filled.went ready₂ fits₃ atBody room looped'
        exact ⟨c₃, c', _, data, ready₂.went went₃, fun p mem =>
          ⟨le_trans (room p mem) went₃.heap.grows, held p mem⟩, checked⟩
    refine ⟨_, content, _, ?_, spelled, fits₃⟩
    have regroup : keyTags ++ ([tag] ++ (countBytes xs.length ++ xs.flatMap piece)) =
        keyTags ++ ([tag] ++ countBytes xs.length) ++ xs.flatMap piece := by
      simp only [append_assoc]
    rw [regroup]
    exact At.append.mpr ⟨atHead, headLength ▸ went.back atBody⟩

end Entries

lemma told_items (usable : known.Usable) (compact : known.Compact) (has : known.Has t) (is : known.IsSequence t elem)
    (near : off.toNat < 2 ^ 31) (parses : ∀ inner, inner = left ∨ inner + 1 = left → ∀ place : UInt64,
      Parses known (value known (fun _ => nested) elem true inner place 0) false inner place.toNat elem) :
    Told known (value known (fun _ => nested) t false left base off) false left (base.toNat + off.toNat) t := by
  rw [value_sequence _ _ _ _ is]
  refine @told_container known left t base off Part Prod.fst
    (fun part place => [⟨false, place, elem, part.2, is.hasElem⟩])
    (fun inner part => Spells known false inner elem part.1 part.2) (.ofList elem) _ _ usable.sound has is.hasHeader
    (compact.sizes elem is.hasElem) near (inRow_item is.hasElem)
    (fun inner within place c c' ready inWire inside ran => ?_)
    (fun within part s s' spells => ⟨spells.grows, fun place => ((parses _ within place).fills spells).one⟩)
    fun {keyTags tag inner parts s s'} short keyed tags through checked => ?_
  · obtain ⟨bytes, content, run⟩ := (parses inner within place).run ready inWire inside ran
    exact ⟨(bytes, content), run⟩
  · obtain rfl := eq_nil_of_length_eq_zero keyed
    refine ⟨_, (spells_sequence_iff is).mpr ⟨tag, inner, parts, short, fun some_ => ⟨(tags some_).1.1, ?_⟩, fun set => ?_,
      through, rfl, rfl⟩⟩
    · simpa [Entry.isSimple, Entry.ofList] using (tags some_).2
    · by_cases none_ : parts = []
      · rw [none_]
        exact nodup_nil
      · obtain ⟨c, c', lo, data, ready, held, passed⟩ := checked (decide_eq_true set) none_
        have check := distinct_items usable is.hasElem short c lo data ready held
        by_contra repeated
        rw [if_neg repeated] at check
        cases passed.symm.trans check

lemma told_entry (is : known.IsMap t key elem layout)
    (parsesKey : Parses known (value known (fun _ => nested) key true inner base 0) false inner base.toNat key)
    (parses : Parses known (value known (fun _ => nested) elem true inner base layout.valueOffset) false inner
      (base.toNat + layout.valueOffset.toNat) elem)
    (ready : c.Ready) (inWire : c.pos.toNat ≤ c.wire.size) (inside : base.toNat + layout.stride.toNat ≤ c.heap.size)
    (ran : (do
      entryRoom key elem
      value known (fun _ => nested) key true inner base 0
      value known (fun _ => nested) elem true inner base layout.valueOffset) c = .ok () c') :
    ∃ entry, At c.wire c.pos.toNat (entryBytes entry) ∧ SpellsEntry known inner key elem entry c.heap.size c'.heap.size ∧
      Went c c' (entryBytes entry).length fun _ => True := by
  have bounds := TypeDesc.EntryLayout.bounds is.layout?
  have slotKey : Holds.slotSize false key = key.size.toNat := rfl
  have slot : Holds.slotSize false elem = elem.size.toNat := rfl
  obtain ⟨_, c₀, asked, ran₁⟩ := bind_eq_ok.mp ran
  have same : c₀ = c := by
    unfold entryRoom at asked
    split at asked
    · exact (need_eq_ok asked).1
    · cases asked
      rfl
  subst same
  obtain ⟨_, c₁, first, second⟩ := bind_eq_ok.mp ran₁
  obtain ⟨keyBytes, k, atKey, spellsKey, went₁⟩ := parsesKey.run ready inWire (by rw [slotKey]; omega) first
  have grown := went₁.heap.grows
  obtain ⟨bytes, v, atValue, spells, went₂⟩ := parses.run (ready.went went₁) (went₁.inWire atKey) (by rw [slot]; omega) second
  refine ⟨((keyBytes, k), (bytes, v)), At.append.mpr ⟨atKey, went₁.back atValue⟩, ⟨_, spellsKey, spells⟩, ?_⟩
  rw [entryBytes, length_append]
  exact went₁.trans went₂ fun _ _ => id

lemma told_entries (usable : known.Usable) (compact : known.Compact) (has : known.Has t)
    (is : known.IsMap t key elem layout) (near : off.toNat < 2 ^ 31)
    (parsesKey : ∀ inner, inner = left ∨ inner + 1 = left → ∀ place : UInt64,
      Parses known (value known (fun _ => nested) key true inner place 0) false inner place.toNat key)
    (parses : ∀ inner, inner = left ∨ inner + 1 = left → ∀ place : UInt64,
      Parses known (value known (fun _ => nested) elem true inner place layout.valueOffset) false inner
        (place.toNat + layout.valueOffset.toNat) elem) :
    Told known (value known (fun _ => nested) t false left base off) false left (base.toNat + off.toNat) t := by
  rw [value_map _ _ _ _ is]
  refine @told_container known left t base off (Part × Part) entryBytes
    (fun entry place => [⟨false, place, key, entry.1.2, is.hasKey⟩,
      ⟨false, place + layout.valueOffset.toNat, elem, entry.2.2, is.hasElem⟩])
    (fun inner => SpellsEntry known inner key elem) ⟨some key, elem, layout.valueOffset, layout.stride⟩ _ _ usable.sound has
    is.hasHeader (compact.strides t key elem layout has is) near (inRow_entry is)
    (fun inner within place c c' ready inWire inside ran => ?_) (fun within entry s s' ⟨r, spellsKey, spells⟩ => ?_)
    fun {keyTags tag inner entries s s'} short keyed tags through _ => ?_
  · exact told_entry is (parsesKey inner within place) (parses inner within place) ready inWire inside ran
  · exact ⟨le_trans spellsKey.grows spells.grows, fun place => fillsAll_entry usable.sound is spellsKey spells
      ((parsesKey _ within place).fills spellsKey) ((parses _ within place).fills spells)⟩
  · obtain ⟨keyTag, rfl⟩ := List.length_eq_one_iff.mp keyed
    refine ⟨_, (spells_map_iff is).mpr ⟨keyTag, tag, inner, entries, short, fun some_ => ?_, through, rfl, rfl⟩⟩
    obtain ⟨⟨isTag, isKeyTag⟩, frames⟩ := tags some_
    exact ⟨⟨List.singleton_inj.mp (isKeyTag key rfl), isTag⟩, by simpa [Entry.isSimple] using frames⟩

lemma told_target {record : TypeDesc} (sound : known.Sound) (has : known.Has t) (kind : t.kind = .pointer)
    (isRecord : t.recordType known = .ok record) (struct : record.kind = .struct)
    (told : ∀ place : UInt64, Told known (nested left record place) false left place.toNat record) (loose : Bool) :
    Told known (value known (fun _ => nested) t loose left base off) false left (base.toNat + off.toNat) t := by
  intro c c' ready inWire inside ran
  have slot := Holds.slotSize_pointer (sound.shaped t has) kind
  rw [slot] at inside
  rw [value_pointer _ _ _ _ kind isRecord] at ran
  obtain ⟨data, c₁, allocated, ran₁⟩ := bind_eq_ok.mp ran
  obtain ⟨_, c₂, linked, read⟩ := bind_eq_ok.mp ran₁
  have fits := after_le_of_alloc allocated
  obtain ⟨c₁', data', allocated', place, _, size₁, _, went₁⟩ := went_alloc record.size.toUInt64 fits
  cases allocated.symm.trans allocated'
  rw [UInt32.toNat_toUInt64] at size₁
  have above : c₁.heap.size = c.heap.next + record.size.toNat := size₁
  have grown := went₁.heap.grows
  obtain ⟨c₂', linked', size₂, _, went₂, _⟩ := went_storePtr (ready.went went₁) data base off (by omega)
  cases linked.symm.trans linked'
  have went : Went c c₂ 0 _ := (went₁.mono fun _ _ => False.elim).trans went₂ fun _ _ => id
  obtain ⟨bytes, content, s', at_, spells, fits'⟩ := told data c₂ c' (ready.went went) (went.inWire (At.nil inWire)) (by rw [place, size₂, above]; exact le_rfl) read
  rw [size₂, size₁] at spells
  exact ⟨bytes, content, s', went.back at_, .target kind isRecord struct spells, fits'⟩

lemma exists_id {data : List UInt8} (length : data.length = 2) : ∃ id : UInt16, data = beBytes 2 id.toUInt64 := by
  have bytes := beBytes_beWord (show data.length ≤ 8 by omega)
  rw [length] at bytes
  have low : (beWord data).toNat < 65536 := by
    rw [toNat_beWord (by omega)]
    have := beNat_lt data
    rwa [length] at this
  refine ⟨(beWord data).toUInt16, ?_⟩
  have same : (beWord data).toUInt16.toUInt64 = beWord data := by
    apply UInt64.toNat_inj.mp
    rw [UInt16.toNat_toUInt64, UInt64.toNat_toUInt16, Nat.mod_eq_of_lt low]
  rw [same, bytes]

lemma told_occurrences (sound : known.Sound) (has : known.Has t)
    (parses : ∀ field ∈ t.fields, Parses known (Reading.field known (fun _ => nested) left base field) field.isBoxed left
      (base.toNat + field.offset.toNat) field.type)
    {count : Nat} {seen : List Nat} (ready : c.Ready) (inWire : c.pos.toNat ≤ c.wire.size)
    (inside : base.toNat + t.size.toNat ≤ c.heap.size)
    (ran : occurrences known (fun _ => nested) t.fields left base count seen c = .ok () c') :
    ∃ occs s', FieldRun t left seen occs ∧ Through (Occurrence.Takes known t.fields left) occs c.heap.size s' ∧
      s' ≤ Heap.limit ∧ At c.wire c.pos.toNat (occs.flatMap Occurrence.bytes ++ [Tag.stop]) := by
  have laidOut := (sound.shaped t has).laidOut
  induction count generalizing seen c with
  | zero => cases ran
  | succ count ih =>
    have whole := ran
    rw [occurrences] at ran
    obtain ⟨word, c₁, tagRead, ran₁⟩ := bind_eq_ok.mp ran
    obtain ⟨tags, atTag, tagLength, rfl, heap₁, went₁⟩ := read_eq_ok ready tagRead
    obtain ⟨tag, rfl⟩ := List.length_eq_one_iff.mp tagLength
    rw [widen_byte] at tagRead ran₁
    by_cases stop : tag = Tag.stop
    · subst stop
      rw [if_pos (show Tag.stop.toUInt64 = 0 from rfl)] at ran₁
      split at ran₁
      · rename_i full
        exact ⟨[], _, ⟨by simp, nodup_nil, by simp, fun i field at_ required =>
          .inl (hasRequired_eq_true.mp full i field at_ required)⟩, .nil, ready.small, atTag⟩
      · cases ran₁
    · rw [if_neg (toUInt64_ne_zero stop)] at ran₁
      obtain ⟨idWord, c₂, idRead, -⟩ := bind_eq_ok.mp ran₁
      obtain ⟨idData, atId, idLength, rfl, heap₂, went₂⟩ := read_eq_ok (ready.went went₁) idRead
      obtain ⟨number, rfl⟩ := exists_id idLength
      have ready₂ := (ready.went went₁).went went₂
      have headed : Went c c₂ 3 fun _ => False := went₁.trans went₂ fun _ _ => id
      have sameHeap : c₂.heap = c.heap := heap₂.trans heap₁
      rw [occurrences_head stop tagRead idRead] at whole
      -- a field that was read, with what follows it
      have joins : ∀ {c₃ : Scene} {payload : List UInt8} {field? : Option (Nat × Content)} {met : List Nat},
          At c₂.wire c₂.pos.toNat payload → (Went c₂ c₃ payload.length fun _ => True) →
          Occurrence.Takes known t.fields left ⟨tag, number, payload, field?⟩ c₂.heap.size c₃.heap.size →
          (∀ occs, FieldRun t left met occs → FieldRun t left seen (⟨tag, number, payload, field?⟩ :: occs)) →
          occurrences known (fun _ => nested) t.fields left base count met c₃ = .ok () c' →
          ∃ occs s', FieldRun t left seen occs ∧ Through (Occurrence.Takes known t.fields left) occs c.heap.size s' ∧
            s' ≤ Heap.limit ∧ At c.wire c.pos.toNat (occs.flatMap Occurrence.bytes ++ [Tag.stop]) := by
        intro c₃ payload field? met atPayload went₃ takes joined others
        rw [sameHeap] at takes
        obtain ⟨occs, s', run, through, fits, atRest⟩ := ih (ready₂.went went₃) (went₃.inWire atPayload)
          (le_trans inside (le_trans (le_of_eq (by rw [sameHeap])) went₃.heap.grows)) others
        refine ⟨_, s', joined occs run, .cons takes through, fits, ?_⟩
        have rest := headed.back (At.append.mpr ⟨atPayload, went₃.back atRest⟩)
        simp only [flatMap_cons, Occurrence.bytes, append_assoc]
        refine At.append.mpr ⟨atTag, At.append.mpr ⟨went₁.back atId, ?_⟩⟩
        rwa [length_beBytes, Nat.add_assoc]
      cases found : fieldFor? t.fields (wideId number) tag.toUInt64 with
      | none =>
        rw [found] at whole
        obtain ⟨_, c₃, passed, others⟩ := bind_eq_ok.mp whole
        obtain ⟨payload, atPayload, raw⟩ : ∃ payload, At c₂.wire c₂.pos.toNat payload ∧ Raw left tag payload := by
          unfold Act.pass at passed
          rw [show tag.toUInt64.toUInt8 = tag by simp] at passed
          split at passed
          · rename_i pos skipped
            obtain ⟨payload, at_, _, raw⟩ := (skip_passes c₂.wire left tag c₂.pos.toNat pos).mp skipped
            exact ⟨payload, at_, raw⟩
          · cases passed
        obtain ⟨c₃', passed', heap₃, went₃⟩ := went_pass ready₂ raw atPayload
        cases passed.symm.trans passed'
        refine @joins c₃ payload none seen atPayload (went₃.mono fun _ _ _ => trivial) (by rw [heap₃]; rfl)
          (fun occs run => (fieldRun_skip rfl).mpr ⟨⟨stop, fun _ _ given => (by cases given), fun _ => ⟨fun field mem match_ => ?_, raw⟩⟩, run⟩) others
        obtain ⟨index, at_⟩ := mem_iff_getElem?.mp mem
        cases found.symm.trans ((fieldFor?_eq_some laidOut).mpr ⟨at_, match_⟩)
      | some pair =>
        obtain ⟨index, field⟩ := pair
        rw [found] at whole
        simp only at whole
        split at whole
        · cases whole
        · rename_i notMet
          obtain ⟨at_, match_⟩ := (fieldFor?_eq_some laidOut).mp found
          have mem := mem_of_getElem? at_
          have room := Holds.slot_inside sound has mem base.toNat
          obtain ⟨_, c₃, read, others⟩ := bind_eq_ok.mp whole
          obtain ⟨payload, content, atPayload, spells, went₃⟩ := (parses field mem).run ready₂ (went₂.inWire atId)
            (sameHeap ▸ le_trans room inside) read
          refine @joins c₃ payload (some (index, content)) (index :: seen) atPayload went₃ ⟨field, at_, spells⟩
            (fun occs run => (fieldRun_cons rfl).mpr ⟨⟨stop, fun _ _ given => ?_, by rintro ⟨⟩⟩,
              mt List.contains_iff_mem.mpr notMet, run⟩) others
          cases given
          exact ⟨field, at_, match_⟩

lemma exists_list {P : Nat → Content → Prop} {n : Nat} (each : ∀ i < n, ∃ c, P i c) :
    ∃ l : List Content, l.length = n ∧ ∀ (i : Nat) c, l[i]? = some c → P i c := by
  choose pick holds using each
  refine ⟨List.ofFn fun i : Fin n => pick i i.2, length_ofFn, fun i c at_ => ?_⟩
  obtain ⟨low, rfl⟩ := List.getElem?_eq_some_iff.mp at_
  rw [List.getElem_ofFn]
  exact holds i (by simpa using low)

lemma told_record (usable : known.Usable) (has : known.Has t) (kind : t.kind = .struct)
    (parses : ∀ inner, inner + 1 = left → ∀ field ∈ t.fields, Parses known (Reading.field known (fun _ => nested) inner base field)
      field.isBoxed inner (base.toNat + field.offset.toNat) field.type) :
    Told known (Reading.record known (fun _ => nested) left t base) false left base.toNat t := by
  intro c c' ready inWire inside ran
  obtain ⟨c₁, c₂, cleared, stored, same, went, _⟩ := went_prepare usable has ready inside
  have read : Act.deeper left (fun left => do
      let scene ← get
      occurrences known (fun _ => nested) t.fields left base (scene.wire.size + 1) []) c₂ = .ok () c' := by
    rwa [Reading.record, Act.bind_ok cleared, Act.bind_ok stored] at ran
  cases left with
  | zero => cases read
  | succ left =>
    obtain ⟨occs, s', run, through, fits, at_⟩ := told_occurrences usable.sound has (parses left rfl)
      (ready.went went) (went.inWire (At.nil inWire)) (by rw [same]; exact inside) read
    obtain ⟨slots, length, gives⟩ := @exists_list (fun i content => ∀ field, t.fields[i]? = some field →
        Occurrence.Gives occs i field content) t.fields.length fun i low => by
      have at_ := getElem?_eq_getElem low
      by_cases met : i ∈ occs.filterMap Occurrence.index?
      · obtain ⟨o, mem, index⟩ := List.mem_filterMap.mp met
        obtain ⟨⟨_, content⟩, given, rfl⟩ := Option.map_eq_some_iff.mp index
        exact ⟨content, fun field _ => .inl ⟨o, mem, given⟩⟩
      · refine ⟨Content.absent t.fields[i], fun field at' => .inr ⟨met, fun required => ?_, ?_⟩⟩
        · rcases run.required i field at' required with nothing | mem
          · cases nothing
          · exact met mem
        · cases at_.symm.trans at'
          rfl
    rw [same] at through
    exact ⟨_, .record slots, s', went.back at_, (spells_record_iff kind).mpr ⟨left, occs, slots, rfl, ⟨run.proper, run.once,
      length, fun i field content at_ is => gives i content is field at_⟩, through, rfl, rfl⟩, fits⟩

end Told

section Values

variable {known : Registry} {depth left : Nat} {base : UInt64} {off : UInt32}

lemma told_value (usable : known.Usable) (compact : known.Compact) (flat : known.Flat)
    (walks : ∀ left < depth, ∀ t, known.Has t → t.kind = .struct → ∀ base : UInt64,
      Told known (walk known depth left t base) false left base.toNat t)
    (t : TypeDesc) (has : known.Has t) {loose : Bool} (plain : loose = true → t.kind.isContainer = false)
    (low : left < depth) (near : off.toNat < 2 ^ 31) :
    Told known (value known (fun _ => walk known depth) t loose left base off) false left (base.toNat + off.toNat) t := by
  induction t, has using usable.sound.induction generalizing loose left base off with
  | scalar t has isScalar =>
    rw [value_scalar _ _ _ _ isScalar]
    exact told_word (usable.sound.shaped t has) isScalar
  | blob t has kind =>
    rw [value_blob _ _ _ _ kind]
    exact told_blob kind
  | sequence t has elem is ih =>
    rw [not_loose (by rcases is.kind with kind | kind <;> rw [kind] <;> rfl) plain]
    have simple := fun _ : true = true => flat.elems t elem has is.elem?
    have zero : (0 : UInt32).toNat < 2 ^ 31 := by decide
    exact told_items usable compact has is near fun inner within place => ⟨ih simple (by omega) zero,
      fun spells => spells.fills usable compact flat is.hasElem rfl simple (by omega) zero⟩
  | map t has key elem layout is ihKey ih =>
    rw [not_loose (by rw [is.kind]; rfl) plain]
    have simpleKey := fun _ : true = true => flat.keys t key has is.key?
    have simple := fun _ : true = true => flat.elems t elem has is.elem?
    have strideFits := compact.strides t key elem layout has is
    have bounds := TypeDesc.EntryLayout.bounds is.layout?
    have zero : (0 : UInt32).toNat < 2 ^ 31 := by decide
    exact told_entries usable compact has is near (fun inner within place => ⟨ihKey simpleKey (by omega) zero,
        fun spells => spells.fills usable compact flat is.hasKey rfl simpleKey (by omega) zero⟩)
      fun inner within place => ⟨ih simple (by omega) (by omega),
        fun spells => spells.fills usable compact flat is.hasElem rfl simple (by omega) (by omega)⟩
  | cramped t has key elem is => exact (Registry.EntriesFit.not_cramped usable.entries has is).elim
  | struct t has kind =>
    intro c c' ready inWire inside ran
    have place : (base + immWord off.toInt32).toNat = base.toNat + off.toNat := by
      have small := ready.small
      unfold Heap.limit at small
      exact toNat_add_immWord near (by omega)
    rw [value_struct _ _ _ _ kind, Writing.nestedRecord, TypeDesc.recordType_struct kind] at ran
    exact walks left low t has kind (base + immWord off.toInt32) c c' ready inWire (by rw [place]; exact inside) ran
  | pointer t has kind =>
    obtain ⟨record, isRecord, struct, hasRecord⟩ := usable.record has (.inr kind)
    exact told_target usable.sound has kind isRecord struct (walks left low record hasRecord struct) loose

lemma told_walk (usable : known.Usable) (compact : known.Compact) (flat : known.Flat) (low : left < depth)
    (t : TypeDesc) (has : known.Has t) (kind : t.kind = .struct) (base : UInt64) :
    Told known (walk known depth left t base) false left base.toNat t := by
  induction depth generalizing left t base with
  | zero => cases low
  | succ depth ih =>
    refine told_record usable has kind fun inner within field mem => ?_
    have hasField := usable.sound.field has mem
    have shaped := usable.sound.shaped _ hasField
    have near := compact.near usable.sound has mem
    refine ⟨?_, fun spells => fills_field shaped spells fun plain =>
      spells.fills usable compact flat hasField plain nofun (by omega) near⟩
    by_cases isBoxed : field.isBoxed = true
    · rw [isBoxed]
      exact told_cell shaped isBoxed
    · have plain : field.isBoxed = false := by simpa using isBoxed
      rw [plain, Reading.field, if_neg isBoxed]
      exact told_value usable compact flat (fun left low t has kind base => ih low t has kind base) field.type hasField
        nofun (by omega) near

end Values

end WireCodec
