import WireCodec.Proofs.Schema.Built

/-! Alignment. Every type of a schema that can be built is aligned to one, two, four or eight bytes
and takes a multiple of that, so that the entries of a map of types below two GiB have a layout. -/
namespace WireCodec

variable {fields : List FieldDesc}

def IsAlignment (align : Nat) : Prop := align = 1 ∨ align = 2 ∨ align = 4 ∨ align = 8

lemma isAlignment_max {a b : Nat} (first : IsAlignment a) (second : IsAlignment b) : IsAlignment (max a b) := by
  unfold IsAlignment at *
  omega

lemma IsAlignment.alignUp_mod {align : Nat} (is : IsAlignment align) (n : Nat) : alignUp n align % align = 0 := by
  have unit : max align 1 = align := by
    unfold IsAlignment at is
    omega
  simp only [alignUp, unit, Nat.mul_mod_left]

lemma alignUp_entry_lt {key elem a b : Nat} (first : IsAlignment a) (second : IsAlignment b) (multiple : key % a = 0)
    (multiple' : elem % b = 0) : alignUp (alignUp key b + elem) (max a b) < key + elem + max a b := by
  rcases first with rfl | rfl | rfl | rfl <;> rcases second with rfl | rfl | rfl | rfl <;> simp [alignUp] <;> omega

structure TypeDesc.Aligned (t : TypeDesc) : Prop where
  align : IsAlignment t.align.toNat
  size : t.size.toNat % t.align.toNat = 0

lemma placeFields_align {owner : String} {seen : List UInt16} {offset align : UInt32} {placed : List FieldDesc}
    {stop most : UInt32} (aligned : ∀ field ∈ fields, field.type.Aligned) (start : IsAlignment align.toNat)
    (ok : placeFields owner fields seen offset align = .ok (placed, stop, most)) : IsAlignment most.toNat := by
  induction fields generalizing seen offset align placed stop most with
  | nil =>
    cases ok
    exact start
  | cons field rest ih =>
    simp only [placeFields, bind, Except.bind] at ok
    split at ok
    · cases ok
    split at ok
    · cases ok
    split at ok
    · cases ok
    split at ok
    · cases ok
    rename_i result placing
    cases ok
    have slot : IsAlignment field.slotAlign.toNat := by
      unfold Field.slotAlign
      split
      · exact .inr (.inr (.inl rfl))
      · exact (aligned field List.mem_cons_self).align
    exact ih (fun f mem => aligned f (List.mem_cons_of_mem _ mem))
      (UInt32.toNat_max _ _ ▸ isAlignment_max start slot) placing

lemma record_aligned {name : String} {id : Nat} {t : TypeDesc}
    (aligned : ∀ field ∈ fields, field.type.Aligned) (made : TypeDesc.record name fields id = .ok t) : t.Aligned := by
  simp only [TypeDesc.record, bind, Except.bind] at made
  split at made
  · cases made
  rename_i result placing
  obtain ⟨placed, stop, align⟩ := result
  simp only at made
  split at made
  · cases made
  rename_i size atSize
  cases made
  have is := placeFields_align aligned (.inl rfl) placing
  exact ⟨is, by rw [fit_eq_ok atSize, is.alignUp_mod]⟩

/-- Entries whose parts stay below the bound have a layout: the value behind the key, rounded up. -/
lemma TypeDesc.Aligned.entryLayout {key elem : TypeDesc} (first : key.Aligned) (second : elem.Aligned)
    (room : key.size.toNat + elem.size.toNat + max key.align.toNat elem.align.toNat < 2 ^ 32) :
    ∃ layout, TypeDesc.EntryLayout.of? key elem = some layout ∧
      layout.valueOffset.toNat = alignUp key.size.toNat elem.align.toNat ∧ layout.stride.toNat =
        alignUp (layout.valueOffset.toNat + elem.size.toNat) (max key.align.toNat elem.align.toNat) := by
  have back : ∀ {n : Nat}, n < 2 ^ 32 → n.toUInt32.toNat = n := fun low => toNat_of_offset? (offset?_of_lt low)
  have third := Nat.lt_trans (alignUp_entry_lt first.align second.align first.size second.size) room
  have behind := lt_of_le_of_lt (le_alignUp _ _) third
  have start := lt_of_le_of_lt (Nat.le_add_right _ _) behind
  refine ⟨⟨_, _⟩, ?_, back start, (back third).trans (congrArg (fun n => alignUp (n + _) _) (back start).symm)⟩
  unfold TypeDesc.EntryLayout.of?
  simp only [Option.bind_eq_bind, offset?_of_lt start, Option.bind_some, back start, offset?_of_lt behind, back behind, UInt32.toNat_max, offset?_of_lt third]
  rfl

namespace Registry

variable {known : Registry}

lemma Built.aligned (built : known.Built) (t : TypeDesc) (has : known.Has t) : t.Aligned := by
  have leaf : ∀ {known : Registry} {make : Nat → TypeDesc}, (∀ t, known.Has t → t.Aligned) →
      (∀ id, (make id).Aligned) → ∀ t, (known.add make).2.Has t → t.Aligned := by
    intro known make old new t has
    rcases get?_add.mp has with has | ⟨_, rfl⟩
    · exact old t has
    · exact new _
  have header : ∀ {t : TypeDesc}, t.align = 4 → t.size = 8 → t.Aligned := fun align size =>
    ⟨by rw [align]; exact .inr (.inr (.inl rfl)), by rw [align, size]; rfl⟩
  have pointer : ∀ {t : TypeDesc}, t.align = 4 → t.size = 4 → t.Aligned := fun align size =>
    ⟨by rw [align]; exact .inr (.inr (.inl rfl)), by rw [align, size]; rfl⟩
  induction built generalizing t with
  | empty => simp [Has, get?, Registry.empty] at has
  | scalar kind isScalar _ ih =>
    refine leaf ih (fun id => ?_) t has
    have size : kind.scalarSize? = some 1 ∨ kind.scalarSize? = some 2 ∨ kind.scalarSize? = some 4 ∨
        kind.scalarSize? = some 8 := by
      revert isScalar
      cases kind <;> decide
    have same : (TypeDesc.scalar kind id).size = (TypeDesc.scalar kind id).align := rfl
    refine ⟨?_, by rw [same, Nat.mod_self]⟩
    simp only [TypeDesc.scalar, TypeDesc.leaf, IsAlignment]
    rcases size with size | size | size | size <;> rw [size] <;> decide
  | string _ ih | binary _ ih | list _ _ ih | set _ _ ih | map _ _ _ ih => exact leaf ih (fun _ => header rfl rfl) t has
  | pointer _ _ ih | weakPointer _ _ ih => exact leaf ih (fun _ => pointer rfl rfl) t has
  | reserve _ ih => exact ih t (by rwa [Has, get?_reserve] at has)
  | define reserved given made _ ih =>
    rcases (get?_define ((record_eq_ok made).1 ▸ reserved)).mp has with has | ⟨_, rfl⟩
    · exact ih t has
    · exact record_aligned (fun field mem => ih _ (given field mem)) made

lemma Built.entriesFit (built : known.Built) (sizes : ∀ t, known.Has t → t.size.toNat < 2 ^ 31) : known.EntriesFit := by
  intro t key elem has kind givenKey givenElem
  have hasKey := built.sound.key has givenKey
  have hasElem := built.sound.elem has givenElem
  have alignedKey := built.aligned key hasKey
  have alignedElem := built.aligned elem hasElem
  have room : key.size.toNat + elem.size.toNat + max key.align.toNat elem.align.toNat < 2 ^ 32 := by
    have lowKey := sizes key hasKey
    have lowElem := sizes elem hasElem
    obtain ⟨a | a | a | a, multiple⟩ := alignedKey <;> obtain ⟨b | b | b | b, multiple'⟩ := alignedElem <;>
      rw [a] at multiple <;> rw [b] at multiple' <;> rw [a, b] <;> omega
  obtain ⟨layout, made, -⟩ := alignedKey.entryLayout alignedElem room
  rw [made]
  rfl

end Registry

end WireCodec
