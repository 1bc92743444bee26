import WireCodec.Lowering.Piece
import WireCodec.Proofs.Schema.Built

/-! The forms a type of a usable schema can have, and the induction over them. Records end the
induction: a schema may be recursive through them. -/
namespace WireCodec

open Lowering

variable {field : FieldDesc} {kind : Kind}

lemma Kind.form (kind : Kind) : kind.isScalar = true ∨ kind.hasHeader = true ∨ kind = .struct ∨ kind = .pointer := by
  cases kind <;> decide

lemma Kind.isScalar_of_hasHeader (header : kind.hasHeader = true) : kind.isScalar = false := by
  cases kind <;> first | rfl | cases header

lemma Kind.hasHeader_of_blob (is : kind = .string ∨ kind = .binary) : kind.hasHeader = true := by
  rcases is with rfl | rfl <;> rfl

lemma Field.isScalar_of_isBoxed (boxed : field.isBoxed = true) : field.type.kind.isScalar = true := by
  simp only [Field.isBoxed, Bool.and_eq_true] at boxed
  exact boxed.2

lemma Field.not_isBoxed (notScalar : field.type.kind.isScalar = false) : ¬ field.isBoxed = true :=
  fun boxed => absurd (notScalar.symm.trans (isScalar_of_isBoxed boxed)) nofun

structure Registry.IsSequence (known : Registry) (t elem : TypeDesc) : Prop where
  kind : t.kind = .list ∨ t.kind = .set
  elem? : t.elem = some elem
  hasElem : known.Has elem

/-- A map, with its keys, its values and the places of both in an entry. -/
structure Registry.IsMap (known : Registry) (t key elem : TypeDesc)
    (layout : TypeDesc.EntryLayout) : Prop where
  kind : t.kind = .map
  key? : t.key = some key
  elem? : t.elem = some elem
  hasKey : known.Has key
  hasElem : known.Has elem
  layout? : TypeDesc.EntryLayout.of? key elem = some layout

lemma TypeDesc.EntryLayout.bounds {key elem : TypeDesc} {layout : TypeDesc.EntryLayout}
    (found : EntryLayout.of? key elem = some layout) : key.size.toNat ≤ layout.valueOffset.toNat ∧
      layout.valueOffset.toNat + elem.size.toNat ≤ layout.stride.toNat := by
  simp only [EntryLayout.of?, Option.bind_eq_bind, Option.bind_eq_some_iff] at found
  obtain ⟨valueOffset, atValue, stop, atStop, stride, atStride, done⟩ := found
  cases done
  have first := toNat_of_offset? atValue
  have second := toNat_of_offset? atStop
  have third := toNat_of_offset? atStride
  have up := le_alignUp key.size.toNat elem.align.toNat
  have up' := le_alignUp stop.toNat (max key.align elem.align).toNat
  constructor <;> simp only <;> omega

namespace Registry

variable {known : Registry} {t key elem : TypeDesc} {layout : TypeDesc.EntryLayout}

lemma IsSequence.hasHeader (is : known.IsSequence t elem) : t.kind.hasHeader = true := by
  rcases is.kind with kind | kind <;> rw [kind] <;> rfl

lemma IsMap.hasHeader (is : known.IsMap t key elem layout) : t.kind.hasHeader = true := by
  rw [is.kind]
  rfl

lemma IsMap.entry (isMap : known.IsMap t key elem layout) :
    Entry.ofMap? key elem = some ⟨some key, elem, layout.valueOffset, layout.stride⟩ := by
  simp [Entry.ofMap?, isMap.layout?]

lemma Sound.sequence (sound : known.Sound) (has : known.Has t) (kind : t.kind = .list ∨ t.kind = .set) :
    ∃ elem, known.IsSequence t elem := by
  obtain ⟨elem, given⟩ := Option.isSome_iff_exists.mp
    ((sound.shaped t has).elem (by rcases kind with kind | kind <;> rw [kind] <;> rfl))
  exact ⟨elem, kind, given, sound.elem has given⟩

/-- A map whose entries have no layout: no offset in them fits 32 bits. -/
structure IsCramped (t key elem : TypeDesc) : Prop where
  kind : t.kind = .map
  key? : t.key = some key
  elem? : t.elem = some elem
  layout? : TypeDesc.EntryLayout.of? key elem = none

lemma Sound.map_or_cramped (sound : known.Sound) (has : known.Has t) (kind : t.kind = .map) :
    (∃ key elem layout, known.IsMap t key elem layout) ∨ ∃ key elem, IsCramped t key elem := by
  have shaped := sound.shaped t has
  obtain ⟨elem, givenElem⟩ := Option.isSome_iff_exists.mp (shaped.elem (by rw [kind]; rfl))
  obtain ⟨key, givenKey⟩ := Option.isSome_iff_exists.mp (shaped.key kind)
  cases found : TypeDesc.EntryLayout.of? key elem with
  | none => exact .inr ⟨key, elem, kind, givenKey, givenElem, found⟩
  | some layout =>
    exact .inl ⟨key, elem, layout, kind, givenKey, givenElem, sound.key has givenKey, sound.elem has givenElem, found⟩

lemma EntriesFit.not_cramped (entries : known.EntriesFit) (has : known.Has t) : ¬ IsCramped t key elem := by
  intro is
  have found := entries t key elem has is.kind is.key? is.elem?
  rw [is.layout?] at found
  cases found

lemma Sound.map (sound : known.Sound) (entries : known.EntriesFit) (has : known.Has t) (kind : t.kind = .map) :
    ∃ key elem layout, known.IsMap t key elem layout :=
  (sound.map_or_cramped has kind).resolve_right fun ⟨_, _, is⟩ => entries.not_cramped has is

lemma Sound.induction (sound : known.Sound) {motive : ∀ t, known.Has t → Prop}
    (scalar : ∀ t has, t.kind.isScalar = true → motive t has)
    (blob : ∀ t has, t.kind = .string ∨ t.kind = .binary → motive t has)
    (sequence : ∀ t has elem, (is : known.IsSequence t elem) → motive elem is.hasElem → motive t has)
    (map : ∀ t has key elem layout, (is : known.IsMap t key elem layout) → motive key is.hasKey →
      motive elem is.hasElem → motive t has) (cramped : ∀ t has key elem, IsCramped t key elem → motive t has)
    (struct : ∀ t has, t.kind = .struct → motive t has)
    (pointer : ∀ t has, t.kind = .pointer → motive t has) (t : TypeDesc) (has : known.Has t) :
    motive t has := by
  induction t using TypeDesc.inner_induction with
  | step t ihElem ihKey =>
    have inner : t.kind = .list ∨ t.kind = .set → motive t has := by
      intro kind
      obtain ⟨elem, is⟩ := sound.sequence has kind
      exact sequence t has elem is (ihElem elem is.elem? _)
    cases kind : t.kind with
    | list => exact inner (.inl kind)
    | set => exact inner (.inr kind)
    | map =>
      rcases sound.map_or_cramped has kind with ⟨key, elem, layout, is⟩ | ⟨key, elem, is⟩
      · exact map t has key elem layout is (ihKey key is.key? _) (ihElem elem is.elem? _)
      · exact cramped t has key elem is
    | string => exact blob t has (.inl kind)
    | binary => exact blob t has (.inr kind)
    | struct => exact struct t has kind
    | pointer => exact pointer t has kind
    | bool | i8 | i16 | i32 | i64 | double => exact scalar t has (by rw [kind]; rfl)

end Registry

namespace TypeDesc.Shaped

variable {t : TypeDesc} (shaped : t.Shaped)

include shaped

lemma width (isScalar : t.kind.isScalar = true) : ∃ width, Width.ofBytes? t.size.toNat = some width ∧ width.bytes =
    t.size.toNat ∧ t.kind.scalarSize? = some t.size := by
  have notRecord : t.kind ≠ .struct := by
    intro kind
    rw [kind] at isScalar
    cases isScalar
  rw [shaped.size notRecord]
  revert isScalar
  cases t.kind <;> simp [Kind.isScalar, Kind.scalarSize?, Kind.slotSize, Width.ofBytes?, Width.bytes]

lemma minWireSize (isScalar : t.kind.isScalar = true) : t.kind.minWireSize = t.size := by
  obtain ⟨_, _, _, size⟩ := shaped.width isScalar
  revert size isScalar
  cases t.kind <;> simp [Kind.isScalar, Kind.minWireSize, Kind.scalarSize?, eq_comm]

lemma size_header (header : t.kind.hasHeader = true) : t.size = headerSize := by
  have notRecord : t.kind ≠ .struct := by
    intro kind
    rw [kind] at header
    cases header
  rw [shaped.size notRecord]
  revert header
  cases t.kind <;> simp [Kind.hasHeader, Kind.slotSize, Kind.scalarSize?]

lemma size_le (isScalar : t.kind.isScalar = true) : t.size.toNat ≤ 8 := by
  obtain ⟨width, _, bytes, _⟩ := shaped.width isScalar
  rw [← bytes]
  cases width <;> decide

lemma size_pointer (kind : t.kind = .pointer) : t.size = pointerSize := by
  have notRecord : t.kind ≠ .struct := by
    rw [kind]
    nofun
  rw [shaped.size notRecord, kind]
  rfl

end TypeDesc.Shaped

end WireCodec
