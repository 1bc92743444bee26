import WireCodec.Proofs.Codec.Serial
import WireCodec.Proofs.Value.Storing

/-! What bytes spell a content of a type, and how much memory the content takes when it is read from them. -/
namespace WireCodec

open Lowering List

/-- Where memory of `size` bytes ends after `count` more were allocated. -/
def Heap.after (size count : Nat) : Nat := (size + (unit - 1)) / unit * unit + count

/-- The frames left inside something that takes a frame, unless it is flat. -/
def Inside (flat : Bool) (left inner : Nat) : Prop := if flat then inner = left else left = inner + 1

/-- A field on the wire: its tag, its number and its payload. A field of the schema has its place in the record
and the content that the payload spells. -/
structure Occurrence where
  tag : UInt8
  id : UInt16
  payload : List UInt8
  field? : Option (Nat × Content)

namespace Occurrence

def bytes (o : Occurrence) : List UInt8 := [o.tag] ++ (beBytes 2 o.id.toUInt64 ++ o.payload)

def index? (o : Occurrence) : Option Nat := o.field?.map (·.1)

/-- The field has the tag and number of a field of the schema, or is a well-formed value of another. -/
structure Proper (fields : List FieldDesc) (left : Nat) (o : Occurrence) : Prop where
  notStop : o.tag ≠ Tag.stop
  known : ∀ index c, o.field? = some (index, c) →
    ∃ field, fields[index]? = some field ∧ field.id = o.id ∧ field.type.kind.tag = o.tag
  unknown : o.field? = none →
    (∀ field ∈ fields, ¬ (field.id = o.id ∧ field.type.kind.tag = o.tag)) ∧ Raw left o.tag o.payload

/-- What a field of a record holds: what it was given on the wire, or what an absent field holds. -/
def Gives (occs : List Occurrence) (index : Nat) (field : FieldDesc) (c : Content) : Prop :=
  (∃ o ∈ occs, o.field? = some (index, c)) ∨
    (index ∉ occs.filterMap index? ∧ field.requiredness ≠ .required ∧ c = Content.absent field)

end Occurrence

/-- The bytes spell a content of a type in `left` frames. Memory of the first size has the second size with what
the content refers to. -/
inductive Spells (known : Registry) :
    (boxed : Bool) → (left : Nat) → TypeDesc → List UInt8 → Content → Nat → Nat → Prop
  | cell {left : Nat} {t : TypeDesc} {bytes : List UInt8} {s : Nat} (isScalar : t.kind.isScalar = true)
      (length : bytes.length = t.size.toNat) :
      Spells known true left t bytes (.word (beWord bytes)) s (Heap.after s boxSize.toNat)
  | word {left : Nat} {t : TypeDesc} {bytes : List UInt8} {s : Nat} (isScalar : t.kind.isScalar = true)
      (length : bytes.length = t.size.toNat) : Spells known false left t bytes (.word (beWord bytes)) s s
  | blob {left : Nat} {t : TypeDesc} {data : List UInt8} {s : Nat} (kind : t.kind = .string ∨ t.kind = .binary)
      (short : data.length < 2 ^ 31) :
      Spells known false left t (countBytes data.length ++ data) (.blob data) s (Heap.after s data.length)
  | items {left inner : Nat} {t elem : TypeDesc} {tag : UInt8} {elems : List Content} {s : Nat}
      (pieces : List (List UInt8)) (sizes : Nat → Nat) (is : known.IsSequence t elem)
      (short : elems.length < 2 ^ 31) (tags : elems ≠ [] → tag = elem.kind.tag)
      (frames : elems ≠ [] → Inside (isSimple elem) left inner) (length : pieces.length = elems.length)
      (start : sizes 0 = Heap.after s (elems.length * elem.size.toNat))
      (each : ∀ (i : Nat) piece c, pieces[i]? = some piece → elems[i]? = some c →
        Spells known false inner elem piece c (sizes i) (sizes (i + 1)))
      (distinct : t.kind = .set → (Content.values known elem elems).Nodup) :
      Spells known false left t ([tag] ++ (countBytes elems.length ++ pieces.flatten)) (.items elems) s
        (sizes elems.length)
  | entries {left inner : Nat} {t key elem : TypeDesc} {layout : TypeDesc.EntryLayout} {keyTag tag : UInt8}
      {keys elems : List Content} {s : Nat} (keyPieces pieces : List (List UInt8)) (sizes middles : Nat → Nat)
      (is : known.IsMap t key elem layout) (short : keys.length < 2 ^ 31)
      (tags : keys ≠ [] → keyTag = key.kind.tag ∧ tag = elem.kind.tag)
      (frames : keys ≠ [] → Inside (isSimple elem && isSimple key) left inner)
      (lengths : elems.length = keys.length ∧ keyPieces.length = keys.length ∧ pieces.length = keys.length)
      (start : sizes 0 = Heap.after s (keys.length * layout.stride.toNat))
      (eachKey : ∀ (i : Nat) piece c, keyPieces[i]? = some piece → keys[i]? = some c →
        Spells known false inner key piece c (sizes i) (middles i))
      (each : ∀ (i : Nat) piece c, pieces[i]? = some piece → elems[i]? = some c →
        Spells known false inner elem piece c (middles i) (sizes (i + 1))) :
      Spells known false left t
        ([keyTag] ++ ([tag] ++ (countBytes keys.length ++ (List.zipWith (· ++ ·) keyPieces pieces).flatten)))
        (.entries keys elems) s (sizes keys.length)
  | record {left : Nat} {t : TypeDesc} {slots : List Content} (occs : List Occurrence) (sizes : Nat → Nat)
      (kind : t.kind = .struct) (proper : ∀ o ∈ occs, o.Proper t.fields left)
      (each : ∀ (i : Nat) (o : Occurrence) (index : Nat) (c : Content) (field : FieldDesc), occs[i]? = some o →
        o.field? = some (index, c) → t.fields[index]? = some field →
        Spells known field.isBoxed left field.type o.payload c (sizes i) (sizes (i + 1)))
      (skipped : ∀ (i : Nat) (o : Occurrence), occs[i]? = some o → o.field? = none → sizes (i + 1) = sizes i)
      (once : (occs.filterMap Occurrence.index?).Nodup) (length : slots.length = t.fields.length)
      (slot : ∀ (i : Nat) (field : FieldDesc) c, t.fields[i]? = some field → slots[i]? = some c →
        Occurrence.Gives occs i field c) :
      Spells known false (left + 1) t (occs.flatMap Occurrence.bytes ++ [Tag.stop]) (.record slots) (sizes 0)
        (sizes occs.length)
  | target {left : Nat} {t record : TypeDesc} {bytes : List UInt8} {c : Content} {s s' : Nat}
      (kind : t.kind = .pointer) (isRecord : t.recordType known = .ok record) (struct : record.kind = .struct)
      (inner : Spells known false left record bytes c (Heap.after s record.size.toNat) s') :
      Spells known false left t bytes c s s'

lemma Heap.le_after (size count : Nat) : size + count ≤ Heap.after size count := by
  simp only [Heap.after, Heap.unit]
  omega

end WireCodec
