import WireCodec.Offset
import WireCodec.Schema.Issue

/-! Layout of records and map entries. Fields keep their order, each starts at the next multiple of
its alignment, and the whole is rounded up to the largest alignment. -/
namespace WireCodec

def maxFieldId : UInt16 := 32767

/-- Refuses a field number used before or out of range, and a default of another kind or on a field
that is not optional. -/
def Field.check (owner : String) (seen : List UInt16) (field : FieldDesc) : Except SchemaIssue Unit :=
  if seen.contains field.id then .error (.duplicateField owner field.id)
  else if field.id > maxFieldId then .error (.fieldIdRange owner field.id)
  else match field.default with
    | none => .ok ()
    | some default =>
      if field.requiredness = .optional && default.kind = field.type.kind then .ok ()
      else .error (.defaultMisfit owner field.name default field.requiredness field.type.kind)

def fit (n : Nat) : Except LayoutError UInt32 :=
  match offset? n with
  | some off => .ok off
  | none => .error .overflow

/-- Answers the placed fields, the offset behind the last one and the largest alignment met. -/
def placeFields (owner : String) : List FieldDesc → List UInt16 → UInt32 → UInt32 → Except LayoutError
    (List FieldDesc × UInt32 × UInt32)
  | [], _, offset, align => .ok ([], offset, align)
  | field :: rest, seen, offset, align => do
    (field.check owner seen).mapError .issue
    let start ← fit (alignUp offset.toNat field.slotAlign.toNat)
    let next ← fit (start.toNat + field.slotSize.toNat)
    let (placed, stop, most) ← placeFields owner rest (field.id :: seen) next
      (max align field.slotAlign)
    return ({ field with offset := start } :: placed, stop, most)

def TypeDesc.record (name : String) (fields : List FieldDesc) (id : Nat) :
    Except LayoutError TypeDesc := do
  let (placed, stop, align) ← placeFields name fields [] 0 1
  let size ← fit (alignUp stop.toNat align.toNat)
  return ⟨id, .struct, name, size, align, none, none, none, placed⟩

namespace TypeDesc

def elem? (t : TypeDesc) : Except SchemaIssue TypeDesc :=
  match t.elem with
  | some e => .ok e
  | none => .error (.noElement t.name)

def key? (t : TypeDesc) : Except SchemaIssue TypeDesc :=
  match t.key with
  | some k => .ok k
  | none => .error (.noKey t.name)

structure EntryLayout where
  valueOffset : UInt32
  stride : UInt32

def EntryLayout.of? (key value : TypeDesc) : Option EntryLayout := do
  let valueOffset ← offset? (alignUp key.size.toNat value.align.toNat)
  let stop ← offset? (valueOffset.toNat + value.size.toNat)
  let stride ← offset? (alignUp stop.toNat (max key.align value.align).toNat)
  return ⟨valueOffset, stride⟩

def entryLayout (t : TypeDesc) : Except LayoutError EntryLayout := do
  let key ← t.key?.mapError .issue
  let value ← t.elem?.mapError .issue
  match EntryLayout.of? key value with
  | some layout => .ok layout
  | none => .error .overflow

end TypeDesc

end WireCodec
