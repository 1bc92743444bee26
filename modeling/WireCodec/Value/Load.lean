import WireCodec.Heap
import WireCodec.Schema.Registry
import WireCodec.Text.Lossy
import WireCodec.Value.Basic

/-! Reading values back from the arena. A nil pointer inside a container reads as a record
with every field absent; a field whose header or pointer is nil is absent. -/
namespace WireCodec

abbrev LoadM := ExceptT ValueError Option

namespace LoadM

def inReach {α : Type} : Option α → LoadM α
  | some a => pure a
  | none => throw .outOfBounds

def word (heap : Heap) (off : UInt32) (width : Nat) : LoadM UInt64 :=
  inReach (heap.read? off width)

def word32 (heap : Heap) (off : UInt32) : LoadM UInt32 := do
  return (← word heap off 4).toUInt32

def bytes (heap : Heap) (off : UInt32) (len : Nat) : LoadM (List UInt8) :=
  inReach (heap.slice? off len)

def header (heap : Heap) (off : UInt32) : LoadM (UInt32 × Nat) := do
  let data ← word32 heap off
  let count ← word32 heap (off + 4)
  return (data, count.toNat)

def ofSchema {α : Type} : Except SchemaIssue α → LoadM α
  | .ok a => pure a
  | .error issue => throw (.schema issue)

end LoadM

open LoadM

namespace Registry

mutual
def load (known : Registry) (heap : Heap) (off : UInt32) (t : TypeDesc) : LoadM Value :=
  match t.kind with
  | .string => do
    let (data, len) ← header heap off
    return .string (Text.lossy (← bytes heap data len))
  | .binary => do
    let (data, len) ← header heap off
    return .binary (← bytes heap data len)
  | .list => do
    let elem ← ofSchema t.elem?
    let (data, count) ← header heap off
    return .list (← known |>.loadItems heap elem count data.toNat)
  | .set => do
    let elem ← ofSchema t.elem?
    let (data, count) ← header heap off
    return .set (← known |>.loadItems heap elem count data.toNat)
  | .map => do
    let key ← ofSchema t.key?
    let elem ← ofSchema t.elem?
    let layout ← inReach (TypeDesc.EntryLayout.of? key elem)
    let (data, count) ← header heap off
    return .map (← known |>.loadEntries heap key elem layout count data.toNat)
  | .struct => do return .struct (← known |>.loadSlots heap off t.fields)
  | .pointer => do
    let target ← ofSchema (t.pointee known)
    let data ← word32 heap off
    if data = Heap.nil then return Value.absent target.fields.length
    else known |>.load heap data target
  | kind => do
    let w ← word heap off (kind.scalarSize?.getD 0).toNat
    match Scalar.ofBits? kind w with
    | some s => return .scalar s
    | none => throw (.mismatch kind kind)
partial_fixpoint

def loadItems (known : Registry) (heap : Heap) (elem : TypeDesc) (count off : Nat) : LoadM (List Value) :=
  match count with
  | 0 => return []
  | count + 1 => do
    let item ← known |>.load heap (← inReach (offset? off)) elem
    let rest ← known |>.loadItems heap elem count (off + elem.size.toNat)
    return item :: rest
partial_fixpoint

def loadEntries (known : Registry) (heap : Heap) (key elem : TypeDesc)
    (layout : TypeDesc.EntryLayout) (count off : Nat) : LoadM (List (Value × Value)) :=
  match count with
  | 0 => return []
  | count + 1 => do
    let start ← inReach (offset? off)
    let k ← known |>.load heap start key
    let v ← known |>.load heap (← inReach (offset? (off + layout.valueOffset.toNat))) elem
    let rest ← known |>.loadEntries heap key elem layout count (off + layout.stride.toNat)
    return (k, v) :: rest
partial_fixpoint

def loadSlots (known : Registry) (heap : Heap) (off : UInt32) (fields : List FieldDesc) : LoadM (List (Option Value)) :=
  match fields with
  | [] => return []
  | field :: fields => do
    let slot ← inReach (offset? (off.toNat + field.offset.toNat))
    let value ← known |>.loadField heap slot field
    let rest ← known |>.loadSlots heap off fields
    return value :: rest
partial_fixpoint

def loadField (known : Registry) (heap : Heap) (slot : UInt32) (field : FieldDesc) : LoadM (Option Value) :=
  if field.isBoxed then do
    let cell ← word32 heap slot
    if cell = Heap.nil then return none
    else do return some (← known |>.load heap cell field.type)
  else if field.type.kind.hasHeader || field.type.kind = .pointer then do
    let first ← word32 heap slot
    if first = Heap.nil then return none
    else do return some (← known |>.load heap slot field.type)
  else do return some (← known |>.load heap slot field.type)
partial_fixpoint
end

end Registry

def loadValue (known : Registry) (heap : Heap) (off : UInt32) (t : TypeDesc) : Except ValueError Value :=
  (known.load heap off t).run.getD (.error .endless)

end WireCodec
