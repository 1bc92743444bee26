import WireCodec.Heap
import WireCodec.Schema.Registry
import WireCodec.Value.Basic

/-! Storing values in the arena. What was written before a failure stays written: data
is allocated before its elements are stored, and a header is written last. -/
namespace WireCodec

abbrev StoreM := EStateM ValueError Heap

namespace StoreM

def alloc (count : Nat) : StoreM UInt32 := fun heap =>
  match heap.alloc? count with
  | some (off, heap) => .ok off heap
  | none => .error .exhausted heap

def allocBytes (data : List UInt8) : StoreM UInt32 := fun heap =>
  match heap.allocBytes? data with
  | some (off, heap) => .ok off heap
  | none => .error .exhausted heap

def write (off : UInt32) (width : Nat) (word : UInt64) : StoreM Unit := fun heap =>
  if width ≤ 8 && heap.holds off width then .ok () (heap.patch off (leBytes width word))
  else .error .outOfBounds heap

def write32 (off value : UInt32) : StoreM Unit := write off 4 value.toUInt64

def writeHeader (off data : UInt32) (count : Nat) : StoreM Unit := do
  write32 off data
  write32 (off + 4) count.toUInt32

def ofSchema {α : Type} : Except SchemaIssue α → StoreM α
  | .ok a => pure a
  | .error issue => throw (.schema issue)

def inReach {α : Type} : Option α → StoreM α
  | some a => pure a
  | none => throw .outOfBounds

end StoreM

open StoreM

/-- Follows a chain of pointer types from the slot at `off`: every hop allocates room for its
target, and the slot is set once the rest succeeded. A chain longer than `hops` never ends. -/
def storeThrough (known : Registry) (last : UInt32 → TypeDesc → StoreM Unit) : Nat → UInt32 → TypeDesc → StoreM Unit
  | 0, _, _ => throw .endless
  | hops + 1, off, t =>
    if t.kind = .pointer then do
      let target ← ofSchema (t.pointee known)
      let data ← alloc target.size.toNat
      storeThrough known last hops data target
      write32 off data
    else last off t

def storeAbsent (off : UInt32) (field : FieldDesc) : StoreM Unit :=
  match field.default with
  | some default => write off field.type.size.toNat default.bits
  | none => pure ()

def storeBlob (off : UInt32) (data : List UInt8) : StoreM Unit := do
  let start ← allocBytes data
  writeHeader off start data.length

def storeSequence (t : TypeDesc) (off : UInt32) (count : Nat)
    (fill : TypeDesc → UInt32 → StoreM Unit) : StoreM Unit := do
  let elem ← ofSchema t.elem?
  let data ← alloc (elem.size.toNat * count)
  fill elem data
  writeHeader off data count

mutual
def storeValue (known : Registry) (off : UInt32) (t : TypeDesc) : Value → StoreM Unit
  | .scalar s =>
    if s.kind = t.kind then write off t.size.toNat s.bits else throw (.mismatch t.kind s.kind)
  | .string s =>
    if t.kind = .string then storeBlob off s.toUTF8.toList else throw (.mismatch t.kind .string)
  | .binary data =>
    if t.kind = .binary then storeBlob off data else throw (.mismatch t.kind .binary)
  | .list items =>
    if t.kind = .list then
      storeSequence t off items.length fun elem data => storeItems known elem data items
    else throw (.mismatch t.kind .list)
  | .set items =>
    if t.kind = .set then
      storeSequence t off items.length fun elem data => storeItems known elem data items
    else throw (.mismatch t.kind .set)
  | .map entries =>
    if t.kind = .map then do
      let key ← ofSchema t.key?
      let elem ← ofSchema t.elem?
      let layout ← inReach (TypeDesc.EntryLayout.of? key elem)
      let data ← alloc (layout.stride.toNat * entries.length)
      storeEntries known key elem layout data entries
      writeHeader off data entries.length
    else throw (.mismatch t.kind .map)
  | .struct slots =>
    storeThrough known (fun off t => if t.kind = .struct then
        if slots.length = t.fields.length then storeSlots known off t.fields slots
        else throw (.fieldCount t.name t.fields.length slots.length)
      else throw (.mismatch t.kind .struct)) (known.types.size + 2) off t

def storeItems (known : Registry) (elem : TypeDesc) (off : UInt32) : List Value → StoreM Unit
  | [] => pure ()
  | item :: rest => do
    storeValue known off elem item
    storeItems known elem (off + elem.size) rest

def storeEntries (known : Registry) (key elem : TypeDesc) (layout : TypeDesc.EntryLayout)
    (off : UInt32) : List (Value × Value) → StoreM Unit
  | [] => pure ()
  | (k, v) :: rest => do
    storeValue known off key k
    storeValue known (off + layout.valueOffset) elem v
    storeEntries known key elem layout (off + layout.stride) rest

def storeSlots (known : Registry) (off : UInt32) : List FieldDesc → List (Option Value) → StoreM Unit
  | field :: fields, some v :: slots => do
    let slot ← inReach (offset? (off.toNat + field.offset.toNat))
    if field.isBoxed then do
      let cell ← alloc boxSize.toNat
      storeValue known cell field.type v
      write32 slot cell
    else storeValue known slot field.type v
    storeSlots known off fields slots
  | field :: fields, none :: slots => do
    let slot ← inReach (offset? (off.toNat + field.offset.toNat))
    storeAbsent slot field
    storeSlots known off fields slots
  | _, _ => pure ()
end

def allocValue (known : Registry) (t : TypeDesc) (v : Value) : StoreM UInt32 := do
  let off ← alloc t.size.toNat
  storeValue known off t v
  return off

end WireCodec
