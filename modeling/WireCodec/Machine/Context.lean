import WireCodec.CompileError
import WireCodec.Heap

/-! What a running program works on: the wire with its cursor, the arena, the traversal
frames, and the place where errors are reported. The first error is kept. -/
namespace WireCodec

structure StoreEvent where
  slot : UInt32
  old : UInt32
  new : UInt32
  deriving DecidableEq

/-- Code 0 means no error. Frame `frame` is the current one, `limit` the last one allowed. Slots
behind the last one written are zero. Stores are listed latest first. -/
structure Context where
  wire : Bytes
  pos : UInt64
  heap : Heap
  root : UInt64
  frames : Array UInt64
  frame : Int
  limit : Nat
  errorCode : UInt32
  errorOffset : UInt64
  fault : Option CompileError
  barrier : Bool
  stores : List StoreEvent

inductive RunError
  | codec (e : CodecError)
  | compile (e : CompileError)
  deriving DecidableEq

namespace Context

def slotsPerFrame : Nat := 8
def frameBytes : Nat := 8 * slotsPerFrame

def start (wire : Bytes) (heap : Heap) (root : UInt32) (limit : Nat) (barrier : Bool) : Context :=
  { wire := wire
    pos := 0
    heap := heap
    root := root.toUInt64
    frames := #[]
    frame := 0
    limit := limit
    errorCode := 0
    errorOffset := 0
    fault := none
    barrier := barrier
    stores := [] }

def failed (c : Context) : Bool := c.errorCode != 0

def failAt (c : Context) (code : ErrorCode) (offset : UInt64) : Context :=
  if c.errorCode = 0 then { c with errorCode := code.number, errorOffset := offset } else c

def fail (c : Context) (code : ErrorCode) : Context := c.failAt code c.pos

def raise (c : Context) (e : CompileError) : Context :=
  { c with fault := c.fault.or (some e) }.fail .internal

def fits (c : Context) (n : UInt64) : Bool := c.pos.toNat + n.toNat ≤ c.wire.size

def framesLeft (c : Context) : Nat := ((c.limit : Int) - c.frame).toNat

def slotIndex (c : Context) (slot : UInt8) : Nat := (c.frame * slotsPerFrame + slot.toNat).toNat

def readSlot (c : Context) (slot : UInt8) : UInt64 := c.frames[c.slotIndex slot]?.getD 0

def writeSlot (c : Context) (slot : UInt8) (word : UInt64) : Context :=
  let index := c.slotIndex slot
  if index < (c.limit + 1) * slotsPerFrame then
    let frames := c.frames ++ Array.replicate (index + 1 - c.frames.size) 0
    { c with frames := frames.setIfInBounds index word }
  else c

def patchHeap (c : Context) (off : UInt32) (data : List UInt8) : Context :=
  { c with heap := c.heap.patch off data }

def storePointer (c : Context) (off new : UInt32) : Context :=
  let c := if c.barrier then
      { c with stores := ⟨off, (c.heap.read32? off).getD 0, new⟩ :: c.stores }
    else c
  c.patchHeap off (leBytes 4 new.toUInt64)

/-- A fault of the program counts before an error of the data. -/
def result (c : Context) : Except RunError UInt64 :=
  match c.fault with
  | some e => .error (.compile e)
  | none =>
    match ErrorCode.ofNumber? c.errorCode with
    | some .ok => .ok c.pos
    | some code => .error (.codec ⟨code, c.errorOffset.toNat⟩)
    | none => .error (.compile (.malformed (.unknownErrorCode c.errorCode)))

end Context

end WireCodec
