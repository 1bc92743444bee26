import WireCodec.Bytes

/-! The arena values live in: bytes addressed by 32-bit offsets. Offset 0 is nil. Allocation only
appends, so an offset once handed out stays valid. -/
namespace WireCodec

structure Heap where
  bytes : Bytes
  deriving DecidableEq

namespace Heap

def nil : UInt32 := 0
def reserved : Nat := 8
def unit : Nat := 8
def limit : Nat := 4294967295

def empty : Heap := ⟨Array.replicate reserved 0⟩

def sized? (capacity : Nat) : Option Heap := if capacity ≤ maxBlock then some empty else none

def size (heap : Heap) : Nat := heap.bytes.size

def isEmpty (heap : Heap) : Bool := heap.size ≤ reserved

def diagnostic (heap : Heap) : String := s!"Heap({heap.size} bytes)"

def next (heap : Heap) : Nat := (heap.size + (unit - 1)) / unit * unit

def alloc? (heap : Heap) (count : Nat) : Option (UInt32 × Heap) :=
  let start := heap.next
  if start + count ≤ limit then
    some (start.toUInt32, ⟨heap.bytes ++ Array.replicate (start + count - heap.size) 0⟩)
  else none

def slice? (heap : Heap) (off : UInt32) (len : Nat) : Option (List UInt8) :=
  WireCodec.slice? heap.bytes off.toNat len

def read? (heap : Heap) (off : UInt32) (width : Nat) : Option UInt64 :=
  if width ≤ 8 then (heap.slice? off width).map leWord else none

def read32? (heap : Heap) (off : UInt32) : Option UInt32 :=
  (heap.read? off 4).map (·.toUInt32)

def patch (heap : Heap) (off : UInt32) (data : List UInt8) : Heap :=
  ⟨WireCodec.patch heap.bytes off.toNat data⟩

def holds (heap : Heap) (off : UInt32) (count : Nat) : Bool := off.toNat + count ≤ heap.size

def write? (heap : Heap) (off : UInt32) (width : Nat) (word : UInt64) : Option Heap :=
  if width ≤ 8 && heap.holds off width then some (heap.patch off (leBytes width word)) else none

def allocBytes? (heap : Heap) (data : List UInt8) : Option (UInt32 × Heap) :=
  (heap.alloc? data.length).map fun (off, heap) => (off, heap.patch off data)

end Heap

end WireCodec
