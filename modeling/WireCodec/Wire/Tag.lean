import WireCodec.Schema.Kind

/-! Wire tags: the byte that names the shape of a value on the wire. -/
namespace WireCodec

namespace Tag

def stop : UInt8 := 0
def bool : UInt8 := 2
def byte : UInt8 := 3
def double : UInt8 := 4
def i16 : UInt8 := 6
def i32 : UInt8 := 8
def i64 : UInt8 := 10
def string : UInt8 := 11
def struct : UInt8 := 12
def map : UInt8 := 13
def set : UInt8 := 14
def list : UInt8 := 15

def fixedSize? (tag : UInt8) : Option Nat :=
  if tag = bool || tag = byte then some 1
  else if tag = i16 then some 2
  else if tag = i32 then some 4
  else if tag = i64 || tag = double then some 8
  else none

def isValue (tag : UInt8) : Bool :=
  (fixedSize? tag).isSome || [string, struct, map, set, list].contains tag

end Tag

/-- Binaries share the tag of strings, pointers that of records. -/
def Kind.tag : Kind → UInt8
  | .bool => Tag.bool
  | .i8 => Tag.byte
  | .i16 => Tag.i16
  | .i32 => Tag.i32
  | .i64 => Tag.i64
  | .double => Tag.double
  | .string | .binary => Tag.string
  | .list => Tag.list
  | .set => Tag.set
  | .map => Tag.map
  | .struct | .pointer => Tag.struct

end WireCodec
