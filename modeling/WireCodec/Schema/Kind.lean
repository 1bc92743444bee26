/-! Kinds of values. Scalars have a fixed width. Strings, binaries and containers are
stored as a header of a data offset and a count. A pointer refers to a record stored
elsewhere in the arena. -/
namespace WireCodec

inductive Kind
  | bool
  | i8
  | i16
  | i32
  | i64
  | double
  | string
  | binary
  | list
  | set
  | map
  | struct
  | pointer
  deriving DecidableEq

namespace Kind

def all : List Kind :=
  [bool, i8, i16, i32, i64, double, string, binary, list, set, map, struct, pointer]

def text : Kind → String
  | bool => "bool"
  | i8 => "i8"
  | i16 => "i16"
  | i32 => "i32"
  | i64 => "i64"
  | double => "double"
  | string => "string"
  | binary => "binary"
  | list => "list"
  | set => "set"
  | map => "map"
  | struct => "struct"
  | pointer => "pointer"

def ofText? (name : String) : Option Kind := all.find? (·.text = name)

def label : Kind → String
  | bool => "Bool"
  | i8 => "I8"
  | i16 => "I16"
  | i32 => "I32"
  | i64 => "I64"
  | double => "Double"
  | string => "String"
  | binary => "Binary"
  | list => "List"
  | set => "Set"
  | map => "Map"
  | struct => "Struct"
  | pointer => "Pointer"

def scalarSize? : Kind → Option UInt32
  | bool | i8 => some 1
  | i16 => some 2
  | i32 => some 4
  | i64 | double => some 8
  | _ => none

def isScalar (kind : Kind) : Bool := kind.scalarSize?.isSome

def isContainer : Kind → Bool
  | list | set | map => true
  | _ => false

def hasHeader : Kind → Bool
  | string | binary | list | set | map => true
  | _ => false

def minWireSize : Kind → UInt32
  | string | binary => 4
  | list | set => 5
  | map => 6
  | struct | pointer => 1
  | kind => kind.scalarSize?.getD 1

end Kind

end WireCodec
