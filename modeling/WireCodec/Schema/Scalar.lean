import WireCodec.Decimal.Shortest
import WireCodec.Schema.Kind

/-! Scalar values. Doubles are their 64 bits, so that equality of scalars is equality
of what is stored. -/
namespace WireCodec

inductive Scalar
  | bool (b : Bool)
  | i8 (v : Int8)
  | i16 (v : Int16)
  | i32 (v : Int32)
  | i64 (v : Int64)
  | double (bits : UInt64)
  deriving DecidableEq

namespace Scalar

def kind : Scalar → Kind
  | bool _ => .bool
  | i8 _ => .i8
  | i16 _ => .i16
  | i32 _ => .i32
  | i64 _ => .i64
  | double _ => .double

def bits : Scalar → UInt64
  | bool b => if b then 1 else 0
  | i8 v => v.toUInt8.toUInt64
  | i16 v => v.toUInt16.toUInt64
  | i32 v => v.toUInt32.toUInt64
  | i64 v => v.toUInt64
  | double w => w

/-- Any nonzero byte is true. -/
def ofBits? (kind : Kind) (w : UInt64) : Option Scalar :=
  match kind with
  | .bool => some (bool (w != 0))
  | .i8 => some (i8 w.toUInt8.toInt8)
  | .i16 => some (i16 w.toUInt16.toInt16)
  | .i32 => some (i32 w.toUInt32.toInt32)
  | .i64 => some (i64 w.toInt64)
  | .double => some (double w)
  | _ => none

def text : Scalar → String
  | bool b => s!"Bool({b})"
  | i8 v => s!"I8({v.toInt})"
  | i16 v => s!"I16({v.toInt})"
  | i32 v => s!"I32({v.toInt})"
  | i64 v => s!"I64({v.toInt})"
  | double w => "Double(" ++ Decimal.text Decimal.diagnostic w ++ ")"

end Scalar

end WireCodec
