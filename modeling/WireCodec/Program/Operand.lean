import WireCodec.ErrorCode
import WireCodec.Text.Number

/-! Operands of instructions, and the job a program does. -/
namespace WireCodec

inductive Width
  | w1
  | w2
  | w4
  | w8
  deriving DecidableEq

namespace Width

def bytes : Width → Nat
  | w1 => 1
  | w2 => 2
  | w4 => 4
  | w8 => 8

def ofBytes? : Nat → Option Width
  | 1 => some w1
  | 2 => some w2
  | 4 => some w4
  | 8 => some w8
  | _ => none

def mask : Width → UInt64
  | w1 => 0xff
  | w2 => 0xffff
  | w4 => 0xffffffff
  | w8 => 0xffffffffffffffff

def text (width : Width) : String := toString (width.bytes * 8)

end Width

/-- Conditions; `below` and `aboveEq` compare without sign. -/
inductive Cond
  | eq
  | ne
  | lt
  | le
  | gt
  | ge
  | below
  | aboveEq
  deriving DecidableEq

namespace Cond

def eval (cond : Cond) (a b : UInt64) : Bool :=
  match cond with
  | eq => a == b
  | ne => a != b
  | lt => a.toInt64 < b.toInt64
  | le => a.toInt64 ≤ b.toInt64
  | gt => b.toInt64 < a.toInt64
  | ge => b.toInt64 ≤ a.toInt64
  | below => a < b
  | aboveEq => b ≤ a

def text : Cond → String
  | eq => "eq"
  | ne => "ne"
  | lt => "lt"
  | le => "le"
  | gt => "gt"
  | ge => "ge"
  | below => "b"
  | aboveEq => "ae"

def all : List Cond := [eq, ne, lt, le, gt, ge, below, aboveEq]

def ofText? (name : String) : Option Cond := all.find? (·.text = name)

end Cond

inductive ImmOp
  | add
  | mul
  | and
  | or
  deriving DecidableEq

namespace ImmOp

def eval (op : ImmOp) (a b : UInt64) : UInt64 :=
  match op with
  | add => a + b
  | mul => a * b
  | and => a &&& b
  | or => a ||| b

def operand (op : ImmOp) (imm : Int32) : String :=
  match op with
  | add | mul => toString imm.toInt
  | and | or => Text.hexMarked imm.toUInt32.toNat

def text : ImmOp → String
  | add => "add"
  | mul => "mul"
  | and => "and"
  | or => "or"

end ImmOp

def immWord (imm : Int32) : UInt64 := imm.toInt64.toUInt64

inductive Job
  | measure
  | encode
  | decode
  deriving DecidableEq

namespace Job

def number : Job → Nat
  | measure => 0
  | encode => 1
  | decode => 2

def ofNumber? : Nat → Option Job
  | 0 => some measure
  | 1 => some encode
  | 2 => some decode
  | _ => none

def text : Job → String
  | measure => "measure"
  | encode => "encode"
  | decode => "decode"

def ofText? (name : String) : Option Job := [measure, encode, decode].find? (·.text = name)

def eofCode : Job → ErrorCode
  | decode => .unexpectedEof
  | measure | encode => .bufferTooSmall

end Job

end WireCodec
