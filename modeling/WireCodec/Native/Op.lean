import WireCodec.Native.Operand

/-! The x86-64 instructions in use, and their bytes. A jump names its label; its bytes hold the
distance to it, always in four bytes, so that the length of an instruction does not depend on where
it stands. -/
namespace WireCodec.Native

/-- Places jumps lead to: the code of instruction `index`, the exit, the stub that reports an error,
the end of the barrier of a pointer store, and the table of a switch. -/
inductive Label
  | instr (index : Nat)
  | leave
  | failure (code : ErrorCode)
  | bypass (index : Nat)
  | table (index : Nat)
  deriving DecidableEq

inductive Flag
  | equal
  | notEqual
  | less
  | lessEqual
  | greater
  | greaterEqual
  | below
  | aboveEqual
  | above
  deriving DecidableEq

def Flag.code : Flag → UInt8
  | equal => 0x84
  | notEqual => 0x85
  | less => 0x8c
  | lessEqual => 0x8e
  | greater => 0x8f
  | greaterEqual => 0x8d
  | below => 0x82
  | aboveEqual => 0x83
  | above => 0x87

def Flag.ofCond : Cond → Flag
  | .eq => equal
  | .ne => notEqual
  | .lt => less
  | .le => lessEqual
  | .gt => greater
  | .ge => greaterEqual
  | .below => below
  | .aboveEq => aboveEqual

inductive Arith
  | add
  | or
  | and
  | sub
  | cmp
  deriving DecidableEq

def Arith.number : Arith → Nat
  | add => 0
  | or => 1
  | and => 4
  | sub => 5
  | cmp => 7

def Arith.raxCode (op : Arith) : UInt8 := (op.number * 8 + 5).toUInt8

inductive Op
  | push (reg : HwReg)
  | pop (reg : HwReg)
  | ret
  | move (dst src : HwReg)
  | moveWord (dst : HwReg) (value : UInt64)
  | moveHalf (dst : HwReg) (value : UInt32)
  | clear (dst : HwReg)
  | clearRax
  | load (width : Width) (signed : Bool) (dst : HwReg) (mem : Address)
  | store (width : Width) (mem : Address) (src : HwReg)
  /-- Stores an immediate; it is widened with its sign to eight bytes. -/
  | storeImm (width : Width) (mem : Address) (value : UInt32)
  | lea (dst : HwReg) (mem : Address)
  | arith (op : Arith) (dst : HwReg) (value : UInt32)
  | arithRax (op : Arith) (value : UInt32)
  | mulRax (value : UInt32)
  | addReg (dst src : HwReg)
  | compare (a b : HwReg)
  | compareMem (a : HwReg) (mem : Address)
  | compareByteZero (mem : Address)
  | compareHalfZero (mem : Address)
  | swapShort
  | swapHalf
  | swapWord
  | widenShort (signed : Bool)
  | widenHalf
  | timesFive
  | callRax
  | callMem (mem : Address)
  | jumpRax
  | jump (target : Label)
  | jumpIf (flag : Flag) (target : Label)
  | locate (target : Label)
  deriving DecidableEq

namespace Op

def loadCode : Width → Bool → Bool × List UInt8
  | .w1, false => (false, [0x0f, 0xb6])
  | .w1, true => (true, [0x0f, 0xbe])
  | .w2, false => (false, [0x0f, 0xb7])
  | .w2, true => (true, [0x0f, 0xbf])
  | .w4, false => (false, [0x8b])
  | .w4, true => (true, [0x63])
  | .w8, _ => (true, [0x8b])

def sized (width : Width) (byteCode code : UInt8) (reg : HwReg) (mem : Address) : List UInt8 :=
  match width with
  | .w1 => withMemory false [byteCode] reg mem
  | .w2 => 0x66 :: withMemory false [code] reg mem
  | .w4 => withMemory false [code] reg mem
  | .w8 => withMemory true [code] reg mem

def short (code : UInt8) (reg : HwReg) : List UInt8 :=
  (if reg.val < 8 then [] else [0x41]) ++ [code + (reg.val % 8).toUInt8]

def encode (distance : Label → UInt32) : Op → List UInt8
  | push reg => short 0x50 reg
  | pop reg => short 0x58 reg
  | ret => [0xc3]
  | move dst src => withRegister [0x89] src dst
  | moveWord dst value =>
    [extension true 0 0 dst, 0xb8 + (dst.val % 8).toUInt8] ++ leBytes 8 value
  | moveHalf dst value => [extension false 0 0 dst, 0xb8 + (dst.val % 8).toUInt8] ++ word32 value
  | clear dst => [extension false dst 0 dst, 0x31, modeByte 3 dst dst]
  | clearRax => [0x31, 0xc0]
  | load width signed dst mem =>
    let (wide, code) := loadCode width signed
    withMemory wide code dst mem
  | store width mem src => sized width 0x88 0x89 src mem
  | storeImm width mem value =>
    sized width 0xc6 0xc7 0 mem ++ leBytes (min width.bytes 4) value.toUInt64
  | lea dst mem => withMemory true [0x8d] dst mem
  | arith op dst value =>
    [extension true 0 0 dst, 0x81, modeByte 3 op.number dst] ++ word32 value
  | arithRax op value => [0x48, op.raxCode] ++ word32 value
  | mulRax value => [0x48, 0x69, 0xc0] ++ word32 value
  | addReg dst src => withRegister [0x01] src dst
  | compare a b => withRegister [0x3b] a b
  | compareMem a mem => withMemory true [0x3b] a mem
  | compareByteZero mem => withMemory false [0x80] 7 mem ++ [0]
  | compareHalfZero mem => withMemory false [0x81] 7 mem ++ word32 0
  | swapShort => [0x66, 0xc1, 0xc0, 0x08]
  | swapHalf => [0x0f, 0xc8]
  | swapWord => [0x48, 0x0f, 0xc8]
  | widenShort signed => if signed then [0x48, 0x0f, 0xbf, 0xc0] else [0x0f, 0xb7, 0xc0]
  | widenHalf => [0x48, 0x63, 0xc0]
  | timesFive => [0x48, 0x8d, 0x04, 0x80]
  | callRax => [0xff, 0xd0]
  | callMem mem => withMemory false [0xff] 2 mem
  | jumpRax => [0xff, 0xe0]
  | jump target => 0xe9 :: word32 (distance target)
  | jumpIf flag target => [0x0f, flag.code] ++ word32 (distance target)
  | locate target => [0x48, 0x8d, 0x0d] ++ word32 (distance target)

def target? : Op → Option Label
  | jump target | jumpIf _ target | locate target => some target
  | _ => none

def size (op : Op) : Nat := (op.encode fun _ => 0).length

theorem length_encode (distance : Label → UInt32) (op : Op) : (op.encode distance).length = op.size := by
  cases op <;> simp [size, encode, word32, length_leBytes]

end Op

end WireCodec.Native
