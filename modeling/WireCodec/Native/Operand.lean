import WireCodec.Allocation

/-! Registers and memory operands of an x86-64 processor, and their place in an
instruction: the extension byte, the mode byte, and the index byte. -/
namespace WireCodec.Native

abbrev HwReg := Fin 16

instance sixteen : @NeZero Nat Zero.ofOfNat0 16 := ⟨by decide⟩

def rax : HwReg := 0
def rcx : HwReg := 1
def rdx : HwReg := 2
def rbx : HwReg := 3
def rsp : HwReg := 4
def rbp : HwReg := 5
def rsi : HwReg := 6
def rdi : HwReg := 7
def r8 : HwReg := 8
def r9 : HwReg := 9
def r12 : HwReg := 12
def r13 : HwReg := 13
def r14 : HwReg := 14
def r15 : HwReg := 15

def hwReg (phys : PhysReg) : HwReg := Fin.ofNat 16 phys.code

inductive Address
  | direct (base : HwReg)
  | based (base : HwReg) (disp : UInt32)
  /-- A displacement from any register, with an index byte that names no index. -/
  | unindexed (base : HwReg) (disp : UInt32)
  | indexed (base index : HwReg) (disp : UInt32)
  | paired (base index : HwReg)
  deriving DecidableEq

def extension (wide : Bool) (reg index base : HwReg) : UInt8 :=
  0x40 + (if wide then 8 else 0) + (4 * (reg.val / 8) + 2 * (index.val / 8) + base.val / 8).toUInt8

def modeByte (mode reg rm : Nat) : UInt8 := (mode * 64 + reg % 8 * 8 + rm % 8).toUInt8

def word32 (n : UInt32) : List UInt8 := leBytes 4 n.toUInt64

namespace Address

def noIndex : Nat := 4

def base : Address → HwReg
  | direct base | based base _ | unindexed base _ | indexed base _ _ | paired base _ => base

def index : Address → HwReg
  | direct _ | based _ _ | unindexed _ _ => 0
  | indexed _ index _ | paired _ index => index

def bytes (reg : Nat) : Address → List UInt8
  | direct base => [modeByte 0 reg base]
  | based base disp => modeByte 2 reg base :: word32 disp
  | unindexed base disp => modeByte 2 reg 4 :: modeByte 0 noIndex base :: word32 disp
  | indexed base index disp => modeByte 2 reg 4 :: modeByte 0 index base :: word32 disp
  | paired base index => [modeByte 0 reg 4, modeByte 0 index base]

end Address

def withMemory (wide : Bool) (opcode : List UInt8) (reg : HwReg) (mem : Address) : List UInt8 :=
  let ext := extension wide reg mem.index mem.base
  (if ext = 0x40 then [] else [ext]) ++ opcode ++ mem.bytes reg

def withRegister (opcode : List UInt8) (reg rm : HwReg) : List UInt8 :=
  extension true reg 0 rm :: opcode ++ [modeByte 3 reg rm]

end WireCodec.Native
