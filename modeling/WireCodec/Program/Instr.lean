import WireCodec.Program.Operand
import WireCodec.Program.Register

/-! Instructions, generic in their branch targets: labels while a program is drafted, places once it
is built. The wire is read and written at the cursor in big-endian order, the arena at a base
register plus an offset in little-endian order. -/
namespace WireCodec

inductive Instr (τ : Type) where
  | nop
  | check (n : UInt32)
  | checkReg (src : Reg)
  | advance (n : UInt32)
  | advanceReg (src : Reg)
  | readInt (width : Width) (signed : Bool) (dst : Reg)
  | writeImm (width : Width) (value : UInt64)
  | writeInt (width : Width) (src : Reg)
  | readBytes (dst len : Reg)
  | writeBytes (src len : Reg)
  | load (width : Width) (signed : Bool) (dst base : Reg) (off : UInt32)
  | store (width : Width) (src base : Reg) (off : UInt32)
  | loadPtr (dst base : Reg) (off : UInt32)
  | storePtr (src base : Reg) (off : UInt32)
  | seek (dst src : Reg) (off : Int32)
  | zero (base : Reg) (off len : UInt32)
  | movImm (dst : Reg) (value : UInt64)
  | mov (dst src : Reg)
  | add (dst a b : Reg)
  | imm (op : ImmOp) (dst src : Reg) (value : Int32)
  | enter
  | leave
  | loadFrame (dst : Reg) (slot : UInt8)
  | storeFrame (src : Reg) (slot : UInt8)
  | jump (target : τ)
  | branchImm (cond : Cond) (a : Reg) (value : Int32) (target : τ)
  | branchReg (cond : Cond) (a b : Reg) (target : τ)
  /-- Jumps to the target numbered by `src`, or to `fallback` past the last one. -/
  | switch (src : Reg) (targets : List τ) (fallback : τ)
  | call (handle : Nat) (args rets : List Reg)
  | error (code : ErrorCode)
  | halt
  deriving DecidableEq

namespace Instr

variable {τ σ : Type}

def frameSlots : UInt8 := 8

def isNop : Instr τ → Bool
  | nop => true
  | _ => false

def isHalt : Instr τ → Bool
  | halt => true
  | _ => false

def targets : Instr τ → List τ
  | jump t => [t]
  | branchImm _ _ _ t => [t]
  | branchReg _ _ _ t => [t]
  | switch _ ts fallback => ts ++ [fallback]
  | _ => []

def mapTargets (f : τ → σ) : Instr τ → Instr σ
  | nop => nop
  | check n => check n
  | checkReg src => checkReg src
  | advance n => advance n
  | advanceReg src => advanceReg src
  | readInt width signed dst => readInt width signed dst
  | writeImm width value => writeImm width value
  | writeInt width src => writeInt width src
  | readBytes dst len => readBytes dst len
  | writeBytes src len => writeBytes src len
  | load width signed dst base off => load width signed dst base off
  | store width src base off => store width src base off
  | loadPtr dst base off => loadPtr dst base off
  | storePtr src base off => storePtr src base off
  | seek dst src off => seek dst src off
  | zero base off len => zero base off len
  | movImm dst value => movImm dst value
  | mov dst src => mov dst src
  | add dst a b => add dst a b
  | imm op dst src value => imm op dst src value
  | enter => enter
  | leave => leave
  | loadFrame dst slot => loadFrame dst slot
  | storeFrame src slot => storeFrame src slot
  | jump t => jump (f t)
  | branchImm cond a value t => branchImm cond a value (f t)
  | branchReg cond a b t => branchReg cond a b (f t)
  | switch src ts fallback => switch src (ts.map f) (f fallback)
  | call handle args rets => call handle args rets
  | error code => error code
  | halt => halt

def isTerminator : Instr τ → Bool
  | jump _ | branchImm .. | branchReg .. | switch .. | error _ | halt => true
  | _ => false

def fallsThrough : Instr τ → Bool
  | jump _ | switch .. | error _ | halt => false
  | _ => true

def uses : Instr τ → List Reg
  | checkReg src | advanceReg src | writeInt _ src => [src]
  | readBytes dst len => [dst, len]
  | writeBytes src len => [src, len]
  | load _ _ _ base _ | loadPtr _ base _ | zero base _ _ => [base]
  | store _ src base _ | storePtr src base _ => [src, base]
  | seek _ src _ | mov _ src | imm _ _ src _ | storeFrame src _ => [src]
  | add _ a b | branchReg _ a b _ => [a, b]
  | branchImm _ a _ _ => [a]
  | switch src _ _ => [src]
  | call _ args _ => args
  | _ => []

def defs : Instr τ → List Reg
  | readInt _ _ dst | load _ _ dst _ _ | loadPtr dst _ _ | seek dst _ _ | movImm dst _ | mov dst _
  | add dst _ _ | imm _ dst _ _ | loadFrame dst _ => [dst]
  | call _ _ rets => rets
  | _ => []

def cursorDelta? : Instr τ → Option UInt32
  | advance n => some n
  | readInt width _ _ | writeImm width _ | writeInt width _ => some width.bytes.toUInt32
  | _ => none

/-- Drops an instruction without effect and cuts a written literal to its width. -/
def trimmed? : Instr τ → Option (Instr τ)
  | check n => if n = 0 then none else some (check n)
  | advance n => if n = 0 then none else some (advance n)
  | zero base off len => if len = 0 then none else some (zero base off len)
  | writeImm width value => some (writeImm width (value &&& width.mask))
  | i => some i

def opcode : Instr τ → Nat × String
  | nop => (0, "Nop")
  | check _ => (1, "Check")
  | checkReg _ => (2, "CheckReg")
  | advance _ => (3, "Advance")
  | advanceReg _ => (4, "AdvanceReg")
  | readInt .. => (5, "ReadInt")
  | writeImm .. => (6, "WriteImm")
  | writeInt .. => (7, "WriteInt")
  | readBytes .. => (8, "ReadBytes")
  | writeBytes .. => (9, "WriteBytes")
  | load .. => (10, "Load")
  | store .. => (11, "Store")
  | loadPtr .. => (12, "LoadPtr")
  | storePtr .. => (13, "StorePtr")
  | seek .. => (14, "Seek")
  | zero .. => (15, "Zero")
  | movImm .. => (16, "MovImm")
  | mov .. => (17, "Mov")
  | add .. => (18, "Add")
  | imm .add .. => (19, "AddImm")
  | imm .mul .. => (20, "MulImm")
  | imm .and .. => (21, "AndImm")
  | imm .or .. => (22, "OrImm")
  | enter => (23, "Enter")
  | leave => (24, "Leave")
  | loadFrame .. => (25, "LoadFrame")
  | storeFrame .. => (26, "StoreFrame")
  | jump _ => (27, "Jump")
  | branchImm .. => (28, "BranchImm")
  | branchReg .. => (29, "BranchReg")
  | switch .. => (30, "Switch")
  | call .. => (31, "Call")
  | error _ => (32, "Error")
  | halt => (33, "Halt")

end Instr

/-- The instructions of a program, with their places as targets. -/
abbrev Instrs := List (Instr Nat)

end WireCodec
