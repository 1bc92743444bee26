import WireCodec.Call.Abi
import WireCodec.Native.Op

/-! The stack frame of a compiled function, and the access to program registers. From the
stack pointer up the frame holds outgoing arguments, the registers saved across a call,
and the spill slots. -/
namespace WireCodec.Native

def roundUp (n unit : Nat) : Nat := (n + unit - 1) / unit * unit

structure Frame where
  saveBase : Nat
  spillBase : Nat
  size : Nat
  deriving DecidableEq

namespace Frame

/-- Six registers are pushed before the frame, so that the stack is aligned at a call. -/
def ofSizes (outArgs spills : Nat) : Frame :=
  let saveBase := roundUp outArgs 16
  let spillBase := saveBase + 8 * PhysReg.all.length
  ⟨saveBase, spillBase, roundUp (spillBase + 8 * spills) 16 + 8⟩

def spillOffset (f : Frame) (slot : Nat) : Nat := f.spillBase + 8 * slot

def saveOffset (f : Frame) (phys : PhysReg) : Nat := f.saveBase + 8 * phys.index

end Frame

def stack (offset : Nat) : Address := .unindexed rsp offset.toUInt32

/-- `r14` holds the start of the arena. -/
def arena (reg : HwReg) (off : UInt32) : Address := .indexed r14 reg off

/-- `r12` holds the start of the wire and `r13` the cursor. -/
def cursor : Address := .paired r12 r13

/-- `rbx` points to the traversal frame. -/
def frameSlot (slot : UInt8) : Address := .based rbx (8 * slot.toUInt32)

/-! Places of the context, which `r15` points to. -/
namespace Ctx

def wire : Address := .based r15 0
def wireSize : Address := .based r15 8
def pos : Address := .based r15 16
def arenaBase : Address := .based r15 24
def root : Address := .based r15 40
def frame : Address := .based r15 48
def frameLimit : Address := .based r15 56
def sink : Address := .based r15 72
def sinkMethods : Address := .based r15 80
def errorCode : Address := .based r15 88
def errorOffset : Address := .based r15 96

end Ctx

/-- The addresses that code is made with: those of the routines, and that of the barrier's flag. -/
structure Symbols where
  routine : Routine → UInt64
  barrierFlag : UInt64

/-- Numbers that tell the addresses apart, for code that is looked at and not run. -/
def Symbols.numbered : Symbols :=
  let symbol (number : UInt64) : UInt64 := 0x7a00000000000000 + number
  { barrierFlag := symbol 0x10
    routine := fun
      | .alloc => symbol 0
      | .copy => symbol 1
      | .clear => symbol 2
      | .skip => symbol 3
      | .defer => symbol 4
      | .setCheck => symbol 5
      | .sample (.probe arity) => symbol (0x20 + arity.toUInt64)
      | .sample (.pair arity) => symbol (0x30 + arity.toUInt64)
      | .sample .setError => symbol 0x40
      | .sample .setPos => symbol 0x41
      | .external address => address }

structure Site where
  alloc : Allocation
  frame : Frame
  handles : HandleTable
  job : Job
  length : Nat
  symbols : Symbols

namespace Site

def location (s : Site) (reg : Reg) : Except CompileError Location :=
  match s.alloc.location? reg with
  | some loc => .ok loc
  | none => .error (.malformed (.noLocation reg))

def moveUnlessSame (dst src : HwReg) : List Op := if src = dst then [] else [.move dst src]

def fetch (s : Site) (reg : Reg) (scratch : HwReg) : Except CompileError (HwReg × List Op) := do
  match ← s.location reg with
  | .reg phys => return (hwReg phys, [])
  | .spill slot => return (scratch, [.load .w8 false scratch (stack (s.frame.spillOffset slot))])

def fetchInto (s : Site) (reg : Reg) (dst : HwReg) : Except CompileError (List Op) := do
  let (src, code) ← s.fetch reg dst
  return code ++ moveUnlessSame dst src

/-- A register without a place is never read. -/
def put (s : Site) (reg : Reg) (src : HwReg) : List Op :=
  match s.alloc.location? reg with
  | some (.reg phys) => moveUnlessSame (hwReg phys) src
  | some (.spill slot) => [.store .w8 (stack (s.frame.spillOffset slot)) src]
  | none => []

end Site

end WireCodec.Native
