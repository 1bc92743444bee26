import WireCodec.CompileError

/-! Register allocation. Registers get places in the order in which they occur, those with join
values first: six machine registers, then spill slots. A place is kept for the whole program. -/
namespace WireCodec

inductive PhysReg
  | rbp
  | rsi
  | rdi
  | r8
  | r9
  | r10
  deriving DecidableEq

namespace PhysReg

def all : List PhysReg := [rbp, rsi, rdi, r8, r9, r10]

def text : PhysReg → String
  | rbp => "rbp"
  | rsi => "rsi"
  | rdi => "rdi"
  | r8 => "r8"
  | r9 => "r9"
  | r10 => "r10"

def code : PhysReg → Nat
  | rbp => 5
  | rsi => 6
  | rdi => 7
  | r8 => 8
  | r9 => 9
  | r10 => 10

def index : PhysReg → Nat
  | rbp => 0
  | rsi => 1
  | rdi => 2
  | r8 => 3
  | r9 => 4
  | r10 => 5

def isCalleeSaved (reg : PhysReg) : Bool := reg = .rbp

end PhysReg

inductive Location
  | reg (phys : PhysReg)
  | spill (slot : Nat)
  deriving DecidableEq

def Location.text : Location → String
  | reg phys => phys.text
  | spill slot => s!"spill{slot}"

structure Limits where
  registers : Nat
  spillSlots : Nat

def Limits.default : Limits := ⟨6, 32⟩

structure Allocation where
  places : List (Reg × Location)
  deriving DecidableEq

namespace Allocation

def order (code : List (Instr Nat)) (joined : List Reg) : List Reg :=
  let touched := code.flatMap fun i => i.uses ++ i.defs
  (.p 0 :: (touched.filter joined.contains ++ touched)).eraseDups

def place? (limits : Limits) (n : Nat) : Option Location :=
  let machine := PhysReg.all.take limits.registers
  match machine[n]? with
  | some phys => some (.reg phys)
  | none =>
    let slot := n - machine.length
    if slot < limits.spillSlots then some (.spill slot) else none

def assignFrom (name : String) (limits : Limits) (n : Nat) : List Reg → Except CompileError (List (Reg × Location))
  | [] => .ok []
  | reg :: rest =>
    match place? limits n with
    | some loc => do return (reg, loc) :: (← assignFrom name limits (n + 1) rest)
    | none => .error (.tooComplex s!"{name}: no location left for {reg.text}")

def location? (a : Allocation) (reg : Reg) : Option Location := a.places.lookup reg

def inOrder (a : Allocation) : List (Reg × Location) :=
  Reg.all.filterMap fun reg => (a.location? reg).map fun loc => (reg, loc)

def spillCount (a : Allocation) : Nat := a.places.countP fun entry => match entry.2 with
  | .spill _ => true
  | .reg _ => false

def callerSaved (a : Allocation) : List PhysReg :=
  PhysReg.all.filter fun phys =>
    !phys.isCalleeSaved && a.places.any fun entry => entry.2 = .reg phys

def spillPointerMap (a : Allocation) : UInt64 :=
  a.places.foldl (fun bits entry => match entry with
    | (.p _, .spill slot) => if slot < 64 then bits ||| (1 <<< slot.toUInt64) else bits
    | _ => bits) 0

end Allocation

def Program.allocate (p : Program) (limits : Limits) (joined : List Reg) :
    Except CompileError Allocation := do
  return ⟨← Allocation.assignFrom p.name limits 0 (Allocation.order p.code.toList joined)⟩

end WireCodec
