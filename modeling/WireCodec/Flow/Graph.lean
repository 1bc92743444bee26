import WireCodec.Program.Listing

/-! The flow graph of a program. A block is a longest run of instructions that is entered
only at its start and left only at its end. It is numbered by its place. -/
namespace WireCodec

structure Block where
  start : Nat
  stop : Nat
  succs : List Nat
  preds : List Nat

structure Graph where
  blocks : Array Block
  blockOf : Array Nat

namespace Graph

def leadersFrom (opens : Bool) : List (Instr Nat × Bool) → List Bool
  | [] => []
  | (i, marked) :: rest => (opens || marked) :: leadersFrom i.isTerminator rest

def leaders (code : List (Instr Nat)) : List Bool :=
  leadersFrom true (code.zip (Program.branchMarks code).toList)

def startsFrom (index : Nat) : List Bool → List Nat
  | [] => []
  | marked :: rest =>
    if marked then index :: startsFrom (index + 1) rest else startsFrom (index + 1) rest

def blockIndexFrom (seen : Nat) : List Bool → List Nat
  | [] => []
  | marked :: rest =>
    let seen := if marked then seen + 1 else seen
    (seen - 1) :: blockIndexFrom seen rest

def stops (starts : List Nat) (size : Nat) : List Nat := starts.drop 1 ++ [size]

/-- The blocks that can follow block `b`: its branch targets in order, then the next block. A target
outside the code leads nowhere. -/
def successors? (blockOf : Array Nat) (count b : Nat) (last : Instr Nat) : Option (List Nat) := do
  let branches ← last.targets.mapM fun t => blockOf[t]?
  let next := if last.fallsThrough && b + 1 < count then [b + 1] else []
  return (branches ++ next).eraseDups

def build? (code : Array (Instr Nat)) : Option Graph := do
  let marks := leaders code.toList
  let starts := startsFrom 0 marks
  let blockOf := (blockIndexFrom 0 marks).toArray
  let spans := starts.zip (stops starts code.size)
  let succs ← spans.zipIdx.mapM fun (span, b) => do
    successors? blockOf starts.length b (← code[span.2 - 1]?)
  let preds (b : Nat) : List Nat := (List.range succs.length).filter fun a =>
    (succs[a]?.getD []).contains b
  let blocks := (spans.zip succs).mapIdx fun b (span, next) => ⟨span.1, span.2, next, preds b⟩
  return ⟨blocks.toArray, blockOf⟩

def size (g : Graph) : Nat := g.blocks.size

def succs (g : Graph) (b : Nat) : List Nat := match g.blocks[b]? with
  | some block => block.succs
  | none => []

def preds (g : Graph) (b : Nat) : List Nat := match g.blocks[b]? with
  | some block => block.preds
  | none => []

end Graph

end WireCodec
