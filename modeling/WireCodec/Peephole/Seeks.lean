import WireCodec.Program.Listing

/-! Seeks. A seek of a register to itself by nothing is dropped, and two seeks in a row
through one register become one, unless a branch leads between them. -/
namespace WireCodec.Peephole

abbrev Marked := List (Instr Nat × Bool)

def dropSelfSeeks (code : List (Instr Nat)) : List (Instr Nat) :=
  code.map fun i => match i with
    | .seek dst src off => if dst = src ∧ off = 0 then .nop else .seek dst src off
    | i => i

def addOffsets? (a b : Int32) : Option Int32 :=
  let sum := a.toInt + b.toInt
  if -2147483648 ≤ sum ∧ sum ≤ 2147483647 then some (Int32.ofInt sum) else none

/-- One seek in place of two: `a = seek b, x; a = seek a, y`. -/
def joinSeeks? : Instr Nat → Instr Nat → Option (Instr Nat)
  | .seek d₁ s₁ o₁, .seek d₂ s₂ o₂ =>
    if d₁ = d₂ ∧ s₂ = d₁ then (addOffsets? o₁ o₂).map (.seek d₁ s₁) else none
  | _, _ => none

def joinSeeksFrom (open_ : Instr Nat) : Marked → List (Instr Nat)
  | [] => [open_]
  | (i, marked) :: rest =>
    match (if marked then none else joinSeeks? open_ i) with
    | some joined => .nop :: joinSeeksFrom joined rest
    | none => open_ :: joinSeeksFrom i rest

def joinSeeks : Marked → List (Instr Nat)
  | [] => []
  | (i, _) :: rest => joinSeeksFrom i rest

end WireCodec.Peephole
