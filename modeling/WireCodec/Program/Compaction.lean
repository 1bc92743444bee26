import WireCodec.CompileError

/-! Removing no-ops. A branch to a removed instruction leads to the next one kept; a
branch behind the last one kept has nowhere to go. -/
namespace WireCodec

def ranksFrom : List (Instr Nat) → Nat → List Nat
  | [], n => [n]
  | i :: rest, n => n :: ranksFrom rest (if i.isNop then n else n + 1)

def keptCount (code : List (Instr Nat)) : Nat := code.countP (!·.isNop)

/-- The last target that leads past the `kept` instructions is reported. -/
def retarget (kept : Nat) (rank : Nat → Nat) (i : Instr Nat) : Except CompileError (Instr Nat) :=
  match i.targets.reverse.find? (fun t => kept ≤ rank t) with
  | some t => .error (.malformed (.fallsOffEnd t))
  | none => .ok (i.mapTargets rank)

def compact (code : List (Instr Nat)) : Except CompileError (List (Instr Nat)) :=
  let kept := keptCount code
  let ranks := (ranksFrom code 0).toArray
  (code.filter (!·.isNop)).mapM (retarget kept fun t => ranks[t]?.getD kept)

end WireCodec
