import WireCodec.CompileError
import WireCodec.Flow.Order

/-! Dropping code that cannot be reached. The last block, which holds the halt, is kept in
any case. -/
namespace WireCodec

def Graph.kept (g : Graph) : Array Bool := g.reachable.setIfInBounds (g.size - 1) true

def placesFrom (next : Nat) : List Bool → List (Option Nat)
  | [] => []
  | keep :: rest => if keep then some next :: placesFrom (next + 1) rest
    else none :: placesFrom next rest

def relocate (places : Array (Option Nat)) (index : Nat) (i : Instr Nat) : Except CompileError (Instr Nat) :=
  if i.targets.all fun t => (places[t]?.join).isSome then
    .ok (i.mapTargets fun t => (places[t]?.join).getD 0)
  else .error (.malformed (.prunedTarget index))

def Program.prune (p : Program) (g : Graph) : Except CompileError Program := do
  let kept := g.kept
  if kept.all id then return p
  let keeps := g.blockOf.toList.map fun b => kept[b]?.getD false
  let places := (placesFrom 0 keeps).toArray
  let chosen := (p.code.toList.zip keeps).zipIdx.filter fun entry => entry.1.2
  let code ← chosen.mapM fun entry => relocate places entry.2 entry.1.1
  return { p with code := code.toArray }

end WireCodec
