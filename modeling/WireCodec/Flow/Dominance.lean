import WireCodec.Flow.Order

/-! Dominators. Block `a` dominates block `b` if every way from the entry to `b` leads through `a`.
The parent of a block is the nearest of its dominators. Sweeps over the reverse postorder find it as
the place where the ways up from the predecessors meet, until a sweep changes nothing. -/
namespace WireCodec.Graph

def meet (order : List Nat) (up : Nat → Nat) : Nat → Nat → Nat → Nat
  | 0, a, _ => a
  | turns + 1, a, b =>
    if order.idxOf b < order.idxOf a then meet order up turns (up a) b
    else if order.idxOf a < order.idxOf b then meet order up turns a (up b)
    else a

def adopt (g : Graph) (order : List Nat) (parents : Array (Option Nat)) (b : Nat) : Array (Option Nat) :=
  let up (a : Nat) : Nat := (parents[a]?.join).getD 0
  match (g.preds b).filter fun p => (parents[p]?.join).isSome with
  | [] => parents
  | p :: rest => parents.setIfInBounds b <| some <|
      rest.foldl (fun a p => meet order up (order.idxOf p + order.idxOf a) p a) p

def sweep (g : Graph) (order : List Nat) (parents : Array (Option Nat)) : Array (Option Nat) :=
  order.tail.foldl (g.adopt order) parents

def settle (g : Graph) (order : List Nat) : Nat → Array (Option Nat) → Array (Option Nat)
  | 0, parents => parents
  | sweeps + 1, parents =>
    let next := g.sweep order parents
    if next = parents then parents else settle g order sweeps next

structure Dominance where
  parents : Array (Option Nat)

def dominance (g : Graph) : Dominance :=
  ⟨g.settle g.reversePostorder (g.size * g.size + 1) ((Array.replicate g.size none).setIfInBounds 0 (some 0))⟩

namespace Dominance

def parent? (d : Dominance) (b : Nat) : Option Nat := d.parents[b]?.join

def immediate? (d : Dominance) (b : Nat) : Option Nat := (d.parent? b).filter (· ≠ b)

def wayUp (d : Dominance) : Nat → Nat → List Nat
  | 0, _ => []
  | turns + 1, b => b :: match d.immediate? b with
    | some a => wayUp d turns a
    | none => []

def above (d : Dominance) (b : Nat) : List Nat := d.wayUp d.parents.size b

def dominates (d : Dominance) (a b : Nat) : Bool := (d.parent? b).isSome && (d.above b).contains a

end Dominance

end WireCodec.Graph
