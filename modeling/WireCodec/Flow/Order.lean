import WireCodec.Flow.Graph

/-! Depth-first order of the blocks reachable from the entry. A block is listed once all that can
follow it was visited, each in front of those before it. -/
namespace WireCodec.Graph

/-- The way from the entry to the current block, that block first and each with the successors not
looked at yet, the blocks met, and those finished, latest first. -/
structure Walk where
  way : List (Nat × List Nat)
  met : Array Bool
  order : List Nat

namespace Walk

def has (w : Walk) (b : Nat) : Bool := w.met[b]?.getD true

def start (g : Graph) : Walk :=
  ⟨[(0, g.succs 0)], (Array.replicate g.size false).setIfInBounds 0 true, []⟩

def step (g : Graph) (w : Walk) : Walk :=
  match w.way with
  | [] => w
  | (b, []) :: way => { w with way, order := b :: w.order }
  | (b, s :: rest) :: way =>
    if w.has s then { w with way := (b, rest) :: way }
    else { w with way := (s, g.succs s) :: (b, rest) :: way, met := w.met.setIfInBounds s true }

def run (g : Graph) : Nat → Walk → Walk
  | 0, w => w
  | turns + 1, w => if w.way.isEmpty then w else run g turns (w.step g)

end Walk

def turnsAt (g : Graph) (b : Nat) : Nat := (g.succs b).length + 1

def turns (g : Graph) : Nat := (List.range g.size).foldr (fun b rest => g.turnsAt b + rest) 0

def reversePostorder (g : Graph) : List Nat :=
  if g.size = 0 then [] else (Walk.run g g.turns (.start g)).order

def reachable (g : Graph) : Array Bool :=
  g.reversePostorder.foldl (fun marks b => marks.setIfInBounds b true)
    (Array.replicate g.size false)

end WireCodec.Graph
