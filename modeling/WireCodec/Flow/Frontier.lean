import WireCodec.Flow.Dominance

/-! Dominance frontiers and join points. The frontier of a block holds the joins at which its
dominance ends. A register needs a join value at the frontiers of its writers, closed under taking
frontiers. -/
namespace WireCodec.Graph

def endsAt (g : Graph) (d : Dominance) (a b : Nat) : Bool :=
  match d.parent? b with
  | none => false
  | some top =>
    let preds := (g.preds b).filter fun p => (d.parent? p).isSome
    2 ≤ preds.length && preds.any fun p => ((d.above p).takeWhile (· ≠ top)).contains a

def frontiers (g : Graph) (d : Dominance) : Array (List Nat) :=
  Array.ofFn fun a : Fin g.size => (List.range g.size).filter (g.endsAt d a.val)

def spread (frontier : Nat → List Nat) : Nat → List Nat → List Nat → List Nat → List Nat
  | 0, _, _, found => found
  | _ + 1, [], _, found => found
  | turns + 1, b :: work, queued, found =>
    let fresh := (frontier b).filter (!found.contains ·)
    let next := fresh.filter (!queued.contains ·)
    spread frontier turns (next.reverse ++ work) (queued ++ next) (found ++ fresh)

def writers (g : Graph) (code : Array (Instr Nat)) (reg : Reg) : List Nat :=
  let reachable := g.reachable
  (List.range g.size).filter fun b => reachable[b]?.getD false &&
    match g.blocks[b]? with
    | some block => (code.extract block.start block.stop).any fun i => i.defs.contains reg
    | none => false

def joinsOf (g : Graph) (frontier : Nat → List Nat) (code : Array (Instr Nat)) (reg : Reg) : List Nat :=
  let work := (g.writers code reg).reverse
  spread frontier g.size work work []

def joins (g : Graph) (code : Array (Instr Nat)) : List (List Reg) :=
  let table := g.frontiers g.dominance
  let found := Reg.all.map fun reg => (reg, g.joinsOf (fun b => table[b]?.getD []) code reg)
  (List.range g.size).map fun b => (found.filter fun entry => entry.2.contains b).map (·.1)

end WireCodec.Graph
