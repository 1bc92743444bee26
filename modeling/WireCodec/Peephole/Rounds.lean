import WireCodec.Peephole.Checks
import WireCodec.Peephole.Writes
import WireCodec.Program.Compaction

/-! The peephole pass: seeks, checks and literal writes are tidied in turn and the no-ops
left behind dropped, round after round until a round changes nothing. -/
namespace WireCodec.Peephole

def mark (code : List (Instr Nat)) : Marked := code.zip (Program.branchMarks code).toList

def tidy (code : List (Instr Nat)) : List (Instr Nat) :=
  let seeks := dropSelfSeeks (joinSeeks (mark (dropSelfSeeks code)))
  shortenWrites (mark (foldChecks (mark seeks)))

def maxRounds : Nat := 64

def optimizeWithin : Nat → List (Instr Nat) → Except CompileError (List (Instr Nat))
  | 0, code => .ok code
  | rounds + 1, code => do
    let next ← compact (tidy code)
    if next = code then return code else optimizeWithin rounds next

end WireCodec.Peephole

namespace WireCodec

def Program.optimize (p : Program) : Except CompileError Program := do
  return { p with code := (← Peephole.optimizeWithin Peephole.maxRounds p.code.toList).toArray }

end WireCodec
