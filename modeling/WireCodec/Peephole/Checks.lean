import WireCodec.Peephole.Seeks

/-! Checks. All checks of a straight run are folded into its first one, which then asks
for as much as any of them, counted from its own place. -/
namespace WireCodec.Peephole

def addCapped (a b : UInt32) : UInt32 := (min (a.toNat + b.toNat) 4294967295).toUInt32

/-- Instructions that neither move nor look at the cursor and cannot end the run. -/
def isCursorNeutral : Instr Nat → Bool
  | .nop | .load .. | .store .. | .loadPtr .. | .storePtr .. | .seek .. | .zero .. | .movImm ..
  | .mov .. | .add .. | .imm .. | .loadFrame .. | .storeFrame .. => true
  | _ => false

def runDelta? (i : Instr Nat) : Option UInt32 :=
  match i.cursorDelta? with
  | some n => some n
  | none => if isCursorNeutral i then some 0 else none

/-- `run` is how many bytes were passed over since the check that opened the current run. Answers
how much the run still asks for, and the folded code. -/
def foldChecksFrom : Option UInt32 → Marked → UInt32 × List (Instr Nat)
  | _, [] => (0, [])
  | run, (i, marked) :: rest =>
    match (if marked then none else run), i with
    | some passed, .check n =>
      let (need, code) := foldChecksFrom (some passed) rest
      (max (addCapped passed n) need, .nop :: code)
    | none, .check n =>
      let (need, code) := foldChecksFrom (some 0) rest
      (0, .check (max n need) :: code)
    | some passed, i =>
      match runDelta? i with
      | some n =>
        let (need, code) := foldChecksFrom (some (addCapped passed n)) rest
        (need, i :: code)
      | none => (0, i :: (foldChecksFrom none rest).2)
    | none, i => (0, i :: (foldChecksFrom none rest).2)

def foldChecks (code : Marked) : List (Instr Nat) := (foldChecksFrom none code).2

end WireCodec.Peephole
