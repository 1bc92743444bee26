import WireCodec.Program.Check
import WireCodec.Program.Compaction

/-! Drafts: programs whose branches name labels. A label may be used before it is placed.
Building puts places for labels, drops no-ops and checks the result. -/
namespace WireCodec

structure Draft where
  name : String
  job : Job
  code : Array (Instr Nat)
  labels : Array (Option Nat)

namespace Draft

def start (name : String) (job : Job) (labels : Nat) : Draft :=
  ⟨name, job, #[], Array.replicate labels none⟩

def newLabel (d : Draft) : Nat × Draft :=
  (d.labels.size, { d with labels := d.labels.push none })

def bind? (d : Draft) (label : Nat) : Option Draft :=
  if label < d.labels.size then
    some { d with labels := d.labels.setIfInBounds label (some d.code.size) }
  else none

def emit (d : Draft) (i : Instr Nat) : Draft := { d with code := d.code.push i }

def add (d : Draft) (i : Instr Nat) : Draft :=
  match i.trimmed? with
  | some i => d.emit i
  | none => d

def placeOf? (labels : Array (Option Nat)) (label : Nat) : Option Nat := labels[label]?.join

def resolveLabels (labels : Array (Option Nat)) (i : Instr Nat) : Except CompileError (Instr Nat) :=
  match i.targets.find? (fun l => (placeOf? labels l).isNone) with
  | some label => .error (.unresolvedLabel label)
  | none => .ok (i.mapTargets fun l => (placeOf? labels l).getD 0)

def build (d : Draft) (table : HandleTable) : Except CompileError Program := do
  let resolved ← d.code.toList.mapM (resolveLabels d.labels)
  let code ← compact resolved
  verifyCode table code
  return ⟨d.name, d.job, code.toArray⟩

end Draft

end WireCodec
