import WireCodec.Call.Signature
import WireCodec.Program.Listing
import WireCodec.Value.Basic

/-! Why a program cannot be made or run. A schema issue is reported to the caller; any other cause
is a defect of the program, and fatal. -/
namespace WireCodec

inductive Rule
  | noNop
  | pointerBase
  | pointerStore
  | pointerDestination
  | pointerCopy
  | frameSlot
  | targetRange
  deriving DecidableEq

def Rule.text : Rule → String
  | noNop => "no-op survived build"
  | pointerBase => "base must be a pointer register"
  | pointerStore => "pointer store needs pointer registers"
  | pointerDestination => "destination must be a pointer register"
  | pointerCopy => "byte copies address the heap through a pointer register"
  | frameSlot => "frame slot out of range"
  | targetRange => "target out of range"

inductive Defect
  | fallsOffEnd (target : Nat)
  | haltCount (count : Nat)
  | brokenRule (index : Nat) (instr : Instr Nat) (rule : Rule)
  | prunedTarget (index : Nat)
  | ranOff (program : String) (index : Nat)
  | outsideHeap (instr : Instr Nat)
  | readPastHeap (len : UInt64)
  | writePastHeap (len : UInt64)
  | cannotCall (name : String) (count : Nat)
  | unknownErrorCode (code : UInt32)
  | unknownJob (job : UInt64)
  | unknownType (index : UInt32)
  | unknownElement (index : UInt64)
  | unreadable (cause : ValueError)
  | noLocation (reg : Reg)
  | noTarget (target : Nat)
  | other (reason : String)
  deriving DecidableEq

def Defect.reason : Defect → String
  | fallsOffEnd target => s!"branch target @{target} falls off the end"
  | haltCount count => s!"{count} halt instructions"
  | brokenRule index instr rule => s!"@{index} `{instr.text}`: {rule.text}"
  | prunedTarget index => s!"@{index} targets a pruned block"
  | ranOff program index => s!"{program}: fell off the end at @{index}"
  | outsideHeap instr => s!"`{instr.text}` outside the heap"
  | readPastHeap len => s!"read_bytes of {len} past the heap"
  | writePastHeap len => s!"write_bytes of {len} past the heap"
  | cannotCall name count => s!"cannot call `{name}` with {count} arguments"
  | unknownErrorCode code => s!"unknown error code {code}"
  | unknownJob job => s!"deferred call with job {job}"
  | unknownType index => s!"unknown type #{index}"
  | unknownElement index => s!"unknown set element type #{index}"
  | unreadable cause => cause.message
  | noLocation reg => s!"{reg.text} has no location"
  | noTarget target => s!"target @{target} out of range"
  | other reason => reason

inductive CompileError
  | unsupported (issue : SchemaIssue)
  | unresolvedLabel (label : Nat)
  | missingHalt
  | malformed (defect : Defect)
  | unresolvedCall (id : Nat)
  | signatureMismatch (name : String) (fault : SignatureFault)
  | tooComplex (reason : String)
  | emission (reason : String)
  | loading (reason : String)
  deriving DecidableEq

namespace CompileError

def label : CompileError → String
  | unsupported _ => "Unsupported"
  | unresolvedLabel _ => "UnresolvedLabel"
  | missingHalt => "MissingHalt"
  | malformed _ => "Malformed"
  | unresolvedCall _ => "UnresolvedCall"
  | signatureMismatch .. => "SignatureMismatch"
  | tooComplex _ => "ProgramTooComplex"
  | emission _ => "Emit"
  | loading _ => "Load"

def message : CompileError → String
  | unsupported issue => issue.message
  | unresolvedLabel label => s!"label L{label} referenced but never defined"
  | missingHalt => "program has no terminal halt"
  | malformed defect => "malformed program: " ++ defect.reason
  | unresolvedCall id => s!"unresolved call target #{id}"
  | signatureMismatch name fault =>
    s!"call to `{name}` does not match its signature: {fault.reason}"
  | tooComplex reason => "program too complex: " ++ reason
  | emission reason => "code emission failed: " ++ reason
  | loading reason => "failed to load executable code: " ++ reason

def isFatal : CompileError → Bool
  | unsupported _ => false
  | _ => true

end CompileError

end WireCodec
