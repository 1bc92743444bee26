import WireCodec.Call.Handle

/-! The rules every built program obeys: one halt, at its end; pointer registers where
arena offsets are meant; frame slots and branch targets in range; calls that fit the
signature of what they call. -/
namespace WireCodec

def Instr.brokenRule? : Instr Nat → Option Rule
  | .nop => some .noNop
  | .load _ _ _ base _ | .store _ _ base _ | .zero base _ _ =>
    if base.isPtr then none else some .pointerBase
  | .loadPtr dst base _ =>
    if !base.isPtr then some .pointerBase
    else if !dst.isPtr then some .pointerDestination else none
  | .storePtr src base _ => if src.isPtr && base.isPtr then none else some .pointerStore
  | .seek dst _ _ => if dst.isPtr then none else some .pointerDestination
  | .readBytes reg _ | .writeBytes reg _ => if reg.isPtr then none else some .pointerCopy
  | .loadFrame _ slot | .storeFrame _ slot =>
    if slot < Instr.frameSlots then none else some .frameSlot
  | _ => none

def Instr.verifyCall (table : HandleTable) : Instr Nat → Except CompileError Unit
  | .call id args rets => do (← table.resolve id).verify args rets
  | _ => .ok ()

def Instr.verify (table : HandleTable) (length index : Nat) (i : Instr Nat) : Except CompileError Unit :=
  match i.brokenRule? with
  | some rule => .error (.malformed (.brokenRule index i rule))
  | none => do
    i.verifyCall table
    if i.targets.all (· < length) then .ok ()
    else .error (.malformed (.brokenRule index i .targetRange))

def verifyFrom (table : HandleTable) (length : Nat) : Nat → List (Instr Nat) → Except CompileError Unit
  | _, [] => .ok ()
  | index, i :: rest => do
    i.verify table length index
    verifyFrom table length (index + 1) rest

def verifyCode (table : HandleTable) (code : List (Instr Nat)) : Except CompileError Unit :=
  if code.getLast? ≠ some .halt then .error .missingHalt
  else
    let halts := code.countP Instr.isHalt
    if halts = 1 then verifyFrom table code.length 0 code
    else .error (.malformed (.haltCount halts))

end WireCodec
