import WireCodec.Lowering.Decode
import WireCodec.Options
import WireCodec.Program.Check

/-! Programs for types. Records inside a record are handled in place, up to a number of
levels and a program size; beyond that their own codec is called. -/
namespace WireCodec.Lowering

structure Setting where
  known : Registry
  handles : HandleTable
  maxInlineSize : Nat
  maxInlineDepth : Nat

def recordPiece (s : Setting) (job : Job) (nested : Spots (TypeDesc → Piece)) (t : TypeDesc) : Piece :=
  match job with
  | .measure => encodeRecord s.known .count nested t
  | .encode => encodeRecord s.known .write nested t
  | .decode => decodeRecord s.known nested t

def nestedPiece (s : Setting) (job : Job) : Nat → TypeDesc → Piece
  | 0, t => deferral job t
  | levels + 1, t => fun start =>
    if s.maxInlineSize ≤ start then deferral job t start
    else recordPiece s job (fun _ => nestedPiece s job levels) t start

def exitOrder : List ErrorCode :=
  [.invalidLength, .invalidTag, .duplicateField, .missingRequiredField]

def usedExits (body : Code) : List ErrorCode :=
  let used := body.flatMap Instr.targets
  exitOrder.filter fun code => used.contains (.exit code)

def settle (exits : List ErrorCode) (start : Nat) : Dest → Nat
  | .place index => index
  | .exit code => start + exits.idxOf code

def finish (body : Code) : List (Instr Nat) :=
  let exits := usedExits body
  let start := body.length + 1
  body.map (Instr.mapTargets (settle exits start)) ++ [.jump (start + exits.length)] ++
    exits.map .error ++ [.halt]

def compile (s : Setting) (t : TypeDesc) (job : Job) : LowerM Program := do
  let record ← ofSchema (t.recordType s.known)
  let body ← recordPiece s job (fun _ => nestedPiece s job s.maxInlineDepth) record 0
  let code := finish body
  match verifyCode s.handles code with
  | .ok () => return ⟨record.name, job, code.toArray⟩
  | .error e => throw (.cause e)

end WireCodec.Lowering
