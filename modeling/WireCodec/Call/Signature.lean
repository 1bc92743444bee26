import WireCodec.Program.Register
import WireCodec.Text.Number

/-! Signatures of callable routines, and what can be wrong with a call. -/
namespace WireCodec

inductive Shape
  | int
  | ptr
  deriving DecidableEq

def Shape.label : Shape → String
  | int => "Int"
  | ptr => "Ptr"

def Shape.listText (shapes : List Shape) : String :=
  "[" ++ Text.commaList (shapes.map label) ++ "]"

def Shape.fits (shape : Shape) (reg : Reg) : Bool := (shape = .ptr) = reg.isPtr

structure Signature where
  params : List Shape
  results : List Shape
  deriving DecidableEq

inductive SignatureFault
  | nativeArity
  | hostArity
  | methodArity
  | argumentCount (expected found : Nat)
  | resultCount (expected found : Nat)
  | operandShape (index : Nat) (reg : Reg) (declared : Shape)
  | repeatedResult (reg : Reg)
  | other (reason : String)
  deriving DecidableEq

def SignatureFault.reason : SignatureFault → String
  | nativeArity => "native calls take at most 4 arguments and return at most 1 value"
  | hostArity => "host call signature exceeds the supported arity"
  | methodArity => "method calls take at most 5 arguments and return at most 1 value"
  | argumentCount expected found => s!"expected {expected} arguments, got {found}"
  | resultCount expected found => s!"expected {expected} results, got {found}"
  | operandShape index reg declared =>
    s!"operand {index} is {reg.text}, declared {declared.label}"
  | repeatedResult reg => s!"result register {reg.text} repeated"
  | other reason => reason

namespace Signature

def firstRepeat? (seen : List Reg) : List Reg → Option Reg
  | [] => none
  | reg :: rest => if seen.contains reg then some reg else firstRepeat? (reg :: seen) rest

def firstMisfit? (index : Nat) : List (Shape × Reg) → Option SignatureFault
  | [] => none
  | (shape, reg) :: rest =>
    if shape.fits reg then firstMisfit? (index + 1) rest
    else some (.operandShape index reg shape)

def fault? (sig : Signature) (args rets : List Reg) : Option SignatureFault :=
  if args.length ≠ sig.params.length then
    some (.argumentCount sig.params.length args.length)
  else if rets.length ≠ sig.results.length then
    some (.resultCount sig.results.length rets.length)
  else
    match firstMisfit? 0 (sig.params.zip args ++ sig.results.zip rets) with
    | some fault => some fault
    | none => (firstRepeat? [] rets).map .repeatedResult

end Signature

end WireCodec
