import WireCodec.Call.Handle

/-! Where the arguments of a host call go: the first six words, the context included, in
registers, the rest on the stack. -/
namespace WireCodec

inductive ArgPlace
  | register (index : Nat)
  | stack (offset : Nat)
  deriving DecidableEq

structure AbiLayout where
  args : List ArgPlace
  stackBytes : Nat
  results : Nat
  deriving DecidableEq

namespace AbiLayout

def registerArgs : Nat := 6

def place (index : Nat) : ArgPlace :=
  if index < registerArgs then .register index else .stack (8 * (index - registerArgs))

def ofSignature (sig : Signature) : AbiLayout :=
  let words := sig.params.length + 1
  ⟨(List.range words).map place, 8 * (words - registerArgs), sig.results.length⟩

end AbiLayout

end WireCodec
