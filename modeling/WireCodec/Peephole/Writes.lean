import WireCodec.Bytes
import WireCodec.Peephole.Seeks

/-! Literal writes. A run of them is replaced by the fewest writes of the same bytes, as
many eight-byte writes as fit and then the parts of the rest. -/
namespace WireCodec.Peephole

def literalBytes : Instr Nat → List UInt8
  | .writeImm width value => beBytes width.bytes value
  | _ => []

def literal (width : Width) (data : List UInt8) : Instr Nat := .writeImm width (beWord data)

def splitWrites : List UInt8 → List (Instr Nat)
  | a :: b :: c :: d :: e :: f :: g :: h :: rest =>
    literal .w8 [a, b, c, d, e, f, g, h] :: splitWrites rest
  | a :: b :: c :: d :: rest => literal .w4 [a, b, c, d] :: splitWrites rest
  | a :: b :: rest => literal .w2 [a, b] :: splitWrites rest
  | [a] => [literal .w1 [a]]
  | [] => []

/-- Writes one whole run anew if that makes it shorter; no-ops fill its place. -/
def shortenRun (run : List (Instr Nat)) : List (Instr Nat) :=
  let split := splitWrites (run.flatMap literalBytes)
  if split.length < run.length then
    split ++ List.replicate (run.length - split.length) .nop
  else run

/-- `run` holds the current run, last write first. -/
def shortenWritesFrom (run : List (Instr Nat)) : Marked → List (Instr Nat)
  | [] => shortenRun run.reverse
  | (.writeImm width value, marked) :: rest =>
    if marked then shortenRun run.reverse ++ shortenWritesFrom [.writeImm width value] rest
    else shortenWritesFrom (.writeImm width value :: run) rest
  | (i, _) :: rest => shortenRun run.reverse ++ i :: shortenWritesFrom [] rest

def shortenWrites (code : Marked) : List (Instr Nat) := shortenWritesFrom [] code

end WireCodec.Peephole
