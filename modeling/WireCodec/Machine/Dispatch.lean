import WireCodec.Program.Instr

/-! Handlers. The number of its operation selects the handler of an instruction. A handler takes the
instructions of one family and refuses all others. -/
namespace WireCodec

inductive Handler
  | idle | room | advance | readInt | writeInt | readBytes | writeBytes | load | store | loadPtr
  | storePtr | seek | zero | arith | frame | frameSlot | branch | call | error | halt

namespace Handler

def all : Array Handler :=
  #[idle, room, room, advance, advance, readInt, writeInt, writeInt, readBytes, writeBytes, load, store,
    loadPtr, storePtr, seek, zero, arith, arith, arith, arith, arith, arith, arith, frame, frame,
    frameSlot, frameSlot, branch, branch, branch, branch, call, error, halt]

def takes : Handler → Instr Nat → Bool
  | idle, .nop | room, .check _ | room, .checkReg _ | advance, .advance _ | advance, .advanceReg _
  | readInt, .readInt .. | writeInt, .writeImm .. | writeInt, .writeInt .. | readBytes, .readBytes ..
  | writeBytes, .writeBytes .. | load, .load .. | store, .store .. | loadPtr, .loadPtr ..
  | storePtr, .storePtr .. | seek, .seek .. | zero, .zero .. | arith, .movImm .. | arith, .mov ..
  | arith, .add .. | arith, .imm .. | frame, .enter | frame, .leave | frameSlot, .loadFrame ..
  | frameSlot, .storeFrame .. | branch, .jump _ | branch, .branchImm .. | branch, .branchReg ..
  | branch, .switch .. | call, .call .. | error, .error _ | halt, .halt => true
  | _, _ => false

end Handler

end WireCodec
