import WireCodec.Flow.Frontier
import WireCodec.Flow.Pruning
import WireCodec.Native.Emission
import WireCodec.Program.Check

/-! Machine code for whole programs, what a collector has to know about it, and its placement in
memory. Decode programs lose their unreachable blocks first. -/
namespace WireCodec

/-- Bit `i` of a pointer map tells whether argument or spill slot `i` holds a pointer. -/
structure NativeCode where
  name : String
  code : List UInt8
  entry : Nat
  frameSize : Nat
  argPointerMap : UInt64
  localPointerMap : UInt64

/-- Why no machine code was made: a branch out of the program, a method whose place in the method
table leaves 32 bits, or a defect of the program. -/
inductive NativeError
  | strayBranch
  | farMethod
  | compile (e : CompileError)

namespace Program

def orDefect {α : Type} : Except CompileError α → Except NativeError α
  | .ok a => .ok a
  | .error e => .error (.compile e)

def prepared (p : Program) (table : HandleTable) : Except NativeError (Program × List Reg) := do
  let (p, joined) ← if p.job = .decode then
      match Graph.build? p.code with
      | none => throw .strayBranch
      | some g =>
        let joins := (g.joins p.code).flatten
        pure (← orDefect (p.prune g), Reg.all.filter joins.contains)
    else pure (p, [])
  orDefect (verifyCode table p.code.toList)
  return (p, joined)

def stackBytes (table : HandleTable) : Instr Nat → Nat
  | .call id _ _ =>
    match table.resolve id with
    | .ok ⟨_, .host _, sig, _⟩ => (AbiLayout.ofSignature sig).stackBytes
    | _ => 0
  | _ => 0

def outArgs (table : HandleTable) (p : Program) : Nat :=
  (p.code.toList.map (stackBytes table)).foldl max 0

def callsFar (table : HandleTable) : Instr Nat → Bool
  | .call id _ _ =>
    match table.resolve id with
    | .ok ⟨_, .method slot, _, _⟩ =>
      let place := 8 * slot.toInt32.toInt
      place < -0x80000000 || 0x80000000 ≤ place
    | _ => false
  | _ => false

def nativeItems (p : Program) (table : HandleTable) (alloc : Allocation) (symbols : Native.Symbols) :
    Except CompileError (Native.Frame × List Native.Item) := do
  let frame := Native.Frame.ofSizes (p.outArgs table) alloc.spillCount
  let site : Native.Site := ⟨alloc, frame, table, p.job, p.code.size, symbols⟩
  return (frame, ← site.function p.code.toList)

def native (p : Program) (table : HandleTable) (limits : Limits) (symbols : Native.Symbols := .numbered) :
    Except NativeError NativeCode := do
  let (p, joined) ← p.prepared table
  let alloc ← orDefect (p.allocate limits joined)
  if p.code.toList.any (callsFar table) then throw .farMethod
  orDefect do
    let (frame, items) ← p.nativeItems table alloc symbols
    return ⟨p.title, ← Native.assemble items, 0, frame.size, 1, alloc.spillPointerMap⟩

end Program

structure FunctionInfo where
  name : String
  length : Nat
  frameSize : Nat
  argPointerMap : UInt64
  localPointerMap : UInt64
  lines : List (Nat × Nat)

namespace FunctionInfo

def contains (info : FunctionInfo) (delta : Nat) : Bool := delta < info.length

end FunctionInfo

def NativeCode.load (n : NativeCode) (size : Nat) : Except CompileError FunctionInfo :=
  let length := n.code.length
  if size < length || max length 1 ≤ n.entry then
    .error (.loading s!"{n.name}: region of {size} bytes cannot hold {length} bytes of code")
  else .ok ⟨n.name, length, n.frameSize, n.argPointerMap, n.localPointerMap, [(n.entry, 1)]⟩

end WireCodec
