import WireCodec.Native.Assembly
import WireCodec.Native.Calls

/-! Machine code for programs, one instruction at a time. Checks and error instructions
jump to stubs behind the code, which report the error at the cursor. -/
namespace WireCodec.Native

def maxClearInline : UInt32 := 64

def frameBytes : UInt32 := 64

def readWire : Width → Bool → List Op
  | .w1, signed => [.load .w1 signed rax cursor]
  | .w2, signed => [.load .w2 false rax cursor, .swapShort, .widenShort signed]
  | .w4, signed => [.load .w4 false rax cursor, .swapHalf] ++ if signed then [.widenHalf] else []
  | .w8, _ => [.load .w8 false rax cursor, .swapWord]

def reversed (width : Width) (value : UInt64) : UInt64 := leWord (beBytes width.bytes value)

def writeWireImm (width : Width) (value : UInt64) : List Op :=
  match width with
  | .w8 => [.moveWord rax (reversed .w8 value), .store .w8 cursor rax]
  | width => [.storeImm width cursor (reversed width value).toUInt32]

def writeWire : Width → List Op
  | .w1 => [.store .w1 cursor rax]
  | .w2 => [.swapShort, .store .w2 cursor rax]
  | .w4 => [.swapHalf, .store .w4 cursor rax]
  | .w8 => [.swapWord, .store .w8 cursor rax]

def moveCursor (n : UInt32) : Op := .arith .add r13 n

def clearAt (width : Width) (offset : Nat) : Op :=
  .storeImm width (.based rax offset.toUInt32) 0

def clearBytes (len : Nat) : List Op :=
  (List.range (len / 8)).map (fun n => clearAt .w8 (8 * n)) ++
    (if len / 4 % 2 = 1 then [clearAt .w4 (len / 8 * 8)] else []) ++
    (if len / 2 % 2 = 1 then [clearAt .w2 (len / 4 * 4)] else []) ++
    (if len % 2 = 1 then [clearAt .w1 (len / 2 * 2)] else [])

namespace Site

def target (s : Site) (t : Nat) : Except CompileError Label :=
  if t < s.length then .ok (.instr t) else .error (.malformed (.noTarget t))

def zero (s : Site) (base : Reg) (off len : UInt32) : Except CompileError (List Op) := do
  if len > maxClearInline then
    s.callRoutine .clear [.arenaAddress base off, .word len.toUInt64]
  else
    let (b, code) ← s.fetch base rax
    return code ++ [.lea rax (arena b off)] ++ clearBytes len.toNat

def movImm (s : Site) (dst : Reg) (value : UInt64) : Except CompileError (List Op) := do
  let d := match ← s.location dst with
    | .reg phys => hwReg phys
    | .spill _ => rax
  let set : Op := if value = 0 then .clear d
    else if value ≤ 0xffffffff then .moveHalf d value.toUInt32 else .moveWord d value
  return set :: s.put dst d

def immediate (s : Site) (op : ImmOp) (dst src : Reg) (value : Int32) :
    Except CompileError (List Op) := do
  if op = .add && dst = src && value = 0 then return []
  let code ← s.fetchInto src rax
  let act : List Op := match op with
    | .add => if value = 0 then [] else [.arithRax .add value.toUInt32]
    | .mul => [.mulRax value.toUInt32]
    | .and => [.arithRax .and value.toUInt32]
    | .or => if value = 0 then [] else [.arithRax .or value.toUInt32]
  return code ++ act ++ s.put dst rax

def straight (s : Site) : Instr Nat → Except CompileError (List Op)
  | .check n => .ok [.lea rcx (.based r13 n), .compareMem rcx Ctx.wireSize,
      .jumpIf .above (.failure s.job.eofCode)]
  | .checkReg src => do
    let (reg, code) ← s.fetch src rax
    return code ++ [.move rcx r13, .addReg rcx reg, .jumpIf .below (.failure s.job.eofCode),
      .compareMem rcx Ctx.wireSize, .jumpIf .above (.failure s.job.eofCode)]
  | .advance n => .ok [moveCursor n]
  | .advanceReg src => do
    let (reg, code) ← s.fetch src rax
    return code ++ [.addReg r13 reg]
  | .readInt width signed dst =>
    .ok (readWire width signed ++ [moveCursor width.bytes.toUInt32] ++ s.put dst rax)
  | .writeImm width value => .ok (writeWireImm width value ++ [moveCursor width.bytes.toUInt32])
  | .writeInt width src => do
    return (← s.fetchInto src rax) ++ writeWire width ++ [moveCursor width.bytes.toUInt32]
  | .readBytes dst len => do
    let copy ← s.callRoutine .copy [.arenaAddress dst 0, .wireAddress, .reg len]
    let (reg, code) ← s.fetch len rax
    return copy ++ code ++ [.addReg r13 reg]
  | .writeBytes src len => do
    let copy ← s.callRoutine .copy [.wireAddress, .arenaAddress src 0, .reg len]
    let (reg, code) ← s.fetch len rax
    return copy ++ code ++ [.addReg r13 reg]
  | .load width signed dst base off => do
    let (b, code) ← s.fetch base rax
    return code ++ [.load width signed rcx (arena b off)] ++ s.put dst rcx
  | .store width src base off => do
    let (b, code) ← s.fetch base rax
    return code ++ (← s.fetchInto src rcx) ++ [.store width (arena b off) rcx]
  | .loadPtr dst base off => do
    let (b, code) ← s.fetch base rax
    return code ++ [.load .w4 false rcx (arena b off)] ++ s.put dst rcx
  | .seek dst src off => do
    if dst = src && off = 0 then return []
    let (reg, code) ← s.fetch src rax
    return code ++ [.lea rax (.unindexed reg off.toUInt32)] ++ s.put dst rax
  | .zero base off len => s.zero base off len
  | .movImm dst value => s.movImm dst value
  | .mov dst src => do
    if dst = src then return []
    let (reg, code) ← s.fetch src rax
    return code ++ s.put dst reg
  | .add dst a b => do
    let first ← s.fetchInto a rax
    let (reg, second) ← s.fetch b rcx
    return first ++ second ++ [.addReg rax reg] ++ s.put dst rax
  | .imm op dst src value => s.immediate op dst src value
  | .enter => .ok [.arith .add rbx frameBytes, .compareMem rbx Ctx.frameLimit,
      .jumpIf .above (.failure .nestingOverflow)]
  | .leave => .ok [.arith .sub rbx frameBytes]
  | .loadFrame dst slot => .ok (.load .w8 false rax (frameSlot slot) :: s.put dst rax)
  | .storeFrame src slot => do
    let (reg, code) ← s.fetch src rax
    return code ++ [.store .w8 (frameSlot slot) reg]
  | .jump t => do return [.jump (← s.target t)]
  | .branchImm cond a value t => do
    let label ← s.target t
    let (reg, code) ← s.fetch a rax
    return code ++ [.arith .cmp reg value.toUInt32, .jumpIf (.ofCond cond) label]
  | .branchReg cond a b t => do
    let label ← s.target t
    let (left, first) ← s.fetch a rax
    let (right, second) ← s.fetch b rcx
    return first ++ second ++ [.compare left right, .jumpIf (.ofCond cond) label]
  | .call id args rets => s.callHandle id args rets
  | .error code => .ok [.jump (.failure code)]
  | .nop | .storePtr .. | .switch .. | .halt => .ok []

def storePtr (s : Site) (index : Nat) (src base : Reg) (off : UInt32) :
    Except CompileError (List Item) := do
  let report ← s.call (.method 0)
    (inRegisters [.sink, .plus base off, .arenaPointer base off, .reg src]) [] false
  let (b, code) ← s.fetch base rax
  let value ← s.fetchInto src rcx
  return ops ([.moveWord rax s.symbols.barrierFlag, .compareByteZero (.direct rax),
      .jumpIf .equal (.bypass index)] ++ report) ++ [.mark (.bypass index)] ++
    ops (code ++ value ++ [.store .w4 (arena b off) rcx])

def switch (s : Site) (index : Nat) (src : Reg) (targets : List Nat) (fallback : Nat) :
    Except CompileError (List Item) := do
  let fallback ← s.target fallback
  if targets.isEmpty then return [.op (.jump fallback)]
  let arms ← targets.mapM s.target
  let code ← s.fetchInto src rax
  return ops (code ++ [.arithRax .cmp arms.length.toUInt32, .jumpIf .aboveEqual fallback,
      .locate (.table index), .timesFive, .addReg rax rcx, .jumpRax]) ++
    [.mark (.table index)] ++ ops (arms.map .jump)

def pushed : List HwReg := [rbx, rbp, r12, r13, r14, r15]

def prologue (s : Site) : List Op :=
  let others := (s.alloc.inOrder.map (·.1)).filter (· ≠ .p 0)
  pushed.map .push ++
    [.arith .sub rsp s.frame.size.toUInt32, .move r15 rdi, .load .w8 false r12 Ctx.wire,
     .load .w8 false r13 Ctx.pos, .load .w8 false r14 Ctx.arenaBase,
     .load .w8 false rbx Ctx.frame, .clearRax] ++
    others.flatMap (s.put · rax) ++ [.load .w8 false rax Ctx.root] ++ s.put (.p 0) rax

/-- An error leaves without writing back the cursor and the frame pointer. -/
def epilogue (s : Site) : List Item :=
  ops [.store .w8 Ctx.pos r13, .store .w8 Ctx.frame rbx] ++ [.mark .leave] ++
    ops ([.arith .add rsp s.frame.size.toUInt32] ++ pushed.reverse.map .pop ++ [.ret])

def instruction (s : Site) (index : Nat) (i : Instr Nat) : Except CompileError (List Item) := do
  let body ← match i with
    | .storePtr src base off => s.storePtr index src base off
    | .switch src targets fallback => s.switch index src targets fallback
    | .halt => pure s.epilogue
    | i => ops <$> s.straight i
  return .mark (.instr index) :: body

def failure? (job : Job) : Instr Nat → Option ErrorCode
  | .check _ | .checkReg _ => some job.eofCode
  | .enter => some .nestingOverflow
  | .error code => some code
  | _ => none

def stub (code : ErrorCode) : List Item :=
  .mark (.failure code) :: ops [.storeImm .w4 Ctx.errorCode code.number,
    .store .w8 Ctx.errorOffset r13, .jump .leave]

def function (s : Site) (code : List (Instr Nat)) : Except CompileError (List Item) := do
  let body ← code.zipIdx.mapM fun (i, index) => s.instruction index i
  let failures := (code.filterMap (failure? s.job)).eraseDups
  return ops s.prologue ++ body.flatten ++ failures.flatMap stub

end Site

end WireCodec.Native
