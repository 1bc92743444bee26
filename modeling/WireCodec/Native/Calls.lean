import WireCodec.Native.Frame

/-! Calls from compiled code. The cursor and the frame pointer are written to the context and
registers the callee may change are saved. From then on every program register is taken from where
it was saved, so that loading one argument never destroys another. -/
namespace WireCodec.Native

inductive Arg
  | context
  | sink
  | reg (reg : Reg)
  | plus (reg : Reg) (off : UInt32)
  | arenaAddress (reg : Reg) (off : UInt32)
  | arenaPointer (reg : Reg) (off : UInt32)
  | wireAddress
  | word (value : UInt64)
  deriving DecidableEq

inductive Callee
  | address (value : UInt64)
  | method (slot : UInt32)
  deriving DecidableEq

inductive Home
  | reg (hw : HwReg)
  | stack (offset : Nat)
  deriving DecidableEq

def argRegs : List HwReg := [rdi, rsi, rdx, rcx, r8, r9]

def resultRegs : List HwReg := [rax, rdx]

namespace Site

def home (s : Site) (reg : Reg) : Except CompileError Home := do
  match ← s.location reg with
  | .reg phys =>
    if phys.isCalleeSaved then return .reg (hwReg phys)
    else return .stack (s.frame.saveOffset phys)
  | .spill slot => return .stack (s.frame.spillOffset slot)

def loadHome (s : Site) (dst : HwReg) (reg : Reg) : Except CompileError (List Op) := do
  match ← s.home reg with
  | .reg src => return moveUnlessSame dst src
  | .stack offset => return [.load .w8 false dst (Native.stack offset)]

def storeHome (s : Site) (reg : Reg) (src : HwReg) : Except CompileError (List Op) := do
  match ← s.home reg with
  | .reg dst => return moveUnlessSame dst src
  | .stack offset => return [.store .w8 (Native.stack offset) src]

def loadArg (s : Site) (dst : HwReg) : Arg → Except CompileError (List Op)
  | .context => .ok [.move dst r15]
  | .sink => .ok [.load .w8 false dst Ctx.sink]
  | .reg reg => s.loadHome dst reg
  | .plus reg off => do
    return (← s.loadHome dst reg) ++ if off = 0 then [] else [.arith .add dst off]
  | .arenaAddress reg off => do return (← s.loadHome dst reg) ++ [.lea dst (arena dst off)]
  | .arenaPointer reg off => do
    return (← s.loadHome dst reg) ++ [.load .w4 false dst (arena dst off)]
  | .wireAddress => .ok [.lea dst cursor]
  | .word value => .ok [.moveWord dst value]

def loadStackArg (s : Site) : ArgPlace × Arg → Except CompileError (List Op)
  | (.stack offset, arg) => do
    return (← s.loadArg rax arg) ++ [.store .w8 (Native.stack offset) rax]
  | (.register _, _) => .ok []

def loadRegisterArg (s : Site) : ArgPlace × Arg → Except CompileError (List Op)
  | (.register index, arg) => s.loadArg (argRegs[index]?.getD rax) arg
  | (.stack _, _) => .ok []

def saveRegs (s : Site) : List Op :=
  s.alloc.callerSaved.map fun phys =>
    .store .w8 (Native.stack (s.frame.saveOffset phys)) (hwReg phys)

def restoreRegs (s : Site) : List Op :=
  s.alloc.callerSaved.map fun phys =>
    .load .w8 false (hwReg phys) (Native.stack (s.frame.saveOffset phys))

def callOps : Callee → List Op
  | .address value => [.moveWord rax value, .callRax]
  | .method slot => [.load .w8 false rax Ctx.sinkMethods, .callMem (.based rax (8 * slot))]

/-- Arguments on the stack come first, because `rax` is free until then. -/
def call (s : Site) (callee : Callee) (args : List (ArgPlace × Arg)) (rets : List Reg)
    (mayFail : Bool) : Except CompileError (List Op) := do
  let onStack ← args.mapM s.loadStackArg
  let inRegisters ← args.mapM s.loadRegisterArg
  let results ← (rets.zip resultRegs).mapM fun (reg, src) => s.storeHome reg src
  return [.store .w8 Ctx.pos r13, .store .w8 Ctx.frame rbx] ++ s.saveRegs ++
    onStack.flatten ++ inRegisters.flatten ++ callOps callee ++ results.flatten ++
    s.restoreRegs ++ [.load .w8 false r13 Ctx.pos, .load .w8 false r14 Ctx.arenaBase] ++
    if mayFail then [.compareHalfZero Ctx.errorCode, .jumpIf .notEqual .leave] else []

def inRegisters (args : List Arg) : List (ArgPlace × Arg) :=
  args.mapIdx fun index arg => (.register index, arg)

def callRoutine (s : Site) (routine : Routine) (args : List Arg) : Except CompileError (List Op) :=
  s.call (.address (s.symbols.routine routine)) (inRegisters (.context :: args)) [] false

def callHandle (s : Site) (id : Nat) (args rets : List Reg) : Except CompileError (List Op) := do
  let h ← s.handles.resolve id
  h.verify args rets
  let passed := args.map Arg.reg
  let mayFail := h.effects.mayFail
  match h.kind with
  | .native routine =>
    s.call (.address (s.symbols.routine routine)) (inRegisters (.context :: passed)) rets mayFail
  | .host routine =>
    let places := (AbiLayout.ofSignature h.sig).args
    s.call (.address (s.symbols.routine routine)) (places.zip (.context :: passed)) rets mayFail
  | .method slot => s.call (.method slot) (inRegisters (.sink :: passed)) rets mayFail

end Site

end WireCodec.Native
