import WireCodec.Machine.Context

/-! The machine and its steps. A step that fails reports the error in the context and stops;
so does a step that would leave the arena, which only a faulty program takes. -/
namespace WireCodec

structure Machine where
  regs : Vector UInt64 19
  ctx : Context

inductive Control
  | next
  | jump (target : Nat)
  | stop
  deriving DecidableEq

namespace Machine

def start (ctx : Context) : Machine :=
  ⟨(Vector.replicate 19 0).set (Reg.index (.p 0)).val ctx.root, ctx⟩

def get (m : Machine) (reg : Reg) : UInt64 := m.regs[reg.index.val]

def set (m : Machine) (reg : Reg) (word : UInt64) : Machine :=
  { m with regs := m.regs.set reg.index.val word }

def setAll (m : Machine) : List Reg → List UInt64 → Machine
  | reg :: regs, word :: words => (m.set reg word).setAll regs words
  | _, _ => m

def fail (m : Machine) (code : ErrorCode) : Control × Machine :=
  (.stop, { m with ctx := m.ctx.fail code })

def fault (m : Machine) (defect : Defect) : Control × Machine :=
  (.stop, { m with ctx := m.ctx.raise (.malformed defect) })

def advance (m : Machine) (n : UInt64) : Machine :=
  { m with ctx := { m.ctx with pos := m.ctx.pos + n } }

def heapAt? (m : Machine) (base : Reg) (off : UInt32) (len : Nat) : Option UInt32 :=
  let start := (m.get base).toNat + off.toNat
  if start + len ≤ m.ctx.heap.size then some start.toUInt32 else none

def checkRoom (m : Machine) (eof : ErrorCode) (n : UInt64) : Control × Machine :=
  if m.ctx.fits n then (.next, m) else m.fail eof

def putWire (m : Machine) (data : List UInt8) : Machine :=
  { m with ctx := { m.ctx with
      wire := patch m.ctx.wire m.ctx.pos.toNat data
      pos := m.ctx.pos + data.length.toUInt64 } }

def writeWord (m : Machine) (eof : ErrorCode) (width : Width) (word : UInt64) : Control × Machine :=
  if m.ctx.fits width.bytes.toUInt64 then (.next, m.putWire (beBytes width.bytes word))
  else m.fail eof

def widen (width : Width) (signed : Bool) (word : UInt64) : UInt64 :=
  if signed then signExtend width.bytes word else word

def readWord (m : Machine) (eof : ErrorCode) (width : Width) (signed : Bool) (dst : Reg) : Control × Machine :=
  match slice? m.ctx.wire m.ctx.pos.toNat width.bytes with
  | none => m.fail eof
  | some data =>
    (.next, (m.advance width.bytes.toUInt64).set dst (widen width signed (beWord data)))

def readBytes (m : Machine) (eof : ErrorCode) (dst : Reg) (len : UInt64) : Control × Machine :=
  match slice? m.ctx.wire m.ctx.pos.toNat len.toNat with
  | none => m.fail eof
  | some data =>
    match m.heapAt? dst 0 len.toNat with
    | none => m.fault (.readPastHeap len)
    | some off => (.next, { m with ctx := m.ctx.patchHeap off data }.advance len)

def writeBytes (m : Machine) (eof : ErrorCode) (src : Reg) (len : UInt64) : Control × Machine :=
  if !m.ctx.fits len then m.fail eof
  else
    match (m.heapAt? src 0 len.toNat).bind fun off => m.ctx.heap.slice? off len.toNat with
    | none => m.fault (.writePastHeap len)
    | some data => (.next, m.putWire data)

def onHeap (m : Machine) (i : Instr Nat) (base : Reg) (off : UInt32) (len : Nat)
    (access : UInt32 → Machine) : Control × Machine :=
  match m.heapAt? base off len with
  | some off => (.next, access off)
  | none => m.fault (.outsideHeap i)

def enter (m : Machine) : Control × Machine :=
  let inner := { m with ctx := { m.ctx with frame := m.ctx.frame + 1 } }
  if inner.ctx.frame > inner.ctx.limit then inner.fail .nestingOverflow else (.next, inner)

def branch (m : Machine) (taken : Bool) (target : Nat) : Control × Machine :=
  (if taken then .jump target else .next, m)

def step (m : Machine) (eof : ErrorCode) (i : Instr Nat) : Control × Machine :=
  match i with
  | .nop => (.next, m)
  | .check n => m.checkRoom eof n.toUInt64
  | .checkReg src => m.checkRoom eof (m.get src)
  | .advance n => (.next, m.advance n.toUInt64)
  | .advanceReg src => (.next, m.advance (m.get src))
  | .readInt width signed dst => m.readWord eof width signed dst
  | .writeImm width value => m.writeWord eof width value
  | .writeInt width src => m.writeWord eof width (m.get src)
  | .readBytes dst len => m.readBytes eof dst (m.get len)
  | .writeBytes src len => m.writeBytes eof src (m.get len)
  | .load width signed dst base off =>
    m.onHeap i base off width.bytes fun at_ =>
      m.set dst (widen width signed ((m.ctx.heap.read? at_ width.bytes).getD 0))
  | .store width src base off =>
    m.onHeap i base off width.bytes fun at_ =>
      { m with ctx := m.ctx.patchHeap at_ (leBytes width.bytes (m.get src)) }
  | .loadPtr dst base off =>
    m.onHeap i base off 4 fun at_ => m.set dst ((m.ctx.heap.read? at_ 4).getD 0)
  | .storePtr src base off =>
    m.onHeap i base off 4 fun at_ =>
      { m with ctx := m.ctx.storePointer at_ (m.get src).toUInt32 }
  | .seek dst src off => (.next, m.set dst (m.get src + immWord off))
  | .zero base off len =>
    m.onHeap i base off len.toNat fun at_ =>
      { m with ctx := m.ctx.patchHeap at_ (List.replicate len.toNat 0) }
  | .movImm dst value => (.next, m.set dst value)
  | .mov dst src => (.next, m.set dst (m.get src))
  | .add dst a b => (.next, m.set dst (m.get a + m.get b))
  | .imm op dst src value => (.next, m.set dst (op.eval (m.get src) (immWord value)))
  | .enter => m.enter
  | .leave => (.next, { m with ctx := { m.ctx with frame := m.ctx.frame - 1 } })
  | .loadFrame dst slot => (.next, m.set dst (m.ctx.readSlot slot))
  | .storeFrame src slot => (.next, { m with ctx := m.ctx.writeSlot slot (m.get src) })
  | .jump target => (.jump target, m)
  | .branchImm cond a value target => m.branch (cond.eval (m.get a) (immWord value)) target
  | .branchReg cond a b target => m.branch (cond.eval (m.get a) (m.get b)) target
  | .switch src targets fallback => (.jump (targets[(m.get src).toNat]?.getD fallback), m)
  | .call .. => (.next, m)
  | .error code => m.fail code
  | .halt => (.stop, m)

end Machine

end WireCodec
