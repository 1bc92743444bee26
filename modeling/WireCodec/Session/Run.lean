import WireCodec.Machine.Routine
import WireCodec.Session.Basic

/-! Encoding and decoding. A program may ask for the codec of another type, which runs on
the same wire, arena and frames with registers of its own. -/
namespace WireCodec

/-- A fatal compile error is a defect of the compiler, not of its input. An operation crashes when
an access, an offset or a size leaves its range. -/
inductive SessionError
  | codec (e : CodecError)
  | compile (e : CompileError)
  | defect (e : CompileError)
  | crashed
  | endless
  deriving DecidableEq

namespace SessionError

def ofCompile (e : CompileError) : SessionError := if e.isFatal then .defect e else .compile e

def ofFailure : Lowering.Failure → SessionError
  | .cause e => ofCompile e
  | .overflow => .crashed

def ofRun : RunError → SessionError
  | .codec e => .codec e
  | .compile e => ofCompile e

def defectMessage (e : CompileError) : String :=
  "thriftjit internal compiler error: " ++ e.message

end SessionError

structure Outcome (α : Type) where
  result : Except SessionError α
  wire : Bytes
  heap : Heap
  stores : List StoreEvent
  session : Session

namespace Outcome

variable {α β : Type}

def map (f : α → β) (o : Outcome α) : Outcome β := { o with result := o.result.map f }

end Outcome

structure Decoded where
  root : UInt32
  consumed : Nat
  deriving DecidableEq

namespace Session

def element (index : UInt32) (s : Session) : Option TypeDesc := s.types.get? index.toNat

def handBack (c : Context) (finished : Finished Session) : Reply Session :=
  let ctx := { finished.ctx with root := c.root }
  match finished.ending with
  | .stopped => .returned [0, 0] ctx finished.state
  | ending => .ended ending ctx finished.state

def deferred (known : Registry) (run : Program → Context → Session → Option (Finished Session)) (job : UInt64)
    (index : UInt32) (base : UInt64) (c : Context) (s : Session) : Option (Reply Session) :=
  match Job.ofNumber? job.toNat with
  | none => some (.returned [0, 0] (c.raise (.malformed (.unknownJob job))) s)
  | some job =>
    match s.types.get? index.toNat with
    | none => some (.returned [0, 0] (c.raise (.malformed (.unknownType index))) s)
    | some t =>
      match lookup known t s with
      | .error (.cause e) s => some (.returned [0, 0] (c.raise e) s)
      | .error .overflow s => some (.ended .crashed c s)
      | .ok set s =>
        (run (set.compiled job).program { c with root := base } s).map (handBack c)

def answer (known : Registry) (run : Program → Context → Session → Option (Finished Session)) : Caller Session :=
  Handle.answer (Routine.answer (deferred known run) known element)

/-- At most `depth` codecs wait for another. -/
def runProgram (known : Registry) : Nat → Program → Context → Session → Option (Finished Session)
  | 0, _, c, s => some ⟨.endless, c, s⟩
  | depth + 1, p, c, s => Machine.run s.handles (answer known (runProgram known depth)) p c s

/-- Every codec opens a frame before it asks for another, so that frames run out first. -/
def depthLimit (c : Context) : Nat := c.limit + 4

/-- No context has more frames than a block of memory can hold. -/
def execute (s : Session) (known : Registry) (p : Program) (wire : Bytes) (heap : Heap)
    (root : UInt32) (limit : Nat) (barrier : Bool) : Finished Session :=
  let c := Context.start wire heap root limit barrier
  if Context.frameBytes * (limit + 1) ≤ maxBlock then
    (runProgram known (depthLimit c) p c s).getD ⟨.endless, c, s⟩
  else ⟨.crashed, c, s⟩

def runCodec (s : Session) (known : Registry) (set : CodecSet) (job : Job) (wire : Bytes)
    (heap : Heap) (root : UInt32) (barrier : Bool) : Outcome Nat :=
  let finished := s.execute known (set.compiled job).program wire heap root
    s.options.maxNestingDepth barrier
  let result := match finished.ending with
    | .stopped => match finished.ctx.result with
      | .ok pos => .ok pos.toNat
      | .error e => .error (SessionError.ofRun e)
    | .crashed => .error .crashed
    | .endless => .error .endless
  ⟨result, finished.ctx.wire, finished.ctx.heap, finished.ctx.stores, finished.state⟩

def codecs (s : Session) (known : Registry) (t : TypeDesc) : Except SessionError CodecSet × Session :=
  match lookup known t s with
  | .ok set s => (.ok set, s)
  | .error e s => (.error (.ofFailure e), s)

def perform (s : Session) (known : Registry) (job : Job) (t : TypeDesc) (wire : Bytes)
    (heap : Heap) (root : UInt32) (barrier : Bool) : Outcome Nat :=
  match s.codecs known t with
  | (.error e, s) => ⟨.error e, wire, heap, [], s⟩
  | (.ok set, s) => s.runCodec known set job wire heap root barrier

def encodedSize (s : Session) (known : Registry) (t : TypeDesc) (heap : Heap) (root : UInt32)
    (barrier : Bool) : Outcome Nat :=
  s.perform known .measure t #[] heap root barrier

def encode (s : Session) (known : Registry) (t : TypeDesc) (heap : Heap) (root : UInt32)
    (out : Bytes) (barrier : Bool) : Outcome Nat :=
  s.perform known .encode t out heap root barrier

def encodeBytes (s : Session) (known : Registry) (t : TypeDesc) (heap : Heap) (root : UInt32)
    (barrier : Bool) : Outcome (List UInt8) :=
  let sized := s.encodedSize known t heap root barrier
  match sized.result with
  | .error e => { sized with result := .error e }
  | .ok size =>
    let out := Array.replicate size 0
    let written := sized.session.encode known t sized.heap root out barrier
    { written.map fun count => (written.wire.toList.take count) with
      stores := written.stores ++ sized.stores }

def decode (s : Session) (known : Registry) (t : TypeDesc) (input : Bytes) (heap : Heap)
    (root : UInt32) (barrier : Bool) : Outcome Nat :=
  s.perform known .decode t input heap root barrier

def decodeNew (s : Session) (known : Registry) (t : TypeDesc) (input : Bytes) (heap : Heap)
    (barrier : Bool) : Outcome Decoded :=
  match s.codecs known t with
  | (.error e, s) => ⟨.error e, input, heap, [], s⟩
  | (.ok set, s) =>
    match heap.alloc? set.type.size.toNat with
    | none => ⟨.error (.codec ⟨.invalidLength, 0⟩), input, heap, [], s⟩
    | some (root, heap) =>
      (s.runCodec known set .decode input heap root barrier).map fun consumed => ⟨root, consumed⟩

end Session

end WireCodec
