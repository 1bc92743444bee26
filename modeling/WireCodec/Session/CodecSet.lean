import WireCodec.Lowering.Codec
import WireCodec.Native.Function
import WireCodec.Peephole.Rounds

/-! The codecs of a type: one tidied program for each job and, for the native backend, what
is known about its machine code. -/
namespace WireCodec

structure CompiledProgram where
  program : Program
  function : Option FunctionInfo

structure CodecSet where
  type : TypeDesc
  measure : CompiledProgram
  encode : CompiledProgram
  decode : CompiledProgram

def CodecSet.compiled (set : CodecSet) : Job → CompiledProgram
  | .measure => set.measure
  | .encode => set.encode
  | .decode => set.decode

namespace Lowering

def ofResult {α : Type} : Except CompileError α → LowerM α
  | .ok a => pure a
  | .error e => throw (.cause e)

def compileTidy (s : Setting) (t : TypeDesc) (job : Job) : LowerM Program := do
  ofResult (← compile s t job).optimize

def loadNative (s : Setting) (p : Program) : LowerM FunctionInfo :=
  match p.native s.handles .default with
  | .ok native => ofResult (native.load native.code.length)
  | .error (.compile e) => throw (.cause e)
  | .error .strayBranch => throw (.cause (.malformed (.noTarget p.code.size)))
  | .error .farMethod => throw .overflow

def compileFor (s : Setting) (backend : Backend) (t : TypeDesc) (job : Job) :
    LowerM CompiledProgram := do
  let p ← compileTidy s t job
  match backend with
  | .interpreter => return ⟨p, none⟩
  | .native => return ⟨p, some (← loadNative s p)⟩

def compileSet (s : Setting) (backend : Backend) (t : TypeDesc) : LowerM CodecSet := do
  let measure ← compileFor s backend t .measure
  let encode ← compileFor s backend t .encode
  let decode ← compileFor s backend t .decode
  return ⟨t, measure, encode, decode⟩

end Lowering

end WireCodec
