import WireCodec.CompileError

/-! Callable routines and the table that numbers them. Names are unique: registering a
name again answers the number it has. -/
namespace WireCodec

/-- Samples of what a program may bring along: routines that return a word or two made of their arguments, report
an error, or move the cursor. -/
inductive Sample
  | probe (arity : Nat)
  | pair (arity : Nat)
  | setError
  | setPos
  deriving DecidableEq

inductive Routine
  | alloc
  | copy
  | clear
  | skip
  | defer
  | setCheck
  | sample (sample : Sample)
  | external (address : UInt64)
  deriving DecidableEq

def Routine.ofText? (name : String) : Option Routine :=
  let arity? (stem : String) : Option Nat :=
    (List.range 8).find? fun n => name = stem ++ toString n
  if name = "set_error" then some (.sample .setError)
  else if name = "set_pos" then some (.sample .setPos)
  else ((arity? "probe").map (.sample ∘ .probe)).or ((arity? "pair").map (.sample ∘ .pair))

inductive CallKind
  | native (routine : Routine)
  | host (routine : Routine)
  | method (slot : UInt32)
  deriving DecidableEq

structure Effects where
  mayFail : Bool
  movesCursor : Bool
  deriving DecidableEq

namespace Effects

def none : Effects := ⟨false, false⟩

def ofBits (bits : Nat) : Effects := ⟨bits % 2 = 1, bits / 2 % 2 = 1⟩

def bits (e : Effects) : Nat := e.mayFail.toNat + 2 * e.movesCursor.toNat

end Effects

structure Handle where
  name : String
  kind : CallKind
  sig : Signature
  effects : Effects
  deriving DecidableEq

namespace Handle

def native (name : String) (routine : Routine) (sig : Signature) (effects : Effects) : Except CompileError Handle :=
  if sig.params.length > 4 || sig.results.length > 1 then
    .error (.signatureMismatch name .nativeArity)
  else .ok ⟨name, .native routine, sig, effects⟩

def host (name : String) (routine : Routine) (sig : Signature) (effects : Effects) : Except CompileError Handle :=
  if sig.params.length > 7 || sig.results.length > 2 then
    .error (.signatureMismatch name .hostArity)
  else .ok ⟨name, .host routine, sig, effects⟩

def method (name : String) (slot : UInt32) (sig : Signature) (effects : Effects) : Except CompileError Handle :=
  if sig.params.length > 5 || sig.results.length > 1 then
    .error (.signatureMismatch name .methodArity)
  else .ok ⟨name, .method slot, sig, effects⟩

def verify (h : Handle) (args rets : List Reg) : Except CompileError Unit :=
  match h.sig.fault? args rets with
  | none => .ok ()
  | some fault => .error (.signatureMismatch h.name fault)

end Handle

structure HandleTable where
  handles : Array Handle

namespace HandleTable

def empty : HandleTable := ⟨#[]⟩

def size (table : HandleTable) : Nat := table.handles.size

def lookup? (table : HandleTable) (name : String) : Option Nat :=
  table.handles.findIdx? (·.name = name)

def register (table : HandleTable) (h : Handle) : Nat × HandleTable :=
  match table.lookup? h.name with
  | some id => (id, table)
  | none => (table.size, ⟨table.handles.push h⟩)

def resolve (table : HandleTable) (id : Nat) : Except CompileError Handle :=
  match table.handles[id]? with
  | some h => .ok h
  | none => .error (.unresolvedCall id)

end HandleTable

/-! The routines every program can call, at fixed numbers. -/
namespace Builtin

def alloc : Nat := 0
def copy : Nat := 1
def clear : Nat := 2
def skip : Nat := 3
def defer : Nat := 4
def setCheck : Nat := 5
def barrier : Nat := 6

def table : HandleTable :=
  ⟨#[⟨"rt_alloc", .native .alloc, ⟨[.int], [.ptr]⟩, ⟨true, false⟩⟩,
     ⟨"rt_memmove", .native .copy, ⟨[.int, .int, .int], []⟩, .none⟩,
     ⟨"rt_memzero", .native .clear, ⟨[.int, .int], []⟩, .none⟩,
     ⟨"rt_skip", .host .skip, ⟨[.int], []⟩, ⟨true, true⟩⟩,
     ⟨"rt_defer", .host .defer, ⟨[.int, .int, .ptr], []⟩, ⟨true, true⟩⟩,
     ⟨"rt_set_check", .host .setCheck, ⟨[.int, .ptr, .int], []⟩, ⟨true, false⟩⟩,
     ⟨"write_barrier", .method 0, ⟨[.int, .ptr, .ptr], []⟩, .none⟩]⟩

end Builtin

end WireCodec
