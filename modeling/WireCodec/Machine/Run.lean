import WireCodec.Call.Handle
import WireCodec.Machine.Step

/-! Runs of programs. Calls are answered by a caller, which may keep a state of its own
across a run. A run has as many steps as it takes; one that never ends has no result. -/
namespace WireCodec

/-- How a run ended: of itself, because an access, an offset or a size left its range, or because a
reading in it goes on without end. -/
inductive Ending
  | stopped
  | crashed
  | endless
  deriving DecidableEq

inductive Reply (σ : Type) where
  | returned (words : List UInt64) (ctx : Context) (state : σ)
  | refused
  | ended (ending : Ending) (ctx : Context) (state : σ)

/-- Answers calls; no answer stands for a callee that never ends. -/
abbrev Caller (σ : Type) := Handle → List UInt64 → Context → σ → Option (Reply σ)

structure Finished (σ : Type) where
  ending : Ending
  ctx : Context
  state : σ

namespace Machine

variable {σ : Type}

abbrev Stepped (σ : Type) := Except (Finished σ) (Control × Machine × σ)

/-- A routine that reports an error stops the calling program. -/
def resume (h : Handle) (args rets : List Reg) (m : Machine) (state : σ) : Reply σ → Stepped σ
  | .refused =>
    let (control, m) := m.fault (.cannotCall h.name args.length)
    .ok (control, m, state)
  | .ended ending ctx state => .error ⟨ending, ctx, state⟩
  | .returned words ctx state =>
    let after := { m with ctx := ctx }.setAll rets words
    .ok (if ctx.failed then .stop else .next, after, state)

def call (table : HandleTable) (caller : Caller σ) (id : Nat) (args rets : List Reg) (m : Machine)
    (state : σ) : Option (Stepped σ) :=
  match table.resolve id with
  | .error e => some (.ok (.stop, { m with ctx := m.ctx.raise e }, state))
  | .ok h => (caller h (args.map m.get) m.ctx state).map (resume h args rets m state)

def stepAny (table : HandleTable) (caller : Caller σ) (eof : ErrorCode) (i : Instr Nat)
    (m : Machine) (state : σ) : Option (Stepped σ) :=
  match i with
  | .call id args rets => m.call table caller id args rets state
  | i =>
    let (control, m) := m.step eof i
    some (.ok (control, m, state))

def runFrom (table : HandleTable) (caller : Caller σ) (p : Program) (pc : Nat) (m : Machine)
    (state : σ) : Option (Finished σ) :=
  match p.code[pc]? with
  | none => some ⟨.stopped, m.ctx.raise (.malformed (.ranOff p.name pc)), state⟩
  | some i => do
    match ← stepAny table caller p.job.eofCode i m state with
    | .error finished => some finished
    | .ok (.stop, m, state) => some ⟨.stopped, m.ctx, state⟩
    | .ok (.next, m, state) => m |>.runFrom table caller p (pc + 1) state
    | .ok (.jump target, m, state) => m |>.runFrom table caller p target state
partial_fixpoint

def run (table : HandleTable) (caller : Caller σ) (p : Program) (ctx : Context) (state : σ) : Option (Finished σ) :=
  runFrom table caller p 0 (start ctx) state

end Machine

end WireCodec
