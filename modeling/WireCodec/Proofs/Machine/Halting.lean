import Mathlib
import WireCodec.Machine.Run

/-! Runs that end, as derivations. A derivation has one step of the machine for each rule, so
that what a run keeps is an induction over it; it also tells at which instruction the run
stopped, which its result alone does not. -/
namespace WireCodec.Machine

variable {σ : Type} {table : HandleTable} {caller : Caller σ} {p : Program}

/-- The run from instruction `pc` on stops at instruction `stop` with the given result. -/
inductive Halts (table : HandleTable) (caller : Caller σ) (p : Program) :
    Nat → Machine → σ → Nat → Finished σ → Prop where
  | off {pc : Nat} {m : Machine} {s : σ} (at_ : p.code[pc]? = none) : Halts table caller p pc m s pc
        ⟨.stopped, m.ctx.raise (.malformed (.ranOff p.name pc)), s⟩
  | ended {pc : Nat} {m : Machine} {s : σ} {i : Instr Nat} {f : Finished σ} (at_ : p.code[pc]? = some i)
      (step : stepAny table caller p.job.eofCode i m s = some (.error f)) :
      Halts table caller p pc m s pc f
  | stop {pc : Nat} {m m' : Machine} {s s' : σ} {i : Instr Nat} (at_ : p.code[pc]? = some i)
      (step : stepAny table caller p.job.eofCode i m s = some (.ok (.stop, m', s'))) :
      Halts table caller p pc m s pc ⟨.stopped, m'.ctx, s'⟩
  | next {pc stop : Nat} {m m' : Machine} {s s' : σ} {i : Instr Nat} {f : Finished σ} (at_ : p.code[pc]? = some i)
      (step : stepAny table caller p.job.eofCode i m s = some (.ok (.next, m', s')))
      (rest : Halts table caller p (pc + 1) m' s' stop f) :
      Halts table caller p pc m s stop f
  | jump {pc target stop : Nat} {m m' : Machine} {s s' : σ} {i : Instr Nat} {f : Finished σ}
      (at_ : p.code[pc]? = some i)
      (step : stepAny table caller p.job.eofCode i m s = some (.ok (.jump target, m', s')))
      (rest : Halts table caller p target m' s' stop f) :
      Halts table caller p pc m s stop f

/-- A run of the program on a context comes to instruction `pc`. -/
inductive Visits (table : HandleTable) (caller : Caller σ) (p : Program) (c : Context) (s₀ : σ) :
    Nat → Machine → σ → Prop where
  | start : Visits table caller p c s₀ 0 (.start c) s₀
  | next {pc : Nat} {m m' : Machine} {s s' : σ} {i : Instr Nat} (before : Visits table caller p c s₀ pc m s)
      (at_ : p.code[pc]? = some i)
      (step : stepAny table caller p.job.eofCode i m s = some (.ok (.next, m', s'))) :
      Visits table caller p c s₀ (pc + 1) m' s'
  | jump {pc target : Nat} {m m' : Machine} {s s' : σ} {i : Instr Nat}
      (before : Visits table caller p c s₀ pc m s) (at_ : p.code[pc]? = some i)
      (step : stepAny table caller p.job.eofCode i m s = some (.ok (.jump target, m', s'))) :
      Visits table caller p c s₀ target m' s'

/-- One step of a run that goes on and calls nothing. -/
inductive Moves (table : HandleTable) (caller : Caller σ) (p : Program) (s : σ) : Nat × Machine → Nat × Machine → Prop where
  | next {pc : Nat} {m m' : Machine} {i : Instr Nat} (at_ : p.code[pc]? = some i)
      (step : stepAny table caller p.job.eofCode i m s = some (.ok (.next, m', s))) :
      Moves table caller p s (pc, m) (pc + 1, m')
  | jump {pc target : Nat} {m m' : Machine} {i : Instr Nat} (at_ : p.code[pc]? = some i)
      (step : stepAny table caller p.job.eofCode i m s = some (.ok (.jump target, m', s))) :
      Moves table caller p s (pc, m) (target, m')

lemma Halts.of_moves {s : σ} {stop : Nat} {f : Finished σ} {a b : Nat × Machine}
    (moves : Relation.TransGen (Moves table caller p s) a b) (halts : Halts table caller p b.1 b.2 s stop f) :
    Halts table caller p a.1 a.2 s stop f := by
  have before {a b : Nat × Machine} (move : Moves table caller p s a b) (halts : Halts table caller p b.1 b.2 s stop f) :
      Halts table caller p a.1 a.2 s stop f := by
    cases move with
    | next at_ step => exact .next at_ step halts
    | jump at_ step => exact .jump at_ step halts
  induction moves with
  | single move => exact before move halts
  | tail _ move ih => exact ih (before move halts)

lemma runFrom_eq (pc : Nat) (m : Machine) (s : σ) : runFrom table caller p pc m s = match p.code[pc]? with
      | none => some ⟨.stopped, m.ctx.raise (.malformed (.ranOff p.name pc)), s⟩
      | some i => match stepAny table caller p.job.eofCode i m s with
        | none => none
        | some (.error f) => some f
        | some (.ok (.stop, m', s')) => some ⟨.stopped, m'.ctx, s'⟩
        | some (.ok (.next, m', s')) => runFrom table caller p (pc + 1) m' s'
        | some (.ok (.jump target, m', s')) => runFrom table caller p target m' s' := by
  rw [runFrom]
  cases p.code[pc]? with
  | none => rfl
  | some i =>
    simp only [Option.bind_eq_bind]
    cases stepAny table caller p.job.eofCode i m s with
    | none => rfl
    | some r => rcases r with f | ⟨_ | _ | _, m', s'⟩ <;> rfl

variable {pc : Nat} {m m' : Machine} {i : Instr Nat}

lemma runFrom_next {s s' : σ} (at_ : p.code[pc]? = some i)
    (step : stepAny table caller p.job.eofCode i m s = some (.ok (.next, m', s'))) :
    runFrom table caller p pc m s = runFrom table caller p (pc + 1) m' s' := by
  rw [runFrom_eq, at_]
  simp only [step]

lemma runFrom_jump {target : Nat} {s s' : σ} (at_ : p.code[pc]? = some i)
    (step : stepAny table caller p.job.eofCode i m s = some (.ok (.jump target, m', s'))) :
    runFrom table caller p pc m s = runFrom table caller p target m' s' := by
  rw [runFrom_eq, at_]
  simp only [step]

lemma runFrom_stop {s s' : σ} (at_ : p.code[pc]? = some i)
    (step : stepAny table caller p.job.eofCode i m s = some (.ok (.stop, m', s'))) :
    runFrom table caller p pc m s = some ⟨.stopped, m'.ctx, s'⟩ := by
  rw [runFrom_eq, at_]
  simp only [step]

lemma Halts.runFrom {stop : Nat} {s : σ} {f : Finished σ} (halts : Halts table caller p pc m s stop f) :
    Machine.runFrom table caller p pc m s = some f := by
  induction halts with
  | off at_ => rw [runFrom_eq, at_]
  | ended at_ step => rw [runFrom_eq, at_]; simp only [step]
  | stop at_ step => exact runFrom_stop at_ step
  | next at_ step _ ih => rw [runFrom_next at_ step, ih]
  | jump at_ step _ ih => rw [runFrom_jump at_ step, ih]

lemma halts_of_runFrom {s : σ} {f : Finished σ} (ran : Machine.runFrom table caller p pc m s = some f) :
    ∃ stop, Halts table caller p pc m s stop f := by
  revert pc m s f ran
  -- The least fixed point: what holds of one unfolding holds of every run that ends.
  apply Machine.runFrom.partial_correctness
  intro loop ih pc m s f h
  cases at_ : p.code[pc]? with
  | none =>
    rw [at_] at h
    cases h
    exact ⟨pc, .off at_⟩
  | some i =>
    simp only [at_, Option.bind_eq_bind] at h
    cases step : stepAny table caller p.job.eofCode i m s with
    | none => rw [step] at h; cases h
    | some r =>
      rw [step] at h
      rcases r with g | ⟨_ | target | _, m', s'⟩
      · cases h
        exact ⟨pc, .ended at_ step⟩
      · obtain ⟨stop, rest⟩ := ih _ _ _ _ h
        exact ⟨stop, .next at_ step rest⟩
      · obtain ⟨stop, rest⟩ := ih _ _ _ _ h
        exact ⟨stop, .jump at_ step rest⟩
      · cases h
        exact ⟨pc, .stop at_ step⟩

end WireCodec.Machine
