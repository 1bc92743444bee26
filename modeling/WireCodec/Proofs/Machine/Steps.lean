import WireCodec.Proofs.Machine.Halting

/-! What single steps do to the context: which of its parts they leave alone, and how a step
that stops reports why. -/
namespace WireCodec

variable {n : Nat} {a b : Bytes} {c : Context} {eof : ErrorCode} {m m' : Machine} {i : Instr Nat} {control : Control}

def AgreeBelow (n : Nat) (a b : Bytes) : Prop := ∀ k, k < n → a[k]? = b[k]?

lemma AgreeBelow.refl (n : Nat) (a : Bytes) : AgreeBelow n a a := fun _ _ => rfl

lemma AgreeBelow.symm (h : AgreeBelow n a b) : AgreeBelow n b a :=
  fun k low => (h k low).symm

lemma AgreeBelow.trans {c : Bytes} (first : AgreeBelow n a b) (second : AgreeBelow n b c) : AgreeBelow n a c :=
  fun k low => (first k low).trans (second k low)

lemma AgreeBelow.mono {k : Nat} (h : AgreeBelow n a b) (le : k ≤ n) : AgreeBelow k a b :=
  fun j low => h j (lt_of_lt_of_le low le)

lemma getElem?_patch_below {bytes : Bytes} {off k : Nat} (data : List UInt8) (low : k < off) :
    (patch bytes off data)[k]? = bytes[k]? := by
  induction data generalizing bytes off with
  | nil => rfl
  | cons b rest ih =>
    rw [patch, ih (Nat.lt_succ_of_lt low), Array.getElem?_setIfInBounds_ne (by omega)]

lemma agreeBelow_patch (bytes : Bytes) (off : Nat) (data : List UInt8) : AgreeBelow off (patch bytes off data) bytes :=
  fun _ low => getElem?_patch_below data low

def Defect.isOutside : Defect → Bool
  | .outsideHeap _ | .readPastHeap _ | .writePastHeap _ => true
  | _ => false

/-- Nothing went wrong so far, and the wire is a block of memory. -/
structure Context.Clean (c : Context) : Prop where
  noError : c.errorCode = 0
  noFault : c.fault = none
  wireFits : c.wire.size ≤ maxBlock

/-- The run was given up at an access outside the arena. -/
def Context.LeftHeap (c : Context) : Prop :=
  ∃ d : Defect, d.isOutside = true ∧ c.fault = some (.malformed d)

lemma Context.Clean.not_leftHeap (clean : c.Clean) : ¬ c.LeftHeap := by
  rintro ⟨d, _, fault⟩
  rw [clean.noFault] at fault
  cases fault

structure Context.SameReport (c c' : Context) : Prop where
  code : c'.errorCode = c.errorCode
  fault : c'.fault = c.fault
  size : c'.wire.size = c.wire.size

lemma Context.SameReport.refl (c : Context) : c.SameReport c := ⟨rfl, rfl, rfl⟩

lemma Context.SameReport.trans {c' c'' : Context} (first : c.SameReport c') (second : c'.SameReport c'') :
    c.SameReport c'' :=
  ⟨second.code.trans first.code, second.fault.trans first.fault, second.size.trans first.size⟩

/-- A callee that reports no error leaves a clean context clean. -/
def Caller.KeepsClean {σ : Type} (caller : Caller σ) : Prop :=
  ∀ h args c s words c' s', c.Clean → caller h args c s = some (.returned words c' s') → c'.failed = false →
    c.SameReport c'

lemma Context.SameReport.clean {c' : Context} (same : c.SameReport c') (clean : c.Clean) : c'.Clean :=
  ⟨same.code.trans clean.noError, same.fault.trans clean.noFault, same.size ▸ clean.wireFits⟩

lemma Context.Clean.failAt (clean : c.Clean) (code : ErrorCode) (offset : UInt64) :
    c.failAt code offset = { c with errorCode := code.number, errorOffset := offset } := by
  simp only [Context.failAt, clean.noError, if_true]

lemma Context.Clean.raise (clean : c.Clean) (e : CompileError) :
    c.raise e = { c with fault := some e, errorCode := ErrorCode.internal.number, errorOffset := c.pos } := by
  simp only [Context.raise, Context.fail, Context.failAt, clean.noError, clean.noFault, if_true, Option.none_or]

lemma Instr.call_or (i : Instr Nat) :
    (∃ id args rets, i = .call id args rets) ∨ ∀ id args rets, i ≠ .call id args rets := by
  cases i <;> simp

namespace Machine

variable {σ : Type} {table : HandleTable} {caller : Caller σ} {target : Nat}

@[simp] lemma set_ctx (m : Machine) (reg : Reg) (word : UInt64) : (m.set reg word).ctx = m.ctx :=
  rfl

@[simp] lemma advance_ctx (m : Machine) (n : UInt64) : (m.advance n).ctx = { m.ctx with pos := m.ctx.pos + n } := rfl

@[simp] lemma setAll_ctx (m : Machine) (regs : List Reg) (words : List UInt64) : (m.setAll regs words).ctx = m.ctx := by
  induction regs generalizing m words with
  | nil => cases words <;> rfl
  | cons reg regs ih =>
    cases words with
    | nil => rfl
    | cons word words => rw [setAll, ih, set_ctx]

lemma writeSlot_sameReport (c : Context) (slot : UInt8) (word : UInt64) : c.SameReport (c.writeSlot slot word) := by
  unfold Context.writeSlot
  simp only
  split
  · exact ⟨rfl, rfl, rfl⟩
  · exact .refl c

lemma storePointer_sameReport (c : Context) (off new : UInt32) : c.SameReport (c.storePointer off new) := by
  unfold Context.storePointer Context.patchHeap
  split <;> exact ⟨rfl, rfl, rfl⟩

/-- How a step ends: control goes on with the report unchanged, the program halts, an error is
reported at the cursor, or a fault is. -/
inductive StepCase (eof : ErrorCode) (m : Machine) : Control → Machine → Prop
  | goes {control : Control} {m' : Machine} (on : control ≠ .stop)
      (same : m.ctx.SameReport m'.ctx) : StepCase eof m control m'
  | halts : StepCase eof m .stop m
  | fails (m₀ : Machine) (code : ErrorCode) (same : m.ctx.SameReport m₀.ctx) :
      StepCase eof m .stop { m₀ with ctx := m₀.ctx.fail code }
  | faults (d : Defect) (outside : d.isOutside = true) :
      StepCase eof m .stop { m with ctx := m.ctx.raise (.malformed d) }

lemma onHeap_case (i : Instr Nat) (base : Reg) (off : UInt32) (len : Nat) (access : UInt32 → Machine)
    (same : ∀ at_, m.ctx.SameReport (access at_).ctx) :
    StepCase eof m (m.onHeap i base off len access).1 (m.onHeap i base off len access).2 := by
  unfold onHeap
  split
  · exact .goes (by simp) (same _)
  · exact .faults _ rfl

lemma checkRoom_case (n : UInt64) : StepCase eof m (m.checkRoom eof n).1 (m.checkRoom eof n).2 := by
  unfold checkRoom
  split
  · exact .goes (by simp) (.refl _)
  · exact .fails m eof (.refl _)

lemma writeWord_case (width : Width) (word : UInt64) :
    StepCase eof m (m.writeWord eof width word).1 (m.writeWord eof width word).2 := by
  unfold writeWord
  split
  · exact .goes (by simp) ⟨rfl, rfl, by simp [putWire, size_patch]⟩
  · exact .fails m eof (.refl _)

lemma readWord_case (width : Width) (signed : Bool) (dst : Reg) :
    StepCase eof m (m.readWord eof width signed dst).1 (m.readWord eof width signed dst).2 := by
  unfold readWord
  split
  · exact .fails m eof (.refl _)
  · exact .goes (by simp) ⟨rfl, rfl, rfl⟩

lemma readBytes_case (dst : Reg) (len : UInt64) :
    StepCase eof m (m.readBytes eof dst len).1 (m.readBytes eof dst len).2 := by
  unfold readBytes
  split
  · exact .fails m eof (.refl _)
  · split
    · exact .faults _ rfl
    · exact .goes (by simp) ⟨rfl, rfl, rfl⟩

lemma writeBytes_case (src : Reg) (len : UInt64) :
    StepCase eof m (m.writeBytes eof src len).1 (m.writeBytes eof src len).2 := by
  unfold writeBytes
  split
  · exact .fails m eof (.refl _)
  · split
    · exact .faults _ rfl
    · exact .goes (by simp) ⟨rfl, rfl, by simp [putWire, size_patch]⟩

lemma enter_case : StepCase eof m m.enter.1 m.enter.2 := by
  unfold enter
  simp only
  split
  · exact .fails { m with ctx := { m.ctx with frame := m.ctx.frame + 1 } } .nestingOverflow ⟨rfl, rfl, rfl⟩
  · exact .goes (by simp) ⟨rfl, rfl, rfl⟩

lemma step_case (m : Machine) (eof : ErrorCode) (i : Instr Nat) : StepCase eof m (m.step eof i).1 (m.step eof i).2 := by
  cases i with
  | check | checkReg => exact checkRoom_case _
  | readInt width signed dst => exact readWord_case width signed dst
  | writeImm width value => exact writeWord_case width value
  | writeInt width src => exact writeWord_case width _
  | readBytes dst len => exact readBytes_case dst _
  | writeBytes src len => exact writeBytes_case src _
  | load | loadPtr => exact onHeap_case _ _ _ _ _ fun _ => .refl _
  | store | zero => exact onHeap_case _ _ _ _ _ fun _ => ⟨rfl, rfl, rfl⟩
  | storePtr src base off =>
    exact onHeap_case _ _ _ _ _ fun _ => storePointer_sameReport _ _ _
  | enter => exact enter_case
  | storeFrame src slot => exact .goes (by simp [step]) (writeSlot_sameReport _ _ _)
  | branchImm | branchReg =>
    exact .goes (by simp only [step, branch]; split <;> simp) (.refl _)
  | error code => exact .fails m code (.refl _)
  | halt => exact .halts
  | _ => exact .goes (by simp [step]) ⟨rfl, rfl, rfl⟩

lemma step_goes (step : m.step eof i = (control, m')) (on : control ≠ .stop) : m.ctx.SameReport m'.ctx := by
  have kind := step_case m eof i
  rw [step] at kind
  cases kind with
  | goes _ same => exact same
  | halts => exact absurd rfl on
  | fails => exact absurd rfl on
  | faults => exact absurd rfl on

lemma stepAny_eq (noCall : ∀ id args rets, i ≠ .call id args rets) (m : Machine) (s : σ) :
    stepAny table caller eof i m s = some (.ok ((m.step eof i).1, (m.step eof i).2, s)) := by
  cases i with
  | call id args rets => exact absurd rfl (noCall id args rets)
  | _ => rfl

lemma call_goes (keeps : caller.KeepsClean) {id : Nat} {args rets : List Reg} {s s' : σ} (clean : m.ctx.Clean)
    (step : m.call table caller id args rets s = some (.ok (control, m', s'))) (on : control ≠ .stop) :
    m.ctx.SameReport m'.ctx := by
  unfold call at step
  split at step
  · cases step
    exact absurd rfl on
  · rename_i h _
    obtain ⟨reply, replied, resumed⟩ := Option.map_eq_some_iff.mp step
    cases reply with
    | refused =>
      cases resumed
      exact absurd rfl on
    | ended => cases resumed
    | returned words c' state =>
      by_cases failed : c'.failed = true
      · simp only [resume, failed, if_true] at resumed
        cases resumed
        exact absurd rfl on
      · simp only [resume, failed] at resumed
        cases resumed
        simpa using keeps _ _ _ _ _ _ _ clean replied (by simpa using failed)

lemma stepAny_goes (keeps : caller.KeepsClean) {s s' : σ} (clean : m.ctx.Clean)
    (step : stepAny table caller eof i m s = some (.ok (control, m', s'))) (on : control ≠ .stop) :
    m.ctx.SameReport m'.ctx := by
  rcases i.call_or with ⟨id, args, rets, rfl⟩ | noCall
  · exact call_goes keeps clean step on
  · rw [stepAny_eq noCall] at step
    cases step
    exact step_goes rfl on

lemma step_jump (step : m.step eof i = (.jump target, m')) : target ∈ i.targets ∧ m' = m := by
  cases i with
  | jump t => cases step; exact ⟨by simp [Instr.targets], rfl⟩
  | branchImm | branchReg =>
    simp only [Machine.step, branch] at step
    split at step <;> cases step
    exact ⟨by simp [Instr.targets], rfl⟩
  | switch src targets fallback =>
    cases step
    refine ⟨?_, rfl⟩
    simp only [Instr.targets, List.mem_append, List.mem_singleton]
    cases h : targets[(m.get src).toNat]? with
    | none => exact .inr rfl
    | some t => exact .inl (List.mem_of_getElem? h)
  | load | store | loadPtr | storePtr | zero => simp only [Machine.step, onHeap] at step; split at step <;> cases step
  | check | checkReg => simp only [Machine.step, checkRoom] at step; split at step <;> cases step
  | writeImm | writeInt => simp only [Machine.step, writeWord] at step; split at step <;> cases step
  | readInt width signed dst => simp only [Machine.step, readWord] at step; split at step <;> cases step
  | readBytes dst len =>
    simp only [Machine.step, readBytes] at step
    split at step
    · cases step
    · split at step <;> cases step
  | writeBytes dst len =>
    simp only [Machine.step, writeBytes] at step
    split at step
    · cases step
    · split at step <;> cases step
  | enter => simp only [Machine.step, enter] at step; split at step <;> cases step
  | _ => cases step

lemma stepAny_jump {s s' : σ}
    (step : stepAny table caller eof i m s = some (.ok (.jump target, m', s'))) : target ∈ i.targets := by
  rcases i.call_or with ⟨id, args, rets, rfl⟩ | noCall
  · simp only [stepAny, call] at step
    split at step
    · cases step
    · obtain ⟨reply, _, resumed⟩ := Option.map_eq_some_iff.mp step
      cases reply with
      | refused => cases resumed
      | ended => cases resumed
      | returned words c' state =>
        simp only [resume] at resumed
        split at resumed <;> cases resumed
  · rw [stepAny_eq noCall] at step
    simp only [Option.some.injEq, Except.ok.injEq, Prod.mk.injEq] at step
    exact (step_jump (Prod.ext step.1 rfl)).1

@[simp] lemma stepAny_nop (m : Machine) (s : σ) : stepAny table caller eof .nop m s = some (.ok (.next, m, s)) := rfl

end Machine

end WireCodec
