import WireCodec.Proofs.Machine.Steps
import WireCodec.Proofs.Program.Rules

/-! Code from which instructions were left out. What stays moves to the front and branches
follow, so that a run goes through the same steps at other places: no-ops may be left out
anywhere, and other instructions where no run comes. -/
namespace WireCodec

variable {eof : ErrorCode} {i : Instr Nat} {pc : Nat} {m : Machine}

def Program.withCode (p : Program) (code : Instrs) : Program :=
  { p with code := code.toArray }

@[simp] lemma Program.withCode_job (p : Program) (code : Instrs) : (p.withCode code).job = p.job := rfl

@[simp] lemma Program.withCode_getElem? (p : Program) (code : Instrs) (pc : Nat) :
    (p.withCode code).code[pc]? = code[pc]? := by
  simp [withCode]

lemma Program.withCode_toList (p : Program) : p.withCode p.code.toList = p := by
  simp [withCode]

lemma getElem?_filter_countP {α : Type} {keeps : α → Bool} {l : List α} {k : Nat} {x : α}
    (at_ : l[k]? = some x) (keep : keeps x = true) : (l.filter keeps)[(l.take k).countP keeps]? = some x := by
  obtain ⟨low, rfl⟩ := List.getElem?_eq_some_iff.mp at_
  have split : l.filter keeps = (l.take k).filter keeps ++ l[k] :: (l.drop (k + 1)).filter keeps := by
    rw [← List.filter_cons_of_pos keep, ← List.filter_append, List.getElem_cons_drop, List.take_append_drop]
  rw [split, List.countP_eq_length_filter, List.getElem?_append_right le_rfl, Nat.sub_self]
  rfl

def Control.mapTarget (g : Nat → Nat) : Control → Control
  | .jump t => .jump (g t)
  | control => control

namespace Machine

variable {σ : Type} {table : HandleTable} {caller : Caller σ} {p : Program} {code code' : Instrs}
  {place : Nat → Nat} {live : Nat → Prop} {f : Finished σ} {s : σ}

lemma step_straight (g : Nat → Nat) (straight : i.targets = []) (same : i.mapTargets g = i) (m : Machine) :
    m.step eof (i.mapTargets g) = ((m.step eof i).1.mapTarget g, (m.step eof i).2) := by
  rw [same]
  refine Prod.ext ?_ rfl
  cases control : (m.step eof i).1 with
  | next => rfl
  | stop => rfl
  | jump t =>
    have target := (step_jump (Prod.ext control rfl)).1
    rw [straight] at target
    cases target

lemma step_mapTargets (g : Nat → Nat) (i : Instr Nat) (m : Machine) :
    m.step eof (i.mapTargets g) = ((m.step eof i).1.mapTarget g, (m.step eof i).2) := by
  cases i with
  | jump t => rfl
  | branchImm | branchReg =>
    simp only [Instr.mapTargets, step, branch]
    split <;> rfl
  | switch src ts fallback =>
    simp only [Instr.mapTargets, step, Control.mapTarget, List.getElem?_map]
    cases ts[(m.get src).toNat]? <;> rfl
  | _ => exact step_straight g rfl rfl m

lemma call_mapTarget (g : Nat → Nat) (id : Nat) (args rets : List Reg) (m : Machine) (s : σ) :
    (m.call table caller id args rets s).map (Except.map fun r => (r.1.mapTarget g, r.2)) =
      m.call table caller id args rets s := by
  unfold call
  split
  · rfl
  · rw [Option.map_map]
    congr 1
    funext reply
    cases reply with
    | refused => rfl
    | ended ending c s => rfl
    | returned words c s =>
      simp only [Function.comp_apply, resume, Except.map]
      split <;> rfl

lemma stepAny_mapTargets (g : Nat → Nat) (i : Instr Nat) (m : Machine) (s : σ) : stepAny table caller eof
    (i.mapTargets g) m s = (stepAny table caller eof i m s).map (Except.map fun r => (r.1.mapTarget g, r.2)) := by
  rcases i.call_or with ⟨id, args, rets, rfl⟩ | noCall
  · exact (call_mapTarget g id args rets m s).symm
  · have noCall' : ∀ id args rets, i.mapTargets g ≠ .call id args rets := by
      intro id args rets
      cases i <;> simp_all [Instr.mapTargets]
    rw [stepAny_eq noCall, stepAny_eq noCall', step_mapTargets]
    rfl

lemma fallsThrough_of_next {m' : Machine} {s' : σ}
    (step : stepAny table caller eof i m s = some (.ok (.next, m', s'))) : i.fallsThrough = true := by
  cases i <;> first | rfl | cases step

/-- `code'` has what `code` has at live places, at the places that `place` gives, a no-op left out
here and there. Control stays at live places. -/
def Thins (code code' : Instrs) (place : Nat → Nat) (live : Nat → Prop) : Prop :=
  ∀ pc, live pc → (∃ i, code[pc]? = some i ∧ code'[place pc]? = some (i.mapTargets place) ∧ (∀ t ∈ i.targets, live t) ∧
      (i.fallsThrough = true → live (pc + 1) ∧ place (pc + 1) = place pc + 1)) ∨
    (code[pc]? = some .nop ∧ live (pc + 1) ∧ place (pc + 1) = place pc)

/-- A run of the code is a run of the thinned code, and stops at the same instruction. -/
lemma Halts.thinned (thins : Thins code code' place live) {stop : Nat}
    (halts : Halts table caller (p.withCode code) pc m s stop f) (alive : live pc) :
    Halts table caller (p.withCode code') (place pc) m s (place stop) f ∧
      ∃ i, code[stop]? = some i ∧ code'[place stop]? = some (i.mapTargets place) := by
  induction halts with
  | off at_ =>
    rw [Program.withCode_getElem?] at at_
    rcases thins _ alive with ⟨i, there, -⟩ | ⟨there, -⟩ <;> cases at_.symm.trans there
  | ended at_ step =>
    rw [Program.withCode_getElem?] at at_
    rcases thins _ alive with ⟨i, there, moved, -⟩ | ⟨there, -⟩ <;> cases at_.symm.trans there
    · exact ⟨.ended (p.withCode_getElem? .. ▸ moved) ((stepAny_mapTargets ..).trans (congrArg _ step)), _, there, moved⟩
    · cases step
  | stop at_ step =>
    rw [Program.withCode_getElem?] at at_
    rcases thins _ alive with ⟨i, there, moved, -⟩ | ⟨there, -⟩ <;> cases at_.symm.trans there
    · exact ⟨.stop (p.withCode_getElem? .. ▸ moved) ((stepAny_mapTargets ..).trans (congrArg _ step)), _, there, moved⟩
    · cases step
  | next at_ step _ ih =>
    rw [Program.withCode_getElem?] at at_
    rcases thins _ alive with ⟨i, there, moved, -, goes⟩ | ⟨there, goes, same⟩ <;> cases at_.symm.trans there
    · obtain ⟨goes, succ⟩ := goes (fallsThrough_of_next step)
      obtain ⟨rest, last⟩ := ih goes
      exact ⟨.next (p.withCode_getElem? .. ▸ moved) ((stepAny_mapTargets ..).trans (congrArg _ step)) (succ ▸ rest), last⟩
    · cases step
      exact same ▸ ih goes
  | jump at_ step _ ih =>
    rw [Program.withCode_getElem?] at at_
    rcases thins _ alive with ⟨i, there, moved, targets, -⟩ | ⟨there, -⟩ <;> cases at_.symm.trans there
    · obtain ⟨rest, last⟩ := ih (targets _ (stepAny_jump step))
      exact ⟨.jump (p.withCode_getElem? .. ▸ moved) ((stepAny_mapTargets ..).trans (congrArg _ step)) rest, last⟩
    · cases step

lemma Thins.skip (thins : Thins code code' place live) (pc : Nat) (alive : live pc) : ∃ pc' i, place pc' = place pc ∧
    code[pc']? = some i ∧ code'[place pc']? = some (i.mapTargets place) ∧ (∀ t ∈ i.targets, live t) ∧
    (i.fallsThrough = true → live (pc' + 1) ∧ place (pc' + 1) = place pc' + 1) ∧ ∀ (m : Machine) (s : σ), runFrom table
    caller (p.withCode code) pc m s = runFrom table caller (p.withCode code) pc' m s := by
  rcases thins pc alive with ⟨i, there, moved, targets, goes⟩ | ⟨there, alive', same⟩
  · exact ⟨pc, i, rfl, there, moved, targets, goes, fun _ _ => rfl⟩
  · have low := (List.getElem?_eq_some_iff.mp there).1
    obtain ⟨pc', i, place', at_, moved, targets, goes, runs⟩ := thins.skip (pc + 1) alive'
    refine ⟨pc', i, place'.trans same, at_, moved, targets, goes, fun m s => ?_⟩
    rw [← runs]
    exact runFrom_next (p.withCode_getElem? .. ▸ there) (stepAny_nop m s)
termination_by code.length - pc

lemma Thins.runFrom_of_halts (thins : Thins code code' place live) {stop k : Nat}
    (halts : Halts table caller (p.withCode code') k m s stop f) (alive : live pc) (at_ : place pc = k) :
    runFrom table caller (p.withCode code) pc m s = some f := by
  -- the instruction at `k` is that of the first place from `pc` on that is not left out
  have found : ∀ {k m s j r pc}, live pc → place pc = k → (p.withCode code').code[k]? = some j → stepAny table caller
      p.job.eofCode j m s = some r → ∃ pc' i r', place pc' = k ∧ (p.withCode code).code[pc']? = some i ∧
      (∀ t ∈ i.targets, live t) ∧ (i.fallsThrough = true → live (pc' + 1) ∧ place (pc' + 1) = place pc' + 1) ∧ stepAny
      table caller p.job.eofCode i m s = some r' ∧ r'.map (fun r => (r.1.mapTarget place, r.2)) = r ∧ runFrom table
      caller (p.withCode code) pc m s = runFrom table caller (p.withCode code) pc' m s := by
    intro k m s j r pc alive at_ there step
    obtain ⟨pc', i, same, at', moved, targets, goes, runs⟩ := thins.skip pc alive
    rw [Program.withCode_getElem?, ← at_, ← same, moved, Option.some.injEq] at there
    rw [← there, stepAny_mapTargets] at step
    obtain ⟨r', stepped, is⟩ := Option.map_eq_some_iff.mp step
    exact ⟨pc', i, r', same.trans at_, p.withCode_getElem? .. ▸ at', targets, goes, stepped, is, runs m s⟩
  induction halts generalizing pc with
  | off none =>
    obtain ⟨pc', i, same, -, moved, -⟩ := @Thins.skip _ table caller p _ _ _ _ thins pc alive
    rw [Program.withCode_getElem?, ← at_, ← same, moved] at none
    cases none
  | ended there step =>
    obtain ⟨pc', i, r, -, at', -, -, stepped, is, runs⟩ := found alive at_ there step
    rcases r with g | r <;> cases is
    rw [runs, Machine.runFrom_eq, at']
    simp only [Program.withCode_job, stepped]
  | stop there step =>
    obtain ⟨pc', i, r, -, at', -, -, stepped, is, runs⟩ := found alive at_ there step
    rcases r with g | ⟨_ | _ | _, m', s'⟩ <;> cases is
    exact runs.trans (runFrom_stop at' stepped)
  | next there step _ ih =>
    obtain ⟨pc', i, r, same, at', -, goes, stepped, is, runs⟩ := found alive at_ there step
    rcases r with g | ⟨_ | _ | _, m', s'⟩ <;> cases is
    obtain ⟨goes, succ⟩ := goes (fallsThrough_of_next stepped)
    exact (runs.trans (runFrom_next at' stepped)).trans (ih goes (succ.trans (congrArg (· + 1) same)))
  | jump there step _ ih =>
    obtain ⟨pc', i, r, -, at', targets, -, stepped, is, runs⟩ := found alive at_ there step
    rcases r with g | ⟨_ | _ | _, m', s'⟩ <;> cases is
    exact (runs.trans (runFrom_jump at' stepped)).trans (ih (targets _ (stepAny_jump stepped)) rfl)

lemma Thins.runFrom_eq (thins : Thins code code' place live) (alive : live pc) (m : Machine) (s : σ) :
    runFrom table caller (p.withCode code') (place pc) m s = runFrom table caller (p.withCode code) pc m s := by
  refine Option.ext fun f => ⟨fun ran => ?_, fun ran => ?_⟩
  · obtain ⟨stop, halts⟩ := halts_of_runFrom ran
    exact thins.runFrom_of_halts halts alive rfl
  · obtain ⟨stop, halts⟩ := halts_of_runFrom ran
    exact (halts.thinned thins alive).1.runFrom

end Machine

end WireCodec
