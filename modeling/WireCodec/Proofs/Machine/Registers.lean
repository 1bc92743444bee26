import WireCodec.Proofs.Codec.Instructions
import WireCodec.Proofs.Session.Clean

/-! Which registers a step reads and which it writes. Two machines in the same context that
agree on what an instruction reads go the same way and write the same words. Of the registers
written by a call only the first two get a word, as a callee returns two. -/
namespace WireCodec

variable {σ : Type} {table : HandleTable} {caller : Caller σ} {eof : ErrorCode} {i : Instr Nat} {m₁ m₂ : Machine}
  {defs : List Reg} {words : List UInt64} {control : Control}

def Caller.ReturnsTwo (caller : Caller σ) : Prop :=
  ∀ h args c s words c' s', caller h args c s = some (.returned words c' s') → words.length = 2

namespace Machine

lemma setAll_agree {r : Reg} (regs : List Reg) (words : List UInt64)
    (agree : r ∈ regs.take words.length ∨ m₁.get r = m₂.get r) :
    (m₁.setAll regs words).get r = (m₂.setAll regs words).get r := by
  induction regs generalizing m₁ m₂ words with
  | nil => cases words <;> exact agree.resolve_left (by simp)
  | cons reg regs ih =>
    cases words with
    | nil => exact agree.resolve_left (by simp)
    | cons word words =>
      refine ih words ?_
      rw [get_set, get_set]
      by_cases written : r = reg
      · simp [written]
      · simpa [written] using agree

lemma setAll_keeps {r : Reg} (m : Machine) (regs : List Reg) (words : List UInt64)
    (other : r ∉ regs.take words.length) : (m.setAll regs words).get r = m.get r := by
  induction regs generalizing m words with
  | nil => cases words <;> rfl
  | cons reg regs ih =>
    cases words with
    | nil => rfl
    | cons word words =>
      simp only [List.length_cons, List.take_succ_cons, List.mem_cons, not_or] at other
      rw [setAll, ih _ _ other.2, get_set, Function.update_of_ne other.1]

/-- Steps of two machines with one effect. A step that stops may leave out what it would have
written. -/
inductive Alike (defs : List Reg) (m₁ m₂ : Machine) : Control × Machine → Control × Machine → Prop
  | writes (control : Control) (c : Context) (words : List UInt64) (enough : defs.take words.length = defs.take 2) :
      Alike defs m₁ m₂ (control, { m₁ with ctx := c }.setAll defs words)
        (control, { m₂ with ctx := c }.setAll defs words)
  | stops (c : Context) : Alike defs m₁ m₂ (.stop, { m₁ with ctx := c }) (.stop, { m₂ with ctx := c })

lemma heapAt?_congr {base : Reg} (same : m₁.ctx = m₂.ctx) (agree : m₁.get base = m₂.get base) (off : UInt32)
    (len : Nat) : m₁.heapAt? base off len = m₂.heapAt? base off len := by
  simp only [heapAt?, same, agree]

lemma onHeap_alike {base : Reg} (same : m₁.ctx = m₂.ctx) (agree : m₁.get base = m₂.get base) (off : UInt32) (len : Nat)
    {access₁ access₂ : UInt32 → Machine} (hit : ∀ at_, Alike defs m₁ m₂ (.next, access₁ at_) (.next, access₂ at_)) :
    Alike defs m₁ m₂ (m₁.onHeap i base off len access₁) (m₂.onHeap i base off len access₂) := by
  rw [onHeap, onHeap, heapAt?_congr same agree]
  split
  · exact hit _
  · rw [fault, fault, same]
    exact .stops _

attribute [local simp] Instr.uses

/-- A step reads the context and the registers it names, no others. -/
lemma step_alike (noCall : ∀ id args rets, i ≠ .call id args rets) (same : m₁.ctx = m₂.ctx)
    (agree : ∀ r ∈ i.uses, m₁.get r = m₂.get r) : Alike i.defs m₁ m₂ (m₁.step eof i) (m₂.step eof i) := by
  obtain ⟨regs₁, c⟩ := m₁
  obtain ⟨regs₂, c₂⟩ := m₂
  cases same
  have same : (⟨regs₁, c⟩ : Machine).ctx = (⟨regs₂, c⟩ : Machine).ctx := rfl
  have room : ∀ n, Alike [] ⟨regs₁, c⟩ ⟨regs₂, c⟩ (checkRoom ⟨regs₁, c⟩ eof n) (checkRoom ⟨regs₂, c⟩ eof n) := by
    intro n
    unfold checkRoom
    split
    · exact .writes _ c [] rfl
    · exact .stops _
  have written : ∀ width word, Alike [] ⟨regs₁, c⟩ ⟨regs₂, c⟩ (writeWord ⟨regs₁, c⟩ eof width word)
      (writeWord ⟨regs₂, c⟩ eof width word) := by
    intro width word
    unfold writeWord
    split
    · exact .writes _ _ [] rfl
    · exact .stops _
  cases i with
  | nop | advance | leave | jump | halt => exact .writes _ _ [] rfl
  | movImm | loadFrame => exact .writes _ _ [_] rfl
  | error code => exact .stops _
  | check n => exact room _
  | writeImm width value => exact written width value
  | checkReg src =>
    simp only [step, agree src (by simp)]
    exact room _
  | writeInt width src =>
    simp only [step, agree src (by simp)]
    exact written width _
  | advanceReg src | storeFrame src | switch src | branchImm _ src =>
    simp only [step, agree src (by simp)]
    exact .writes _ _ [] rfl
  | seek dst src | mov dst src | imm op dst src =>
    simp only [step, agree src (by simp)]
    exact .writes _ _ [_] rfl
  | branchReg cond a b target =>
    simp only [step, agree a (by simp), agree b (by simp)]
    exact .writes _ _ [] rfl
  | add dst a b =>
    simp only [step, agree a (by simp), agree b (by simp)]
    exact .writes _ _ [_] rfl
  | readInt width signed dst =>
    simp only [step, readWord]
    split
    · exact .stops _
    · exact .writes _ _ [_] rfl
  | enter =>
    simp only [step, enter]
    split
    · exact .stops _
    · exact .writes _ _ [] rfl
  | readBytes dst len =>
    have found := heapAt?_congr same (agree dst (by simp))
    simp only [step, readBytes, agree len (by simp), found]
    split
    · exact .stops _
    · split
      · exact .stops _
      · exact .writes _ _ [] rfl
  | writeBytes src len =>
    have found := heapAt?_congr same (agree src (by simp))
    simp only [step, writeBytes, agree len (by simp), found]
    split
    · exact .stops _
    · split
      · exact .stops _
      · exact .writes _ _ [] rfl
  | load width signed dst base | loadPtr dst base =>
    refine onHeap_alike same (agree base (by simp)) _ _ fun _ => ?_
    exact .writes _ _ [_] rfl
  | zero base off len =>
    refine onHeap_alike same (agree base (by simp)) _ _ fun _ => ?_
    exact .writes _ _ [] rfl
  | store _ src base | storePtr src base =>
    simp only [step, agree src (by simp)]
    refine onHeap_alike same (agree base (by simp)) _ _ fun _ => ?_
    exact .writes _ _ [] rfl
  | call id args rets => exact absurd rfl (noCall id args rets)

lemma stepAny_alike (two : caller.ReturnsTwo) (same : m₁.ctx = m₂.ctx)
    (agree : ∀ r ∈ i.uses, m₁.get r = m₂.get r) (s : σ) :
    (stepAny table caller eof i m₁ s = stepAny table caller eof i m₂ s ∧
      ∀ step, stepAny table caller eof i m₁ s ≠ some (.ok step)) ∨
    ∃ r₁ r₂ s', stepAny table caller eof i m₁ s = some (.ok (r₁.1, r₁.2, s')) ∧
      stepAny table caller eof i m₂ s = some (.ok (r₂.1, r₂.2, s')) ∧ Alike i.defs m₁ m₂ r₁ r₂ := by
  rcases i.call_or with ⟨id, args, rets, rfl⟩ | noCall
  · have passed : args.map m₁.get = args.map m₂.get := List.map_congr_left agree
    simp only [stepAny, call, passed, same]
    cases table.resolve id with
    | error e => exact .inr ⟨_, _, s, rfl, rfl, .stops _⟩
    | ok h =>
      cases replied : caller h (args.map m₂.get) m₂.ctx s with
      | none => exact .inl (by simp [replied])
      | some reply =>
        simp only [replied, Option.map_some]
        cases reply with
        | refused =>
          simp only [resume, fault, same]
          exact .inr ⟨_, _, s, rfl, rfl, .stops _⟩
        | ended ending c s' => exact .inl (by simp [resume])
        | returned words c s' =>
          have enough := congrArg (List.take · rets) (two _ _ _ _ _ _ _ replied)
          exact .inr ⟨_, _, s', rfl, rfl, .writes _ c words enough⟩
  · exact .inr ⟨_, _, s, stepAny_eq noCall m₁ s, stepAny_eq noCall m₂ s, step_alike noCall same agree⟩

lemma step_pos {m m' : Machine} {n : UInt32} (delta : i.cursorDelta? = some n)
    (step : m.step eof i = (control, m')) (on : control ≠ .stop) : m'.ctx.pos = m.ctx.pos + n.toUInt64 := by
  cases i with
  | advance k =>
    cases delta
    cases step
    rfl
  | readInt width signed dst =>
    cases delta
    simp only [Machine.step, readWord] at step
    split at step <;> cases step
    · exact absurd rfl on
    · cases width <;> rfl
  | writeImm width | writeInt width =>
    cases delta
    simp only [Machine.step, writeWord] at step
    split at step <;> cases step
    · simp only [putWire, length_beBytes]
      cases width <;> rfl
    · exact absurd rfl on
  | _ => cases delta

lemma stepAny_pos {m m' : Machine} {s s' : σ} {n : UInt32} (delta : i.cursorDelta? = some n)
    (step : stepAny table caller eof i m s = some (.ok (control, m', s'))) (on : control ≠ .stop) :
    m'.ctx.pos = m.ctx.pos + n.toUInt64 := by
  have noCall : ∀ id args rets, i ≠ .call id args rets := by
    rintro id args rets rfl
    cases delta
  rw [stepAny_eq noCall] at step
  simp only [Option.some.injEq, Except.ok.injEq, Prod.mk.injEq] at step
  exact step_pos delta (Prod.ext step.1 step.2.1) on

end Machine

namespace Session

variable {known : Registry} {run : Program → Context → Session → Option (Finished Session)}

lemma deferred_words {job : UInt64} {index : UInt32} {base : UInt64} {c c' : Context} {s s' : Session} (replied : deferred known run job index base c s = some (.returned words c' s')) :
    words.length = 2 := by
  unfold deferred at replied
  split at replied
  · cases replied
    rfl
  · split at replied
    · cases replied
      rfl
    · split at replied
      · cases replied
        rfl
      · cases replied
      · obtain ⟨f, -, back⟩ := Option.map_eq_some_iff.mp replied
        unfold handBack at back
        split at back <;> cases back
        rfl

lemma checkSet_words {c c' : Context} {elem : TypeDesc} {data count : UInt32} {s s' : Session}
    (replied : c.checkSet known elem data count s = .returned words c' s') : words.length = 2 := by
  unfold Context.checkSet at replied
  split at replied <;> cases replied <;> rfl

lemma routine_words {routine : Routine} {args : List UInt64} {c c' : Context} {s s' : Session}
    (replied : Routine.answer (deferred known run) known element routine args c s = some (.returned words c' s')) :
    words.length = 2 := by
  cases routine with
  | defer => exact deferred_words replied
  | setCheck =>
    simp only [Routine.answer] at replied
    split at replied
    · exact checkSet_words (Option.some.inj replied)
    · cases replied
      rfl
  | sample own =>
    cases replied
    cases own <;> rfl
  | _ =>
    cases replied
    rfl

lemma answer_returnsTwo : (answer known run).ReturnsTwo := by
  intro h args c s words c' s' replied
  rcases answer_cases replied with refused | ⟨event, barrier⟩ | ⟨routine, inner, ran, rfl | single⟩
  · cases refused
  · cases barrier
    rfl
  · exact routine_words ran
  · cases inner <;> cases single
    rfl

end Session

/-- How a step taken by `m₁` compares with the same step taken by `m₂`: they lead to `m₁'` and
`m₂'`. -/
structure Machine.SameStep (i : Instr Nat) (control : Control) (m₁ m₂ m₁' m₂' : Machine) : Prop where
  ctx : m₁'.ctx = m₂'.ctx
  written : (∀ r ∈ i.defs.take 2, m₁'.get r = m₂'.get r) ∨ control = .stop ∧ m₁'.regs = m₁.regs ∧ m₂'.regs = m₂.regs
  kept : ∀ r, r ∉ i.defs.take 2 → m₁'.get r = m₁.get r ∧ m₂'.get r = m₂.get r

lemma Machine.Alike.sameStep {r₁ r₂ : Control × Machine} (alike : Alike i.defs m₁ m₂ r₁ r₂) :
    r₂.1 = r₁.1 ∧ SameStep i r₁.1 m₁ m₂ r₁.2 r₂.2 := by
  cases alike with
  | writes control c words enough =>
    refine ⟨rfl, by simp, .inl fun r mem => setAll_agree _ _ (.inl (enough ▸ mem)), fun r other => ?_⟩
    rw [← enough] at other
    exact ⟨setAll_keeps _ _ _ other, setAll_keeps _ _ _ other⟩
  | stops c => exact ⟨rfl, rfl, .inr ⟨rfl, rfl, rfl⟩, fun _ _ => ⟨rfl, rfl⟩⟩

lemma Handle.Supported.results_le {h : Handle} (supported : h.Supported) : h.sig.results.length ≤ 2 :=
  supported.2.trans (by cases h.kind <;> simp [CallKind.arity])

lemma Instr.take_defs (made : ∀ h ∈ table.handles, h.Supported) (verified : i.verifyCall table = .ok ()) :
    i.defs.take 2 = i.defs := by
  refine List.take_of_length_le ?_
  cases i with
  | call id args rets =>
    obtain ⟨h, mem, -, verifies⟩ := Instr.of_verifyCall verified
    exact (Handle.of_verify verifies).2.1.trans_le (made h mem).results_le
  | _ => simp [Instr.defs]

open Machine in
/-- An instruction reads the registers it lists and writes those it lists, a call the first two
of them, which are all that a verified call has. This is so for every caller that answers with two
words, as that of a session does. -/
theorem step_exact {σ : Type} (table : HandleTable) {caller : Caller σ} (two : caller.ReturnsTwo) (eof : ErrorCode)
    (i : Instr Nat) (m₁ m₂ : Machine) (s : σ) (same : m₁.ctx = m₂.ctx) (agree : ∀ r ∈ i.uses, m₁.get r = m₂.get r) :
    ((stepAny table caller eof i m₁ s = stepAny table caller eof i m₂ s ∧
        ∀ step, stepAny table caller eof i m₁ s ≠ some (.ok step)) ∨
      ∃ control m₁' m₂' s', stepAny table caller eof i m₁ s = some (.ok (control, m₁', s')) ∧
        stepAny table caller eof i m₂ s = some (.ok (control, m₂', s')) ∧
        SameStep i control m₁ m₂ m₁' m₂' ∧
        ∀ n, i.cursorDelta? = some n → control ≠ .stop → m₁'.ctx.pos = m₁.ctx.pos + n.toUInt64) ∧
    ((∀ h ∈ table.handles, h.Supported) → i.verifyCall table = .ok () → i.defs.take 2 = i.defs) ∧
    ∀ known run, (Session.answer known run).ReturnsTwo := by
  refine ⟨?_, Instr.take_defs, fun _ _ => Session.answer_returnsTwo⟩
  rcases stepAny_alike two same agree s with ended | ⟨r₁, r₂, s', step₁, step₂, alike⟩
  · exact .inl ended
  · obtain ⟨control, sameStep⟩ := alike.sameStep
    rw [control] at step₂
    exact .inr ⟨_, _, _, s', step₁, step₂, sameStep, fun n delta => stepAny_pos delta step₁⟩

def holding (reg : Reg) (word : UInt64) : Machine :=
  (Machine.start (.start #[] .empty 8 4 false)).set reg word

theorem step_exact_add : (holding (.r 5) 1).get (.r 5) ≠ (holding (.r 5) 2).get (.r 5) ∧ Machine.SameStep
    (.add (.r 2) (.r 0) (.r 1)) .next (holding (.r 5) 1) (holding (.r 5) 2) ((holding (.r 5) 1).set (.r 2) 0)
    ((holding (.r 5) 2).set (.r 2) 0) := by
  refine ⟨by decide, ?_⟩
  have two := @Session.answer_returnsTwo .empty fun _ _ _ => none
  have steps := step_exact Builtin.table two .unexpectedEof (.add (.r 2) (.r 0) (.r 1)) (holding (.r 5) 1)
    (holding (.r 5) 2) (.start .default) rfl (by decide)
  obtain ⟨-, never⟩ | ⟨control, m₁', m₂', s', step₁, step₂, same, -⟩ := steps.1
  · exact absurd rfl (never _)
  · cases step₁
    cases step₂
    exact same

/-- A third result register, which no signature allows, is not written by a call, and the register of a read that meets
the end is not written either. -/
theorem results_unwritten :
    let table : HandleTable := ⟨Builtin.table.handles.push ⟨"f", .host (.sample (.probe 0)), ⟨[], [.int]⟩, .none⟩⟩
    let step := fun i n s => Machine.stepAny table (Session.answer .empty fun _ _ _ => none) .unexpectedEof i
      (holding (.r 3) n) s
    (∃ m₁ m₂ s, step (.call 7 [] [.r 0, .r 1, .r 3]) 1 s = some (.ok (.next, m₁, s)) ∧
      step (.call 7 [] [.r 0, .r 1, .r 3]) 2 s = some (.ok (.next, m₂, s)) ∧ m₁.get (.r 3) = 1 ∧ m₂.get (.r 3) = 2) ∧
    ∃ m₁ m₂ s, step (.readInt .w1 false (.r 3)) 1 s = some (.ok (.stop, m₁, s)) ∧
      step (.readInt .w1 false (.r 3)) 2 s = some (.ok (.stop, m₂, s)) ∧ m₁.get (.r 3) = 1 ∧ m₂.get (.r 3) = 2 :=
  ⟨⟨_, _, .start .default, rfl, rfl, by decide, by decide⟩, _, _, .start .default, rfl, rfl, by decide, by decide⟩

end WireCodec
