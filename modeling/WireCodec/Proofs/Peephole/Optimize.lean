import WireCodec.Proofs.Peephole.Rounds
import WireCodec.Proofs.Program.Building

/-! Optimized programs in sessions. Main statement: optimizing a built program succeeds, and a
run of the result delivers what a run of the program delivers. Where the program runs out of
wire, so does its optimized form, and it reports this no later; a program that runs out of wire
in the middle of a literal is the exception, since its literal may have been split elsewhere. -/
namespace WireCodec

open Machine Peephole

lemma Program.optimize_eq_ok {rules : HandleTable} {p : Program} (checked : verifyCode rules p.code.toList = .ok ()) : ∃
    q, p.optimize = .ok q ∧ q = p.withCode q.code.toList ∧ verifyCode rules q.code.toList = .ok () ∧ ∀ {σ : Type}
    (table : HandleTable) (caller : Caller σ), caller.KeepsClean → Preserves rules table caller p p.code.toList
    q.code.toList := by
  obtain ⟨lawful, noNops⟩ := verifyCode_eq_ok_iff.mp checked
  obtain ⟨code', ok, lawful', noNops', preserves⟩ := optimizeWithin_eq_ok maxRounds lawful noNops
  have list : (p.withCode code').code.toList = code' := by simp [Program.withCode]
  refine ⟨p.withCode code', ?_, by rw [list], ?_, ?_⟩
  · simp only [Program.optimize, ok, bind, Except.bind]
    rfl
  · rw [list, verifyCode_eq_ok_iff]
    exact ⟨lawful', noNops'⟩
  · intro σ table caller keeps
    rw [list]
    exact preserves table caller p keeps

namespace Peephole

/-- What an instruction asks of the wire or moves the cursor by, where it alone tells. -/
def cursorCost : Instr Nat → Nat
  | .check n => n.toNat
  | i => (i.cursorDelta?.map (·.toNat)).getD 0

def cursorTotal (p : Program) : Nat := (p.code.toList.map cursorCost).sum

lemma demand_le_sum {code : Instrs} {need : Nat}
    (asked : demand? (code.map pace) = some need) : need ≤ (code.map cursorCost).sum := by
  induction code generalizing need with
  | nil => cases asked
  | cons i rest ih =>
    simp only [List.map_cons, List.sum_cons] at asked ⊢
    cases kind : pace i with
    | asks n =>
      cases pace_eq_asks kind
      rw [kind] at asked
      cases asked
      simp only [cursorCost]
      cases later : demand? (rest.map pace) with
      | none => simp
      | some more =>
        have := ih later
        simp only [Option.getD_some]
        omega
    | moves n =>
      rw [kind] at asked
      obtain ⟨more, later, rfl⟩ := Option.map_eq_some_iff.mp asked
      have own : n.toNat ≤ cursorCost i := by
        cases i <;> first | (cases kind; first | exact Nat.zero_le _ | exact le_rfl) | cases kind
      have := ih later
      omega
    | ends =>
      rw [kind] at asked
      cases asked

lemma bounded_of_cursorTotal {p : Program} (small : cursorTotal p < 2 ^ 32) (size : Nat) :
    Bounded size p.code.toList := by
  intro k need asked
  left
  have low := demand_le_sum asked
  rw [cursorTotal, ← List.take_append_drop k p.code.toList, List.map_append, List.sum_append] at small
  omega

end Peephole

def StopsAtLiteral {σ : Type} (table : HandleTable) (caller : Caller σ) (p : Program) (c : Context) (s : σ) : Prop :=
  ∃ stop f, Halts table caller p 0 (Machine.start c) s stop f ∧ IsLiteral p.code.toList stop

lemma Peephole.CutShort.result {σ : Type} {job : Job} {f : Finished σ} (cut : CutShort job.eofCode f) :
    f.ctx.result = .error (.codec ⟨job.eofCode, f.ctx.errorOffset.toNat⟩) := by
  simp only [Context.result, cut.fault, cut.code, ErrorCode.ofNumber?_number]
  cases job <;> rfl

lemma Peephole.Refines.result {σ : Type} {job : Job} {lit lit' : Prop} {f g : Finished σ}
    (refines : Refines job.eofCode lit lit' f g) : g.ending = f.ending ∧ (∀ pos, f.ctx.result = .ok pos → g = f) ∧ ∀ e,
    f.ctx.result = .error (.codec e) → ∃ e', g.ctx.result = .error (.codec e') ∧ e'.code = e.code ∧
    (¬ lit → e'.offset ≤ e.offset ∧ AgreeBelow e'.offset g.ctx.wire f.ctx.wire) := by
  cases refines with
  | same eq keeps =>
    subst eq
    exact ⟨rfl, fun _ _ => rfl, fun e err => ⟨e, err, rfl, fun _ => ⟨le_rfl, .refl _ _⟩⟩⟩
  | short cut cut' state early =>
    refine ⟨cut'.stopped.trans cut.stopped.symm, fun pos ok => ?_, fun e err => ?_⟩
    · rw [cut.result] at ok
      cases ok
    · rw [cut.result] at err
      cases err
      refine ⟨_, cut'.result, rfl, fun no => ?_⟩
      obtain ⟨_, le, agree⟩ := early no
      exact ⟨UInt64.le_iff_toNat_le.mp le, agree⟩

/-- Optimizing a built program succeeds. A run of the optimized program delivers what a run of
the program delivers; where that is an error, the error is the same, and it is reported no later
and with the same bytes written before it, unless the program stopped in the middle of a
literal. This is so for every caller that leaves a clean context clean, as that of a session does. -/
theorem optimize_refines (d : Draft) (table : HandleTable) (p : Program)
    (built : d.build table = .ok p) (small : cursorTotal p < 2 ^ 32) :
    ∃ q, p.optimize = .ok q ∧ verifyCode table q.code.toList = .ok () ∧
      (∀ {σ : Type} (handles : HandleTable) (caller : Caller σ), caller.KeepsClean →
        ∀ (c : Context) (s : σ) (f : Finished σ), c.errorCode = 0 → c.fault = none → c.wire.size ≤ maxBlock →
        Machine.run handles caller p c s = some f → ¬ f.ctx.LeftHeap →
        ∃ g, Machine.run handles caller q c s = some g ∧ g.ending = f.ending ∧
          (∀ pos, f.ctx.result = .ok pos → g = f) ∧ (∀ e, f.ctx.result = .error (.codec e) →
            ∃ e', g.ctx.result = .error (.codec e') ∧ e'.code = e.code ∧ (¬ StopsAtLiteral handles caller p c s →
                e'.offset ≤ e.offset ∧ AgreeBelow e'.offset g.ctx.wire f.ctx.wire))) ∧
      ∀ known depth, (Session.answer known (Session.runProgram known depth)).KeepsClean := by
  obtain ⟨q, ok, same, checked, preserves⟩ := Program.optimize_eq_ok (Draft.build_checked built)
  refine ⟨q, ok, checked, fun handles caller keeps c s f noError noFault wireFits ran inside => ?_,
    fun known depth => Session.answer_keepsClean (Session.runProgram_clean known depth)⟩
  have clean : c.Clean := ⟨noError, noFault, wireFits⟩
  obtain ⟨stop, halts⟩ := halts_of_runFrom ran
  rw [← p.withCode_toList] at halts
  obtain ⟨stop', g, halts', covers⟩ := (preserves handles caller keeps).covers (Machine.start c) s stop f clean halts
    (bounded_of_cursorTotal small _)
  rw [← same] at halts'
  obtain ⟨ending, delivers, reports⟩ := (covers.refines_of inside).result
  refine ⟨g, halts'.runFrom, ending, delivers, fun e err => ?_⟩
  obtain ⟨e', err', code, early⟩ := reports e err
  refine ⟨e', err', code, fun elsewhere => early fun lit => elsewhere ?_⟩
  rw [p.withCode_toList] at halts
  exact ⟨stop, f, halts, lit⟩

def twoBytes : Program :=
  ⟨"two", .encode, #[.check 1, .writeImm .w1 1, .check 1, .writeImm .w1 2, .halt]⟩

def Context.blank (n : Nat) : Context := .start (Array.replicate n 0) .empty 0 0 false

lemma runProgram_twoBytes : ∃ f, Session.runProgram ⟨#[]⟩ 1 twoBytes (.blank 2) (.start .default) = some f ∧
      f.ctx.result = .ok 2 ∧ f.ctx.fault = none ∧ f.ctx.wire = #[1, 2] :=
  ⟨_, Halts.runFrom (.next rfl rfl (.next rfl rfl (.next rfl rfl (.next rfl rfl (.stop rfl rfl))))), rfl, rfl, rfl⟩

theorem optimize_refines_twoBytes : ∃ q g, twoBytes.optimize = .ok q ∧ q.code = #[.check 2, .writeImm .w2 0x0102, .halt]
    ∧ Session.runProgram ⟨#[]⟩ 1 q (.blank 2) (.start .default) = some g ∧ g.ctx.result = .ok 2 ∧ g.ctx.wire =
    #[1, 2] := by
  have built : (⟨"two", .encode, twoBytes.code, #[]⟩ : Draft).build Builtin.table = .ok twoBytes := rfl
  obtain ⟨q, ok, _, runs, keeps⟩ := optimize_refines _ _ _ built (by decide)
  obtain ⟨f, ran, result, fault, wire⟩ := runProgram_twoBytes
  have inside : ¬ f.ctx.LeftHeap := by
    rintro ⟨d, _, left⟩
    rw [fault] at left
    cases left
  obtain ⟨g, ran', _, same, _⟩ := runs _ _ (keeps ⟨#[]⟩ 0) (.blank 2) (.start .default) f rfl rfl (by decide)
    ran inside
  cases same 2 result
  have code : q.code = #[.check 2, .writeImm .w2 0x0102, .halt] := by
    cases ok
    rfl
  exact ⟨q, f, ok, code, ran', result, wire⟩

def threeLiterals : Program :=
  ⟨"three", .encode, #[.writeImm .w1 1, .writeImm .w1 2, .writeImm .w8 3, .halt]⟩

/-- A program that stops in the middle of a literal may report that further to the front than
its optimized form does. -/
theorem optimize_literal_reports_later :
    ∃ q f g, (⟨"three", .encode, threeLiterals.code, #[]⟩ : Draft).build Builtin.table = .ok threeLiterals ∧
      cursorTotal threeLiterals < 2 ^ 32 ∧ threeLiterals.optimize = .ok q ∧
      Session.runProgram ⟨#[]⟩ 1 threeLiterals (.blank 9) (.start .default) = some f ∧
      Session.runProgram ⟨#[]⟩ 1 q (.blank 9) (.start .default) = some g ∧
      f.ctx.result = .error (.codec ⟨.bufferTooSmall, 2⟩) ∧
      g.ctx.result = .error (.codec ⟨.bufferTooSmall, 8⟩) :=
  ⟨⟨"three", .encode, #[.writeImm .w8 0x0102000000000000, .writeImm .w2 3, .halt]⟩, _, _, rfl,
    by decide, rfl, Halts.runFrom (.next rfl rfl (.next rfl rfl (.stop rfl rfl))),
    Halts.runFrom (.next rfl rfl (.stop rfl rfl)), rfl, rfl⟩

end WireCodec
