import WireCodec.Proofs.Peephole.Seeks

/-! Folded checks do what they did. While a run of checks is open, the folded check has asked
for all that the checks left out would ask for. Where it fails and the first check of the run
would not, one of the others does, at the same place or behind it. -/
namespace WireCodec.Peephole

open Machine List

variable {i : Instr Nat} {n passed : UInt32} {eof : ErrorCode} {m : Machine} {pc start : Nat}
  {c : Context} {run : Option UInt32} {rules : HandleTable} {c' : Context}

variable {σ : Type} {table : HandleTable} {caller : Caller σ} {p : Program}
  {code : Instrs}

/-! The equations of the pass. -/

lemma toNat_addCapped (a b : UInt32) : (addCapped a b).toNat = min (a.toNat + b.toNat) 4294967295 := by
  simp only [addCapped, Nat.toUInt32, UInt32.toNat_ofNat']
  omega

lemma pace_eq_asks (h : pace i = .asks n) : i = .check n := by
  cases i with
  | check k =>
    cases h
    rfl
  | _ =>
    simp only [pace] at h
    split at h <;> cases h

section Pieces

variable {τ : Type}

/-- How an instruction takes part in a run of checks, wherever its branches lead. -/
def paceOf (i : Instr τ) : Pace := pace (i.mapTargets fun _ => 0)

/-- The run that is open behind an instruction: how many bytes its opening check is back. -/
def openBehind (run : Option UInt32) (i : Instr τ) : Option UInt32 :=
  match paceOf i with
  | .asks _ => some (run.getD 0)
  | .moves n => run.map (addCapped · n)
  | .ends => none

def foldHead (run : Option UInt32) (i : Instr τ) (after : UInt32 × List (Instr τ)) : UInt32 × List (Instr τ) :=
  match run, paceOf i with
  | some passed, .asks n => (max (addCapped passed n) after.1, .nop :: after.2)
  | none, .asks n => (0, .check (max n after.1) :: after.2)
  | some _, .moves _ => (after.1, i :: after.2)
  | _, _ => (0, i :: after.2)

end Pieces

lemma paceOf_eq (i : Instr Nat) : paceOf i = pace i := by
  cases i <;> rfl

lemma foldChecksFrom_cons (run : Option UInt32) (i : Instr Nat) (marked : Bool) (rest : Marked) :
    foldChecksFrom run ((i, marked) :: rest) = foldHead (if marked then none else run) i
        (foldChecksFrom (openBehind (if marked then none else run) i) rest) := by
  cases marked <;> cases run <;> cases i <;> rfl

def folded (run : Option UInt32) (i : Instr Nat) (need : UInt32) : Instr Nat :=
  match run, paceOf i with
  | some _, .asks _ => .nop
  | none, .asks n => .check (max n need)
  | _, _ => i

lemma foldHead_snd (run : Option UInt32) (i : Instr Nat) (after : UInt32 × Instrs) :
    (foldHead run i after).2 = folded run i after.1 :: after.2 := by
  unfold foldHead folded
  cases run <;> cases paceOf i <;> rfl

lemma folded_eq_self (noCheck : ∀ n, i ≠ .check n) (run : Option UInt32) (need : UInt32) : folded run i need = i := by
  unfold folded
  rw [paceOf_eq]
  cases kind : pace i with
  | asks n => exact absurd (pace_eq_asks kind) (noCheck n)
  | _ => cases run <;> rfl

lemma openBehind_eq_some (noCheck : ∀ n, i ≠ .check n) {passed' : UInt32} (open_ : openBehind run i = some passed') :
    ∃ n passed, run = some passed ∧ pace i = .moves n ∧ passed' = addCapped passed n := by
  rw [openBehind, paceOf_eq] at open_
  cases kind : pace i with
  | asks n => exact absurd (pace_eq_asks kind) (noCheck n)
  | moves n =>
    rw [kind] at open_
    obtain ⟨passed, is, rfl⟩ := Option.map_eq_some_iff.mp open_
    exact ⟨n, passed, is, rfl, rfl⟩
  | ends =>
    rw [kind] at open_
    cases open_

lemma foldChecksFrom_marked (run : Option UInt32) (i : Instr Nat) (rest : Marked) :
    foldChecksFrom run ((i, true) :: rest) = foldChecksFrom none ((i, false) :: rest) := by
  rw [foldChecksFrom_cons, foldChecksFrom_cons]
  rfl

lemma foldChecksFrom_asks_some (passed n : UInt32) (rest : Marked) :
    foldChecksFrom (some passed) ((.check n, false) :: rest) =
      (max (addCapped passed n) (foldChecksFrom (some passed) rest).1,
        .nop :: (foldChecksFrom (some passed) rest).2) := rfl

lemma foldChecksFrom_asks_none (n : UInt32) (rest : Marked) : foldChecksFrom none ((.check n, false) :: rest) =
    (0, .check (max n (foldChecksFrom (some 0) rest).1) :: (foldChecksFrom (some 0) rest).2) :=
  rfl

lemma foldChecksFrom_moves_some (moves : pace i = .moves n) (passed : UInt32) (rest : Marked) :
    foldChecksFrom (some passed) ((i, false) :: rest) = ((foldChecksFrom (some (addCapped passed n)) rest).1,
        i :: (foldChecksFrom (some (addCapped passed n)) rest).2) := by
  simp [foldChecksFrom_cons, foldHead, openBehind, paceOf_eq, moves]

lemma foldChecksFrom_ends (ends : pace i = .ends) (run : Option UInt32) (rest : Marked) :
    foldChecksFrom run ((i, false) :: rest) = (0, i :: (foldChecksFrom none rest).2) := by
  simp [foldChecksFrom_cons, foldHead, openBehind, paceOf_eq, ends]

lemma foldChecksFrom_moves_none (moves : pace i = .moves n) (rest : Marked) :
    foldChecksFrom none ((i, false) :: rest) = (0, i :: (foldChecksFrom none rest).2) := by
  simp [foldChecksFrom_cons, foldHead, openBehind, paceOf_eq, moves]

lemma foldChecksFrom_none_fst (rest : Marked) : (foldChecksFrom none rest).1 = 0 := by
  cases rest with
  | nil => rfl
  | cons head rest =>
    obtain ⟨i, marked⟩ := head
    cases marked <;> cases i <;> rfl

lemma foldChecksFrom_unmarked (run : Option UInt32) (i : Instr Nat) (marked : Bool) (rest : Marked) :
    foldChecksFrom run ((i, marked) :: rest) = foldChecksFrom (if marked then none else run) ((i, false) :: rest) := by
  rw [foldChecksFrom_cons, foldChecksFrom_cons, if_neg Bool.false_ne_true]

/-! What an open run asks for, against what the code asks for. -/

/-- What the open run asks for from here on, counted from its start `count` bytes back. -/
def runNeed : Nat → Marked → Nat
  | _, [] | _, (_, true) :: _ => 0
  | count, (i, false) :: rest =>
    match pace i with
    | .asks n => max (count + n.toNat) (runNeed count rest)
    | .moves n => runNeed (count + n.toNat) rest
    | .ends => 0

variable {count : Nat}

lemma runNeed_asks (asks : pace i = .asks n) (rest : Marked) :
    runNeed count ((i, false) :: rest) = max (count + n.toNat) (runNeed count rest) := by
  simp only [runNeed, asks]

lemma runNeed_moves (moves : pace i = .moves n) (rest : Marked) :
    runNeed count ((i, false) :: rest) = runNeed (count + n.toNat) rest := by
  simp only [runNeed, moves]

lemma runNeed_ends (ends : pace i = .ends) (rest : Marked) : runNeed count ((i, false) :: rest) = 0 := by
  simp only [runNeed, ends]

lemma toNat_need (capped : passed.toNat = min count 4294967295) (rest : Marked) :
    (foldChecksFrom (some passed) rest).1.toNat = min (runNeed count rest) 4294967295 := by
  induction rest generalizing passed count with
  | nil => rfl
  | cons head rest ih =>
    obtain ⟨i, marked⟩ := head
    rw [foldChecksFrom_unmarked]
    cases marked with
    | true => simp only [if_true, foldChecksFrom_none_fst, runNeed, UInt32.toNat_zero, Nat.zero_min]
    | false =>
      simp only [Bool.false_eq_true, if_false]
      cases kind : pace i with
      | asks n =>
        cases pace_eq_asks kind
        rw [foldChecksFrom_asks_some, runNeed_asks kind, UInt32.toNat_max, toNat_addCapped, ih capped]
        omega
      | moves n =>
        rw [foldChecksFrom_moves_some kind, runNeed_moves kind]
        exact ih (by rw [toNat_addCapped]; omega)
      | ends =>
        rw [foldChecksFrom_ends kind, runNeed_ends kind]
        rfl

lemma runNeed_le (count : Nat) (rest : Marked) :
    (demand? ((rest.map Prod.fst).map pace) = none → runNeed count rest = 0) ∧
    (∀ need, demand? ((rest.map Prod.fst).map pace) = some need → runNeed count rest ≤ count + need) := by
  induction rest generalizing count with
  | nil => exact ⟨fun _ => rfl, fun need h => by cases h⟩
  | cons head rest ih =>
    obtain ⟨i, marked⟩ := head
    cases marked with
    | true => exact ⟨fun _ => rfl, fun _ _ => Nat.zero_le _⟩
    | false =>
      simp only [map_cons]
      cases kind : pace i with
      | asks n =>
        obtain ⟨nothing, something⟩ := ih count
        rw [runNeed_asks kind]
        refine ⟨fun h => (by cases h), fun need h => ?_⟩
        cases h
        cases later : demand? ((rest.map Prod.fst).map pace) with
        | none =>
          rw [nothing later, Option.getD_none]
          omega
        | some more =>
          have := something more later
          rw [Option.getD_some]
          omega
      | moves n =>
        obtain ⟨nothing, something⟩ := ih (count + n.toNat)
        rw [runNeed_moves kind]
        simp only [demand?, Option.map_eq_none_iff, Option.map_eq_some_iff]
        refine ⟨nothing, ?_⟩
        rintro need ⟨more, later, rfl⟩
        have := something more later
        omega
      | ends =>
        rw [runNeed_ends kind]
        exact ⟨fun _ => rfl, fun _ _ => Nat.zero_le _⟩

lemma need_le_runNeed (passed : UInt32) (rest : Marked) :
    (foldChecksFrom (some passed) rest).1.toNat ≤ runNeed passed.toNat rest := by
  have low := passed.toNat_lt
  rw [@toNat_need passed passed.toNat (by omega)]
  exact Nat.min_le_left _ _

lemma drop_foldChecksFrom (run : Option UInt32) (rest : Marked) (k : Nat) :
    ∃ run', (foldChecksFrom run rest).2.drop k = (foldChecksFrom run' (rest.drop k)).2 := by
  induction k generalizing run rest with
  | zero => exact ⟨run, rfl⟩
  | succ k ih =>
    cases rest with
    | nil => exact ⟨none, by simp [foldChecksFrom]⟩
    | cons head rest =>
      obtain ⟨i, marked⟩ := head
      rw [foldChecksFrom_cons, foldHead_snd]
      exact ih _ rest

lemma demand_foldChecksFrom_le (run : Option UInt32) (rest : Marked) {need : Nat}
    (asked : demand? ((foldChecksFrom run rest).2.map pace) = some need) :
    ∃ more, demand? ((rest.map Prod.fst).map pace) = some more ∧ need ≤ more := by
  induction rest generalizing run need with
  | nil => cases asked
  | cons head rest ih =>
    obtain ⟨i, marked⟩ := head
    rw [foldChecksFrom_unmarked] at asked
    generalize (if marked then none else run) = open_ at asked
    cases kind : pace i with
    | asks n =>
      cases pace_eq_asks kind
      refine ⟨_, rfl, ?_⟩
      cases open_ with
      | none =>
        rw [foldChecksFrom_asks_none] at asked
        cases asked
        have folded : (demand? ((foldChecksFrom (some 0) rest).2.map pace)).getD 0 ≤
            (demand? ((rest.map Prod.fst).map pace)).getD 0 := by
          cases later : demand? ((foldChecksFrom (some 0) rest).2.map pace) with
          | none => exact Nat.zero_le _
          | some low =>
            obtain ⟨more, eq, le⟩ := ih (some 0) later
            rw [eq]
            exact le
        have own : (foldChecksFrom (some 0) rest).1.toNat ≤ (demand? ((rest.map Prod.fst).map pace)).getD 0 := by
          refine (need_le_runNeed 0 rest).trans ?_
          cases later : demand? ((rest.map Prod.fst).map pace) with
          | none => exact ((runNeed_le _ rest).1 later).le
          | some more => simpa using (runNeed_le 0 rest).2 more later
        simp only [UInt32.toNat_max]
        omega
      | some passed =>
        rw [foldChecksFrom_asks_some] at asked
        simp only [map_cons] at asked
        obtain ⟨low, later, eq⟩ := Option.map_eq_some_iff.mp asked
        obtain ⟨more, eq', le⟩ := ih (some passed) later
        simp only [eq', Option.getD_some]
        have zero : (0 : UInt32).toNat = 0 := rfl
        omega
    | moves n =>
      have noCheck : ∀ k, i ≠ .check k := by
        rintro k rfl
        cases kind
      rw [foldChecksFrom_cons, foldHead_snd, folded_eq_self noCheck, map_cons, kind] at asked
      obtain ⟨low, later, rfl⟩ := Option.map_eq_some_iff.mp asked
      obtain ⟨more, eq, le⟩ := ih _ later
      refine ⟨n.toNat + more, ?_, by omega⟩
      simp only [map_cons, kind, demand?, eq, Option.map_some]
    | ends =>
      rw [foldChecksFrom_ends kind] at asked
      simp only [map_cons, kind, demand?] at asked
      cases asked

lemma bounded_foldChecks {size : Nat} (bounded : Bounded size code) : Bounded size (foldChecks (mark code)) := by
  intro k need asked
  obtain ⟨run, later⟩ := drop_foldChecksFrom none (mark code) k
  rw [foldChecks, later] at asked
  obtain ⟨more, eq, le⟩ := demand_foldChecksFrom_le run _ asked
  rw [map_drop, map_fst_mark] at eq
  exact (bounded k more eq).mono le

lemma variant_folded (run : Option UInt32) (i : Instr Nat) (need : UInt32) : i.Variant (folded run i need) := by
  by_cases isCheck : ∃ n, i = .check n
  · obtain ⟨n, rfl⟩ := isCheck
    cases run with
    | none => exact ⟨rfl, fun _ _ _ => ⟨.inr rfl, rfl, nofun⟩⟩
    | some passed => exact Instr.variant_nop rfl
  · rw [folded_eq_self (not_exists.mp isCheck)]
    exact .refl i

lemma variants_foldChecksFrom (run : Option UInt32) (rest : Marked) :
    List.Forall₂ Instr.Variant (rest.map Prod.fst) (foldChecksFrom run rest).2 := by
  induction rest generalizing run with
  | nil => exact .nil
  | cons head rest ih =>
    obtain ⟨i, marked⟩ := head
    rw [foldChecksFrom_cons, foldHead_snd]
    exact .cons (variant_folded _ i _) (ih _)

/-! Runs. -/

/-- A step of an instruction that keeps a run going. -/
inductive MovesCase (eof : ErrorCode) (m : Machine) (n : UInt32) : Control × Machine → Prop
  | goes (m' : Machine) (pos : m'.ctx.pos = m.ctx.pos + n.toUInt64)
      (agree : AgreeBelow m.ctx.pos.toNat m'.ctx.wire m.ctx.wire) (same : m.ctx.SameReport m'.ctx) :
      MovesCase eof m n (.next, m')
  | fails : MovesCase eof m n (m.fail eof)
  | faults (d : Defect) (outside : d.isOutside = true) : MovesCase eof m n (m.fault d)

lemma movesCase_still {m' : Machine} (pos : m'.ctx.pos = m.ctx.pos) (wire : m'.ctx.wire = m.ctx.wire)
    (same : m.ctx.SameReport m'.ctx) : MovesCase eof m 0 (.next, m') :=
  .goes m' (by simp [pos]) (wire ▸ .refl _ _) same

lemma movesCase_onHeap (i : Instr Nat) (base : Reg) (off : UInt32) (len : Nat) (access : UInt32 → Machine)
    (pos : ∀ at_, (access at_).ctx.pos = m.ctx.pos) (wire : ∀ at_, (access at_).ctx.wire = m.ctx.wire)
    (same : ∀ at_, m.ctx.SameReport (access at_).ctx) : MovesCase eof m 0 (m.onHeap i base off len access) := by
  unfold onHeap
  split
  · exact movesCase_still (pos _) (wire _) (same _)
  · exact .faults _ rfl

lemma toNat_widthWord (width : Width) : width.bytes.toUInt32.toNat = width.bytes := by
  cases width <;> rfl

lemma toUInt64_widthWord (width : Width) : width.bytes.toUInt32.toUInt64 = width.bytes.toUInt64 := by
  cases width <;> rfl

lemma toNat_widthWord64 (width : Width) : width.bytes.toUInt64.toNat = width.bytes := by
  cases width <;> rfl

lemma movesCase_writeWord (width : Width) (word : UInt64) :
    MovesCase eof m width.bytes.toUInt32 (m.writeWord eof width word) := by
  unfold writeWord
  split
  · refine .goes _ ?_ (agreeBelow_patch _ _ _) ⟨rfl, rfl, size_patch _ _ _⟩
    simp [putWire, length_beBytes, toUInt64_widthWord]
  · exact .fails

lemma movesCase_readWord (width : Width) (signed : Bool) (dst : Reg) :
    MovesCase eof m width.bytes.toUInt32 (m.readWord eof width signed dst) := by
  unfold readWord
  split
  · exact .fails
  · refine .goes _ ?_ (.refl _ _) ⟨rfl, rfl, rfl⟩
    simp [toUInt64_widthWord]

/-- Every instruction of a run goes on, fails for want of wire, or leaves the arena. -/
lemma step_moves (moves : pace i = .moves n) (eof : ErrorCode) (m : Machine) : MovesCase eof m n (m.step eof i) := by
  cases i with
  | check k => cases moves
  | advance k =>
    cases moves
    exact .goes _ rfl (.refl _ _) ⟨rfl, rfl, rfl⟩
  | readInt width signed dst =>
    cases moves
    exact movesCase_readWord width signed dst
  | writeImm width value =>
    cases moves
    exact movesCase_writeWord width value
  | writeInt width src =>
    cases moves
    exact movesCase_writeWord width _
  | load | loadPtr =>
    cases moves
    exact movesCase_onHeap _ _ _ _ _ (fun _ => rfl) (fun _ => rfl) (fun _ => .refl _)
  | store | zero =>
    cases moves
    exact movesCase_onHeap _ _ _ _ _ (fun _ => rfl) (fun _ => rfl) (fun _ => ⟨rfl, rfl, rfl⟩)
  | storePtr src base off =>
    cases moves
    refine movesCase_onHeap _ _ _ _ _ (fun _ => ?_) (fun _ => ?_)
      (fun _ => storePointer_sameReport _ _ _)
    all_goals
      simp only [Context.storePointer, Context.patchHeap]
      split <;> rfl
  | storeFrame src slot =>
    cases moves
    refine movesCase_still ?_ ?_ (writeSlot_sameReport _ _ _)
    all_goals
      simp only [Context.writeSlot]
      split <;> rfl
  | nop | seek | movImm | mov | add | imm | loadFrame =>
    cases moves
    exact movesCase_still rfl rfl (.refl _)
  | _ => cases moves

lemma stepAny_moves (moves : pace i = .moves n) (m : Machine) (s : σ) :
    stepAny table caller eof i m s = some (.ok ((m.step eof i).1, (m.step eof i).2, s)) := by
  refine stepAny_eq ?_ m s
  rintro id args rets rfl
  cases moves

lemma stepAny_check (n : UInt32) (m : Machine) (s : σ) : stepAny table caller eof (.check n) m s =
      some (.ok (if m.ctx.fits n.toUInt64 then (.next, m, s)
        else (.stop, { m with ctx := m.ctx.fail eof }, s))) := by
  simp only [stepAny, step, checkRoom, fail]
  split <;> rfl

lemma halts_check {s : σ} (at_ : code[pc]? = some (.check n)) (short : ¬ m.ctx.fits n.toUInt64 = true) :
    Halts table caller (p.withCode code) pc m s pc ⟨.stopped, m.ctx.fail p.job.eofCode, s⟩ := by
  have step : stepAny table caller p.job.eofCode (.check n) m s =
      some (.ok (.stop, { m with ctx := m.ctx.fail p.job.eofCode }, s)) := by
    rw [stepAny_check, if_neg short]
  have here : (p.withCode code).code[pc]? = some (.check n) := by simpa using at_
  exact Halts.stop here step

lemma fits_word (c : Context) (n : UInt32) : c.fits n.toUInt64 = true ↔ c.pos.toNat + n.toNat ≤ c.wire.size := by
  simp [Context.fits]

lemma drop_mark_cons (at_ : code[pc]? = some i) :
    ∃ marked, (mark code).drop pc = (i, marked) :: (mark code).drop (pc + 1) := by
  obtain ⟨marked, pair⟩ := mark_getElem? at_
  obtain ⟨low, eq⟩ := List.getElem?_eq_some_iff.mp pair
  exact ⟨marked, by rw [drop_eq_getElem_cons low, eq]⟩

lemma map_fst_drop_mark (pc : Nat) : ((mark code).drop pc).map Prod.fst = code.drop pc := by
  rw [map_drop, map_fst_mark]

/-- What a report made behind `start` says, for a run with state `s` and wire `wire`. -/
structure CutBehind (eof : ErrorCode) (start : Nat) (wire : Bytes) (s : σ) (f : Finished σ) :
    Prop where
  cut : CutShort eof f
  state : f.state = s
  behind : start ≤ f.ctx.errorOffset.toNat
  agree : AgreeBelow start f.ctx.wire wire

lemma cutBehind_fail {s : σ} (clean : m.ctx.Clean) (behind : start ≤ m.ctx.pos.toNat) :
    CutBehind eof start m.ctx.wire s ⟨.stopped, m.ctx.fail eof, s⟩ := by
  rw [Context.fail, clean.failAt]
  exact ⟨⟨rfl, rfl, clean.noFault⟩, rfl, behind, .refl _ _⟩

/-- The cursor cannot wrap around before the run is over. -/
def CannotWrap (code : Instrs) (pc : Nat) (c : Context) : Prop :=
  ∀ need, demand? ((code.drop pc).map pace) = some need → c.pos.toNat + need < 2 ^ 64

/-- The open run at `pc` asks for more than the wire has, counted from `start`. -/
structure TooShort (code : Instrs) (start pc : Nat) (passed : UInt32) (c : Context) :
    Prop where
  clean : c.Clean
  low : start ≤ c.wire.size
  short : c.wire.size < start + (foldChecksFrom (some passed) ((mark code).drop pc)).1.toNat
  behind : start + passed.toNat ≤ c.pos.toNat
  noWrap : CannotWrap code pc c

lemma TooShort.inRun (h : TooShort code start pc passed c) (at_ : code[pc]? = some i) :
    (mark code).drop pc = (i, false) :: (mark code).drop (pc + 1) ∧ pace i ≠ .ends := by
  obtain ⟨marked, rest⟩ := drop_mark_cons at_
  have low := h.low
  have short := h.short
  rw [rest, foldChecksFrom_unmarked] at short
  cases marked with
  | true =>
    simp only [if_true, foldChecksFrom_none_fst, UInt32.toNat_zero] at short
    omega
  | false =>
    refine ⟨rest, fun ends => ?_⟩
    simp only [Bool.false_eq_true, if_false, foldChecksFrom_ends ends, UInt32.toNat_zero] at short
    omega

lemma demand_drop_cons (at_ : code[pc]? = some i) :
    (code.drop pc).map pace = pace i :: (code.drop (pc + 1)).map pace := by
  obtain ⟨low, eq⟩ := List.getElem?_eq_some_iff.mp at_
  rw [drop_eq_getElem_cons low, eq, map_cons]

lemma TooShort.toNat_pos (h : TooShort code start pc passed c) (at_ : code[pc]? = some i)
    (moves : pace i = .moves n) : (c.pos + n.toUInt64).toNat = c.pos.toNat + n.toNat := by
  have small : c.pos.toNat + n.toNat < 2 ^ 64 := by
    cases later : demand? ((code.drop pc).map pace) with
    | none =>
      have nothing := (runNeed_le passed.toNat ((mark code).drop pc)).1
      rw [map_fst_drop_mark] at nothing
      have le := need_le_runNeed passed ((mark code).drop pc)
      have short := h.short
      have low := h.low
      rw [nothing later] at le
      omega
    | some need =>
      have := h.noWrap need later
      rw [demand_drop_cons at_, moves] at later
      obtain ⟨more, _, rfl⟩ := Option.map_eq_some_iff.mp later
      omega
  rw [UInt64.toNat_add, UInt32.toNat_toUInt64]
  omega

lemma CannotWrap.moves (h : CannotWrap code pc c) (at_ : code[pc]? = some i)
    (moves : pace i = .moves n) (pos : c'.pos.toNat = c.pos.toNat + n.toNat) : CannotWrap code (pc + 1) c' := by
  intro need later
  have := h (n.toNat + need) (by
    rw [demand_drop_cons at_, moves]
    simp only [demand?, later, Option.map_some])
  omega

lemma CannotWrap.asks (h : CannotWrap code pc c) (at_ : code[pc]? = some (.check n)) : CannotWrap code (pc + 1) c := by
  intro need later
  have := h (max n.toNat need) (by
    rw [demand_drop_cons at_]
    simp only [pace, demand?, later, Option.getD_some])
  omega

lemma TooShort.step {s : σ} (h : TooShort code start pc passed m.ctx) (at_ : (p.withCode code).code[pc]? = some i) :
    (∃ m' passed', stepAny table caller eof i m s = some (.ok (.next, m', s)) ∧
      TooShort code start (pc + 1) passed' m'.ctx ∧ AgreeBelow start m'.ctx.wire m.ctx.wire) ∨
    (∃ m', stepAny table caller eof i m s = some (.ok (.stop, m', s)) ∧
      (m'.ctx.LeftHeap ∨ CutBehind eof start m.ctx.wire s ⟨.stopped, m'.ctx, s⟩)) := by
  rw [Program.withCode_getElem?] at at_
  obtain ⟨rest, notEnds⟩ := h.inRun at_
  have short := h.short
  have behind := h.behind
  rw [rest] at short
  cases kind : pace i with
  | ends => exact absurd kind notEnds
  | asks n =>
    cases pace_eq_asks kind
    rw [stepAny_check]
    by_cases fits : m.ctx.fits n.toUInt64 = true
    · rw [if_pos fits]
      rw [fits_word] at fits
      refine .inl ⟨m, passed, rfl, ⟨h.clean, h.low, ?_, behind, h.noWrap.asks at_⟩, .refl _ _⟩
      rw [foldChecksFrom_asks_some] at short
      simp only [UInt32.toNat_max, toNat_addCapped] at short
      omega
    · rw [if_neg fits]
      exact .inr ⟨_, rfl, .inr (cutBehind_fail h.clean (by omega))⟩
  | moves n =>
    have step := step_moves kind eof m
    rw [stepAny_moves kind]
    generalize m.step eof i = r at step
    cases step with
    | goes m' pos agree same =>
      have moved := h.toNat_pos at_ kind
      rw [← pos] at moved
      refine .inl ⟨m', addCapped passed n, rfl, ⟨same.clean h.clean, ?_, ?_, ?_, ?_⟩, ?_⟩
      · rw [same.size]
        exact h.low
      · rw [same.size]
        rwa [foldChecksFrom_moves_some kind] at short
      · rw [toNat_addCapped]
        omega
      · exact h.noWrap.moves at_ kind moved
      · exact agree.mono (by omega)
    | fails => exact .inr ⟨_, rfl, .inr (cutBehind_fail h.clean (by omega))⟩
    | faults d outside =>
      refine .inr ⟨_, rfl, .inl ⟨d, outside, ?_⟩⟩
      simp only [Machine.fault, h.clean.raise]

/-- A run that asks for more than the wire has comes to the end of it, if it does not leave the
arena before. -/
lemma TooShort.cut {stop : Nat} {s : σ} {f : Finished σ}
    (halts : Halts table caller (p.withCode code) pc m s stop f) (h : TooShort code start pc passed m.ctx) :
    (f.ctx.LeftHeap ∧ f.state = s) ∨ CutBehind p.job.eofCode start m.ctx.wire s f := by
  induction halts generalizing passed with
  | @off pc m s at_ =>
    rw [Program.withCode_getElem?] at at_
    have nothing : (mark code).drop pc = [] := by
      rw [drop_eq_nil_iff, length_mark]
      simpa using at_
    have short := h.short
    have low := h.low
    rw [nothing] at short
    simp only [foldChecksFrom, UInt32.toNat_zero] at short
    omega
  | ended at_ step | jump at_ step =>
    rcases h.step at_ with ⟨_, _, taken, _⟩ | ⟨_, taken, _⟩ <;> cases taken.symm.trans step
  | stop at_ step =>
    rcases h.step at_ with ⟨_, _, taken, _⟩ | ⟨_, taken, result⟩ <;> cases taken.symm.trans step
    exact result.imp_left fun left => ⟨left, rfl⟩
  | next at_ step _ ih =>
    rcases h.step at_ with ⟨_, _, taken, later, agree⟩ | ⟨_, taken, _⟩ <;> cases taken.symm.trans step
    exact (ih later).imp_right fun rest => ⟨rest.cut, rest.state, rest.behind, rest.agree.trans agree⟩

/-- The folded check of the open run has asked for all that the run asks for from `pc` on. -/
def Covered (code : Instrs) (pc : Nat) (c : Context) (passed : UInt32) : Prop :=
  ∃ count, passed.toNat = min count 4294967295 ∧
    c.pos.toNat + runNeed count ((mark code).drop pc) ≤ c.wire.size + count

/-- The folded code at `pc`, with the given run open. -/
structure Folded (code : Instrs) (pc : Nat) (c : Context) (run : Option UInt32) :
    Prop where
  folded : (foldChecks (mark code)).drop pc = (foldChecksFrom run ((mark code).drop pc)).2
  covered : ∀ passed, run = some passed → Covered code pc c passed

lemma Folded.unmarked (h : Folded code pc c run) (at_ : code[pc]? = some i) : ∃ run', (foldChecks (mark code)).drop pc =
    (foldChecksFrom run' ((i, false) :: (mark code).drop (pc + 1))).2 ∧ ∀ passed, run' = some passed → (mark code).drop
    pc = (i, false) :: (mark code).drop (pc + 1) ∧ Covered code pc c passed := by
  obtain ⟨marked, rest⟩ := drop_mark_cons at_
  have folded := h.folded
  rw [rest, foldChecksFrom_unmarked] at folded
  refine ⟨_, folded, fun passed eq => ?_⟩
  cases marked with
  | true => cases eq
  | false => exact ⟨rest, h.covered passed eq⟩

lemma folded_target {t : Nat} (lead : code[pc]? = some i) (mem : t ∈ i.targets) (low : t < code.length) :
    Folded code t c none := by
  obtain ⟨j, there, marked⟩ := mark_target lead mem low
  refine ⟨?_, fun _ h => by cases h⟩
  obtain ⟨run, later⟩ := drop_foldChecksFrom none (mark code) t
  rw [foldChecks, later]
  obtain ⟨low', eq⟩ := List.getElem?_eq_some_iff.mp marked
  rw [drop_eq_getElem_cons low', eq, foldChecksFrom_marked, foldChecksFrom_marked]

lemma Folded.keeps (h : Folded code pc c run) (at_ : code[pc]? = some i) (noCheck : ∀ n, i ≠ .check n) :
    (foldChecks (mark code))[pc]? = some i ∧ ∃ run', (foldChecks (mark code)).drop (pc + 1) =
          (foldChecksFrom run' ((mark code).drop (pc + 1))).2 ∧
        ∀ passed', run' = some passed' → ∃ n passed, pace i = .moves n ∧ passed' = addCapped passed n ∧
          (mark code).drop pc = (i, false) :: (mark code).drop (pc + 1) ∧ Covered code pc c passed := by
  obtain ⟨open_, folded, covered⟩ := h.unmarked at_
  rw [foldChecksFrom_cons, foldHead_snd, folded_eq_self noCheck] at folded
  obtain ⟨here, after⟩ := getElem?_of_drop folded
  refine ⟨here, _, after, fun passed' eq => ?_⟩
  obtain ⟨n, passed, rfl, kind, is⟩ := openBehind_eq_some noCheck eq
  exact ⟨n, passed, kind, is, covered passed rfl⟩

lemma Covered.moves (h : Covered code pc c passed) (kind : pace i = .moves n)
    (rest : (mark code).drop pc = (i, false) :: (mark code).drop (pc + 1)) (pos : c'.pos = c.pos + n.toUInt64)
    (size : c'.wire.size = c.wire.size) : Covered code (pc + 1) c' (addCapped passed n) := by
  obtain ⟨count, capped, enough⟩ := h
  rw [rest, runNeed_moves kind] at enough
  have moved : c'.pos.toNat ≤ c.pos.toNat + n.toNat := by
    rw [pos, UInt64.toNat_add, UInt32.toNat_toUInt64]
    exact Nat.mod_le _ _
  refine ⟨count + n.toNat, ?_, ?_⟩
  · rw [toNat_addCapped]
    omega
  · rw [size]
    omega

lemma Folded.next {m' : Machine} {s s' : σ} (h : Folded code pc m.ctx run) (at_ : code[pc]? = some i)
    (noCheck : ∀ n, i ≠ .check n) (step : stepAny table caller eof i m s = some (.ok (.next, m', s'))) :
    ∃ run', Folded code (pc + 1) m'.ctx run' := by
  obtain ⟨_, run', after, opened⟩ := h.keeps at_ noCheck
  refine ⟨run', after, fun passed' eq => ?_⟩
  obtain ⟨n, passed, kind, rfl, rest, covered⟩ := opened passed' eq
  rw [stepAny_moves kind] at step
  have moved := step_moves kind eof m
  generalize m.step eof i = r at step moved
  cases moved with
  | goes m₁ pos agree same =>
    cases step
    exact covered.moves kind rest pos same.size
  | fails => cases step
  | faults d outside => cases step

lemma isLiteral_foldChecks (at_ : code[pc]? = some i) (at' : (foldChecks (mark code))[pc]? = some i)
    (lit : IsLiteral (foldChecks (mark code)) pc) : IsLiteral code pc := by
  obtain ⟨width, value, there⟩ := lit
  cases at'.symm.trans there
  exact ⟨width, value, at_⟩

lemma Covered.check (covered : Covered code pc c passed)
    (rest : (mark code).drop pc = (.check n, false) :: (mark code).drop (pc + 1)) :
    c.fits n.toUInt64 = true ∧ Covered code (pc + 1) c passed := by
  obtain ⟨count, capped, enough⟩ := covered
  rw [rest, runNeed_asks rfl] at enough
  refine ⟨?_, count, capped, by omega⟩
  rw [fits_word]
  omega

/-- A check that asks for all the run asks for has found room for it. -/
lemma covered_of_check (bounded : Bounded c.wire.size code)
    (fits : c.pos.toNat + (foldChecksFrom (some 0) ((mark code).drop pc)).1.toNat ≤ c.wire.size) :
    Covered code pc c 0 := by
  refine ⟨0, rfl, ?_⟩
  rw [@toNat_need 0 0 rfl] at fits
  have whole : runNeed 0 ((mark code).drop pc) < 2 ^ 32 ∨ c.wire.size < 2 ^ 32 - 1 := by
    obtain ⟨nothing, something⟩ := runNeed_le 0 ((mark code).drop pc)
    rw [map_fst_drop_mark] at nothing something
    cases later : demand? ((code.drop pc).map pace) with
    | none =>
      have := nothing later
      omega
    | some need =>
      have := something need later
      rcases bounded pc need later with low | ⟨small, _⟩ <;> omega
  omega

/-- The check that opens a run fails at once, though the first check of the run would not. -/
lemma tooShort_of_check (clean : c.Clean) (fits : c.fits n.toUInt64 = true)
    (short : ¬ c.fits (max n (foldChecksFrom (some 0) ((mark code).drop (pc + 1))).1).toUInt64 = true)
    (bounded : Bounded c.wire.size code) : TooShort code c.pos.toNat (pc + 1) 0 c := by
  rw [fits_word] at fits short
  rw [UInt32.toNat_max] at short
  have block := clean.wireFits
  simp only [maxBlock] at block
  refine ⟨clean, by omega, by omega, by simp, fun need later => ?_⟩
  rcases bounded (pc + 1) need later with low | ⟨_, low⟩ <;> omega

lemma Folded.check (h : Folded code pc c run) (at_ : code[pc]? = some (.check n)) :
    ((foldChecks (mark code))[pc]? = some .nop ∧ ∃ passed, (foldChecks (mark code)).drop (pc + 1) =
          (foldChecksFrom (some passed) ((mark code).drop (pc + 1))).2 ∧
        c.fits n.toUInt64 = true ∧ Covered code (pc + 1) c passed) ∨
    ((foldChecks (mark code))[pc]? = some (.check (max n (foldChecksFrom (some 0) ((mark code).drop (pc + 1))).1)) ∧
      (foldChecks (mark code)).drop (pc + 1) = (foldChecksFrom (some 0) ((mark code).drop (pc + 1))).2) := by
  obtain ⟨open_, folded, covered⟩ := h.unmarked at_
  cases open_ with
  | none => exact .inr (getElem?_of_drop folded)
  | some passed =>
    obtain ⟨here, after⟩ := getElem?_of_drop folded
    obtain ⟨rest, covered⟩ := covered passed rfl
    exact .inl ⟨here, passed, after, covered.check rest⟩

lemma refines_cutBehind {lit lit' : Prop} {s : σ} {f : Finished σ} (clean : m.ctx.Clean) (noLit : ¬ lit')
    (cut : CutBehind eof m.ctx.pos.toNat m.ctx.wire s f) : Refines eof lit lit' f ⟨.stopped, m.ctx.fail eof, s⟩ := by
  have own : CutBehind eof m.ctx.pos.toNat m.ctx.wire s ⟨.stopped, m.ctx.fail eof, s⟩ := cutBehind_fail clean le_rfl
  refine .short cut.cut own.cut cut.state.symm fun _ => ⟨noLit, ?_⟩
  rw [Context.fail, clean.failAt]
  exact ⟨UInt64.le_iff_toNat_le.mpr cut.behind, cut.agree.symm⟩

lemma halts_foldChecks (lawful : Lawful rules code) (keeps : caller.KeepsClean) {stop : Nat} {s : σ} {f : Finished σ}
    (halts : Halts table caller (p.withCode code) pc m s stop f) (clean : m.ctx.Clean)
    (bounded : Bounded m.ctx.wire.size code) (folded : Folded code pc m.ctx run) (low : pc < code.length) :
    ∃ stop' f', Halts table caller (p.withCode (foldChecks (mark code))) pc m s stop' f' ∧
      Covers p.job.eofCode (IsLiteral code stop) (IsLiteral (foldChecks (mark code)) stop') f f' := by
  -- By induction on the run. Both programs take the same steps but for the checks.
  induction halts generalizing run with
  | off at_ =>
    simp only [Program.withCode_getElem?, getElem?_eq_none_iff] at at_
    omega
  | @ended pc m s i f at_ step =>
    rw [Program.withCode_getElem?] at at_
    have noCheck : ∀ n, i ≠ .check n := by
      rintro n rfl
      cases step
    obtain ⟨here, _⟩ := folded.keeps at_ noCheck
    exact ⟨pc, f, .ended (by simpa using here) step, .refines (.same rfl (isLiteral_foldChecks at_ here))⟩
  | @stop pc m m' s s' i at_ step =>
    rw [Program.withCode_getElem?] at at_
    by_cases isCheck : ∃ n, i = .check n
    · obtain ⟨n, rfl⟩ := isCheck
      rw [stepAny_check] at step
      split at step
      · cases step
      · rename_i short
        cases step
        rcases folded.check at_ with ⟨_, passed, _, covered⟩ | ⟨here, _⟩
        · -- Folding left the check out, so that it cannot fail.
          exact absurd covered.1 short
        · have short' : ¬ m.ctx.fits
              (max n (foldChecksFrom (some 0) ((mark code).drop (pc + 1))).1).toUInt64 = true := by
            rw [fits_word] at short ⊢
            rw [UInt32.toNat_max]
            omega
          refine ⟨pc, _, halts_check here short', .refines (.same rfl ?_)⟩
          rintro ⟨width, value, there⟩
          cases here.symm.trans there
    · have noCheck := not_exists.mp isCheck
      obtain ⟨here, _⟩ := folded.keeps at_ noCheck
      exact ⟨pc, _, .stop (by simpa using here) step, .refines (.same rfl (isLiteral_foldChecks at_ here))⟩
  | @next pc stop m m₁ s s₁ i f at_ step rest ih =>
    rw [Program.withCode_getElem?] at at_
    have same := stepAny_goes keeps clean step (by simp)
    have clean' := same.clean clean
    have bounded' : Bounded m₁.ctx.wire.size code := by rwa [same.size]
    have goesOn : i ≠ .halt := by
      rintro rfl
      cases step
    obtain ⟨j, next⟩ := lawful.succ at_ goesOn
    have low' := (List.getElem?_eq_some_iff.mp next).1
    by_cases isCheck : ∃ n, i = .check n
    · obtain ⟨n, rfl⟩ := isCheck
      rw [stepAny_check] at step
      split at step
      · rename_i fits
        cases step
        rcases folded.check at_ with ⟨here, passed, after, covered⟩ | ⟨here, after⟩
        · have folded' : Folded code (pc + 1) m.ctx (some passed) := by
            refine ⟨after, fun passed' eq => ?_⟩
            cases eq
            exact covered.2
          obtain ⟨stop', f', halts', covers⟩ := ih clean' bounded' folded' low'
          exact ⟨stop', f', .next (by simpa using here) (stepAny_nop _ _) halts', covers⟩
        · by_cases fits' : m.ctx.fits (max n (foldChecksFrom (some 0) ((mark code).drop (pc + 1))).1).toUInt64 = true
          · have folded' : Folded code (pc + 1) m.ctx (some 0) := by
              refine ⟨after, fun passed eq => ?_⟩
              cases eq
              rw [fits_word, UInt32.toNat_max] at fits'
              exact covered_of_check bounded (by omega)
            obtain ⟨stop', f', halts', covers⟩ := ih clean' bounded' folded' low'
            refine ⟨stop', f', .next (by simpa using here) ?_ halts', covers⟩
            rw [stepAny_check]
            simp only [Program.withCode_job, fits', if_true]
          · have noLit : ¬ IsLiteral (foldChecks (mark code)) pc := by
              rintro ⟨width, value, there⟩
              cases here.symm.trans there
            refine ⟨pc, _, halts_check here fits', ?_⟩
            rcases (tooShort_of_check clean fits fits' bounded).cut rest with ⟨left, state⟩ | cut
            · have own : CutBehind p.job.eofCode 0 m.ctx.wire s
                  ⟨.stopped, m.ctx.fail p.job.eofCode, s⟩ := cutBehind_fail clean (Nat.zero_le _)
              exact .left left own.cut state.symm noLit
            · exact .refines (refines_cutBehind clean noLit cut)
      · cases step
    · have noCheck := not_exists.mp isCheck
      obtain ⟨here, _⟩ := folded.keeps at_ noCheck
      obtain ⟨run', folded'⟩ := folded.next at_ noCheck step
      obtain ⟨stop', f', halts', covers⟩ := ih clean' bounded' folded' low'
      exact ⟨stop', f', .next (by simpa using here) step halts', covers⟩
  | @jump pc target stop m m₁ s s₁ i f at_ step _ ih =>
    rw [Program.withCode_getElem?] at at_
    have noCheck : ∀ n, i ≠ .check n := by
      rintro n rfl
      rw [stepAny_check] at step
      split at step <;> cases step
    have mem := stepAny_jump step
    have low' := lawful.target at_ mem
    obtain ⟨here, _⟩ := folded.keeps at_ noCheck
    have same := stepAny_goes keeps clean step (by simp)
    obtain ⟨stop', f', halts', covers⟩ := ih (same.clean clean) (by rwa [same.size]) (folded_target at_ mem low') low'
    exact ⟨stop', f', .jump (by simpa using here) step halts', covers⟩

lemma matches_foldChecks (lawful : Lawful rules code) (keeps : caller.KeepsClean) :
    Matches table caller p code (foldChecks (mark code)) := by
  intro m s stop f clean halts bounded
  have folded : Folded code 0 m.ctx none := ⟨rfl, fun _ h => by cases h⟩
  exact halts_foldChecks lawful keeps halts clean bounded folded lawful.pos

lemma variants_foldChecks (code : Instrs) : List.Forall₂ Instr.Variant code (foldChecks (mark code)) := by
  have h := variants_foldChecksFrom none (mark code)
  rwa [map_fst_mark] at h

end WireCodec.Peephole
