import WireCodec.Proofs.Peephole.Kinds

/-! Code with one check a run. Where the checks of a program without literals fold into runs
that have one check each, the peephole pass repeats every run of the folded program as it is:
also those that come to the end of the wire or leave the arena. -/
namespace WireCodec.Peephole

open Machine List

variable {σ : Type} {table rules : HandleTable} {caller : Caller σ} {p : Program} {code code' : Instrs}
  {i : Instr Nat}

/-- No check follows another one in its run. -/
def Single (code : Instrs) : Prop :=
  ∀ k n, code[k]? = some (.check n) → demand? ((code.drop (k + 1)).map pace) = none

lemma single_cons {rest : Instrs} : Single (i :: rest) ↔
      (∀ n, i = .check n → demand? (rest.map pace) = none) ∧ Single rest := by
  constructor
  · intro single
    refine ⟨fun n eq => single 0 n (by simp [eq]), fun k n at_ => single (k + 1) n (by simpa using at_)⟩
  · rintro ⟨own, others⟩ k n at_
    cases k with
    | zero => exact own n (by simpa using at_)
    | succ k => exact others k n (by simpa using at_)

lemma single_of_map_pace (same : code'.map pace = code.map pace) (single : Single code) : Single code' := by
  intro k n at_
  have asks : (code'.map pace)[k]? = some (.asks n) := by rw [getElem?_map, at_]; rfl
  rw [same, getElem?_map] at asks
  obtain ⟨i, at', kind⟩ := Option.map_eq_some_iff.mp asks
  rw [map_drop, same, ← map_drop]
  exact single k n (pace_eq_asks kind ▸ at')

lemma single_fold (run : Option UInt32) (code : Instrs) : Single (fold nothing run code).2 ∧
      (run.isSome = true → demand? ((fold nothing run code).2.map pace) = none) := by
  induction code generalizing run with
  | nil => exact ⟨fun k n at_ => by simp [fold] at at_, fun _ => rfl⟩
  | cons i rest ih =>
    cases kind : paceOf i with
    | asks n =>
      cases run with
      | none =>
        rw [fold_asks_none kind]
        exact ⟨single_cons.mpr ⟨fun _ _ => (ih (some 0)).2 rfl, (ih (some 0)).1⟩, by rintro ⟨⟩⟩
      | some passed =>
        rw [fold_asks_some kind]
        obtain ⟨single, none_⟩ := ih (some passed)
        refine ⟨single_cons.mpr ⟨fun k is => (by cases is), single⟩, fun _ => ?_⟩
        rw [map_cons, show pace .nop = .moves 0 from rfl, demand?, none_ rfl]
        rfl
    | moves n =>
      have own : pace i = .moves n := (paceOf_eq i).symm.trans kind
      have noCheck : ∀ k, i ≠ .check k := by
        rintro k rfl
        cases own
      cases run with
      | none =>
        rw [fold_moves_none kind]
        exact ⟨single_cons.mpr ⟨fun k eq => absurd eq (noCheck k), (ih none).1⟩, by rintro ⟨⟩⟩
      | some passed =>
        rw [fold_moves_some kind]
        obtain ⟨single, none_⟩ := ih (some (addCapped passed n))
        refine ⟨single_cons.mpr ⟨fun k eq => absurd eq (noCheck k), single⟩, fun _ => ?_⟩
        rw [map_cons, own, demand?, none_ rfl]
        rfl
    | ends =>
      have own : pace i = .ends := (paceOf_eq i).symm.trans kind
      rw [fold_ends kind]
      refine ⟨single_cons.mpr ⟨fun k eq => ?_, (ih none).1⟩, fun _ => ?_⟩
      · rw [eq] at own
        cases own
      · rw [map_cons, own]
        rfl

lemma max_zero_word (n : UInt32) : max n 0 = n :=
  UInt32.toNat_inj.mp (by rw [UInt32.toNat_max]; exact Nat.max_eq_left (Nat.zero_le _))

lemma foldChecksFrom_single (run : Option UInt32) (code : Marked) (single : Single (code.map Prod.fst))
    (quiet : run.isSome = true → demand? ((code.map Prod.fst).map pace) = none) :
    foldChecksFrom run code = (0, code.map Prod.fst) := by
  induction code generalizing run with
  | nil => rfl
  | cons head rest ih =>
    obtain ⟨i, marked⟩ := head
    rw [map_cons] at single quiet ⊢
    obtain ⟨own, others⟩ := single_cons.mp single
    have closed := ih none others nofun
    rw [foldChecksFrom_unmarked]
    cases kind : pace i with
    | asks n =>
      cases pace_eq_asks kind
      have still : (if marked then none else run) = none := by
        cases marked with
        | true => rfl
        | false =>
          cases run with
          | none => rfl
          | some passed => simp [demand?, kind] at quiet
      rw [still, foldChecksFrom_asks_none, ih (some 0) others fun _ => own n rfl, max_zero_word]
    | moves n =>
      cases open_ : (if marked then none else run) with
      | none => rw [foldChecksFrom_moves_none kind, closed]
      | some passed =>
        have isOpen : run.isSome = true := by
          cases marked <;> simp_all
        have later := quiet isOpen
        rw [map_cons, kind, demand?, Option.map_eq_none_iff] at later
        rw [foldChecksFrom_moves_some kind, ih _ others fun _ => later]
    | ends => rw [foldChecksFrom_ends kind, closed]

lemma foldChecks_single (single : Single code) : foldChecks (mark code) = code := by
  have whole := foldChecksFrom_single none (mark code) (by rwa [map_fst_mark]) nofun
  rw [foldChecks, whole, map_fst_mark]

/-! Seeks are tidied alike before and after checks are folded. -/

lemma branchMarks_congr (same : code'.map Instr.targets = code.map Instr.targets) :
    Program.branchMarks code' = Program.branchMarks code := by
  have length : code'.length = code.length := by simpa using congrArg List.length same
  rw [Program.branchMarks, Program.branchMarks, length, flatMap_def, flatMap_def, same]

lemma foldHead_fst_congr (run : Option UInt32) (i : Instr Nat) {after after' : UInt32 × Instrs}
    (same : after.1 = after'.1) : (foldHead run i after).1 = (foldHead run i after').1 := by
  unfold foldHead
  cases run <;> cases paceOf i <;> simp [same]

lemma folded_targets (run : Option UInt32) (i : Instr Nat) (need : UInt32) :
    (folded run i need).targets = i.targets := by
  unfold folded
  cases kind : paceOf i with
  | asks n =>
    cases paceOf_eq_asks kind
    cases run <;> rfl
  | _ => cases run <;> rfl

lemma folded_eq_seek {run : Option UInt32} {need : UInt32} {dst src : Reg}
    {off : Int32} (seek : folded run i need = .seek dst src off) : i = .seek dst src off := by
  unfold folded at seek
  cases kind : paceOf i with
  | asks n =>
    rw [kind] at seek
    cases run <;> cases seek
  | _ =>
    rw [kind] at seek
    cases run <;> exact seek

lemma map_targets_foldChecksFrom (run : Option UInt32) (code : Marked) :
    (foldChecksFrom run code).2.map Instr.targets = (code.map Prod.fst).map Instr.targets := by
  induction code generalizing run with
  | nil => rfl
  | cons head rest ih =>
    obtain ⟨i, marked⟩ := head
    rw [foldChecksFrom_cons, foldHead_snd, map_cons, map_cons, map_cons, ih, folded_targets]

lemma mark_foldChecks (code : Instrs) : mark (foldChecks (mark code)) =
      (foldChecks (mark code)).zip (Program.branchMarks code).toList := by
  have same := map_targets_foldChecksFrom none (mark code)
  rw [map_fst_mark, ← foldChecks] at same
  rw [mark, branchMarks_congr same]

lemma map_targets_dropSelfSeeks (code : Instrs) : (dropSelfSeeks code).map Instr.targets = code.map Instr.targets := by
  rw [dropSelfSeeks_eq_map, map_map]
  refine map_congr_left fun i _ => ?_
  rcases withoutSelfSeek_cases i with same | ⟨reg, rfl, nop⟩
  · simp [same]
  · simp [nop, Instr.targets]

lemma map_targets_joinSeeksFrom (op : Instr Nat) (rest : Marked) :
    (joinSeeksFrom op rest).map Instr.targets = op.targets :: (rest.map Prod.fst).map Instr.targets := by
  induction rest generalizing op with
  | nil => rfl
  | cons head rest ih =>
    obtain ⟨i, marked⟩ := head
    rcases joinSeeksFrom_cases op i marked rest with now | ⟨joined, both, later⟩
    · rw [now, map_cons, ih]
      rfl
    · obtain ⟨d₁, s₁, o₁, o₂, off, rfl, rfl, rfl, _⟩ := joinSeeks?_eq_some both
      rw [later, map_cons, ih]
      rfl

lemma map_targets_joinSeeks (code : Instrs) : (joinSeeks (mark code)).map Instr.targets = code.map Instr.targets := by
  have whole := map_fst_mark code
  cases marked : mark code with
  | nil =>
    rw [marked] at whole
    rw [← whole]
    rfl
  | cons head rest =>
    rw [marked] at whole
    rw [← whole]
    exact map_targets_joinSeeksFrom head.1 rest

lemma foldChecksFrom_dropSelfSeeks (run : Option UInt32) (code : Marked) :
    foldChecksFrom run (code.map fun head => (withoutSelfSeek head.1, head.2)) =
      ((foldChecksFrom run code).1, (foldChecksFrom run code).2.map withoutSelfSeek) := by
  induction code generalizing run with
  | nil => rfl
  | cons head rest ih =>
    obtain ⟨i, marked⟩ := head
    have paces : paceOf (withoutSelfSeek i) = paceOf i := by
      rw [paceOf_eq, paceOf_eq, pace_withoutSelfSeek]
    rw [map_cons, foldChecksFrom_cons, foldChecksFrom_cons, openBehind, paces, ← openBehind, ih]
    generalize (if marked then none else run) = run
    unfold foldHead
    rw [paces]
    cases run <;> cases paceOf i <;> rfl

lemma foldChecks_dropSelfSeeks (code : Instrs) :
    foldChecks (mark (dropSelfSeeks code)) = dropSelfSeeks (foldChecks (mark code)) := by
  have marks : mark (dropSelfSeeks code) = (mark code).map fun head => (withoutSelfSeek head.1, head.2) := by
    rw [mark, branchMarks_congr (map_targets_dropSelfSeeks code), dropSelfSeeks_eq_map, mark, zip_map_left]
    rfl
  rw [foldChecks, marks, foldChecksFrom_dropSelfSeeks, dropSelfSeeks_eq_map, foldChecks]

/-- A seek stands where it stood, and what is joined before folding is joined after it. -/
lemma foldChecksFrom_joinSeeksFrom (op : Instr Nat) (marked : Bool) (rest : Marked) (run : Option UInt32) :
    foldChecksFrom run ((joinSeeksFrom op rest).zip (marked :: rest.map Prod.snd)) =
      ((foldChecksFrom run ((op, marked) :: rest)).1,
        joinSeeks ((foldChecksFrom run ((op, marked) :: rest)).2.zip (marked :: rest.map Prod.snd))) := by
  induction rest generalizing op marked run with
  | nil =>
    rw [foldChecksFrom_cons]
    simp only [joinSeeksFrom, map_nil, zip_cons_cons, zip_nil_left, foldChecksFrom_cons]
    exact Prod.ext rfl (by rw [foldHead_snd]; rfl)
  | cons head rest ih =>
    obtain ⟨i, lead⟩ := head
    generalize isBefore : (if marked then none else run) = before
    have whole := foldChecksFrom_cons run op marked ((i, lead) :: rest)
    have inner := foldChecksFrom_cons (openBehind before op) i lead rest
    have tidied := foldChecksFrom_cons run
    rw [isBefore] at whole
    rcases joinSeeksFrom_cases op i lead rest with now | ⟨joined, both, later⟩
    · -- nothing is joined here, and folding makes no seeks
      have hyp := ih i lead (openBehind before op)
      rw [now, map_cons, zip_cons_cons, tidied, isBefore, hyp, whole]
      generalize foldChecksFrom (openBehind before op) ((i, lead) :: rest) = folds at inner ⊢
      refine Prod.ext (foldHead_fst_congr _ _ rfl) ?_
      have shape := congrArg Prod.snd inner
      rw [foldHead_snd] at shape
      simp only [foldHead_snd, shape, zip_cons_cons, joinSeeks]
      generalize (if lead then none else openBehind before op) = next
      generalize foldChecksFrom (openBehind next i) rest = tail
      rcases joinSeeksFrom_cases (folded before op folds.1) (folded next i tail.1) lead
          (tail.2.zip (rest.map Prod.snd)) with apart | ⟨joined, both, later⟩
      · exact apart.symm
      · exfalso
        obtain ⟨dst, src, a, b, c, seek₁, seek₂, _⟩ := joinSeeks?_eq_some both
        have isOp := folded_eq_seek seek₁
        have isNext := folded_eq_seek seek₂
        cases lead with
        | true =>
          rw [joinSeeksFrom, if_pos rfl, seek₁] at later
          cases later
        | false =>
          rw [seek₁, seek₂, ← isOp, ← isNext] at both
          rw [joinSeeksFrom, if_neg Bool.false_ne_true, both, isOp] at now
          cases now
    · -- two seeks are joined; neither ends the run or moves the cursor
      have unmarked : lead = false := by
        cases lead with
        | false => rfl
        | true =>
          obtain ⟨dst, src, a, b, c, rfl, _⟩ := joinSeeks?_eq_some both
          rw [joinSeeksFrom, if_pos rfl] at later
          cases later
      obtain ⟨dst, src, a, b, c, rfl, rfl, rfl, _⟩ := joinSeeks?_eq_some both
      subst unmarked
      have hyp := ih (.seek dst src c) false (openBehind before (.nop : Instr Nat))
      rw [foldChecksFrom_cons] at hyp
      rw [later, map_cons, zip_cons_cons, tidied, isBefore, hyp, whole, inner]
      simp only [Bool.false_eq_true, if_false]
      have still : ∀ (d s : Reg) (o : Int32) (r : Option UInt32),
          openBehind r (.seek d s o : Instr Nat) = openBehind r (.nop : Instr Nat) := fun _ _ _ _ => rfl
      simp only [still]
      generalize foldChecksFrom (openBehind (openBehind before (.nop : Instr Nat)) (.nop : Instr Nat)) rest = tail
      have seeks : ∀ (d s : Reg) (o : Int32) (r : Option UInt32) (after : UInt32 × Instrs),
          foldHead r (.seek d s o) after = ((r.map fun _ => after.1).getD 0, .seek d s o :: after.2) :=
        fun _ _ _ r _ => by cases r <;> rfl
      have nops : ∀ (r : Option UInt32) (after : UInt32 × Instrs),
          foldHead r .nop after = ((r.map fun _ => after.1).getD 0, .nop :: after.2) :=
        fun r _ => by cases r <;> rfl
      rw [nops, seeks, seeks, seeks]
      refine Prod.ext rfl ?_
      simp only [zip_cons_cons, joinSeeks]
      rw [joinSeeksFrom, if_neg Bool.false_ne_true, both]

lemma foldChecks_joinSeeks (code : Instrs) :
    foldChecks (mark (joinSeeks (mark code))) = joinSeeks (mark (foldChecks (mark code))) := by
  have marks : mark (joinSeeks (mark code)) = (joinSeeks (mark code)).zip ((mark code).map Prod.snd) := by
    rw [mark, branchMarks_congr (map_targets_joinSeeks code)]
    nth_rewrite 3 [mark]
    rw [map_snd_zip (le_of_eq (length_branchMarks code))]
  rw [foldChecks, marks, mark_foldChecks]
  have snds : (mark code).map Prod.snd = (Program.branchMarks code).toList :=
    map_snd_zip (le_of_eq (length_branchMarks code))
  rw [← snds]
  cases mark code with
  | nil => rfl
  | cons head rest =>
    obtain ⟨i, marked⟩ := head
    exact congrArg Prod.snd (foldChecksFrom_joinSeeksFrom i marked rest none)

/-! Rounds. -/

def tidySeeks (code : Instrs) : Instrs :=
  dropSelfSeeks (joinSeeks (mark (dropSelfSeeks code)))

lemma foldChecks_tidySeeks (code : Instrs) :
    foldChecks (mark (tidySeeks code)) = tidySeeks (foldChecks (mark code)) := by
  rw [tidySeeks, foldChecks_dropSelfSeeks, foldChecks_joinSeeks, foldChecks_dropSelfSeeks, tidySeeks]

lemma map_pace_tidySeeks (code : Instrs) : (tidySeeks code).map pace = code.map pace := by
  have joined := map_pace_joinSeeks (mark (dropSelfSeeks code))
  rw [map_fst_mark] at joined
  rw [tidySeeks, map_pace_dropSelfSeeks, joined, map_pace_dropSelfSeeks]

lemma lawful_tidySeeks (lawful : Lawful rules code) : Lawful rules (tidySeeks code) := by
  have dropped := lawful.of_variants (variants_dropSelfSeeks code)
  have variants := variants_joinSeeks (mark (dropSelfSeeks code))
  rw [map_fst_mark] at variants
  exact (dropped.of_variants variants).of_variants (variants_dropSelfSeeks _)

lemma repeats_tidySeeks (lawful : Lawful rules code) : Repeats table caller p code (tidySeeks code) :=
  (repeats_dropSelfSeeks.trans (repeats_joinSeeks (lawful.of_variants
    (variants_dropSelfSeeks code)))).trans repeats_dropSelfSeeks

def Wordless (code : Instrs) : Prop := ∀ i ∈ code, ¬ IsWrite i

lemma shortenWritesFrom_wordless (code : Marked) (wordless : Wordless (code.map Prod.fst)) :
    shortenWritesFrom [] code = code.map Prod.fst := by
  induction code with
  | nil => rfl
  | cons head rest ih =>
    obtain ⟨i, marked⟩ := head
    rw [map_cons] at wordless ⊢
    obtain ⟨own, others⟩ := List.forall_mem_cons.mp wordless
    rw [shortenWritesFrom_other own, ih others]
    rfl

lemma shortenWrites_wordless (wordless : Wordless code) : shortenWrites (mark code) = code := by
  rw [shortenWrites, shortenWritesFrom_wordless _ (by rwa [map_fst_mark]), map_fst_mark]

lemma ofKind_wordless : OfKind fun i => ¬ IsWrite i :=
  ⟨nofun, nofun, nofun, fun width value _ _ other => absurd ⟨width, value, rfl⟩ other, fun i _ other => by
      rintro ⟨width, value, same⟩
      cases i <;> cases same
      exact other ⟨_, _, rfl⟩⟩

lemma tidy_wordless (wordless : Wordless code) : tidy code = tidySeeks (foldChecks (mark code)) := by
  have seeks : Wordless (tidySeeks code) := all_dropSelfSeeks ofKind_wordless
    (all_joinSeeks ofKind_wordless (all_dropSelfSeeks ofKind_wordless wordless))
  have checks : Wordless (foldChecks (mark (tidySeeks code))) :=
    all_foldChecksFrom ofKind_wordless none (mark _) (by rwa [map_fst_mark])
  rw [← foldChecks_tidySeeks]
  exact shortenWrites_wordless checks

lemma single_filter_kept (single : Single code) : Single (code.filter kept) := by
  induction code with
  | nil => exact single
  | cons i rest ih =>
    obtain ⟨own, others⟩ := single_cons.mp single
    rw [filter_cons]
    split
    · refine single_cons.mpr ⟨fun n check => ?_, ih others⟩
      rw [demand_filter_kept]
      exact own n check
    · exact ih others

lemma single_compacted (single : Single code) : Single (compacted code) := by
  refine single_of_map_pace ?_ (single_filter_kept single)
  rw [compacted, map_map]
  exact map_congr_left fun i _ => pace_mapTargets _ i

lemma repeats_of_single (rounds : Nat) (lawful : Lawful rules code) (wordless : Wordless code) (single : Single code)
    (done : optimizeWithin rounds code = .ok code') : Repeats table caller p code code' := by
  induction rounds generalizing code with
  | zero =>
    cases done
    exact .refl
  | succ rounds ih =>
    have tidied := tidy_wordless wordless
    rw [foldChecks_single single] at tidied
    have lawful' := lawful_tidySeeks lawful
    simp only [optimizeWithin, tidied, compact_eq_ok lawful', bind, Except.bind] at done
    split at done
    · cases done
      exact .refl
    · have keeps : Wordless (compacted (tidySeeks code)) :=
        tidied ▸ all_compacted ofKind_wordless (all_tidy ofKind_wordless wordless)
      exact ((repeats_tidySeeks lawful).trans (repeats_compacted lawful')).trans (ih (lawful_compacted lawful') keeps
          (single_compacted (single_of_map_pace (map_pace_tidySeeks code) single)) done)

/-- The pass repeats the runs of the code with its checks folded. -/
lemma repeats_optimizeWithin (rounds : Nat) (lawful : Lawful rules code) (wordless : Wordless code)
    (single : Single (foldChecks (mark code))) {code' : Instrs} (done : optimizeWithin (rounds + 1) code = .ok code') :
    Repeats table caller p (foldChecks (mark code)) code' := by
  have checked : Lawful rules (foldChecks (mark code)) := lawful.of_variants (variants_foldChecks code)
  have lawful' := lawful_tidySeeks checked
  have first : Repeats table caller p (foldChecks (mark code)) (compacted (tidySeeks (foldChecks (mark code)))) :=
    (repeats_tidySeeks checked).trans (repeats_compacted lawful')
  simp only [optimizeWithin, tidy_wordless wordless, compact_eq_ok lawful', bind, Except.bind] at done
  split at done
  · rename_i same
    cases done
    rwa [same] at first
  · have keeps : Wordless (compacted (tidySeeks (foldChecks (mark code)))) :=
      tidy_wordless wordless ▸ all_compacted ofKind_wordless (all_tidy ofKind_wordless wordless)
    exact first.trans (repeats_of_single rounds (lawful_compacted lawful') keeps
      (single_compacted (single_of_map_pace (map_pace_tidySeeks _) single)) done)

end WireCodec.Peephole
