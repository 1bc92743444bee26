import WireCodec.Proofs.Schema.Alignment
import WireCodec.Proofs.Session.Evaluation

/-! Compiling never meets a fatal error, whatever schema is asked for. -/
namespace WireCodec.Lowering

lemma checks_compile {known : Registry} (sound : known.Sound) (entries : known.EntriesFit)
    (options : Options) (job : Job) {t : TypeDesc} (has : known.Has t) :
    Checks known Failure.IsIssue (compile (options.setting known) t job) fun p =>
      verifyCode Builtin.table p.code.toList = .ok () := by
  cases found : t.recordType known with
  | error issue =>
    intro table
    rw [compile, show t.recordType (options.setting known).known = .error issue from found]
    exact ⟨⟨issue, rfl⟩, id⟩
  | ok record =>
    have made := @orderly_recordBody known options job _ (foresees_issues sound entries) record
      (sound.recordType has found) 0
    rw [compile, show t.recordType (options.setting known).known = .ok record from found]
    refine made.bind fun body fine => ?_
    rw [Nat.zero_add] at fine
    dsimp only
    rw [show verifyCode (options.setting known).handles (finish body) = .ok () from verifyCode_finish fine]
    exact checks_pure (by simpa using verifyCode_finish fine)

/-- For a type of any schema, compiling ends with a program or with a fault of the schema, whatever the job and the
options. The program passes the check and is tidied into one that passes it, for which machine code can be made. -/
theorem compile_never_fatal {known : Registry} (built : known.Built) (sizes : ∀ t, known.Has t → t.size.toNat < 2 ^ 31)
    {t : TypeDesc} (has : known.Has t) (job : Job) (options : Options) (table : TypeTable) :
    (∃ issue table', compile (options.setting known) t job table = .error (.cause (.unsupported issue)) table') ∨ ∃ p
    table', compile (options.setting known) t job table = .ok p table' ∧ verifyCode Builtin.table p.code.toList = .ok ()
    ∧ ∃ q, p.optimize = .ok q ∧ verifyCode Builtin.table q.code.toList = .ok () ∧ ∃ code, q.native Builtin.table
    .default = .ok code := by
  have settles := checks_compile built.sound (built.entriesFit sizes) options job has table
  cases result : compile (options.setting known) t job table with
  | error failure table' =>
    rw [result] at settles
    obtain ⟨issue, rfl⟩ := settles.1
    exact .inl ⟨issue, table', rfl⟩
  | ok p table' =>
    rw [result] at settles
    obtain ⟨q, tidied, _, checked, _⟩ := Program.optimize_eq_ok settles.1
    obtain ⟨code, made, _⟩ := Program.native_ok checked .numbered
    exact .inr ⟨p, table', rfl, settles.1, q, tidied, checked, code, made⟩

/-- A chain is decoded by a program for which machine code can be made. -/
theorem compile_never_fatal_chain : ∃ p table', compile (Options.default.setting Chain.schema) Chain.node .decode .empty
    = .ok p table' ∧ ∃ q code, p.optimize = .ok q ∧ q.native Builtin.table .default = .ok code := by
  have usable := Chain.regular.usable Chain.entriesFit
  obtain ⟨_, _, succeeds⟩ := (compileTidy_decides .default (foresees_none usable) (fun _ failed => by cases failed)
    Chain.has_node .decode).resolve_left fun ⟨_, no, _⟩ => no
  obtain ⟨_, _, tidied, _⟩ := succeeds .empty (TypeTable.sound_empty _)
  obtain ⟨_, _, ok, _⟩ := lower_bind.mp tidied
  rcases compile_never_fatal Chain.built Chain.size_lt Chain.has_node .decode .default .empty with
    ⟨_, _, failed⟩ | ⟨p, table', made, _, q, tidied, _, code, native⟩
  · cases failed.symm.trans ok
  · exact ⟨p, table', made, q, code, tidied, native⟩

end WireCodec.Lowering
