import WireCodec.Proofs.Lowering.Bounds
import WireCodec.Proofs.Lowering.DecodeRecord
import WireCodec.Proofs.Lowering.Replay
import WireCodec.Proofs.Peephole.Exact

/-! The programs of a session. Each is the finished code of its record, tidied; a run of it is a
run of that code with its checks folded where the code counts or reads, and may come to the end of
the wire sooner where it writes. -/
namespace WireCodec

open Machine Lowering Peephole

variable {table' table : TypeTable} {i : Instr Nat} {t : TypeDesc} {start : Nat} {c : Context}

namespace Lowering

variable {known : Registry} {options : Options} {job : Job} {record : TypeDesc} {p : Program} {s : Setting}

def recordBody (options : Options) (known : Registry) (job : Job) (record : TypeDesc) : Piece :=
  recordPiece (options.setting known) job (fun _ => nestedPiece (options.setting known) job options.maxInlineDepth) record

lemma orderly_recordBody {bad : Failure → Prop} (foresees : Foresees known bad) {record : TypeDesc}
    (has : known.Has record) : Orderly known job bad (recordBody options known job record) :=
  @orderly_recordPiece bad _ (options.setting known) foresees job
    (@orderlyNested_nestedPiece bad (options.setting known) foresees job _) record has

/-- A program is the finished code of its record, tidied. -/
structure IsProgram (options : Options) (known : Registry) (job : Job) (record : TypeDesc)
    (table table' : TypeTable) (body : Code) (p : Program) : Prop where
  made : recordBody options known job record 0 table = .ok body table'
  fine : CodeFine job 0 body.length body
  sound : table'.Sound known
  tidied : (Program.mk record.name job (finish body).toArray).optimize = .ok p

lemma IsProgram.within {body : Code}
    (isProgram : IsProgram options known job record table table' body p) : table.Within table' := by
  have made := isProgram.made
  unfold recordBody at made
  exact Grows.of_ok made

section Decides

variable {α β : Type} {x : LowerM α} {g : α → LowerM β} {f : Failure} {holds : TypeTable → α → TypeTable → Prop}

lemma Fails.bind (fails : Fails known x f) : Fails known (x >>= g) f := by
  intro table sound
  obtain ⟨table', failed, kept⟩ := fails table sound
  refine ⟨table', ?_, kept⟩
  change EStateM.bind x g table = _
  rw [EStateM.bind, failed]

lemma Succeeds.fails (succeeds : Succeeds known x holds) (fails : ∀ a, Fails known (g a) f) :
    Fails known (x >>= g) f := by
  intro table sound
  obtain ⟨a, mid, ok, within, sound', _⟩ := succeeds table sound
  obtain ⟨table', failed, within', sound''⟩ := fails a mid sound'
  refine ⟨table', ?_, within.trans within', sound''⟩
  change EStateM.bind x g table = _
  rw [EStateM.bind, ok]
  exact failed

end Decides

lemma compile_eq (isRecord : t.recordType known = .ok record) : compile (options.setting known) t job =
    recordBody options known job record 0 >>= fun body =>
      match verifyCode Builtin.table (finish body) with
      | .ok () => pure ⟨record.name, job, (finish body).toArray⟩
      | .error e => throw (.cause e) := by
  unfold compile
  rw [show (options.setting known).known = known from rfl, isRecord]
  rfl

/-- Making a program fails, always for one reason, or gives the program of the record. -/
lemma compileTidy_decides (options : Options) {bad : Failure → Prop} (foresees : Foresees known bad)
    (refused : ∀ issue, t.recordType known = .error issue → bad (.cause (.unsupported issue))) (has : known.Has t)
    (job : Job) : (∃ f, bad f ∧ Fails known (compileTidy (options.setting known) t job) f) ∨
    ∃ record, t.recordType known = .ok record ∧ Succeeds known (compileTidy (options.setting known) t job)
      fun table p table' => ∃ body, IsProgram options known job record table table' body p := by
  cases isRecord : t.recordType known with
  | error issue =>
    refine .inl ⟨.cause (.unsupported issue), refused issue isRecord, fun table sound => ⟨table, ?_, .refl _, sound⟩⟩
    simp only [compileTidy, compile, Options.setting, isRecord]
    rfl
  | ok record =>
    have orderly := @orderly_recordBody known options job _ foresees record
      (foresees.sound.recordType has isRecord) 0
    have copies := copies_recordPiece (nestedPiece (options.setting known) job options.maxInlineDepth)
      record (options.setting known) job
    obtain ⟨_, r, twin⟩ := copies 0
    have grows : Grows (recordBody options known job record 0) := by
      unfold recordBody
      infer_instance
    cases r with
    | error f =>
      have failed : ∀ table, ∃ table', recordBody options known job record 0 table = .error f table' := by
        intro table
        rcases twin.cases table with ⟨_, table', is, failed⟩ | ⟨_, _, no, _⟩
        · cases is
          exact ⟨table', failed⟩
        · cases no
      have fails : Fails known (recordBody options known job record 0) f := by
        intro table sound
        obtain ⟨table', failed⟩ := failed table
        have kept := (orderly table).2 sound
        have within := grows.within table
        rw [failed] at kept within
        exact ⟨table', failed, within, kept⟩
      refine .inl ⟨f, ?_, ?_⟩
      · obtain ⟨_, failed⟩ := failed .empty
        have foreseen := (orderly .empty).1
        rwa [failed] at foreseen
      · unfold compileTidy
        rw [compile_eq isRecord]
        exact fails.bind.bind
    | ok n =>
      refine .inr ⟨record, rfl, fun table sound => ?_⟩
      rcases twin.cases table with ⟨_, _, no, _⟩ | ⟨body, table', _, made⟩
      · cases no
      have made : recordBody options known job record 0 table = .ok body table' := made
      have settles := orderly table
      rw [made] at settles
      have fine : CodeFine job 0 body.length body := by simpa using settles.1
      have checked := verifyCode_finish fine
      obtain ⟨p, tidied, _⟩ :=
        @Program.optimize_eq_ok Builtin.table ⟨record.name, job, (finish body).toArray⟩ (by simpa using checked)
      refine ⟨p, table', ?_, Grows.of_ok made, settles.2 sound, body, made, fine, settles.2 sound, tidied⟩
      refine lower_bind.mpr ⟨⟨record.name, job, (finish body).toArray⟩, table', ?_, ?_⟩
      · rw [compile_eq isRecord]
        refine lower_bind.mpr ⟨body, table', made, ?_⟩
        rw [checked]
        rfl
      · rw [tidied]
        rfl

lemma loadNative_table {info : FunctionInfo} (ok : loadNative s p table = .ok info table') : table' = table := by
  unfold loadNative at ok
  cases made : p.native s.handles .default with
  | error e =>
    rw [made] at ok
    cases e <;> cases ok
  | ok native =>
    rw [made] at ok
    cases loaded : native.load native.code.length with
    | error e =>
      simp only [loaded] at ok
      cases ok
    | ok info =>
      simp only [loaded] at ok
      cases ok
      rfl

lemma compileFor_tidy {backend : Backend}
    {compiled : CompiledProgram} (ok : compileFor s backend t job table = .ok compiled table') :
    compileTidy s t job table = .ok compiled.program table' := by
  obtain ⟨p, mid, tidied, done⟩ := lower_bind.mp ok
  cases backend with
  | interpreter =>
    cases done
    exact tidied
  | native =>
    obtain ⟨info, last, loaded, done⟩ := lower_bind.mp done
    cases done
    rw [loadNative_table loaded]
    exact tidied

lemma isProgram_of_ok (sound : known.Sound) (has : known.Has t) (soundTable : table.Sound known)
    (ok : compileTidy (options.setting known) t job table = .ok p table') :
    ∃ record body, t.recordType known = .ok record ∧ IsProgram options known job record table table' body p := by
  rcases compileTidy_decides options (foresees_all sound) (fun _ _ => .inl ⟨_, rfl⟩) has job with ⟨f, _, fails⟩ | ⟨record, isRecord, succeeds⟩
  · obtain ⟨_, failed, _⟩ := fails table soundTable
    cases failed.symm.trans ok
  · obtain ⟨q, last, made, _, _, body, isProgram⟩ := succeeds table soundTable
    cases made.symm.trans ok
    exact ⟨record, body, isRecord, isProgram⟩

lemma isProgram_of_compile (sound : known.Sound) (has : known.Has t) (soundTable : table.Sound known) {set : CodecSet}
    (ok : options.compile known t table = .ok set table') (job : Job) : set.type = t ∧
    ∃ target first last body, t.recordType known = .ok target ∧ first.Sound known ∧ last.Within table' ∧
      IsProgram options known job target first last body (set.compiled job).program := by
  obtain ⟨measure, mid₁, ok₁, rest⟩ := lower_bind.mp ok
  obtain ⟨encode, mid₂, ok₂, rest⟩ := lower_bind.mp rest
  obtain ⟨decode, mid₃, ok₃, rest⟩ := lower_bind.mp rest
  cases rest
  obtain ⟨target, body₁, isTarget, measured⟩ := isProgram_of_ok sound has soundTable (compileFor_tidy ok₁)
  obtain ⟨_, body₂, isTarget₂, encoded⟩ := isProgram_of_ok sound has measured.sound (compileFor_tidy ok₂)
  obtain ⟨_, body₃, isTarget₃, decoded⟩ := isProgram_of_ok sound has encoded.sound (compileFor_tidy ok₃)
  obtain rfl := Except.ok.inj (isTarget.symm.trans isTarget₂)
  obtain rfl := Except.ok.inj (isTarget.symm.trans isTarget₃)
  refine ⟨rfl, target, ?_⟩
  cases job with
  | measure => exact ⟨_, _, _, isTarget, soundTable, encoded.within.trans decoded.within, measured⟩
  | encode => exact ⟨_, _, _, isTarget, measured.sound, decoded.within, encoded⟩
  | decode => exact ⟨_, _, _, isTarget, encoded.sound, .refl _, decoded⟩

end Lowering

namespace Lowering

/-- The code of a job as its runs show it: where it reads, with its checks folded. -/
def folded (job : Job) (body : Code) : Code :=
  match job with
  | .decode => (fold nothing none body).2
  | .measure | .encode => body

def shown (job : Job) (piece : Piece) : Piece :=
  match job with
  | .decode => foldFrom none piece
  | .measure | .encode => piece

lemma shown_eq_ok {job : Job} {piece : Piece} {made : Code}
    (ok : piece start table = .ok made table') : shown job piece start table = .ok (folded job made) table' := by
  cases job with
  | measure => exact ok
  | encode => exact ok
  | decode => exact foldFrom_eq_ok.mpr ⟨made, ok, rfl⟩

lemma shown_congr {job : Job} {piece piece' : Piece}
    (same : piece start = piece' start) : shown job piece start = shown job piece' start := by
  cases job with
  | measure => exact same
  | encode => exact same
  | decode => simp only [shown, foldFrom, same]

lemma targets_folded (job : Job) (body : Code) : (folded job body).map Instr.targets = body.map Instr.targets := by
  cases job with
  | measure => rfl
  | encode => rfl
  | decode => exact targets_fold _ _ _

lemma length_folded (job : Job) (body : Code) : (folded job body).length = body.length := by
  cases job with
  | measure => rfl
  | encode => rfl
  | decode => exact length_fold _ _ _

variable {known : Registry} {options : Options} {job : Job}

lemma enclosed_deferral (job : Job) (t : TypeDesc) : Enclosed (deferral job t) := by
  refine ⟨fun run => shuts_withM fun index => shuts_code rfl, hushed_withM fun index => hushed_code ?_,
    fun run => landsIn_withM fun index => landsIn_code (by simp [Instr.targets])⟩
  exact quiet_unchecked (by simp [paceOf, Instr.mapTargets, pace, runDelta?, Instr.cursorDelta?, isCursorNeutral])

lemma enclosed_decodeRecord (sound : known.Sound) {nested : Spots (TypeDesc → Piece)}
    (inner : EnclosedNested known nested) (has : known.Has t) : Enclosed (decodeRecord known nested t) := by
  by_cases tracked : t.fields.length ≤ maxTracked
  · rw [decodeRecord_eq tracked]
    exact enclosed_recordOf fun i field mem =>
      landsIn_decodeField sound (fun way => inner (i :: way)) (sound.field has mem)
  · have refused : ∀ start table made table', decodeRecord known nested t start table ≠ .ok made table' := by
      intro start table made table' ok
      rw [decodeRecord, if_pos (Nat.lt_of_not_le tracked)] at ok
      cases ok
    exact ⟨fun _ _ _ _ _ ok => absurd ok (refused _ _ _ _), fun _ _ _ _ ok => absurd ok (refused _ _ _ _),
      fun _ _ _ _ _ ok => absurd ok (refused _ _ _ _)⟩

/-- A piece that is made like one of two others. -/
lemma Enclosed.of_either {piece first second : Piece} (one : Enclosed first) (other : Enclosed second)
    (either : ∀ start, piece start = first start ∨ piece start = second start) : Enclosed piece := by
  refine ⟨fun run start table made table' ok => ?_, fun start table made table' ok => ?_,
    fun run start table made table' ok => ?_⟩ <;> rcases either start with same | same <;>
    rw [same] at ok
  · exact one.shuts run start table made table' ok
  · exact other.shuts run start table made table' ok
  · exact one.hushed start table made table' ok
  · exact other.hushed start table made table' ok
  · exact one.lands run start table made table' ok
  · exact other.lands run start table made table' ok

lemma enclosedNested_nestedPiece (sound : known.Sound) (levels : Nat) :
    EnclosedNested known fun _ => nestedPiece (options.setting known) .decode levels := by
  induction levels with
  | zero => exact fun _ record _ => enclosed_deferral .decode record
  | succ levels ih =>
    intro _ record has
    refine .of_either (enclosed_deferral .decode record) (enclosed_decodeRecord sound ih has) fun start => ?_
    dsimp only [nestedPiece]
    split
    · exact .inl rfl
    · exact .inr rfl

lemma enclosed_refusal (f : Failure) : Enclosed fun _ => throw f :=
  ⟨fun _ _ _ _ _ ok => (by cases ok), fun _ _ _ _ ok => (by cases ok), fun _ _ _ _ _ ok => (by cases ok)⟩

lemma enclosed_pin {piece : Piece} (enclosed : Enclosed piece) (place : Nat) : Enclosed (pin place piece) := by
  refine .of_either enclosed (enclosed_refusal .overflow) fun start => ?_
  unfold pin
  split
  · exact .inl rfl
  · exact .inr rfl

end Lowering

section Run

variable {known : Registry} {options : Options} {job : Job} {record : TypeDesc}
  {table table' : TypeTable} {body : Code} {p : Program}

def Site.ofBody (known : Registry) (options : Options) (depth : Nat) (record : TypeDesc) (job : Job)
    (body : Code) : Site :=
  .finished known options depth record.name job (folded job body) (job ≠ .encode)

lemma Site.has_ofBody (fine : CodeFine job 0 body.length body) (depth : Nat) :
    (Site.ofBody known options depth record job body).Has 0 (folded job body) := by
  refine has_finished fun i mem d target => ?_
  have listed : i.targets ∈ (folded job body).map Instr.targets := List.mem_map_of_mem mem
  rw [targets_folded] at listed
  obtain ⟨j, mem', same⟩ := List.mem_map.mp listed
  rw [length_folded]
  exact (fine j mem').2 d (same ▸ target)

lemma ofKind_spares {σ : Type} {table : HandleTable} {caller : Caller σ} : OfKind (Instr.Spares table caller) where
  nop := trivial
  seek _ _ _ := trivial
  check _ _ _ := trivial
  literal _ _ _ _ _ := trivial
  targets i _ own := by cases i <;> exact own

lemma checkSet_sends (clean : c.Clean) (elem : TypeDesc) (data count : UInt32) (s : Session) :
    (c.checkSet known elem data count s).Sends c := by
  unfold Context.checkSet
  split
  · exact clean.sends rfl rfl rfl rfl
  · exact clean.sends_fail _
  · exact clean.sends rfl rfl rfl rfl
  · exact clean.sends rfl rfl rfl rfl
  · exact clean.sends_raise _

lemma Reply.Sends.single {reply : Reply Session} (sends : reply.Sends c) : reply.single.Sends c := by
  cases reply <;> exact sends

lemma Site.spares_of_allows {E : Site} (sameJob : E.program.job = .encode)
    (allowed : Job.encode.allows i = true ∨ i = .halt) : i.Spares Builtin.table E.caller := by
  rcases allowed with allowed | rfl
  · cases i with
    | call id args rets =>
      intro h words c s reply found clean replied
      rcases (by simpa [Job.allows] using (Bool.and_eq_true_iff.mp allowed).2 : id = Builtin.setCheck ∨ id = Builtin.defer)
        with rfl | rfl <;> cases found
      · have replied := E.answer_of_caller replied
        unfold Session.answer Handle.answer at replied
        split at replied
        · cases replied
          trivial
        · obtain ⟨inner, ran, rfl⟩ := Option.map_eq_some_iff.mp replied
          simp only [Routine.answer] at ran
          split at ran <;> cases ran
          · exact (checkSet_sends clean _ _ _ _).single
          · exact clean.sends_raise _
      · exact E.sends_of_caller rfl sameJob replied
    | _ => trivial
  · trivial

lemma Program.optimize_code {q : Program} (ok : p.optimize = .ok q) :
    optimizeWithin maxRounds p.code.toList = .ok q.code.toList := by
  unfold Program.optimize at ok
  cases done : optimizeWithin maxRounds p.code.toList with
  | error e =>
    rw [done] at ok
    cases ok
  | ok code =>
    rw [done] at ok
    cases ok
    simp

namespace Lowering.IsProgram

lemma allows (isProgram : IsProgram options known job record table table' body p)
    (mem : i ∈ finish body) : job.allows i = true ∨ i = .halt :=
  allows_finish (fun j listed => (isProgram.fine j listed).1) mem

lemma wordless (isProgram : IsProgram options known job record table table' body p)
    (exact : job ≠ .encode) : Wordless (finish body) := by
  rintro i mem ⟨width, value, rfl⟩
  rcases isProgram.allows mem with allowed | isHalt
  · cases job with
    | encode => exact exact rfl
    | measure => cases allowed
    | decode => cases allowed
  · cases isHalt

variable (sound : known.Sound) (has : known.Has record)
include sound has

lemma foldChecks_eq (isProgram : IsProgram options known job record table table' body p) (exact : job ≠ .encode) :
    foldChecks (mark (finish body)) = finish (folded job body) ∧ Single (finish (folded job body)) := by
  cases job with
  | encode => exact absurd rfl exact
  | measure =>
    have single : Single (finish body) := by
      intro k n at_
      rcases isProgram.allows (List.mem_of_getElem? at_) with allowed | isHalt
      · cases allowed
      · cases isHalt
    exact ⟨foldChecks_single single, single⟩
  | decode =>
    have lands := (enclosed_decodeRecord sound (enclosedNested_nestedPiece sound _) has).lands none
      0 table body table' isProgram.made
    refine ⟨foldChecks_finish lands, ?_⟩
    change Single (finish (fold nothing none body).2)
    rw [← fold_finish]
    exact (single_fold none _).1

lemma bounded {size : Nat} (roomy : known.Roomy size)
    (isProgram : IsProgram options known .encode record table table' body p) : Bounded size (finish body) := by
  have within : ∀ cap, (∀ t, known.Has t → t.fields.length ≤ cap) → Askable size (runCap cap) →
      Bounded size (finish body) := fun cap few can =>
    bounded_finish (weighs_encodeRecord sound (@weighsNested_nestedPiece cap (options.setting known)
      sound few options.maxInlineDepth) has (few record has) 0 table body table' isProgram.made) can
  rcases roomy with small | few
  · exact within (2 ^ 15) (fun t has => sound.length_fields_le has) (.inr ⟨small, by decide⟩)
  · exact within (2 ^ 13) few (.inl (by decide))

/-- A run of the code is one of the program, as it is or, where the program writes, up to where
the wire ends. -/
lemma halts (isProgram : IsProgram options known job record table table' body p) {depth stop : Nat} {m : Machine}
    {s : Session} {f : Finished Session} (clean : m.ctx.Clean) (roomy : job = .encode → known.Roomy m.ctx.wire.size)
    (ran : (Site.ofBody known options depth record job body).Halts 0 m s stop f) : ∃ f' lit', runFrom Builtin.table
    (Session.answer known (Session.runProgram known depth)) p 0 m s = some f' ∧ (job = .encode → m.ctx.Sends f'.ctx) ∧
    (job ≠ .encode → f' = f) ∧ Covers job.eofCode (IsLiteral (finish (folded job body)) stop) lit' f f' := by
  have checked := verifyCode_finish isProgram.fine
  obtain ⟨lawful, _⟩ := verifyCode_eq_ok_iff.mp checked
  obtain ⟨q, tidied, same, _, preserves⟩ := @Program.optimize_eq_ok Builtin.table
    ⟨record.name, job, (finish body).toArray⟩ (by simpa using checked)
  obtain rfl : q = p := Except.ok.inj (tidied.symm.trans isProgram.tidied)
  have program : (Site.ofBody known options depth record job body).program =
      (Program.mk record.name job (finish body).toArray).withCode (finish (folded job body)) := rfl
  unfold Site.Halts at ran
  rw [program] at ran
  by_cases exact : job = .encode
  · subst exact
    have keeps : (Site.ofBody known options depth record .encode body).caller.KeepsClean :=
      fun _ _ _ _ _ _ _ clean replied => Session.answer_keepsClean (Session.runProgram_clean known depth) _ _ _ _ _ _ _ clean
        (Site.answer_of_caller _ replied)
    have matched := (preserves Builtin.table _ keeps).covers m s stop f clean
    simp only at matched
    obtain ⟨stop', f', halts', covers⟩ := matched ran (isProgram.bounded sound has (roomy rfl))
    rw [← same] at halts'
    have spares := all_optimizeWithin ofKind_spares _ lawful (fun i mem => Site.spares_of_allows
      (E := Site.ofBody known options depth record .encode body) rfl (isProgram.allows mem)) (Program.optimize_code tidied)
    exact ⟨f', _, (halts'.mono fun _ _ _ _ _ => Site.answer_of_caller _).runFrom,
      fun _ => halts'.sends keeps (by simpa using spares) clean, fun other => absurd rfl other, covers⟩
  · obtain ⟨folds, single⟩ := isProgram.foldChecks_eq sound has exact
    have optimized := Program.optimize_code tidied
    rw [show maxRounds = 63 + 1 from rfl, show (Program.mk record.name job
      (finish body).toArray).code.toList = finish body from rfl] at optimized
    have repeats := @repeats_optimizeWithin _ Builtin.table Builtin.table
      (Site.ofBody known options depth record job body).caller
      ⟨record.name, job, (finish body).toArray⟩ _ 63 lawful (isProgram.wordless exact)
      (folds ▸ single) _ optimized
    rw [folds] at repeats
    obtain ⟨stop', halts', keeps⟩ := repeats m s stop f ran
    rw [← same] at halts'
    exact ⟨f, _, (halts'.mono fun _ _ _ _ _ => Site.answer_of_caller _).runFrom, fun isEncode => absurd isEncode exact,
      fun _ => rfl, .refines (.same rfl keeps)⟩

end Lowering.IsProgram

end Run

end WireCodec
