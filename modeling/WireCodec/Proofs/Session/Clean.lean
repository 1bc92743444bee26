import WireCodec.Proofs.Machine.Steps
import WireCodec.Session.Run

/-! Calls in a session report what goes wrong. A context comes back either with an error in it
or as clean as it was handed out, with as much wire. -/
namespace WireCodec

variable {c : Context} {s : Session} {reply : Reply Session}

variable {σ : Type} {table : HandleTable} {caller : Caller σ} {p : Program}

lemma Context.Clean.failAt_same (clean : c.Clean) {code : ErrorCode} {offset : UInt64}
    (fine : (c.failAt code offset).failed = false) : c.SameReport (c.failAt code offset) := by
  rw [clean.failAt] at fine ⊢
  exact ⟨by simpa [Context.failed, clean.noError] using fine, rfl, rfl⟩

lemma Context.Clean.raise_failed (clean : c.Clean) (e : CompileError) : (c.raise e).failed = true := by
  rw [clean.raise]
  rfl

def Caller.EndsAbnormally (caller : Caller σ) : Prop :=
  ∀ h args c s ending c' s', c.Clean → caller h args c s = some (.ended ending c' s') → ending ≠ .stopped

namespace Machine

lemma stepAny_stop_same {eof : ErrorCode} {i : Instr Nat} {m m' : Machine} {s s' : σ}
    (clean : m.ctx.Clean) (step : stepAny table caller eof i m s = some (.ok (.stop, m', s')))
    (fine : m'.ctx.failed = false) : m.ctx.SameReport m'.ctx := by
  rcases i.call_or with ⟨id, args, rets, rfl⟩ | noCall
  · simp only [stepAny, call] at step
    split at step
    · cases step
      rw [clean.raise_failed] at fine
      cases fine
    · obtain ⟨reply, replied, resumed⟩ := Option.map_eq_some_iff.mp step
      cases reply with
      | refused =>
        cases resumed
        simp only [clean.raise_failed] at fine
        cases fine
      | ended => cases resumed
      | returned words c' state =>
        simp only [resume] at resumed
        split at resumed
        · rename_i failed
          cases resumed
          rw [setAll_ctx, failed] at fine
          cases fine
        · cases resumed
  · rw [stepAny_eq noCall] at step
    have kind := step_case m eof i
    simp only [Option.some.injEq, Except.ok.injEq, Prod.mk.injEq] at step
    rw [step.1, step.2.1] at kind
    cases kind with
    | goes on _ => exact absurd rfl on
    | halts => exact .refl _
    | fails m₀ code same => exact same.trans ((same.clean clean).failAt_same fine)
    | faults d outside =>
      rw [clean.raise_failed] at fine
      cases fine

lemma Halts.same (keeps : caller.KeepsClean) (ends : caller.EndsAbnormally) {pc stop : Nat}
    {m : Machine} {s : σ} {f : Finished σ} (halts : Halts table caller p pc m s stop f)
    (clean : m.ctx.Clean) (stopped : f.ending = .stopped) (fine : f.ctx.failed = false) : m.ctx.SameReport f.ctx := by
  induction halts with
  | off at_ =>
    simp only [clean.raise_failed] at fine
    cases fine
  | @ended pc m s i f at_ step =>
    cases i with
    | call id args rets =>
      simp only [stepAny, call] at step
      split at step
      · cases step
      · obtain ⟨reply, replied, resumed⟩ := Option.map_eq_some_iff.mp step
        cases reply with
        | refused => cases resumed
        | ended ending c' state =>
          cases resumed
          exact absurd stopped (ends _ _ _ _ _ _ _ clean replied)
        | returned words c' state => cases resumed
    | _ => cases step
  | stop at_ step => exact stepAny_stop_same clean step fine
  | next at_ step _ ih | jump at_ step _ ih =>
    have same := stepAny_goes keeps clean step (by simp)
    exact same.trans (ih (same.clean clean) stopped fine)

end Machine

namespace Session

variable {known : Registry} {run : Program → Context → Session → Option (Finished Session)} {args : List UInt64}

/-- Programs stop with an error, or leave a clean context clean. -/
def RunsClean (run : Program → Context → Session → Option (Finished Session)) : Prop :=
  ∀ p c s f, c.Clean → run p c s = some f → f.ending = .stopped → f.ctx.failed = false → c.SameReport f.ctx

def ReplyClean (c : Context) (reply : Reply Session) : Prop :=
  match reply with
  | .returned _ c' _ => c'.failed = false → c.SameReport c'
  | .refused => True
  | .ended ending _ _ => ending ≠ .stopped

lemma replyClean_raise (clean : c.Clean) (e : CompileError) (words : List UInt64) (s : Session) :
    ReplyClean c (.returned words (c.raise e) s) := by
  intro fine
  rw [clean.raise_failed] at fine
  cases fine

lemma deferred_clean (runs : RunsClean run) {job : UInt64} {index : UInt32} {base : UInt64} (clean : c.Clean)
    (replied : deferred known run job index base c s = some reply) : ReplyClean c reply := by
  unfold deferred at replied
  split at replied
  · cases replied
    exact replyClean_raise clean _ _ _
  · split at replied
    · cases replied
      exact replyClean_raise clean _ _ _
    · split at replied
      · cases replied
        exact replyClean_raise clean _ _ _
      · cases replied
        exact Ending.noConfusion
      · obtain ⟨f, ran, rfl⟩ := Option.map_eq_some_iff.mp replied
        have clean' : { c with root := base }.Clean := ⟨clean.noError, clean.noFault, clean.wireFits⟩
        have result := runs _ _ _ f clean' ran
        cases ending : f.ending with
        | stopped =>
          simp only [handBack, ending]
          intro fine
          have done := result ending fine
          exact ⟨done.code, done.fault, done.size⟩
        | crashed | endless => simp [handBack, ending, ReplyClean]

lemma checkSet_clean (clean : c.Clean) (elem : TypeDesc) (data count : UInt32) (s : Session) :
    ReplyClean c (c.checkSet known elem data count s) := by
  unfold Context.checkSet
  split
  · exact fun _ => .refl c
  · exact clean.failAt_same
  · exact Ending.noConfusion
  · exact Ending.noConfusion
  · exact replyClean_raise clean _ _ _

lemma routine_clean (runs : RunsClean run) {routine : Routine} (clean : c.Clean)
    (replied : Routine.answer (deferred known run) known element routine args c s = some reply) : ReplyClean c reply := by
  cases routine with
  | alloc =>
    simp only [Routine.answer, Context.allocate, Option.some.injEq] at replied
    subst replied
    split
    · exact fun _ => ⟨rfl, rfl, rfl⟩
    · exact clean.failAt_same
  | skip =>
    cases replied
    unfold Context.skipValue
    split
    · exact fun _ => ⟨rfl, rfl, rfl⟩
    · exact clean.failAt_same
  | defer => exact deferred_clean runs clean replied
  | setCheck =>
    simp only [Routine.answer] at replied
    split at replied
    · cases replied
      exact checkSet_clean clean _ _ _ _
    · cases replied
      exact replyClean_raise clean _ _ _
  | sample own =>
    cases replied
    intro fine
    cases own with
    | setError => exact ⟨by simpa [Sample.answer, Context.failed, clean.noError] using fine, rfl, rfl⟩
    | setPos | probe | pair => exact ⟨rfl, rfl, rfl⟩
  | copy | clear | external => cases replied; exact fun _ => .refl c

lemma replyClean_single (clean : ReplyClean c reply) : ReplyClean c reply.single := by
  cases reply <;> exact clean

lemma answer_cases {h : Handle} (replied : answer known run h args c s = some reply) : reply = .refused ∨
    (∃ event, reply = .returned [0, 0] { c with stores := event :: c.stores } s) ∨ ∃ routine inner, Routine.answer
    (deferred known run) known element routine args c s = some inner ∧ (reply = inner ∨ reply = inner.single) := by
  unfold answer Handle.answer at replied
  split at replied
  · exact .inl (Option.some.inj replied).symm
  · split at replied
    · obtain ⟨inner, ran, rfl⟩ := Option.map_eq_some_iff.mp replied
      exact .inr (.inr ⟨_, inner, ran, .inr rfl⟩)
    · split at replied
      · exact .inr (.inr ⟨_, reply, replied, .inl rfl⟩)
      · obtain ⟨inner, ran, rfl⟩ := Option.map_eq_some_iff.mp replied
        exact .inr (.inr ⟨_, inner, ran, .inr rfl⟩)
    · split at replied
      · exact .inr (.inl ⟨_, (Option.some.inj replied).symm⟩)
      · exact .inl (Option.some.inj replied).symm

lemma answer_clean (runs : RunsClean run) {h : Handle} (clean : c.Clean)
    (replied : answer known run h args c s = some reply) : ReplyClean c reply := by
  rcases answer_cases replied with rfl | ⟨event, rfl⟩ | ⟨routine, inner, ran, rfl | rfl⟩
  · trivial
  · exact fun _ => ⟨rfl, rfl, rfl⟩
  · exact routine_clean runs clean ran
  · exact replyClean_single (routine_clean runs clean ran)

lemma answer_keepsClean (runs : RunsClean run) : (answer known run).KeepsClean :=
  fun _ _ _ _ _ _ _ clean replied => answer_clean runs clean replied

lemma answer_endsAbnormally (runs : RunsClean run) : (answer known run).EndsAbnormally :=
  fun _ _ _ _ _ _ _ clean replied => answer_clean runs clean replied

lemma runProgram_clean (known : Registry) (depth : Nat) : RunsClean (runProgram known depth) := by
  induction depth with
  | zero =>
    intro p c s f _ ran stopped
    cases ran
    cases stopped
  | succ depth ih =>
    intro p c s f clean ran stopped fine
    obtain ⟨stop, halts⟩ := Machine.halts_of_runFrom ran
    exact halts.same (answer_keepsClean ih) (answer_endsAbnormally ih) clean stopped fine

end Session

end WireCodec
