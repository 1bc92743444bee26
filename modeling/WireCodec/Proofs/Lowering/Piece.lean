import WireCodec.Proofs.Codec.Frames

/-! Pieces of code: what they are made of, that types keep their numbers while they are made, and
which action the code does where it stands. -/
namespace WireCodec

open Machine

variable {table table' : TypeTable} {made instrs : Code} {piece body : Piece} {rest : List Piece}
  {branch : Dest → Instr Dest} {α : Type}

namespace Lowering

lemma lower_bind {β : Type} {x : LowerM α} {f : α → LowerM β} {b : β} :
    (x >>= f) table = .ok b table' ↔ ∃ a mid, x table = .ok a mid ∧ f a mid = .ok b table' := by
  change EStateM.bind x f table = _ ↔ _
  unfold EStateM.bind
  cases x table with
  | ok a mid => simp
  | error e mid => simp

variable {start : Nat}

lemma code_eq_ok : code instrs start table = .ok made table' ↔ made = instrs ∧ table' = table := by
  change EStateM.Result.ok instrs table = _ ↔ _
  simp [eq_comm]

lemma seq_cons_eq_ok : seq (piece :: rest) start table = .ok made table' ↔ ∃ first mid after, piece start table = .ok
      first mid ∧ seq rest (start + first.length) mid = .ok after table' ∧ made = first ++ after := by
  simp only [seq, lower_bind]
  constructor
  · rintro ⟨first, mid, one, after, last, two, done⟩
    cases done
    exact ⟨first, mid, after, one, two, rfl⟩
  · rintro ⟨first, mid, after, one, two, rfl⟩
    exact ⟨first, mid, one, after, table', two, rfl⟩

lemma seq_between_eq_ok {before after : Code} : seq [code before, piece, code after] start table = .ok made table' ↔
    ∃ inner, piece (start + before.length) table = .ok inner table' ∧ made = before ++ inner ++ after := by
  simp only [seq_cons_eq_ok, code_eq_ok]
  constructor
  · rintro ⟨_, _, _, ⟨rfl, rfl⟩, ⟨inner, _, _, ok, ⟨_, _, _, ⟨rfl, rfl⟩, last, rfl⟩, rfl⟩, rfl⟩
    obtain ⟨rfl, rfl⟩ := code_eq_ok.mp last
    exact ⟨inner, ok, by simp⟩
  · rintro ⟨inner, ok, rfl⟩
    exact ⟨_, _, _, ⟨rfl, rfl⟩, ⟨inner, _, _, ok, ⟨_, _, _, ⟨rfl, rfl⟩, rfl, rfl⟩, rfl⟩, by simp⟩

lemma withM_eq_ok {check : LowerM α} {body : α → Piece} : withM check body start table = .ok made table' ↔ ∃
    a mid, check table = .ok a mid ∧ body a start mid = .ok made table' := by
  simp only [withM, lower_bind]

lemma skipping_eq_ok : skipping branch body start table = .ok made table' ↔ ∃ inner, body (start + 1) table = .ok inner
      table' ∧ made = branch (.place (start + 1 + inner.length)) :: inner := by
  simp only [skipping, lower_bind]
  constructor
  · rintro ⟨inner, mid, one, done⟩
    cases done
    exact ⟨inner, one, rfl⟩
  · rintro ⟨inner, one, rfl⟩
    exact ⟨inner, table', one, rfl⟩

lemma looping_eq_ok {back : Dest → Instr Dest} : looping body back start table = .ok made table' ↔ ∃ inner,
      body start table = .ok inner table' ∧ made = inner ++ [back (.place start)] := by
  simp only [looping, lower_bind]
  constructor
  · rintro ⟨inner, mid, one, done⟩
    cases done
    exact ⟨inner, one, rfl⟩
  · rintro ⟨inner, one, rfl⟩
    exact ⟨inner, table', one, rfl⟩

lemma either_eq_ok {first second : Piece} : either branch first second start table = .ok made table' ↔ ∃ short mid long,
    first (start + 1) table = .ok short mid ∧ second (start + 1 + short.length + 1) mid = .ok long table' ∧ made =
    branch (.place (start + 1 + short.length + 1)) :: short ++ .jump
    (.place (start + 1 + short.length + 1 + long.length)) :: long := by
  simp only [either, lower_bind]
  constructor
  · rintro ⟨short, mid, one, long, last, two, done⟩
    cases done
    exact ⟨short, mid, long, one, two, rfl⟩
  · rintro ⟨short, mid, long, one, two, rfl⟩
    exact ⟨short, mid, one, long, table', two, rfl⟩

def tableAfter {α : Type} : EStateM.Result Failure TypeTable α → TypeTable
  | .ok _ table | .error _ table => table

/-- Types keep the numbers they have. -/
class Grows {α : Type} (x : LowerM α) : Prop where
  within : ∀ table : TypeTable, table.Within (tableAfter (x table))

section Grows

variable {α β : Type}

lemma Grows.of_ok {x : LowerM α} [Grows x] {a : α} (ok : x table = .ok a table') : table.Within table' := by
  have within := Grows.within (x := x) table
  rwa [ok] at within

lemma grows_of_same {x : LowerM α} (same : ∀ table, tableAfter (x table) = table) : Grows x :=
  ⟨fun table => by rw [same]; exact .refl _⟩

instance (a : α) : Grows (pure a : LowerM α) := grows_of_same fun _ => rfl

instance (e : Failure) : Grows (throw e : LowerM α) := grows_of_same fun _ => rfl

instance (x : LowerM α) (f : α → LowerM β) [Grows x] [∀ a, Grows (f a)] : Grows (x >>= f) := by
  refine ⟨fun table => ?_⟩
  change table.Within (tableAfter (EStateM.bind x f table))
  have first := Grows.within (x := x) table
  unfold EStateM.bind
  cases made : x table with
  | ok a mid =>
    rw [made] at first
    exact first.trans (Grows.within (x := f a) mid)
  | error e mid =>
    rw [made] at first
    exact first

instance (x : Except SchemaIssue α) : Grows (ofSchema x) := by cases x <;> exact grows_of_same fun _ => rfl

instance (x : Option α) : Grows (inReach x) := by cases x <;> exact grows_of_same fun _ => rfl

instance (off : UInt32) : Grows (lengthAt off) := inferInstanceAs (Grows (inReach _))

instance (t : TypeDesc) : Grows (scalarWidth t) := by
  unfold scalarWidth
  split <;> infer_instance

instance (t : TypeDesc) : Grows (internType t) := ⟨fun table => table.within_intern t⟩

variable (start : Nat)

instance (instrs : Code) : Grows (code instrs start) := inferInstanceAs (Grows (pure instrs))

instance : Grows (seq [] start) := inferInstanceAs (Grows (code [] start))

instance (piece : Piece) (rest : List Piece) [∀ k, Grows (piece k)] [∀ k, Grows (seq rest k)] :
    Grows (seq (piece :: rest) start) := by
  unfold seq
  infer_instance

instance (check : LowerM α) (body : α → Piece) [Grows check] [∀ a k, Grows (body a k)] :
    Grows (withM check body start) := by
  unfold withM
  infer_instance

instance (branch : Dest → Instr Dest) (body : Piece) [∀ k, Grows (body k)] : Grows (skipping branch body start) := by
  unfold skipping
  infer_instance

instance (body : Piece) (back : Dest → Instr Dest) [∀ k, Grows (body k)] : Grows (looping body back start) := by
  unfold looping
  infer_instance

instance (branch : Dest → Instr Dest) (first second : Piece) [∀ k, Grows (first k)]
    [∀ k, Grows (second k)] : Grows (either branch first second start) := by
  unfold either
  infer_instance

instance (p : Prop) [Decidable p] (first second : Piece) [∀ k, Grows (first k)]
    [∀ k, Grows (second k)] : Grows ((if p then first else second) start) := by
  split <;> infer_instance

instance (e : Entry) (body : Piece) [∀ k, Grows (body k)] : Grows (e.registerLoop body start) :=
  inferInstanceAs (Grows (looping _ _ start))

instance (e : Entry) (body : Piece) [∀ k, Grows (body k)] : Grows (e.frameLoop body start) :=
  inferInstanceAs (Grows (looping _ _ start))

instance (e : Entry) (key elem : Piece) [∀ k, Grows (key k)] [∀ k, Grows (elem k)] :
    Grows (e.parts (some key) elem start) := inferInstanceAs (Grows (seq _ start))

instance (job : Job) (t : TypeDesc) : Grows (deferral job t start) :=
  inferInstanceAs (Grows (withM _ _ start))

instance (known : Registry) (nested : Spots (TypeDesc → Piece)) (t : TypeDesc)
    [∀ way t k, Grows (nested way t k)] : Grows (nestedRecord known nested t start) :=
  inferInstanceAs (Grows (withM _ _ start))

end Grows

lemma withM_pure (a : α) (body : α → Piece) : withM (pure a) body = body a := rfl

end Lowering

namespace Site

open Lowering

variable (E : Site) {α β : Type}

/-- Code without places does the action, wherever it stands. Types it names by number have
the numbers of `table`. -/
def Runs (table : TypeTable) (n : Nat) (instrs : Code) (m : Machine) (x : Act α) (post : α → Machine → Prop) : Prop :=
  ∀ start s, E.Has start instrs → table.Within s.types → E.Does n start m s (start + instrs.length) x post

/-- The code of a piece does the action, wherever it stands. -/
def Renders (n : Nat) (piece : Piece) (m : Machine) (x : Act α) (post : α → Machine → Prop) : Prop :=
  ∀ start table made table' s, piece start table = .ok made table' → E.Has start made →
    table'.Within s.types → E.Does n start m s (start + made.length) x post

variable {E} {n : Nat} {m : Machine} {x : Act α} {f : α → Act β} {post : α → Machine → Prop}
  {post' : β → Machine → Prop}

lemma renders_code (runs : ∀ table, E.Runs table n instrs m x post) : E.Renders n (code instrs) m x post := by
  intro start table made table' s ok has within
  obtain ⟨rfl, rfl⟩ := code_eq_ok.mp ok
  exact runs table' start s has within

lemma Renders.mono {k : Nat} {post₁ : α → Machine → Prop} (renders : E.Renders n piece m x post) (le : k ≤ n)
    (imp : ∀ a m', Ran n m m' → post a m' → post₁ a m') : E.Renders k piece m x post₁ :=
  fun start table made table' s ok has within =>
    (renders start table made table' s ok has within).mono le imp

lemma Renders.vacuous {b : Bool} {post₁ : α → Machine → Prop} (renders : E.Renders n piece m x post) (no : b = false) :
    E.Renders n piece m x fun a m' => b = true → post₁ a m' :=
  renders.mono le_rfl fun _ _ _ _ yes => Bool.noConfusion (no.symm.trans yes)

lemma renders_seq [∀ k, Grows (seq rest k)] (first : E.Renders n piece m x post)
    (after : ∀ a m₁, x m.ctx.scene = .ok a m₁.ctx.scene → Ran n m m₁ → post a m₁ →
      E.Renders n (seq rest) m₁ (f a) post') : E.Renders n (seq (piece :: rest)) m (x >>= f) post' := by
  intro start table made table' s ok has within
  obtain ⟨one, mid, two, ok₁, ok₂, rfl⟩ := seq_cons_eq_ok.mp ok
  obtain ⟨has₁, has₂⟩ := (E.has_append).mp has
  rw [List.length_append, ← Nat.add_assoc]
  refine (first start table one mid s ok₁ has₁ ((Grows.of_ok ok₂).trans within)).bind
    fun a m₁ s₁ result ran follows holds => ?_
  exact after a m₁ result ran holds (start + one.length) mid two table' s₁ ok₂ has₂ (within.trans follows.types)

lemma renders_last (renders : E.Renders n piece m x post) : E.Renders n (seq [piece]) m x post := by
  intro start table made table' s ok has within
  obtain ⟨one, mid, two, ok₁, ok₂, rfl⟩ := seq_cons_eq_ok.mp ok
  obtain ⟨rfl, rfl⟩ := code_eq_ok.mp ok₂
  simp only [List.append_nil] at has ⊢
  exact renders start table one table' s ok₁ has within

lemma renders_silent [∀ k, Grows (seq rest k)] {post₀ : Unit → Machine → Prop}
    (first : E.Renders n piece m (pure ()) post₀)
    (after : ∀ m₁, m₁.ctx.scene = m.ctx.scene → Ran n m m₁ → post₀ () m₁ →
      E.Renders n (seq rest) m₁ x post) : E.Renders n (seq (piece :: rest)) m x post := by
  rw [← pure_bind () fun _ => x]
  refine renders_seq first fun _ m₁ same ran holds => after m₁ ?_ ran holds
  exact (EStateM.Result.ok.inj ((Act.pure_apply () _).symm.trans same)).2.symm

lemma renders_internType {t : TypeDesc} {instrs : Nat → Code} (known : E.known.Has t)
    (runs : ∀ index table, table.Sound E.known → table.get? index = some t → E.Runs table n (instrs index) m x post) :
    E.Renders n (withM (internType t) fun index => code (instrs index)) m x post := by
  intro start table made table' s ok has within fit
  obtain ⟨index, mid, ok₁, ok₂⟩ := withM_eq_ok.mp ok
  obtain ⟨rfl, rfl⟩ := code_eq_ok.mp ok₂
  cases ok₁
  have got := fit.sound.types.get?_intern known within
  exact runs _ _ fit.sound.types got start s has (.refl _) fit

lemma renders_skipping {test : Machine → Bool} (isTest : IsTest branch test)
    (taken : test m = true → ∀ start s, E.Does n start m s start x post)
    (passed : test m = false → E.Renders n body m x post) : E.Renders n (skipping branch body) m x post := by
  intro start table made table' s ok has within
  obtain ⟨inner, ok₁, rfl⟩ := skipping_eq_ok.mp ok
  obtain ⟨has₁, has₂⟩ := (E.has_cons).mp has
  rw [List.length_cons, Nat.add_comm inner.length, ← Nat.add_assoc]
  cases outcome : test m with
  | true => exact .takeTest isTest has₁ outcome (taken outcome _ s)
  | false =>
    exact .passTest isTest has₁ outcome (passed outcome (start + 1) table inner table' s ok₁ has₂ within)

lemma renders_either {cond : Cond} {a : Reg} {value : Int32} {first second : Piece} [∀ k, Grows (second k)]
    (taken : cond.eval (m.get a) (immWord value) = true → E.Renders n second m x post)
    (passed : cond.eval (m.get a) (immWord value) = false → E.Renders n first m x post) :
    E.Renders n (either (.branchImm cond a value) first second) m x post := by
  intro start table made table' s ok has within
  obtain ⟨short, mid, long, ok₁, ok₂, rfl⟩ := either_eq_ok.mp ok
  obtain ⟨has₁, has'⟩ := (E.has_cons).mp has
  obtain ⟨has₂, has₃⟩ := (E.has_append).mp has'
  obtain ⟨has₃, has₄⟩ := (E.has_cons).mp has₃
  have stop : start + (Instr.branchImm cond a value (.place (start + 1 + short.length + 1)) ::
      short ++ .jump (.place (start + 1 + short.length + 1 + long.length)) :: long).length =
      start + 1 + short.length + 1 + long.length := by
    simp only [List.cons_append, List.length_cons, List.length_append]
    omega
  rw [stop]
  cases outcome : cond.eval (m.get a) (immWord value) with
  | true =>
    exact .branchTo has₁ outcome (taken outcome _ mid long table' s ok₂ has₄ within)
  | false =>
    refine .passBranch has₁ outcome ?_
    have done := passed outcome (start + 1) table short mid s ok₁ has₂ ((Grows.of_ok ok₂).trans within)
    intro fit
    have led := done fit
    cases result : x m.ctx.scene with
    | error t c =>
      rw [result] at led
      exact led
    | ok b c =>
      rw [result] at led
      obtain ⟨m', s', scene, ran, follows, holds, back⟩ := led
      refine ⟨m', s', scene, ran, follows, holds, fun stop f halts => back stop f ?_⟩
      refine .jump has₃.at_ ?_ halts
      simp [stepAny, Machine.step, Instr.mapTargets, E.settle_place]

end Site

end WireCodec
