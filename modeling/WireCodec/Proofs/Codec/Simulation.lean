import WireCodec.Proofs.Codec.Action
import WireCodec.Proofs.Machine.Sending
import WireCodec.Proofs.Peephole.Seeks
import WireCodec.Proofs.Session.Sound
import WireCodec.Session.Run

/-! Code that does an action. A run through a stretch of code leads to where the action leads:
with the same wire, cursor and arena if the action succeeds, and to an end that reports the
same trouble if it does not. Frames below the current one keep what they hold. -/
namespace WireCodec

open Machine Lowering Peephole List

variable {start k : Nat} {i : Instr Nat} {m₁ : Machine}

def Context.slotAt (c : Context) (index : Nat) : UInt64 := c.frames[index]?.getD 0

/-- The run reports the trouble an action met in the scene `c`. Unless it is `exact`, it may
have come to the end of the wire sooner, with the same bytes written up to there. -/
def Trouble.Reported {σ : Type} (exact : Prop) (eof : ErrorCode) (t : Trouble) (c : Scene) (f : Finished σ) : Prop :=
  match t with
  | .codec code offset => f.ending = .stopped ∧ f.ctx.fault = none ∧ code ≠ .ok ∧
      f.ctx.errorCode = code.number ∧ f.ctx.errorOffset ≤ offset ∧
      AgreeBelow f.ctx.errorOffset.toNat f.ctx.wire c.wire ∧
      (exact ∨ code ≠ eof → f.ctx.errorOffset = offset ∧ f.ctx.scene = c)
  | .cut _ => CutShort eof f
  | .outside => (f.ending = .stopped ∧ f.ctx.LeftHeap ∧ f.ctx.errorCode ≠ 0 ∧ f.ctx.scene = c) ∨
      (¬ exact ∧ CutShort eof f)
  | .defect e => f.ending = .stopped ∧ f.ctx.fault = some e ∧ f.ctx.errorCode ≠ 0 ∧ ¬ f.ctx.LeftHeap ∧ f.ctx.scene = c
  | .gaveUp ending => f.ending = ending ∧ ending ≠ .stopped ∧ ¬ f.ctx.LeftHeap ∧ f.ctx.scene = c

/-- A program in which pieces of code stand, run in a session that lets `depth` codecs wait
for others. `exact` tells that the end of the wire is found where the action finds it. -/
structure Site where
  known : Registry
  options : Options
  depth : Nat
  program : Program
  settle : Dest → Nat
  settle_place : ∀ index, settle (.place index) = index
  exact : Prop

namespace Site

variable (E : Site)

open Classical in
/-- Calls are answered as in the session, but codecs that code for writing asks for must themselves
be ones that write ahead. -/
noncomputable def caller : Caller Session := fun h args c s =>
  let reply := Session.answer E.known (Session.runProgram E.known E.depth) h args c s
  match h.kind with
  | .host .defer => if E.program.job = .encode → ∀ r ∈ reply, r.Sends c then reply else none
  | _ => reply

variable {h : Handle} {args : List UInt64} {c : Context} {s : Session} {reply : Reply Session}

lemma sends_of_caller (defers : h.kind = .host .defer) (writes : E.program.job = .encode)
    (replied : E.caller h args c s = some reply) : reply.Sends c := by
  simp only [caller, defers] at replied
  split at replied
  · rename_i sends
    exact sends writes reply replied
  · cases replied

lemma caller_eq (sends : E.program.job = .encode →
      ∀ r ∈ Session.answer E.known (Session.runProgram E.known E.depth) h args c s, r.Sends c) :
    E.caller h args c s = Session.answer E.known (Session.runProgram E.known E.depth) h args c s := by
  simp only [caller]
  split
  · exact if_pos sends
  · rfl

lemma answer_of_caller (replied : E.caller h args c s = some reply) :
    Session.answer E.known (Session.runProgram E.known E.depth) h args c s = some reply := by
  simp only [caller] at replied
  split at replied
  · split at replied
    · exact replied
    · cases replied
  · exact replied

def Halts (pc : Nat) (m : Machine) (s : Session) (stop : Nat) (f : Finished Session) : Prop :=
  Machine.Halts Builtin.table E.caller E.program pc m s stop f

def eof : ErrorCode := E.program.job.eofCode

lemma eof_ne_ok : E.eof ≠ .ok := by
  unfold eof
  cases E.program.job <;> exact nofun

def At (pc : Nat) (i : Instr Nat) : Prop := E.program.code[pc]? = some i

/-- The code stands at `start`, and the exits it branches to are there. -/
structure Has (start : Nat) (code : Code) : Prop where
  instrs : ∀ k i, code[k]? = some i → E.At (start + k) (i.mapTargets E.settle)
  exits : ∀ e, Dest.exit e ∈ code.flatMap Instr.targets → e ≠ .ok ∧ E.At (E.settle (.exit e)) (.error e)

lemma has_append {first second : Code} :
    E.Has start (first ++ second) ↔ E.Has start first ∧ E.Has (start + first.length) second := by
  constructor
  · intro has
    refine ⟨⟨fun k i at_ => has.instrs k i ?_, fun e mem => has.exits e ?_⟩,
      ⟨fun k i at_ => ?_, fun e mem => has.exits e ?_⟩⟩
    · rw [getElem?_append_left (List.getElem?_eq_some_iff.mp at_).1, at_]
    · exact flatMap_append ▸ mem_append_left _ mem
    · rw [Nat.add_assoc]
      refine has.instrs (first.length + k) i ?_
      rw [getElem?_append_right (Nat.le_add_right _ _), Nat.add_sub_cancel_left, at_]
    · exact flatMap_append ▸ mem_append_right _ mem
  · rintro ⟨front, back⟩
    refine ⟨fun k i at_ => ?_, fun e mem => ?_⟩
    · by_cases low : k < first.length
      · rw [getElem?_append_left low] at at_
        exact front.instrs k i at_
      · rw [getElem?_append_right (Nat.le_of_not_lt low)] at at_
        have := back.instrs _ i at_
        rwa [show start + first.length + (k - first.length) = start + k by omega] at this
    · rw [flatMap_append] at mem
      rcases List.mem_append.mp mem with mem | mem
      · exact front.exits e mem
      · exact back.exits e mem

lemma has_cons {i : Instr Dest} {code : Code} : E.Has start (i :: code) ↔ E.Has start [i] ∧ E.Has (start + 1) code :=
  @has_append start E [i] code

variable {E}

lemma Has.at_ {i : Instr Dest} (has : E.Has start [i]) : E.At start (i.mapTargets E.settle) := has.instrs 0 i rfl

lemma Has.exit {i : Instr Dest} {e : ErrorCode} (has : E.Has start [i]) (mem : Dest.exit e ∈ i.targets) :
    e ≠ .ok ∧ E.At (E.settle (.exit e)) (.error e) :=
  has.exits e (by simpa using mem)

variable (E)

/-- A machine and a session that are fit to go on. -/
structure Fit (m : Machine) (s : Session) : Prop where
  clean : m.ctx.Clean
  roomy : E.program.job = .encode → E.known.Roomy m.ctx.wire.size
  low : 0 ≤ m.ctx.frame
  high : m.ctx.frame ≤ m.ctx.limit
  sound : s.Sound E.known E.options

abbrev Follows (s s' : Session) : Prop := Session.Follows E.known E.options s s'

end Site

/-- What a stretch of code keeps: frames are balanced, and the first `n` slots unchanged. -/
structure Ran (n : Nat) (m m' : Machine) : Prop where
  frame : m'.ctx.frame = m.ctx.frame
  limit : m'.ctx.limit = m.ctx.limit
  size : m'.ctx.wire.size = m.ctx.wire.size
  clean : m.ctx.Clean → m'.ctx.Clean
  slots : ∀ k, k < n → m'.ctx.slotAt k = m.ctx.slotAt k

namespace Ran

variable {n : Nat} {m m' m'' : Machine}

lemma refl (n : Nat) (m : Machine) : Ran n m m := ⟨rfl, rfl, rfl, id, fun _ _ => rfl⟩

lemma trans (first : Ran n m m') (second : Ran n m' m'') : Ran n m m'' :=
  ⟨second.frame.trans first.frame, second.limit.trans first.limit, second.size.trans first.size, second.clean ∘ first.clean,
    fun k low => (second.slots k low).trans (first.slots k low)⟩

lemma mono (ran : Ran n m m') (le : k ≤ n) : Ran k m m' :=
  { ran with slots := fun j low => ran.slots j (lt_of_lt_of_le low le) }

lemma framesLeft (ran : Ran n m m') : m'.ctx.framesLeft = m.ctx.framesLeft := by
  rw [Context.framesLeft, Context.framesLeft, ran.frame, ran.limit]

lemma readSlot (ran : Ran n m m') {slot : UInt8} (low : m.ctx.slotIndex slot < n) :
    m'.ctx.readSlot slot = m.ctx.readSlot slot := by
  have same : m'.ctx.slotIndex slot = m.ctx.slotIndex slot := by
    rw [Context.slotIndex, Context.slotIndex, ran.frame]
  have := ran.slots _ low
  rw [Context.slotAt, Context.slotAt] at this
  rw [Context.readSlot, Context.readSlot, same, this]

end Ran

namespace Site

variable (E : Site) {α β : Type} {code : ErrorCode} {a : α}

/-- From instruction `pc` a run leads to instruction `pc'` with what the result says, or ends
with the trouble it tells. -/
def Leads (n pc : Nat) (m : Machine) (s : Session) (pc' : Nat) (r : EStateM.Result Trouble Scene α)
    (post : α → Machine → Prop) : Prop :=
  match r with
  | .ok a c => ∃ m' s', m'.ctx.scene = c ∧ Ran n m m' ∧ E.Follows s s' ∧ post a m' ∧
      ∀ stop f, E.Halts pc' m' s' stop f → E.Halts pc m s stop f
  | .error t c => ∃ stop f, E.Halts pc m s stop f ∧ (IsLiteral E.program.code.toList stop → ∃ offset, t = .cut offset) ∧
      t.Reported E.exact E.eof c f ∧ E.Follows s f.state

/-- The code from `pc` up to `pc'` does the action and leaves a machine as `post` says. -/
def Does (n pc : Nat) (m : Machine) (s : Session) (pc' : Nat) (x : Act α) (post : α → Machine → Prop) : Prop :=
  E.Fit m s → E.Leads n pc m s pc' (x m.ctx.scene) post

variable {E} {n pc pc₁ pc₂ : Nat} {m : Machine} {s : Session} {x : Act α} {f : α → Act β}
  {post : α → Machine → Prop} {post' : β → Machine → Prop}

lemma Fit.ran {s₁ : Session} (fit : E.Fit m s) (ran : Ran n m m₁) (follows : E.Follows s s₁) : E.Fit m₁ s₁ :=
  ⟨ran.clean fit.clean, ran.size ▸ fit.roomy, ran.frame ▸ fit.low, ran.frame ▸ ran.limit ▸ fit.high, follows.sound⟩

lemma Does.bind (first : E.Does n pc m s pc₁ x post)
    (rest : ∀ a m₁ s₁, x m.ctx.scene = .ok a m₁.ctx.scene → Ran n m m₁ → E.Follows s s₁ →
      post a m₁ → E.Does n pc₁ m₁ s₁ pc₂ (f a) post') : E.Does n pc m s pc₂ (x >>= f) post' := by
  intro fit
  have first := first fit
  rw [Act.bind_apply]
  cases result : x m.ctx.scene with
  | error t c =>
    rw [result] at first
    exact first
  | ok a c =>
    rw [result] at first
    obtain ⟨m₁, s₁, rfl, ran, follows, holds, back⟩ := first
    have second := rest a m₁ s₁ result ran follows holds (fit.ran ran follows)
    simp only
    cases after : f a m₁.ctx.scene with
    | ok b c =>
      rw [after] at second
      obtain ⟨m₂, s₂, scene, ran', follows', holds', back'⟩ := second
      exact ⟨m₂, s₂, scene, ran.trans ran', follows.trans follows', holds',
        fun stop g halts => back stop g (back' stop g halts)⟩
    | error t c =>
      rw [after] at second
      obtain ⟨stop, g, halts, literal, reported, follows'⟩ := second
      exact ⟨stop, g, back stop g halts, literal, reported, follows.trans follows'⟩

lemma Does.mono {post₁ : α → Machine → Prop} (does : E.Does n pc m s pc₁ x post)
    (le : k ≤ n) (imp : ∀ a m', Ran n m m' → post a m' → post₁ a m') : E.Does k pc m s pc₁ x post₁ := by
  intro fit
  have first := does fit
  cases result : x m.ctx.scene with
  | error t c =>
    rw [result] at first
    exact first
  | ok a c =>
    rw [result] at first
    obtain ⟨m₁, s₁, scene, ran, follows, holds, back⟩ := first
    exact ⟨m₁, s₁, scene, ran.mono le, follows, imp a m₁ ran holds, back⟩

lemma Does.pure (holds : post a m) : E.Does n pc m s pc (pure a) post :=
  fun fit => ⟨m, s, rfl, .refl n m, fit.sound.follows, holds, fun _ _ halts => halts⟩

lemma Does.before {pc' : Nat}
    (back : ∀ stop f, E.Halts pc' m₁ s stop f → E.Halts pc m s stop f) (scene : m₁.ctx.scene = m.ctx.scene)
    (ran : Ran n m m₁) (rest : E.Does n pc' m₁ s pc₁ x post) : E.Does n pc m s pc₁ x post := by
  intro fit
  have after := rest (fit.ran ran fit.sound.follows)
  rw [scene] at after
  cases result : x m.ctx.scene with
  | ok a c =>
    rw [result] at after
    obtain ⟨m₂, s₂, scene, ran', follows, holds, back'⟩ := after
    exact ⟨m₂, s₂, scene, ran.trans ran', follows, holds, fun stop f halts => back stop f (back' stop f halts)⟩
  | error t c =>
    rw [result] at after
    obtain ⟨stop, f, halts, literal, reported, follows⟩ := after
    exact ⟨stop, f, back stop f halts, literal, reported, follows⟩

lemma Does.next {m₁ : Machine} (at_ : E.At pc i) (step : stepAny Builtin.table E.caller E.program.job.eofCode i m s =
      some (.ok (.next, m₁, s))) (scene : m₁.ctx.scene = m.ctx.scene) (ran : Ran n m m₁)
    (rest : E.Does n (pc + 1) m₁ s pc₁ x post) : E.Does n pc m s pc₁ x post :=
  .before (fun _ _ => .next at_ step) scene ran rest

lemma Does.jump {target : Nat} (at_ : E.At pc i) (step : stepAny Builtin.table E.caller E.program.job.eofCode i m s =
      some (.ok (.jump target, m, s))) (rest : E.Does n target m s pc₁ x post) : E.Does n pc m s pc₁ x post :=
  .before (fun _ _ => .jump at_ step) rfl (.refl n m) rest

lemma leads_next (m₁ : Machine) {c : Scene} (fit : E.Fit m s) (at_ : E.At pc i)
    (step : stepAny Builtin.table E.caller E.program.job.eofCode i m s = some (.ok (.next, m₁, s)))
    (scene : m₁.ctx.scene = c) (ran : Ran n m m₁) (holds : post a m₁) : E.Leads n pc m s (pc + 1) (.ok a c) post :=
  ⟨m₁, s, scene, ran, fit.sound.follows, holds, fun _ _ halts => .next at_ step halts⟩

lemma not_isLiteral (at_ : E.At pc i) (other : ∀ width value, i ≠ .writeImm width value) :
    ¬ IsLiteral E.program.code.toList pc := by
  rintro ⟨width, value, here⟩
  rw [Array.getElem?_toList] at here
  exact other width value (Option.some.inj (at_.symm.trans here))

section

variable (m₀ : Machine)
  (fit : E.Fit m s)
  (real : code ≠ .ok)
  (at_ : E.At pc i)
  (other : ∀ width value, i ≠ .writeImm width value)
include m₀ fit real at_ other

lemma leads_failAt {offset : UInt64}
    (step : stepAny Builtin.table E.caller E.program.job.eofCode i m s =
      some (.ok (.stop, { m₀ with ctx := m₀.ctx.failAt code offset }, s))) (clean : m₀.ctx.Clean)
    (scene : m₀.ctx.scene = m.ctx.scene) : E.Leads n pc m s pc₁ (.error (.codec code offset) m.ctx.scene) post := by
  refine ⟨pc, _, .stop at_ step, fun literal => absurd literal (not_isLiteral at_ other), ?_, fit.sound.follows⟩
  have wire : m₀.ctx.wire = m.ctx.scene.wire := congrArg Scene.wire scene
  simp only [clean.failAt]
  exact ⟨rfl, clean.noFault, real, rfl, UInt64.le_refl _, wire ▸ .refl _ _, fun _ => ⟨rfl, scene⟩⟩

lemma leads_fail
    (step : stepAny Builtin.table E.caller E.program.job.eofCode i m s =
      some (.ok (.stop, { m₀ with ctx := m₀.ctx.fail code }, s))) (clean : m₀.ctx.Clean)
    (scene : m₀.ctx.scene = m.ctx.scene) :
    E.Leads n pc m s pc₁ (.error (.codec code m.ctx.scene.pos) m.ctx.scene) post := by
  have pos : m₀.ctx.pos = m.ctx.scene.pos := congrArg Scene.pos scene
  rw [Context.fail, pos] at step
  exact leads_failAt m₀ fit real at_ other step clean scene

end

lemma leads_fault {d : Defect} (fit : E.Fit m s) (outside : d.isOutside = true) (at_ : E.At pc i)
    (other : ∀ width value, i ≠ .writeImm width value)
    (step : stepAny Builtin.table E.caller E.program.job.eofCode i m s =
      some (.ok (.stop, { m with ctx := m.ctx.raise (.malformed d) }, s))) :
    E.Leads n pc m s pc₁ (.error .outside m.ctx.scene) post := by
  refine ⟨pc, _, .stop at_ step, fun literal => absurd literal (not_isLiteral at_ other), .inl ?_, fit.sound.follows⟩
  rw [fit.clean.raise]
  exact ⟨rfl, ⟨d, outside, rfl⟩, nofun, rfl⟩

end Site

end WireCodec
