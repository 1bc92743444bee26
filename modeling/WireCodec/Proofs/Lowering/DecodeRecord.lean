import WireCodec.Proofs.Lowering.Dispatch
import WireCodec.Proofs.Lowering.Seen

/-! Code for reading a record does the action of reading it: it clears the record, stores the
defaults and then goes through the fields on the wire. -/
namespace WireCodec

open Machine Lowering List

variable {α : Type} {pc₁ index : Nat} {base : UInt64} {seen : List Nat} {f : FieldDesc} {t : TypeDesc} {addr : UInt64}

lemma Act.read_past_end {eof : ErrorCode} {width : Width} {signed : Bool} {c : Scene}
    (past : c.wire.size < c.pos.toNat + width.bytes) : Act.read eof width signed c = Act.fail eof c := by
  simp [Act.read, Act.fail, slice?, Nat.not_le.mpr past]

lemma Act.unless_bind (p : Prop) [Decidable p] (e : ErrorCode) (x : Act α) :
    (if p then Act.fail e else x) = (if p then Act.fail e else pure () : Act Unit) >>= fun _ => x := by
  split <;> rfl

namespace Site

variable {E : Site} {n pc : Nat} {m : Machine} {s : Session}

lemma Has.move {instrs : Code} {pc' : Nat} (has : E.Has pc instrs) (same : pc = pc') : E.Has pc' instrs := same ▸ has

lemma Does.congr {x y : Act α} {post : α → Machine → Prop} (same : x m.ctx.scene = y m.ctx.scene)
    (does : E.Does n pc m s pc₁ y post) : E.Does n pc m s pc₁ x post := by
  intro fit
  rw [same]
  exact does fit

section Loop

variable {read : Nat → FieldDesc → Piece} {act : Spots Visit} {frames top unknown : Nat}
  {fields : List FieldDesc} {arms : List Nat} {body : Code} {table table' : TypeTable}

structure HasLoop (E : Site) (read : Nat → FieldDesc → Piece) (fields : List FieldDesc)
    (top unknown : Nat) (arms : List Nat) (body : Code) (table' : TypeTable) : Prop where
  atUnknown : unknown = top + 6 + dispatchSize fields
  hasHead : E.Has top (loopHead fields arms top unknown (unknown + 2 + body.length))
  hasBody : E.Has (unknown + 2) body
  hasRequired : E.Has (unknown + 2 + body.length) (checkRequired fields)
  made : ArmsMade read top unknown 0 fields (unknown + 2) arms body table'

def ReadsFields (E : Site) (frames : Nat) (read : Nat → FieldDesc → Piece) (act : Spots Visit)
    (fields : List FieldDesc) : Prop :=
  ∀ i, ∀ field ∈ fields, ∀ m : Machine, m.ctx.framesLeft < frames → ∀ addr, m.get p0 = addr →
    E.Renders m.slotsHere (read i field) m
      (Reading.field E.known (act.part i) m.ctx.framesLeft addr field) fun _ _ => True

structure Readable (known : Registry) (fields : List FieldDesc) : Prop where
  has : ∀ field ∈ fields, known.Has field.type
  few : fields.length ≤ maxTracked
  ids : (fields.map (·.id)).Nodup

/-- The machine within the loop: the base of the record and the fields met are in its frame. -/
structure Looping (fields : List FieldDesc) (base : UInt64) (seen : List Nat) (m : Machine) :
    Prop where
  base : m.ctx.readSlot 0 = base
  met : Met fields.length seen m.ctx

lemma Looping.of_ran {m' : Machine} (looping : Looping fields base seen m) (few : fields.length ≤ maxTracked)
    (frameLow : 0 ≤ m.ctx.frame) (ran : Ran m.slotsHere m m') : Looping fields base seen m' := by
  refine ⟨?_, fun index low => ?_⟩
  · rw [readSlot_of_ran frameLow ran (by decide), looping.base]
  · rw [readSlot_of_ran frameLow ran (seenSlot_low (lt_of_lt_of_le low few))]
    exact looping.met index low

lemma fieldFor?_eq {id tag : UInt64} (found : fields.findIdx? (fun f => f.id.toUInt64 = id) = some index)
    (at_ : fields[index]? = some f) : Reading.fieldFor? fields id tag =
      if f.type.kind.tag.toUInt64 = tag then some (index, f) else none := by
  simp [Reading.fieldFor?, found, at_]

lemma slots_le (m : Machine) : m.ctx.frame.toNat * 8 ≤ m.slotsHere := by
  rw [Machine.slotsHere]
  omega

lemma HasLoop.skip (loop : E.HasLoop read fields top unknown arms body table') :
    E.Has unknown [.call Builtin.skip [r0] []] ∧ E.Has (unknown + 1) [.jump (.place top)] := by
  have has := ((E.has_append).mp loop.hasHead).2
  simp only [length_append, length_cons, length_nil, length_dispatch loop.made.length] at has
  rw [show top + (6 + dispatchSize fields) = unknown by have := loop.atUnknown; omega] at has
  exact (E.has_cons).mp has

lemma Does.ofFit {x : Act α} {post : α → Machine → Prop} (does : E.Fit m s → E.Does n pc m s pc₁ x post) :
    E.Does n pc m s pc₁ x post :=
  fun fit => does fit fit

lemma HasLoop.head (loop : E.HasLoop read fields top unknown arms body table') : E.Has top [.loadFrame p0 0] ∧ E.Has
    (top + 1) [.check 1, .readInt .w1 false r0] ∧ E.Has (top + 3) [ifEq r0 0 (.place (unknown + 2 + body.length))] ∧
    E.Has (top + 4) [.check 2, .readInt .w2 true r1] ∧ E.Has (top + 6) (dispatch fields arms unknown) := by
  have has := loop.hasHead
  simp only [loopHead, cons_append, nil_append] at has
  obtain ⟨hasBase, has⟩ := (E.has_cons).mp has
  obtain ⟨hasTag, has⟩ := (@has_append _ E [.check 1, .readInt .w1 false r0] _).mp has
  obtain ⟨hasStop, has⟩ := (E.has_cons).mp has
  obtain ⟨hasId, has⟩ := (@has_append _ E [.check 2, .readInt .w2 true r1] _).mp has
  exact ⟨hasBase, hasTag, hasStop, hasId, ((E.has_append).mp has).1⟩

variable {place : Nat} {x : Act Unit} {post : Unit → Machine → Prop}

lemma HasLoop.arm (loop : E.HasLoop read fields top unknown arms body table') (at_ : fields[index]? = some f)
    (atPlace : arms[index]? = some place) : E.Has place [ifNe r0 (Int32.ofNat f.type.kind.tag.toNat) (.place unknown)] ∧
    E.Has (place + 1) (noteSeen index) ∧ ∃ inner table₁ table₂, E.Has (place + 6) inner ∧ E.Has
    (place + 6 + inner.length) [.jump (.place top)] ∧ read index f (place + 6) table₁ = .ok inner table₂ ∧ table₂.Within
    table' := by
  obtain ⟨before, inner, after, table₁, table₂, whole, atPlace', ok, within⟩ := loop.made.arm index f at_
  rw [Nat.zero_add] at whole ok
  obtain rfl : place = unknown + 2 + before.length := Option.some.inj (atPlace.symm.trans atPlace')
  have has := loop.hasBody
  rw [whole, has_append, has_append, armCode, cons_append, cons_append,
    has_cons, has_append, has_append, length_append, ← Nat.add_assoc] at has
  obtain ⟨⟨_, hasTag, ⟨hasSeen, hasInner⟩, hasJump⟩, _⟩ := has
  exact ⟨hasTag, hasSeen, inner, table₁, table₂, hasInner, hasJump, ok, within⟩

lemma Does.inFrame {x : Act α} {post : α → Machine → Prop} (does : E.Does m.slotsHere pc m s pc₁ x post) :
    E.Does (m.ctx.frame.toNat * 8) pc m s pc₁ x fun a m' => Ran m.slotsHere m m' ∧ post a m' :=
  does.mono (slots_le m) fun _ _ ran holds => ⟨ran, holds⟩

lemma HasLoop.does_unknown (loop : E.HasLoop read fields top unknown arms body table')
    (rest : ∀ m₁ s₁, Act.pass m.ctx.framesLeft (m.get r0) m.ctx.scene = .ok () m₁.ctx.scene →
      Ran m.slotsHere m m₁ → E.Follows s s₁ → E.Does (m.ctx.frame.toNat * 8) top m₁ s₁ pc₁ x post) :
    E.Does (m.ctx.frame.toNat * 8) unknown m s pc₁ (do Act.pass m.ctx.framesLeft (m.get r0); x) post := by
  obtain ⟨hasSkip, hasJump⟩ := loop.skip
  exact (does_pass hasSkip).inFrame.bind fun _ m₁ s₁ ok _ follows ⟨ran, _⟩ =>
    .jumpTo hasJump (rest m₁ s₁ ok ran follows)

lemma does_checkedRead (reads : E.Reads) {k : UInt32} {width : Width} {signed : Bool} {dst : Reg}
    (size : k = width.bytes.toUInt32) (has : E.Has pc [.check k, .readInt width signed dst]) :
    E.Does n pc m s (pc + 2) (Act.read Reading.eof width signed) fun word m' =>
      m'.get = Function.update m.get dst word := by
  obtain ⟨hasCheck, hasRead⟩ := (E.has_cons).mp has
  subst size
  rw [← Act.need_read]
  refine (does_check hasCheck reads).bind fun _ m₁ s₁ _ _ _ same => ?_
  subst same
  exact does_read hasRead reads

lemma HasLoop.does_known (loop : E.HasLoop read fields top unknown arms body table')
    (reading : E.ReadsFields frames read act fields) (readable : Readable E.known fields)
    (within : table'.Within s.types) (few : m.ctx.framesLeft < frames) (looping : Looping fields base seen m)
    (atBase : m.get p0 = base) (at_ : fields[index]? = some f) (atPlace : arms[index]? = some place)
    (sameTag : m.get r0 = f.type.kind.tag.toUInt64)
    (rest : ∀ m₁ s₁, Reading.field E.known (act.part index) m.ctx.framesLeft base f m.ctx.scene =
        .ok () m₁.ctx.scene → Ran (m.ctx.frame.toNat * 8) m m₁ → E.Follows s s₁ →
      Looping fields base (index :: seen) m₁ → E.Does (m.ctx.frame.toNat * 8) top m₁ s₁ pc₁ x post) :
    E.Does (m.ctx.frame.toNat * 8) place m s pc₁ (if seen.contains index then Act.fail .duplicateField
        else do Reading.field E.known (act.part index) m.ctx.framesLeft base f; x) post := by
  obtain ⟨hasTag, hasSeen, inner, table₁, table₂, hasInner, hasJump, ok, within'⟩ := loop.arm at_ atPlace
  have mem := mem_of_getElem? at_
  refine .passBranch hasTag (by simp [Cond.eval, sameTag, immWord_tag]) ?_
  have noted := @runs_noteSeen E table' _ m _ seen readable.few looping.met index
    (List.getElem?_eq_some_iff.mp at_).1 (Nat.le_refl (m.ctx.frame.toNat * 8)) _ s hasSeen within
  rw [Act.unless_bind]
  refine noted.bind fun _ m₁ s₁ ok₁ ran follows noted => ?_
  obtain ⟨met, slot, keptBase⟩ := noted
  have scene : m₁.ctx.scene = m.ctx.scene := by
    split at ok₁
    · cases ok₁
    · exact (EStateM.Result.ok.inj ok₁).2.symm
  have frameSame : m₁.ctx.frame.toNat * 8 = m.ctx.frame.toNat * 8 := by rw [ran.frame]
  have done := reading index f mem m₁ (ran.framesLeft ▸ few) base (keptBase.trans atBase) _ table₁ inner
    table₂ s₁ ok hasInner ((within'.trans within).trans follows.types)
  rw [ran.framesLeft] at done
  rw [← frameSame]
  refine .ofFit fun fit => done.inFrame.bind fun _ m₂ s₂ ok₂ ran' follows₂ both => .jumpTo hasJump ?_
  rw [frameSame] at ran' ⊢
  exact rest m₂ s₂ (scene ▸ ok₂) (ran.trans ran') (follows.trans follows₂)
    (.of_ran ⟨slot.trans looping.base, met⟩ readable.few fit.low both.1)

/-- The loop goes over the fields as the action does: each turn leads back to the top, with a
byte less on the wire at least. -/
lemma HasLoop.does_occurrences (reads : E.Reads) (loop : E.HasLoop read fields top unknown arms body table')
    (numbered : E.known.Numbered) (reading : E.ReadsFields frames read act fields)
    (forward : ∀ way left record base, E.known.Target record → (act way left record base).Forward)
    (readable : Readable E.known fields) (count : Nat) (within : table'.Within s.types)
    (few : m.ctx.framesLeft < frames) (looping : Looping fields base seen m)
    (room : m.ctx.wire.size < m.ctx.pos.toNat + count) : E.Does (m.ctx.frame.toNat * 8) top m s
      (unknown + 2 + body.length + (checkRequired fields).length)
      (Reading.occurrences E.known act fields m.ctx.framesLeft base count seen) fun _ _ => True := by
  obtain ⟨hasBase, hasTag, hasStop, hasId, hasDispatch⟩ := loop.head
  induction count generalizing seen m s with
  | zero =>
    have past : m.ctx.scene.wire.size < m.ctx.scene.pos.toNat + Width.w1.bytes :=
      Nat.lt_succ_of_lt room
    have cut := @Act.read_past_end Reading.eof .w1 false _ past
    refine .loadFrame hasBase (.congr (y := Act.read Reading.eof .w1 false >>= fun _ => pure ()) ?_
      ((does_checkedRead reads rfl hasTag).bind fun _ m₁ _ ok _ _ _ => ?_))
    · rw [set_ctx, Act.bind_apply, cut]
      rfl
    · rw [set_ctx, cut] at ok
      cases ok
  | succ count ih =>
    refine .loadFrame hasBase (.ofFit fun fit => ?_)
    generalize loaded : m.set p0 (m.ctx.readSlot 0) = m₀ at fit ⊢
    have ctx : m₀.ctx = m.ctx := by rw [← loaded, set_ctx]
    have atBase : m₀.get p0 = base := by rw [← loaded, get_set, Function.update_self, looping.base]
    have small : m₀.ctx.wire.size < 2 ^ 64 := lt_of_le_of_lt fit.clean.wireFits (by decide)
    rw [← ctx] at room few ⊢
    have looping₀ : Looping fields base seen m₀ := ⟨ctx ▸ looping.base, ctx ▸ looping.met⟩
    refine (does_checkedRead reads rfl hasTag).inFrame.bind
      fun tag m₁ s₁ ok₁ below₁ follows₁ both => ?_
    obtain ⟨ran₁, regs₁⟩ := both
    have looping₁ := looping₀.of_ran readable.few fit.low ran₁
    have within₁ := within.trans follows₁.types
    have atTag : m₁.get r0 = tag := by rw [regs₁, Function.update_self]
    by_cases stop : tag = 0
    · rw [if_pos stop]
      exact .branchTo hasStop (by simp [Cond.eval, atTag, stop])
        (runs_checkRequired looping₁.met _ s₁ loop.hasRequired within₁)
    · rw [if_neg stop]
      have read := Act.read_eq_ok small ok₁
      rw [← below₁.framesLeft, ← below₁.frame]
      refine .passBranch hasStop (by simp [Cond.eval, atTag, stop]) ((does_checkedRead reads rfl
        hasId).inFrame.bind fun id m₂ s₂ ok₂ below₂ follows₂ both => ?_)
      obtain ⟨ran₂, regs₂⟩ := both
      have looping₂ := looping₁.of_ran readable.few (ran₁.frame ▸ fit.low) ran₂
      have read₂ := Act.read_eq_ok (read.1 ▸ small) ok₂
      refine .dispatch readable.ids loop.made.length hasDispatch fun m₃ ctx₃ regs₃ => ?_
      have atId : m₂.get r1 = id := by rw [regs₂, Function.update_self]
      have tag₃ : m₃.get r0 = tag := by rw [regs₃ _ (by decide), regs₂, Function.update_of_ne (by decide), atTag]
      have base₃ : m₃.get p0 = base := by
        rw [regs₃ _ (by decide), regs₂, Function.update_of_ne (by decide), regs₁,
          Function.update_of_ne (by decide), atBase]
      -- a turn that ends at `m₄` has taken the tag from the wire
      have turn : ∀ seen' (m₄ : Machine) s₄, Ran (m₁.ctx.frame.toNat * 8) m₂ m₄ → E.Follows s₂ s₄ → Looping fields base
          seen' m₄ → m₂.ctx.scene.Ahead m₄.ctx.scene → E.Does (m₁.ctx.frame.toNat * 8) top m₄ s₄
          (unknown + 2 + body.length + (checkRequired fields).length)
          (Reading.occurrences E.known act fields m₁.ctx.framesLeft base count seen') fun _ _ => True := by
        intro seen' m₄ s₄ ran₄ follows₄ looping₄ ahead
        have ran := below₂.trans ran₄
        have := @ih seen' m₄ s₄ (within₁.trans (follows₂.trans follows₄).types)
          (by rw [ran.framesLeft, below₁.framesLeft]; exact few) looping₄ ?_
        · rwa [ran.framesLeft, ran.frame] at this
        · have wire : m₄.ctx.wire = m₀.ctx.wire := ahead.wire.trans (read₂.1.trans read.1)
          have pos : m₀.ctx.pos.toNat + 1 ≤ m₄.ctx.pos.toNat := by
            have a := ahead.pos
            have b := read.2.1
            have c := read₂.2.1
            simp only [Context.scene, Width.bytes] at a b c
            omega
          rw [wire]
          omega
      have frame₃ : m₃.ctx.frame = m₁.ctx.frame := by rw [ctx₃, below₂.frame]
      have left₃ : m₃.ctx.framesLeft = m₁.ctx.framesLeft := by rw [ctx₃, below₂.framesLeft]
      have same₃ : Ran m₃.slotsHere m₂ m₃ := ⟨by rw [ctx₃], by rw [ctx₃], by rw [ctx₃], fun clean => by rwa [ctx₃],
        fun _ _ => by rw [ctx₃]⟩
      have looping₃ : Looping fields base seen m₃ := ⟨ctx₃ ▸ looping₂.base, ctx₃ ▸ looping₂.met⟩
      have fits₂ : m₃.ctx.scene.wire.size < 2 ^ 64 ∧ m₃.ctx.scene.pos.toNat ≤ m₃.ctx.scene.wire.size := by
        rw [ctx₃, read₂.1, read.1]
        exact ⟨small, read.1 ▸ read₂.2.2⟩
      have unknownCase : E.Does (m₁.ctx.frame.toNat * 8) unknown m₃ s₂
          (unknown + 2 + body.length + (checkRequired fields).length)
          (do
            Act.pass m₁.ctx.framesLeft tag
            Reading.occurrences E.known act fields m₁.ctx.framesLeft base count seen)
          fun _ _ => True := by
        rw [← tag₃, ← left₃, ← frame₃]
        refine loop.does_unknown fun m₄ s₄ ok ran follows => ?_
        rw [frame₃, left₃]
        refine turn seen m₄ s₄ ((same₃.trans ran).mono (by rw [← frame₃]; exact slots_le m₃)) follows
          (looping₃.of_ran readable.few ?_ ran) ?_
        · rw [frame₃, ran₁.frame]
          exact fit.low
        · have := (Act.forward_pass _ _ _ fits₂.1 fits₂.2).ok ok
          rwa [ctx₃] at this
      rw [atId]
      rcases @armOf_cases _ _ unknown loop.made.length id with
        ⟨missing, place⟩ | ⟨index, f, found, at_, place⟩
      · have none_ : Reading.fieldFor? fields id tag = none := by simp [Reading.fieldFor?, missing]
        rw [place, none_]
        exact unknownCase
      · rw [fieldFor?_eq found at_]
        by_cases matched : f.type.kind.tag.toUInt64 = tag
        · rw [if_pos matched]
          simp only
          rw [← left₃, ← frame₃]
          refine loop.does_known reading readable
            (within₁.trans follows₂.types) ?_ looping₃ base₃ at_ place (tag₃.trans matched.symm)
            fun m₄ s₄ ok ran follows looping₄ => ?_
          · rw [left₃, below₁.framesLeft]
            exact few
          · rw [frame₃, left₃]
            refine turn (index :: seen) m₄ s₄ ?_ follows looping₄ ?_
            · have := (same₃.mono (slots_le m₃)).trans ran
              rwa [frame₃] at this
            · have ahead := (Reading.closed_field (Act.forward_closed _) numbered.sound (fun way => forward (index :: way)) _ _
                (readable.has f (mem_of_getElem? at_)) _ fits₂.1 fits₂.2).ok ok
              rwa [ctx₃] at ahead
        · rw [if_neg matched]
          exact .branchTo (loop.arm at_ place).1
            (by simp [Cond.eval, tag₃, immWord_tag, Ne.symm matched]) unknownCase

end Loop

lemma runs_clear {table : TypeTable} (t : TypeDesc) (atBase : m.get p0 = addr) :
    E.Runs table n (if t.size = 0 then [] else [.zero p0 0 t.size]) m (Reading.clear addr t)
      fun _ m' => m'.get = m.get := by
  unfold Reading.clear
  split
  · exact runs_nil rfl
  · exact runs_zero atBase

lemma renders_storeDefaults {fields : List FieldDesc} (shaped : ∀ field ∈ fields, field.type.Shaped)
    (defaults : ∀ field ∈ fields, ∀ default, field.default = some default →
      field.type.kind.isScalar = true) (atBase : m.get p0 = addr) :
    E.Renders n (storeDefaults fields) m (Reading.storeDefaults addr fields) fun _ m' =>
      m'.get p0 = addr := by
  induction fields generalizing m with
  | nil => exact renders_code fun _ => runs_nil atBase
  | cons field rest ih =>
    have shapedRest : ∀ f ∈ rest, f.type.Shaped := fun f mem => shaped f (mem_cons_of_mem _ mem)
    have defaultsRest := fun f mem => defaults f (mem_cons_of_mem _ mem)
    unfold storeDefaults Reading.storeDefaults Reading.storeDefault
    cases given : field.default with
    | none => exact ih shapedRest defaultsRest atBase
    | some default =>
      simp only
      split
      · exact ih shapedRest defaultsRest atBase
      · have stored : E.Renders n (withM (scalarWidth field.type) fun width => code
            [.movImm r0 default.bits, .store width r0 p0 field.offset]) m
            (Act.store (Writing.width field.type) default.bits addr field.offset) fun _ m' =>
              m'.get p0 = addr := by
          rw [scalarWidth_eq (shaped field mem_cons_self) (defaults field mem_cons_self default given), withM_pure]
          refine renders_code fun table => ?_
          have kept : (m.set r0 default.bits).get p0 = addr := by simpa [get_set] using atBase
          exact .movImm ((runs_store (by simp) kept).mono le_rfl fun _ _ _ regs => by rw [regs, kept])
        exact renders_seq stored fun _ m₁ _ _ kept =>
          renders_last (ih shapedRest defaultsRest kept)

variable {read : Nat → FieldDesc → Piece} [∀ i field k, Grows (read i field k)]
  {act : Spots Visit} {frames : Nat}

/-- What stands where the code of a record does, up to `stop`. -/
structure HasRecord (E : Site) (read : Nat → FieldDesc → Piece) (t : TypeDesc) (start stop : Nat)
    (table table' : TypeTable) (clear defaults : Code) (top unknown : Nat) (arms : List Nat)
    (body : Code) (mid : TypeTable) : Prop where
  isClear : clear = if t.size = 0 then [] else [.zero p0 0 t.size]
  hasClear : E.Has start clear
  madeDefaults : storeDefaults t.fields (start + clear.length) table = .ok defaults mid
  hasDefaults : E.Has (start + clear.length) defaults
  grows : mid.Within table'
  hasEnter : E.Has (start + clear.length + defaults.length) [.enter]
  hasOpen : E.Has (start + clear.length + defaults.length + 1) (openFrame (slotCount t.fields.length))
  atTop : start + clear.length + defaults.length + 1 + (openFrame (slotCount t.fields.length)).length = top
  loop : E.HasLoop read t.fields top unknown arms body table'
  hasLeave : E.Has (unknown + 2 + body.length + (checkRequired t.fields).length) [.leave]
  atStop : unknown + 2 + body.length + (checkRequired t.fields).length + 1 = stop

lemma hasRecord_of_ok {start : Nat} {made : Code} {table table' : TypeTable}
    (ok : recordOf read t start table = .ok made table') (hasCode : E.Has start made) :
    ∃ clear defaults top unknown arms body mid, E.HasRecord read t start (start + made.length)
      table table' clear defaults top unknown arms body mid := by
  obtain ⟨prologue, mid, arms, body, okPrologue, okArms, rfl⟩ := recordOf_eq_ok.mp ok
  rw [decodePrologue_eq] at okPrologue
  obtain ⟨clear, mid₁, rest, okClear, oks, rfl⟩ := seq_cons_eq_ok.mp okPrologue
  obtain ⟨defaults, mid₂, rest, okDefaults, oks', rfl⟩ := seq_cons_eq_ok.mp oks
  obtain ⟨opening, mid₃, rest, okOpen, okNil, rfl⟩ := seq_cons_eq_ok.mp oks'
  obtain ⟨isClear, rfl⟩ := code_eq_ok.mp okClear
  obtain ⟨rfl, rfl⟩ := code_eq_ok.mp okOpen
  obtain ⟨rfl, rfl⟩ := code_eq_ok.mp okNil
  have armsMade := armsMade_of_ok okArms
  rw [has_append, has_append, has_append, has_append, has_append, has_append, append_nil, has_cons] at hasCode
  obtain ⟨⟨⟨⟨⟨hasClear, hasDefaults, hasEnter, hasOpen⟩, hasHead⟩, hasBody⟩, hasRequired⟩, hasLeave⟩ := hasCode
  simp only [length_append, length_loopHead armsMade.length, length_cons,
    length_nil, append_nil] at hasHead hasBody hasRequired hasLeave armsMade ⊢
  have top : start + (clear.length + (defaults.length + ((openFrame (slotCount t.fields.length)).length + 1))) =
      start + clear.length + defaults.length + 1 + (openFrame (slotCount t.fields.length)).length := by omega
  rw [top] at hasHead armsMade
  exact ⟨clear, defaults, _, _, arms, body, mid, isClear, hasClear, okDefaults, hasDefaults,
    Grows.of_ok okArms, hasEnter, hasOpen, rfl,
    ⟨rfl, hasHead, hasBody.move (by omega), hasRequired.move (by omega), armsMade⟩,
    hasLeave.move (by omega), by omega⟩

lemma renders_recordOf (reads : E.Reads) (numbered : E.known.Numbered) (reading : E.ReadsFields frames read act t.fields)
    (forward : ∀ way left record base, E.known.Target record → (act way left record base).Forward) (has : E.known.Has t)
    (tracked : t.fields.length ≤ maxTracked) (few : m.ctx.framesLeft ≤ frames) : E.Renders m.slotsHere (recordOf read t) m
    (Reading.record E.known act m.ctx.framesLeft t (m.get p0)) fun _ _ => True := by
  have shaped := numbered.sound.shaped t has
  have readable : Readable E.known t.fields :=
    ⟨fun _ mem => numbered.sound.field has mem, tracked, shaped.laidOut.ids⟩
  intro start table made table' s ok hasCode within
  obtain ⟨clear, defaults, top, unknown, arms, body, mid, record⟩ := hasRecord_of_ok ok hasCode
  have within₁ : mid.Within s.types := record.grows.trans within
  have cleared : E.Does m.slotsHere start m s _ (Reading.clear (m.get p0) t) fun _ m' =>
      m'.get = m.get :=
    runs_clear t rfl start s (record.isClear ▸ record.hasClear) within
  rw [← record.isClear] at cleared
  refine .ofFit fun fit => cleared.bind fun _ m₁ s₁ _ ran₁ follows₁ regs₁ => ?_
  have atBase₁ : m₁.get p0 = m.get p0 := by rw [regs₁]
  have scalars : ∀ field ∈ t.fields, ∀ default, field.default = some default → field.type.kind.isScalar = true := by
    intro field mem default given
    rw [← (shaped.laidOut.defaults field mem default given).2]
    cases default <;> rfl
  have stored := renders_storeDefaults (n := m.slotsHere)
    (fun field mem => numbered.sound.shaped _ (numbered.sound.field has mem)) scalars atBase₁ _ table
    defaults mid s₁ record.madeDefaults record.hasDefaults (within₁.trans follows₁.types)
  refine stored.bind fun _ m₂ s₂ _ ran₂ follows₂ atBase₂ => ?_
  have follows := follows₁.trans follows₂
  have ran := ran₁.trans ran₂
  have inFrame : m.slotsHere = m₂.entered.ctx.frame.toNat * 8 := by
    rw [frame_entered (ran.frame ▸ fit.low), ran.frame, Machine.slotsHere, Nat.mul_comm]
  rw [← record.atStop, ← ran.framesLeft]
  refine @Does.deeper E Unit _ _ _ m₂ s₂ _ (fun _ _ => True) record.hasEnter record.hasLeave fun left leftOver => ?_
  have entered := framesLeft_entered leftOver
  have opened := runs_openFrame (slotCount_le readable.few) (le_of_eq inFrame) _ s₂
    record.hasOpen (within.trans follows.types)
  rw [record.atTop] at opened
  let turns := m₂.ctx.wire.size + 1
  refine .congr (y := pure () >>= fun _ =>
    Reading.occurrences E.known act t.fields left (m.get p0) turns []) rfl
    (opened.bind fun _ m₃ s₃ ok₃ ran₃ follows₃ both => ?_)
  obtain ⟨slot, clear⟩ := both
  have frame₃ : m.slotsHere = m₃.ctx.frame.toNat * 8 := by rw [inFrame, ran₃.frame]
  have left₃ : m₃.ctx.framesLeft = left := ran₃.framesLeft.trans entered
  have wire₃ : m₃.ctx.wire = m₂.ctx.wire := (congrArg Scene.wire (EStateM.Result.ok.inj ok₃).2).symm
  rw [frame₃, ← left₃]
  refine record.loop.does_occurrences reads numbered reading forward readable _
    (within.trans (follows.trans follows₃).types) ?_ ⟨slot.trans atBase₂, met_nil clear⟩ ?_
  · have := ran.framesLeft
    omega
  · rw [wire₃]
    omega

lemma renders_decodeRecord (reads : E.Reads) (numbered : E.known.Numbered) {nested : Spots (TypeDesc → Piece)}
    [∀ way t k, Grows (nested way t k)] (inner : E.Inner frames nested act)
    (forward : ∀ way left record base, E.known.Target record → (act way left record base).Forward)
    (has : E.known.Has t) (few : m.ctx.framesLeft ≤ frames) :
    E.Renders m.slotsHere (foldFrom none (decodeRecord E.known nested t)) m
      (Reading.record E.known act m.ctx.framesLeft t (m.get p0)) fun _ _ => True := by
  have low : ∀ field ∈ t.fields, field.offset.toNat + field.slotSize.toNat < 2 ^ 32 :=
    fun _ mem => field_low (numbered.sound.shaped t has) mem
  intro start table made table' s ok
  by_cases tracked : t.fields.length ≤ maxTracked
  · rw [decodeRecord_eq tracked] at ok
    exact renders_recordOf reads numbered (fun i field mem m few addr atBase =>
        renders_decodeField reads numbered (inner.part i) (numbered.sound.field has mem) (low field mem) few atBase)
      forward has tracked few start table made table' s (recordOf_folded ok)
  · obtain ⟨plain, ok, _⟩ := foldFrom_eq_ok.mp ok
    rw [decodeRecord, if_pos (Nat.lt_of_not_le tracked)] at ok
    cases ok

end Site

end WireCodec
