import WireCodec.Proofs.Lowering.Orderly
import WireCodec.Proofs.Lowering.Straight

/-! Loops over the entries of a container. A loop counts down in `r1` and moves its cursor in
`p1`. Where the code of an entry may use any register, both are kept in a frame of the loop's
own. -/
namespace WireCodec

open Machine Lowering

def Machine.slotsHere (m : Machine) : Nat := 8 * (m.ctx.frame.toNat + 1)

/-- Registers that code for scalars, strings and binaries keeps. -/
def Kept (m m' : Machine) : Prop := ∀ reg, reg ≠ r0 → reg ≠ r2 → reg ≠ p2 → m'.get reg = m.get reg

lemma Kept.refl (m : Machine) : Kept m m := fun _ _ _ _ => rfl

lemma Kept.trans {m m' m'' : Machine} (first : Kept m m') (second : Kept m' m'') : Kept m m'' :=
  fun reg a b c => (second reg a b c).trans (first reg a b c)

lemma Kept.of_eq {m m' : Machine} (same : m'.get = m.get) : Kept m m' := fun _ _ _ _ => by rw [same]

lemma Ran.slotsHere {n : Nat} {m m' : Machine} (ran : Ran n m m') : m'.slotsHere = m.slotsHere := by
  rw [Machine.slotsHere, Machine.slotsHere, ran.frame]

namespace Lowering

variable {known : Registry} {job : Job} {bad : Failure → Prop} {e : Entry} {body key elem : Piece}

attribute [local simp] Plain Job.allows Instr.targets Instr.uses Instr.frameSlots

lemma straight_stepCode (e : Entry) : Straight job e.stepCode := by
  simp [Entry.stepCode, Reg.isPtr]

lemma orderly_registerLoop (orderly : Orderly known job bad body) : Orderly known job bad (e.registerLoop body) :=
  orderly_looping (isBranch_ifNe _ _) (orderly_pair orderly (orderly_code (straight_stepCode e)))

def loopStep (e : Entry) : Code :=
  [.loadFrame p1 0, .loadFrame r1 1] ++ e.stepCode ++ [.storeFrame p1 0, .storeFrame r1 1]

lemma straight_loopStep (e : Entry) : Straight job (loopStep e) := by
  have step : Straight job e.stepCode := straight_stepCode e
  simp [loopStep, step]

lemma orderly_frameLoop (orderly : Orderly known job bad body) : Orderly known job bad (e.frameLoop body) :=
  orderly_looping (isBranch_ifNe _ _) (orderly_pair orderly (orderly_code (straight_loopStep e)))

def keepBounds (isSet : Bool) : Code :=
  if isSet then [.storeFrame p1 2, .storeFrame r1 3] else []

def takeBounds (isSet : Bool) : Code :=
  if isSet then [.loadFrame p3 2, .loadFrame r3 3] else []

lemma straight_loopStart (isSet : Bool) : Straight job ([.storeFrame p1 0, .storeFrame r1 1] ++ keepBounds isSet) := by
  cases isSet <;> simp [keepBounds]

lemma straight_takeBounds (isSet : Bool) : Straight job (takeBounds isSet) := by
  cases isSet <;> simp [takeBounds]

lemma orderly_parts (orderlyKey : Orderly known job bad key) (orderly : Orderly known job bad elem) :
    Orderly known job bad (e.parts (some key) elem) := by
  refine orderly_cons orderlyKey (orderly_pair (orderly_code ?_) orderly)
  split
  · split <;> simp
  · exact straight_nil

end Lowering

namespace Site

variable {E : Site} {α : Type} {n : Nat} {m : Machine} {x : Act α} {post : α → Machine → Prop} {piece : Piece}

lemma renders_of_frame (renders : 0 ≤ m.ctx.frame → m.ctx.frame ≤ m.ctx.limit → E.Renders n piece m x post) : E.Renders
    n piece m x post :=
  fun start table made table' s ok has within fit =>
    renders fit.low fit.high start table made table' s ok has within fit

lemma renders_of_clean (renders : m.ctx.Clean → E.Renders n piece m x post) : E.Renders n piece m x post :=
  fun start table made table' s ok has within fit =>
    renders fit.clean start table made table' s ok has within fit

lemma renders_still (m : Machine) : E.Renders n (code []) m (pure ()) fun _ m' => m' = m :=
  renders_code fun _ => runs_nil rfl

lemma readSlot_of_ran {m' : Machine} (low : 0 ≤ m.ctx.frame) (ran : Ran m.slotsHere m m')
    {slot : UInt8} (inFrame : slot.toNat < 8) : m'.ctx.readSlot slot = m.ctx.readSlot slot := by
  refine ran.readSlot ?_
  rw [Context.slotIndex_eq low, Machine.slotsHere]
  omega

lemma renders_deeper (post : α → (Reg → UInt64) → Prop) {before after : Code} {mid : Piece}
    {body : Nat → Act α} (inner : ∀ left, m.ctx.framesLeft = left + 1 →
      E.Renders n (seq [code before, mid, code after]) m.entered (body left) fun a m' => post a m'.get) :
    E.Renders n (seq [code (.enter :: before), mid, code (after ++ [.leave])]) m
      (Act.deeper m.ctx.framesLeft body) fun a m' => post a m'.get := by
  intro start table made table' s ok has within
  obtain ⟨second, inside, rfl⟩ := seq_between_eq_ok.mp ok
  have same : (Instr.enter :: before : Code) ++ second ++ (after ++ [Instr.leave]) =
      Instr.enter :: (before ++ second ++ after ++ [Instr.leave]) := by simp
  rw [same] at has ⊢
  obtain ⟨enter, has⟩ := (E.has_cons).mp has
  obtain ⟨has, leave⟩ := (E.has_append).mp has
  rw [List.length_cons, Nat.add_comm before.length, ← Nat.add_assoc] at inside
  have done := Does.deeper enter leave fun left frames =>
    inner left frames (start + 1) table _ table' s (seq_between_eq_ok.mpr ⟨second, inside, rfl⟩) has within
  have stop : start + (Instr.enter :: (before ++ second ++ after ++ [Instr.leave])).length =
      start + 1 + (before ++ second ++ after).length + 1 := by
    rw [List.length_cons, List.length_append, List.length_singleton]
    omega
  rw [stop]
  exact done

lemma framesLeft_entered {left : Nat} (frames : m.ctx.framesLeft = left + 1) : m.entered.ctx.framesLeft = left := by
  simp only [Context.framesLeft, Machine.entered] at frames ⊢
  omega

lemma frame_entered (low : 0 ≤ m.ctx.frame) : m.entered.ctx.frame.toNat = m.ctx.frame.toNat + 1 := by
  simp only [Machine.entered]
  omega

/-- A loop that counts down in `r1`. What holds at its start is kept by each turn. -/
lemma renders_looping {body : Piece} {step : UInt64 → Act Unit} {stride : UInt32}
    (inv : UInt64 → UInt64 → Machine → Prop)
    (turn : ∀ count base m, inv count base m → E.Renders n body m (step base) fun _ m' =>
      m'.get r1 = count - 1 ∧ inv (count - 1) (base + immWord stride.toInt32) m')
    {count base : UInt64} (positive : count ≠ 0) (holds : inv count base m) :
    E.Renders n (looping body (ifNe r1 0)) m (Act.each step stride count.toNat base) fun _ m' =>
      ∃ base', inv 0 base' m' := by
  intro start table made table' s ok has within
  obtain ⟨inner, oks, rfl⟩ := looping_eq_ok.mp ok
  obtain ⟨has₁, has₂⟩ := (E.has_append).mp has
  rw [List.length_append, List.length_singleton, ← Nat.add_assoc]
  -- the induction is on the turns left; the code stays where it is
  generalize turns : count.toNat = k
  induction k generalizing count base m s with
  | zero => exact absurd (UInt64.toNat_inj.mp turns) positive
  | succ k ih =>
    refine (turn count base m holds start table inner table' s oks has₁ within).bind fun _ m₁ s₁ _ _ follows after => ?_
    obtain ⟨left, holds'⟩ := after
    have fewer : (count - 1).toNat = k := by
      rw [UInt64.toNat_sub_of_le _ _ (UInt64.le_iff_toNat_le.mpr (by simp; omega)), turns]
      rfl
    cases k with
    | zero =>
      have last : count - 1 = 0 := UInt64.toNat_inj.mp fewer
      refine .passBranch has₂ ?_ (.pure ⟨_, last ▸ holds'⟩)
      simp [Cond.eval, left, last]
    | succ k =>
      have more : count - 1 ≠ 0 := by
        intro none
        rw [none] at fewer
        cases fewer
      refine .branchTo has₂ ?_ (ih more holds' s₁ (within.trans follows.types) fewer)
      simpa [Cond.eval, left] using more

/-- What loops over entries need of the code of one entry: it does `act`, with the cursor in
`p1`, and keeps the loop's registers or finds the cursor in the frame as well. -/
structure Handles (E : Site) (frames : Nat) (e : Entry) (entry : Bool → Piece)
    (act : Bool → Nat → UInt64 → Act Unit) : Prop where
  simple : e.isSimple = true → ∀ flag, flag = e.fixedSize?.isSome → ∀ m,
    E.Renders m.slotsHere (entry flag) m (act flag m.ctx.framesLeft (m.get p1)) fun _ m' => Kept m m'
  framed : e.isSimple = false → ∀ m, m.ctx.framesLeft < frames → m.ctx.readSlot 0 = m.get p1 →
    E.Renders m.slotsHere (entry false) m (act false m.ctx.framesLeft (m.get p1)) fun _ _ => True

variable {frames : Nat} {e : Entry} {entry : Bool → Piece} {act : Bool → Nat → UInt64 → Act Unit}

lemma renders_registerLoop (handles : E.Handles frames e entry act) (isSimple : e.isSimple = true)
    {flag : Bool} (fixed : flag = e.fixedSize?.isSome) (positive : m.get r1 ≠ 0) :
    E.Renders m.slotsHere (e.registerLoop (entry flag)) m
      (Act.each (act flag m.ctx.framesLeft) e.stride (m.get r1).toNat (m.get p1)) fun _ m' =>
        m'.get p3 = m.get p3 ∧ m'.get r3 = m.get r3 := by
  refine (renders_looping (fun count base m' => Ran m.slotsHere m m' ∧ m'.get r1 = count ∧
      m'.get p1 = base ∧ m'.get p3 = m.get p3 ∧ m'.get r3 = m.get r3) ?_ positive
    ⟨.refl _ m, rfl, rfl, rfl, rfl⟩).mono le_rfl fun _ _ _ ⟨_, inv⟩ => inv.2.2.2
  rintro count base m' ⟨ran, rfl, rfl, keptP, keptR⟩
  have body : E.Renders m.slotsHere (seq [entry flag, code e.stepCode]) m' (act flag m.ctx.framesLeft (m'.get p1)) fun _
      m₂ => m₂.get r1 = m'.get r1 - 1 ∧ m₂.get p1 = m'.get p1 + immWord e.stride.toInt32 ∧ m₂.get p3 = m.get p3 ∧ m₂.get
      r3 = m.get r3 := by
    rw [← ran.framesLeft, ← ran.slotsHere, ← bind_pure (act flag _ _)]
    refine renders_seq (handles.simple isSimple flag fixed m') fun _ m₁ _ _ kept => ?_
    refine renders_last (renders_code fun table => .seek (.imm (runs_nil ?_)))
    have kept : ∀ reg, reg ≠ r0 → reg ≠ r2 → reg ≠ p2 → m₁.get reg = m'.get reg := kept
    simp [get_set, kept, keptP, keptR, ImmOp.eval, add_immWord_minus_one]
  exact body.mono le_rfl fun _ m₂ ran₂ ⟨count, base, kept⟩ =>
    ⟨count, ran.trans ran₂, count, base, kept⟩

/-- The state of a loop in its frame: the cursor and the entries left. -/
structure LoopFrame (m₀ : Machine) (count base : UInt64) (m : Machine) : Prop where
  ran : Ran (m₀.ctx.frame.toNat * 8) m₀ m
  cursor : m.get p1 = base
  slot0 : m.ctx.readSlot 0 = base
  slot1 : m.ctx.readSlot 1 = count
  others : m.ctx.readSlot 2 = m₀.ctx.readSlot 2 ∧ m.ctx.readSlot 3 = m₀.ctx.readSlot 3

lemma renders_frameLoop (handles : E.Handles frames e entry act) (notSimple : e.isSimple = false)
    (few : m.ctx.framesLeft < frames) (positive : m.get r1 ≠ 0)
    (slot0 : m.ctx.readSlot 0 = m.get p1) (slot1 : m.ctx.readSlot 1 = m.get r1) :
    E.Renders (m.ctx.frame.toNat * 8) (e.frameLoop (entry false)) m
      (Act.each (act false m.ctx.framesLeft) e.stride (m.get r1).toNat (m.get p1)) fun _ m' =>
        m'.ctx.readSlot 2 = m.ctx.readSlot 2 ∧ m'.ctx.readSlot 3 = m.ctx.readSlot 3 := by
  refine (renders_looping (LoopFrame m) ?_ positive ⟨.refl _ m, rfl, slot0, slot1, rfl, rfl⟩).mono
    le_rfl fun _ _ _ ⟨_, inv⟩ => inv.others
  rintro count base m' ⟨ran, rfl, slot0, slot1, others⟩
  have body : E.Renders (m.ctx.frame.toNat * 8) (seq [entry false, code (loopStep e)]) m'
      (act false m.ctx.framesLeft (m'.get p1)) fun _ m₂ => m₂.get r1 = count - 1 ∧ m₂.get p1 = m'.get p1 + immWord
      e.stride.toInt32 ∧ m₂.ctx.readSlot 0 = m'.get p1 + immWord e.stride.toInt32 ∧ m₂.ctx.readSlot 1 = count - 1 ∧
      m₂.ctx.readSlot 2 = m.ctx.readSlot 2 ∧ m₂.ctx.readSlot 3 = m.ctx.readSlot 3 := by
    refine renders_of_frame fun low high => ?_
    rw [← ran.framesLeft, ← ran.frame, ← bind_pure (act false _ _)]
    have first : E.Renders (m'.ctx.frame.toNat * 8) (entry false) m'
        (act false m'.ctx.framesLeft (m'.get p1)) fun _ m₁ => Ran m'.slotsHere m' m₁ :=
      (handles.framed notSimple m' (ran.framesLeft ▸ few) slot0).mono (by rw [Machine.slotsHere]; omega)
        fun _ _ ran _ => ran
    refine renders_seq first fun _ m₁ _ ran' same => ?_
    have below : m'.ctx.frame.toNat * 8 ≤ m₁.ctx.frame.toNat * 8 := by rw [ran'.frame]
    refine renders_last (renders_code fun table => .loadFrame (.loadFrame (.seek (.imm
      (.storeFrame (by decide) below (.storeFrame (by decide) (by simpa using below) (runs_nil ?_)))))))
    have low₁ : 0 ≤ m₁.ctx.frame := same.frame ▸ low
    have high₁ : m₁.ctx.frame ≤ m₁.ctx.limit := same.frame ▸ same.limit ▸ high
    have kept : ∀ slot : UInt8, slot.toNat < 8 → m₁.ctx.readSlot slot = m'.ctx.readSlot slot :=
      fun slot inFrame => readSlot_of_ran low same inFrame
    have at0 := (kept 0 (by decide)).trans slot0
    have at1 := (kept 1 (by decide)).trans slot1
    have at2 := (kept 2 (by decide)).trans others.1
    have at3 := (kept 3 (by decide)).trans others.2
    refine ⟨?_, ?_, ?_, ?_, ?_, ?_⟩
    · simp [get_set, at1, ImmOp.eval, add_immWord_minus_one]
    · simp [get_set, at0]
    · rw [readSlot_keep, readSlot_keep] <;> simp [get_set, low₁, high₁, at0]
    · rw [readSlot_keep] <;> simp [get_set, low₁, high₁, at1, ImmOp.eval, add_immWord_minus_one]
    · rw [readSlot_keep, readSlot_keep] <;> simp [low₁, high₁, at2]
    · rw [readSlot_keep, readSlot_keep] <;> simp [low₁, high₁, at3]
  exact body.mono le_rfl fun _ m₂ ran₂ ⟨count, cursor, slot0, slot1, others⟩ =>
    ⟨count, ran.trans ran₂, cursor, slot0, slot1, others⟩

lemma renders_loopStart (isSet : Bool) : E.Renders (m.ctx.frame.toNat * 8)
      (code ([.storeFrame p1 0, .storeFrame r1 1] ++ keepBounds isSet)) m (pure ()) fun _ m' =>
      m'.get = m.get ∧ m'.ctx.readSlot 0 = m.get p1 ∧ m'.ctx.readSlot 1 = m.get r1 ∧
        (isSet = true → m'.ctx.readSlot 2 = m.get p1 ∧ m'.ctx.readSlot 3 = m.get r1) := by
  refine renders_of_frame fun low high => renders_code fun table => ?_
  refine .storeFrame (by decide) le_rfl (.storeFrame (by decide) (by simp) ?_)
  cases isSet with
  | false =>
    refine runs_nil ⟨rfl, ?_, ?_, nofun⟩
    · rw [readSlot_keep, readSlot_keep] <;> simp [low, high]
    · rw [readSlot_keep] <;> simp [low, high]
  | true =>
    refine .storeFrame (by decide) (by simp) (.storeFrame (by decide) (by simp) (runs_nil ?_))
    refine ⟨rfl, ?_, ?_, fun _ => ⟨?_, ?_⟩⟩
    · rw [readSlot_keep, readSlot_keep, readSlot_keep, readSlot_keep] <;> simp [low, high]
    · rw [readSlot_keep, readSlot_keep, readSlot_keep] <;> simp [low, high]
    · rw [readSlot_keep, readSlot_keep] <;> simp [low, high]
    · rw [readSlot_keep] <;> simp [low, high]

lemma renders_framedLoop [∀ flag k, Grows (entry flag k)] (handles : E.Handles frames e entry act) (notSimple : e.isSimple = false)
    (few : m.ctx.framesLeft ≤ frames) (positive : m.get r1 ≠ 0) (isSet : Bool) : E.Renders m.slotsHere (seq [
        code ([.enter, .storeFrame p1 0, .storeFrame r1 1] ++ keepBounds isSet),
        e.frameLoop (entry false), code (takeBounds isSet ++ [.leave])]) m
      (Act.deeper m.ctx.framesLeft fun left =>
        Act.each (act false left) e.stride (m.get r1).toNat (m.get p1)) fun _ m' =>
        isSet = true → m'.get p3 = m.get p1 ∧ m'.get r3 = m.get r1 := by
  refine renders_of_frame fun low _ => renders_deeper (fun _ regs => isSet = true →
    regs p3 = m.get p1 ∧ regs r3 = m.get r1) fun left leftOver => ?_
  have here : m.slotsHere = m.entered.ctx.frame.toNat * 8 := by
    rw [frame_entered low, Machine.slotsHere, Nat.mul_comm]
  rw [here]
  refine renders_silent (renders_loopStart isSet) fun m₁ _ ran ⟨regs, slot0, slot1, bounds⟩ => ?_
  have frames₁ : m₁.ctx.framesLeft = left := ran.framesLeft.trans (framesLeft_entered leftOver)
  have loop := @renders_frameLoop E m₁ frames e entry act handles notSimple (by omega)
    (by rwa [regs]) (by rw [slot0, regs]) (by rw [slot1, regs])
  rw [frames₁, regs, ran.frame] at loop
  rw [← bind_pure (Act.each _ _ _ _)]
  refine renders_seq loop fun _ m₂ _ _ kept => renders_last (renders_code fun _ => ?_)
  cases isSet with
  | false => exact runs_nil nofun
  | true =>
    refine .loadFrame (.loadFrame (runs_nil fun _ => ?_))
    obtain ⟨at2, at3⟩ := bounds rfl
    simp [get_set, kept, at2, at3]

section Parts

variable {key elem : TypeDesc} {valueOffset stride : UInt32} {keyPiece elemPiece : Bool → Piece}
  {keyAct elemAct : Bool → Nat → UInt64 → Act Unit}

/-- The code of a part of an entry does what is done with the part at the cursor. -/
def Serves (E : Site) (frames : Nat) (t : TypeDesc) (piece : Bool → Piece) (act : Bool → Nat → UInt64 → Act Unit) : Prop :=
  ∀ flag m, (isSimple t = false → m.ctx.framesLeft < frames) →
    E.Renders m.slotsHere (piece flag) m (act flag m.ctx.framesLeft (m.get p1)) fun _ m' => isSimple t = true → Kept m m'

/-- The key of an entry, then its value. The cursor is taken from the frame between them if
the code of the key may have used its register. -/
lemma renders_parts [∀ flag k, Grows (elemPiece flag k)]
    (doesKey : E.Serves frames key keyPiece keyAct) (doesElem : E.Serves frames elem elemPiece elemAct)
    (flag : Bool) (m : Machine) (few : isSimple key = false ∨ isSimple elem = false →
      m.ctx.framesLeft < frames ∧ m.ctx.readSlot 0 = m.get p1) :
    E.Renders m.slotsHere (Entry.parts ⟨some key, elem, valueOffset, stride⟩
        (some (keyPiece flag)) (elemPiece flag)) m (do
        keyAct flag m.ctx.framesLeft (m.get p1)
        elemAct flag m.ctx.framesLeft (m.get p1)) fun _ m' =>
      isSimple key = true → isSimple elem = true → Kept m m' := by
  refine renders_of_frame fun low _ => ?_
  have first : E.Renders m.slotsHere (keyPiece flag) m (keyAct flag m.ctx.framesLeft (m.get p1))
      fun _ m' => Ran m.slotsHere m m' ∧ (isSimple key = true → Kept m m') :=
    (doesKey flag m fun notSimple => (few (.inl notSimple)).1).mono le_rfl fun _ _ ran kept => ⟨ran, kept⟩
  refine renders_seq first fun _ m₁ _ _ ⟨ran, kept⟩ => ?_
  have reload : E.Renders m.slotsHere (code (if isSimple key then [] else [.loadFrame p1 0])) m₁
      (pure ()) fun _ m₂ => m₂.get p1 = m.get p1 ∧ (isSimple key = true → m₂ = m₁) := by
    refine renders_code fun table => ?_
    split
    · rename_i simple
      exact runs_nil ⟨kept simple p1 (by decide) (by decide) (by decide), fun _ => rfl⟩
    · rename_i notSimple
      have slot := readSlot_of_ran low ran (show (0 : UInt8).toNat < 8 by decide)
      refine .loadFrame (runs_nil ⟨?_, fun simple => absurd simple notSimple⟩)
      rw [get_set, Function.update_self, slot]
      exact (few (.inl (Bool.eq_false_iff.mpr notSimple))).2
  refine renders_silent reload fun m₂ _ ran₂ ⟨cursor, same⟩ => ?_
  have here : m₂.slotsHere = m.slotsHere := ran₂.slotsHere.trans ran.slotsHere
  have left : m₂.ctx.framesLeft = m.ctx.framesLeft := ran₂.framesLeft.trans ran.framesLeft
  rw [← cursor, ← here, ← left]
  refine renders_last ((doesElem flag m₂ fun notSimple => ?_).mono le_rfl
    fun _ m₃ _ keptElem simpleKey simpleElem => ?_)
  · exact left ▸ (few (.inr notSimple)).1
  · exact (kept simpleKey).trans (same simpleKey ▸ keptElem simpleElem)

lemma handles_parts [∀ flag k, Grows (elemPiece flag k)]
    (doesKey : E.Serves frames key keyPiece keyAct) (doesElem : E.Serves frames elem elemPiece elemAct) :
    E.Handles frames ⟨some key, elem, valueOffset, stride⟩
      (fun flag => Entry.parts ⟨some key, elem, valueOffset, stride⟩ (some (keyPiece flag)) (elemPiece flag))
      (fun flag left base => (do
        keyAct flag left base
        elemAct flag left base)) := by
  refine ⟨fun simple flag _ m => ?_, fun _ m few slot => ?_⟩
  · obtain ⟨simpleElem, simpleKey⟩ : isSimple elem = true ∧ isSimple key = true := by
      simpa [Entry.isSimple] using simple
    refine (renders_parts doesKey doesElem flag m ?_).mono le_rfl
      fun _ _ _ kept => kept simpleKey simpleElem
    rintro (notSimple | notSimple)
    · exact absurd (simpleKey.symm.trans notSimple) nofun
    · exact absurd (simpleElem.symm.trans notSimple) nofun
  · exact (renders_parts doesKey doesElem false m fun _ => ⟨few, slot⟩).mono
      le_rfl fun _ _ _ _ => trivial

end Parts

end Site

end WireCodec
