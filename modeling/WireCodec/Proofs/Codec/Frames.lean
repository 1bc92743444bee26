import WireCodec.Proofs.Codec.Instructions
import WireCodec.Proofs.Wire.Skip

/-! Frames and calls. A frame that is opened and closed again leaves the frames below it as
they were, and a called routine does the action of its name. -/
namespace WireCodec

open Machine Lowering Peephole

namespace Context

variable {c : Context} {slot : UInt8}

lemma slotIndex_eq (low : 0 ≤ c.frame) (slot : UInt8) : c.slotIndex slot = c.frame.toNat * 8 + slot.toNat := by
  simp only [slotIndex, slotsPerFrame]
  omega

lemma readSlot_eq (slot : UInt8) : c.readSlot slot = c.slotAt (c.slotIndex slot) := rfl

lemma slotAt_writeSlot (low : 0 ≤ c.frame) (high : c.frame ≤ c.limit)
    (inFrame : slot.toNat < 8) (word : UInt64) (k : Nat) :
    (c.writeSlot slot word).slotAt k = if k = c.slotIndex slot then word else c.slotAt k := by
  have index := slotIndex_eq low slot
  have fits : c.slotIndex slot < (c.limit + 1) * slotsPerFrame := by
    have : c.frame.toNat ≤ c.limit := by omega
    rw [index, slotsPerFrame]
    omega
  simp only [writeSlot, if_pos fits, slotAt, Array.getElem?_setIfInBounds]
  by_cases same : c.slotIndex slot = k
  · have room : c.slotIndex slot < (c.frames ++ Array.replicate (c.slotIndex slot + 1 - c.frames.size) 0).size := by
      simp only [Array.size_append, Array.size_replicate]
      omega
    rw [if_pos same, if_pos room, if_pos same.symm]
    rfl
  · rw [if_neg same, if_neg (Ne.symm same), Array.getElem?_append]
    split
    · rfl
    · rename_i past
      rw [Array.getElem?_replicate, Array.getElem?_eq_none (Nat.le_of_not_lt past)]
      split <;> rfl

lemma writeSlot_same (slot : UInt8) (word : UInt64) : (c.writeSlot slot word).frame = c.frame ∧
    (c.writeSlot slot word).limit = c.limit ∧ (c.writeSlot slot word).scene = c.scene := by
  unfold writeSlot
  simp only
  split <;> exact ⟨rfl, rfl, rfl⟩

lemma readSlot_writeSlot (low : 0 ≤ c.frame) (high : c.frame ≤ c.limit) {other : UInt8}
    (inFrame : slot.toNat < 8) (word : UInt64) :
    (c.writeSlot slot word).readSlot other = if other = slot then word else c.readSlot other := by
  have index : (c.writeSlot slot word).slotIndex other = c.slotIndex other := by
    rw [slotIndex, slotIndex, (writeSlot_same slot word).1]
  rw [readSlot_eq, index, slotAt_writeSlot low high inFrame, slotIndex_eq low, slotIndex_eq low,
    readSlot_eq, slotIndex_eq low]
  have same : c.frame.toNat * 8 + other.toNat = c.frame.toNat * 8 + slot.toNat ↔ other = slot := by
    rw [← UInt8.toNat_inj]
    omega
  simp only [same]

end Context

def Machine.entered (m : Machine) : Machine :=
  { m with ctx := { m.ctx with frame := m.ctx.frame + 1 } }

def Machine.keep (m : Machine) (slot : UInt8) (word : UInt64) : Machine :=
  { m with ctx := m.ctx.writeSlot slot word }

namespace Machine

variable {m : Machine} {slot : UInt8} {word : UInt64}

@[simp] lemma entered_get : m.entered.get = m.get := rfl

@[simp] lemma keep_get : (m.keep slot word).get = m.get := rfl

@[simp] lemma keep_frame : (m.keep slot word).ctx.frame = m.ctx.frame :=
  (Context.writeSlot_same slot word).1

@[simp] lemma keep_limit : (m.keep slot word).ctx.limit = m.ctx.limit :=
  (Context.writeSlot_same slot word).2.1

@[simp] lemma keep_scene : (m.keep slot word).ctx.scene = m.ctx.scene :=
  (Context.writeSlot_same slot word).2.2

lemma readSlot_keep (low : 0 ≤ m.ctx.frame) (high : m.ctx.frame ≤ m.ctx.limit)
    (inFrame : slot.toNat < 8) (other : UInt8) :
    (m.keep slot word).ctx.readSlot other = if other = slot then word else m.ctx.readSlot other :=
  Context.readSlot_writeSlot low high inFrame word

lemma ran_keep (low : 0 ≤ m.ctx.frame) (high : m.ctx.frame ≤ m.ctx.limit)
    (inFrame : slot.toNat < 8) : Ran (m.ctx.frame.toNat * 8) m (m.keep slot word) := by
  refine ⟨keep_frame, keep_limit, (writeSlot_sameReport m.ctx slot word).size, (writeSlot_sameReport m.ctx slot word).clean, fun k below => ?_⟩
  have index := Context.slotIndex_eq low slot
  refine (Context.slotAt_writeSlot low high inFrame _ k).trans (if_neg ?_)
  omega

end Machine

def Builtin.setCheckHandle : Handle :=
  ⟨"rt_set_check", .host .setCheck, ⟨[.int, .ptr, .int], []⟩, ⟨true, false⟩⟩

namespace Site

variable {E : Site} {α : Type} {n pc pc₁ : Nat} {m : Machine} {s : Session} {x : Act α} {post : α → Machine → Prop}
  {e : ErrorCode} {src : Reg}

lemma Does.storeFrame (has : E.Has pc [.storeFrame src slot]) (inFrame : slot.toNat < 8)
    (below : n ≤ m.ctx.frame.toNat * 8) (rest : E.Does n (pc + 1) (m.keep slot (m.get src)) s pc₁ x post) : E.Does n pc
    m s pc₁ x post := by
  intro fit
  have step : stepAny Builtin.table E.caller E.program.job.eofCode (.storeFrame src slot) m s =
      some (.ok (.next, m.keep slot (m.get src), s)) := rfl
  exact Does.next has.at_ step keep_scene ((ran_keep fit.low fit.high inFrame).mono below) rest fit

lemma Does.deeper {body : Nat → Act α} {post : α → (Reg → UInt64) → Prop}
    (enter : E.Has pc [.enter]) (leave : E.Has pc₁ [.leave])
    (inner : ∀ left, m.ctx.framesLeft = left + 1 →
      E.Does n (pc + 1) m.entered s pc₁ (body left) fun a m' => post a m'.get) :
    E.Does n pc m s (pc₁ + 1) (Act.deeper m.ctx.framesLeft body) fun a m' => post a m'.get := by
  intro fit
  cases frames : m.ctx.framesLeft with
  | zero =>
    have last : m.ctx.frame + 1 > m.ctx.limit := by
      have low := fit.low
      have high := fit.high
      simp only [Context.framesLeft] at frames
      omega
    refine leads_fail m.entered fit (by rintro ⟨⟩) enter.at_ (fun _ _ => by rintro ⟨⟩) ?_
      ⟨fit.clean.noError, fit.clean.noFault, fit.clean.wireFits⟩ rfl
    simp [stepAny, Machine.step, Machine.enter, Instr.mapTargets, last, Machine.fail, entered]
  | succ left =>
    have more : ¬ m.ctx.frame + 1 > m.ctx.limit := by
      have low := fit.low
      simp only [Context.framesLeft] at frames
      omega
    have step : stepAny Builtin.table E.caller E.program.job.eofCode .enter m s = some (.ok (.next, m.entered, s)) := by
      simp [stepAny, Machine.step, Machine.enter, more, entered]
    have fit' : E.Fit m.entered s := ⟨⟨fit.clean.noError, fit.clean.noFault, fit.clean.wireFits⟩, fit.roomy,
        Int.add_nonneg fit.low Int.one_nonneg, Int.not_lt.mp more, fit.sound⟩
    have done := inner left frames fit'
    simp only [Act.deeper]
    have scene : m.entered.ctx.scene = m.ctx.scene := rfl
    rw [scene] at done
    cases result : body left m.ctx.scene with
    | error t c =>
      rw [result] at done
      obtain ⟨stop, f, halts, rest⟩ := done
      exact ⟨stop, f, .next enter.at_ step halts, rest⟩
    | ok a c =>
      rw [result] at done
      obtain ⟨m', s', scene', ran, follows, holds, back⟩ := done
      refine ⟨{ m' with ctx := { m'.ctx with frame := m'.ctx.frame - 1 } }, s', scene', ?_,
        follows, holds, fun stop f halts => ?_⟩
      · refine ⟨?_, ran.limit, ran.size, fun clean => ?_, ran.slots⟩
        · have := ran.frame
          simp only [entered] at this ⊢
          omega
        · have clean' := ran.clean fit'.clean
          exact ⟨clean'.noError, clean'.noFault, clean'.wireFits⟩
      · exact .next enter.at_ step (back stop f (.next leave.at_ rfl halts))

/-! Calls. -/

lemma does_alloc {size dst : Reg} (has : E.Has pc [Lowering.allocate size dst]) :
    E.Does n pc m s (pc + 1) (Act.alloc (m.get size)) fun off m' =>
      m'.get = Function.update m.get dst off := by
  intro fit
  have heap : m.ctx.scene.heap = m.ctx.heap := rfl
  have step : stepAny Builtin.table E.caller E.program.job.eofCode (.call Builtin.alloc [size] [dst]) m s =
      some (.ok (if (m.ctx.allocate (m.get size)).2.failed then .stop else .next,
        { m with ctx := (m.ctx.allocate (m.get size)).2 }.set dst (m.ctx.allocate (m.get size)).1,
        s)) := rfl
  simp only [Act.alloc, heap]
  cases room : m.ctx.heap.alloc? (m.get size).toNat with
  | none =>
    refine leads_fail (m.set dst 0) fit nofun has.at_ nofun ?_ fit.clean rfl
    have failed : (m.ctx.fail .invalidLength).failed = true := by
      rw [Context.fail, fit.clean.failAt]
      rfl
    refine step.trans ?_
    simp only [Context.allocate, room, failed, if_true]
    rfl
  | some block =>
    obtain ⟨off, after⟩ := block
    refine leads_next ({ m with ctx := { m.ctx with heap := after } }.set dst off.toUInt64) fit
      has.at_ ?_ rfl (ran_ctx rfl rfl ⟨rfl, rfl, rfl⟩ rfl) (get_set _ _ _)
    have fine : ({ m.ctx with heap := after } : Context).failed = false := by
      simp [Context.failed, fit.clean.noError]
    refine step.trans ?_
    simp only [Context.allocate, room, fine]
    rfl

lemma does_pass (has : E.Has pc [.call Builtin.skip [src] []]) :
    E.Does n pc m s (pc + 1) (Act.pass m.ctx.framesLeft (m.get src)) fun _ m' =>
      m'.get = m.get := by
  intro fit
  have here : m.ctx.scene.wire = m.ctx.wire ∧ m.ctx.scene.pos = m.ctx.pos := ⟨rfl, rfl⟩
  have step : stepAny Builtin.table E.caller E.program.job.eofCode (.call Builtin.skip [src] []) m s =
      some (.ok (if (m.ctx.skipValue (m.get src)).failed then .stop else .next,
        { m with ctx := m.ctx.skipValue (m.get src) }, s)) := rfl
  simp only [Act.pass, here]
  cases skipped : WireCodec.skip m.ctx.wire m.ctx.framesLeft (m.get src).toUInt8 m.ctx.pos.toNat with
  | ok pos =>
    refine leads_next { m with ctx := { m.ctx with pos := pos.toUInt64 } } fit has.at_ ?_ rfl
      (ran_ctx rfl rfl ⟨rfl, rfl, rfl⟩ rfl) rfl
    have fine : ({ m.ctx with pos := pos.toUInt64 } : Context).failed = false := by
      simp [Context.failed, fit.clean.noError]
    refine step.trans ?_
    simp only [Context.skipValue, skipped, fine]
    rfl
  | error err =>
    refine leads_failAt m fit (skip_tells _ _ _ _ err skipped) has.at_ nofun ?_ fit.clean rfl
    have real := skip_tells _ _ _ _ err skipped
    have failed : (m.ctx.failAt err.code err.offset.toUInt64).failed = true := by
      rw [fit.clean.failAt]
      revert real
      cases err.code <;> simp [Context.failed, ErrorCode.number]
    refine step.trans ?_
    simp only [Context.skipValue, skipped, failed, if_true]

lemma does_distinct {index data count : Reg} {elem : TypeDesc}
    (has : E.Has pc [.call Builtin.setCheck [index, data, count] []])
    (numbered : s.types.get? (m.get index).toUInt32.toNat = some elem) :
    E.Does n pc m s (pc + 1) (Act.distinct E.known elem (m.get data) (m.get count)) fun _ m' =>
      m'.get = m.get := by
  intro fit
  have here : m.ctx.scene.heap = m.ctx.heap := rfl
  have answered : Routine.answer (Session.deferred E.known (Session.runProgram E.known E.depth)) E.known Session.element
      .setCheck [m.get index, m.get data, m.get count] m.ctx s =
      some (m.ctx.checkSet E.known elem (m.get data).toUInt32 (m.get count).toUInt32 s) := by
    have found : Session.element (m.get index).toUInt32 s = some elem := numbered
    simp [Routine.answer, found]
  have step : stepAny Builtin.table E.caller E.program.job.eofCode
      (.call Builtin.setCheck [index, data, count] []) m s =
      some (Machine.resume Builtin.setCheckHandle [index, data, count] [] m s
        (m.ctx.checkSet E.known elem (m.get data).toUInt32 (m.get count).toUInt32 s).single) :=
    congrArg (fun reply => (Option.map Reply.single reply).map
      (Machine.resume Builtin.setCheckHandle [index, data, count] [] m s)) answered
  simp only [Act.distinct, here]
  simp only [Context.checkSet] at step
  cases found : checkDistinct (loadValue E.known m.ctx.heap · elem) elem.size
      (m.get count).toUInt32.toNat (m.get data).toUInt32.toNat [] with
  | distinct =>
    rw [found] at step
    refine leads_next m fit has.at_ (step.trans ?_) rfl (.refl n m) rfl
    simp [Reply.single, Machine.resume, Context.failed, fit.clean.noError, Machine.setAll]
  | duplicate =>
    rw [found] at step
    refine leads_fail m fit (by rintro ⟨⟩) has.at_ (fun _ _ => by rintro ⟨⟩) (step.trans ?_) fit.clean rfl
    have failed : (m.ctx.fail .duplicateSetElement).failed = true := by
      rw [Context.fail, fit.clean.failAt]
      rfl
    simp [Reply.single, Machine.resume, failed, Machine.setAll]
  | unreadable e =>
    rw [found] at step
    have noLit := not_isLiteral has.at_ fun _ _ => by rintro ⟨⟩
    have given : ∀ ending, ending ≠ .stopped → stepAny Builtin.table E.caller
        E.program.job.eofCode (.call Builtin.setCheck [index, data, count] []) m s =
          some (.error ⟨ending, m.ctx, s⟩) →
        E.Leads n pc m s (pc + 1) (.error (.gaveUp ending) m.ctx.scene)
          fun (_ : Unit) m' => m'.get = m.get := fun ending abnormal step =>
      ⟨pc, _, .ended has.at_ step, fun lit => absurd lit noLit,
        ⟨rfl, abnormal, fit.clean.not_leftHeap, rfl⟩, fit.sound.follows⟩
    have failed : ∀ e, (m.ctx.raise e).failed = true := by
      intro e
      rw [fit.clean.raise]
      rfl
    have raised : ∀ e, (∀ d : Defect, d.isOutside = true → e ≠ .malformed d) → stepAny Builtin.table E.caller
        E.program.job.eofCode (.call Builtin.setCheck [index, data, count] []) m s = some
        (.ok (.stop, { m with ctx := m.ctx.raise e }, s)) → E.Leads n pc m s (pc + 1) (.error (.defect e) m.ctx.scene)
        fun (_ : Unit) m' => m'.get = m.get := by
      intro e inside step
      refine ⟨pc, _, .stop has.at_ step, fun lit => absurd lit noLit, ?_, fit.sound.follows⟩
      rw [fit.clean.raise]
      exact ⟨rfl, rfl, by rintro ⟨⟩, fun raised => raised.elim fun d told => inside d told.1 (Option.some.inj told.2), rfl⟩
    cases e
    case outOfBounds => exact given .crashed (by rintro ⟨⟩) step
    case endless => exact given .endless (by rintro ⟨⟩) step
    all_goals
      refine raised _ (fun d out same => by cases same; cases out) (step.trans ?_)
      simp [Reply.single, Machine.resume, failed, Machine.setAll]

end Site

end WireCodec
