import WireCodec.Proofs.Lowering.DecodeDoes

/-! The fields met so far, one bit for each in the slots of the frame. -/
namespace WireCodec

open Machine Lowering List

variable {c : Context} {index : Nat}

/-- The bits of the frame tell which of the first `count` fields are in `seen`. -/
def Met (count : Nat) (seen : List Nat) (c : Context) : Prop :=
  ∀ index < count, (c.readSlot (seenSlot index)).toNat.testBit (index % bitsPerSlot) = seen.contains index

lemma toNat_seenMask (index : Nat) : (immWord (seenMask index)).toNat = 2 ^ (index % bitsPerSlot) := by
  have low : index % bitsPerSlot < 31 := Nat.mod_lt _ (by decide)
  have small : 2 ^ (index % bitsPerSlot) < 2 ^ 31 := Nat.pow_lt_pow_right (by decide) low
  rw [seenMask, Nat.one_shiftLeft, immWord_ofNat small, Nat.toUInt64_eq, UInt64.toNat_ofNat']
  exact Nat.mod_eq_of_lt (Nat.lt_trans small (by decide))

lemma and_seenMask_eq_zero (word : UInt64) (index : Nat) : word &&& immWord (seenMask index) = 0 ↔
      word.toNat.testBit (index % bitsPerSlot) = false := by
  rw [← UInt64.toNat_inj, UInt64.toNat_and, toNat_seenMask, Nat.and_two_pow]
  cases word.toNat.testBit (index % bitsPerSlot) <;> simp

lemma testBit_or_seenMask (word : UInt64) (index bit : Nat) : (word ||| immWord (seenMask index)).toNat.testBit bit =
    (word.toNat.testBit bit || decide (index % bitsPerSlot = bit)) := by
  rw [UInt64.toNat_or, toNat_seenMask, Nat.testBit_or, Nat.testBit_two_pow]

lemma seenSlot_inj {other : Nat} (low : index < maxTracked) (low' : other < maxTracked) :
    seenSlot index = seenSlot other ↔ index / bitsPerSlot = other / bitsPerSlot := by
  rw [← UInt8.toNat_inj, toNat_seenSlot low, toNat_seenSlot low']
  omega

lemma seenSlot_ne_zero (low : index < maxTracked) : (0 : UInt8) ≠ seenSlot index := by
  intro same
  have := congrArg UInt8.toNat same
  rw [toNat_seenSlot low, bitsPerSlot, UInt8.toNat_zero] at this
  omega

lemma seenSlot_low (low : index < maxTracked) : (seenSlot index).toNat < 8 := by
  rw [toNat_seenSlot low]
  simp only [maxTracked, bitsPerSlot] at *
  omega

namespace Site

variable {E : Site} {table : TypeTable} {n : Nat} {m : Machine} {count : Nat} {seen : List Nat}

lemma runs_of_frame {α : Type} {instrs : Code} {x : Act α} {post : α → Machine → Prop}
    (runs : 0 ≤ m.ctx.frame → m.ctx.frame ≤ m.ctx.limit → E.Runs table n instrs m x post) :
    E.Runs table n instrs m x post :=
  fun start s has within fit => runs fit.low fit.high start s has within fit

lemma runs_noteSeen (few : count ≤ maxTracked) (met : Met count seen m.ctx) {index : Nat}
    (low : index < count) (below : n ≤ m.ctx.frame.toNat * 8) : E.Runs table n (noteSeen index) m
      (if seen.contains index then Act.fail .duplicateField else pure ()) fun _ m' =>
        Met count (index :: seen) m'.ctx ∧ m'.ctx.readSlot 0 = m.ctx.readSlot 0 ∧ m'.get p0 = m.get p0 := by
  have tracked : index < maxTracked := lt_of_lt_of_le low few
  have last : ∀ m₁ : Machine, m₁.ctx = m.ctx → m₁.get p0 = m.get p0 →
      m₁.get r2 = m.ctx.readSlot (seenSlot index) ||| immWord (seenMask index) →
      0 ≤ m.ctx.frame → m.ctx.frame ≤ m.ctx.limit →
      E.Runs table n [.storeFrame r2 (seenSlot index)] m₁ (pure ()) fun _ m' =>
        Met count (index :: seen) m'.ctx ∧ m'.ctx.readSlot 0 = m.ctx.readSlot 0 ∧ m'.get p0 = m.get p0 := by
    intro m₁ ctx atP0 atR2 frameLow frameHigh
    have slots : ∀ other, (m₁.keep (seenSlot index) (m₁.get r2)).ctx.readSlot other =
        if other = seenSlot index then m.ctx.readSlot (seenSlot index) ||| immWord (seenMask index)
        else m.ctx.readSlot other := by
      intro other
      rw [readSlot_keep (ctx ▸ frameLow) (ctx ▸ frameHigh) (seenSlot_low tracked), atR2, ctx]
    refine .storeFrame (seenSlot_low tracked) (ctx ▸ below) (runs_nil ⟨fun other lowOther => ?_, ?_, atP0⟩)
    · have trackedOther : other < maxTracked := lt_of_lt_of_le lowOther few
      have sameSlot_iff := seenSlot_inj trackedOther tracked
      rw [slots, contains_cons, ← met other lowOther]
      -- a bit of the slot is set now if it was set, or if it is the bit of this field
      have apart : other = index ↔ other / bitsPerSlot = index / bitsPerSlot ∧
          index % bitsPerSlot = other % bitsPerSlot := by
        simp only [bitsPerSlot]
        omega
      split
      · rename_i sameSlot
        have bit : decide (index % bitsPerSlot = other % bitsPerSlot) = (other == index) := by
          rw [Bool.eq_iff_iff, decide_eq_true_eq, beq_iff_eq, apart]
          exact (and_iff_right (sameSlot_iff.mp sameSlot)).symm
        rw [testBit_or_seenMask, sameSlot, Bool.or_comm, bit]
      · rename_i otherSlot
        have ne : (other == index) = false := by simp [apart, mt sameSlot_iff.mpr otherSlot]
        rw [ne, Bool.false_or]
    · rw [slots, if_neg (seenSlot_ne_zero tracked)]
  refine runs_of_frame fun frameLow frameHigh => .loadFrame (.imm (.exitIf ?_ fun _ => .imm
    (last _ rfl (by simp [get_set]) (by simp [get_set, ImmOp.eval]) frameLow frameHigh)))
  rw [← met index low]
  have := and_seenMask_eq_zero (m.ctx.readSlot (seenSlot index)) index
  simp only [Cond.eval, get_set, Function.update_self, ImmOp.eval, immWord_zero, bne_iff_ne, ne_eq,
    this, Bool.not_eq_false]

lemma runs_openFrame {slots : Nat} (few : slots ≤ 7) (below : n ≤ m.ctx.frame.toNat * 8) :
    E.Runs table n (openFrame slots) m (pure ()) fun _ m' =>
      m'.ctx.readSlot 0 = m.get p0 ∧ ∀ k < slots, m'.ctx.readSlot (k + 1).toUInt8 = 0 := by
  have slot : ∀ k < 7, (k + 1).toUInt8.toNat = k + 1 := by
    intro k low
    simp only [Nat.toUInt8_eq, UInt8.toNat_ofNat']
    omega
  -- the slots are cleared from the first to the last; those before `from` are cleared already
  have clear : ∀ rest from_, from_ + rest = slots → ∀ m₁ : Machine, m₁.get r0 = 0 →
      m₁.ctx.readSlot 0 = m.get p0 → m₁.ctx.frame = m.ctx.frame →
      (∀ k < from_, m₁.ctx.readSlot (k + 1).toUInt8 = 0) →
      E.Runs table n ((List.range' from_ rest).map fun k => .storeFrame r0 (k + 1).toUInt8) m₁ (pure ()) fun _ m' =>
          m'.ctx.readSlot 0 = m.get p0 ∧ ∀ k < slots, m'.ctx.readSlot (k + 1).toUInt8 = 0 := by
    intro rest
    induction rest with
    | zero => exact fun from_ total m₁ _ base _ cleared => runs_nil ⟨base, by simpa [← total] using cleared⟩
    | succ rest ih =>
      intro from_ total m₁ zero base frame cleared
      refine runs_of_frame fun frameLow frameHigh => ?_
      have inFrame : (from_ + 1).toUInt8.toNat < 8 := by rw [slot from_ (by omega)]; omega
      refine .storeFrame inFrame (frame ▸ below)
        (ih (from_ + 1) (by omega) _ (by simpa using zero) ?_ (by simpa using frame) ?_)
      · rw [readSlot_keep frameLow frameHigh inFrame, if_neg, base]
        intro same
        have := congrArg UInt8.toNat same
        rw [slot from_ (by omega), UInt8.toNat_zero] at this
        omega
      · intro k low
        rw [readSlot_keep frameLow frameHigh inFrame]
        split
        · exact zero
        · rename_i other
          refine cleared k (Nat.lt_of_le_of_ne (Nat.le_of_lt_succ low) ?_)
          rintro rfl
          exact other rfl
  unfold openFrame
  refine runs_of_frame fun frameLow frameHigh => .storeFrame (by decide) below ?_
  have base : (m.keep 0 (m.get p0)).ctx.readSlot 0 = m.get p0 := by
    rw [readSlot_keep frameLow frameHigh (by decide), if_pos rfl]
  split
  · rename_i empty
    exact runs_nil ⟨base, by simp [empty]⟩
  · refine .movImm ?_
    rw [range_eq_range']
    exact clear slots 0 (by omega) _ (by simp) base (by simp) (by simp)

lemma met_nil (clear : ∀ k < slotCount count, c.readSlot (k + 1).toUInt8 = 0) : Met count [] c := by
  intro index low
  have slot : seenSlot index = (index / bitsPerSlot + 1).toUInt8 := by rw [seenSlot, Nat.add_comm]
  rw [slot, clear _ ?_]
  · simp
  · simp only [slotCount, bitsPerSlot]
    omega

end Site

section Required

variable {fields : List FieldDesc} {seen : List Nat}

lemma foldl_requiredBits (slot : Nat) (entries : List (FieldDesc × Nat)) (start : Nat)
    (small : start < 2 ^ 31) : let bits := entries.foldl (fun bits entry =>
      if entry.1.requiredness = .required && entry.2 / bitsPerSlot = slot then
        bits ||| 2 ^ (entry.2 % bitsPerSlot) else bits) start
    bits < 2 ^ 31 ∧ entries.foldl (fun mask entry =>
      if entry.1.requiredness = .required && entry.2 / bitsPerSlot = slot then mask ||| seenMask entry.2
      else mask) (Int32.ofNat start) = Int32.ofNat bits ∧
    ∀ bit, bits.testBit bit = true ↔ start.testBit bit = true ∨ ∃ entry ∈ entries,
      entry.1.requiredness = .required ∧ entry.2 / bitsPerSlot = slot ∧ entry.2 % bitsPerSlot = bit := by
  induction entries generalizing start with
  | nil => simpa using small
  | cons entry entries ih =>
    simp only [foldl_cons]
    by_cases here : entry.1.requiredness = .required && entry.2 / bitsPerSlot = slot
    · have low : entry.2 % bitsPerSlot < 31 := Nat.mod_lt _ (by decide)
      have next : start ||| 2 ^ (entry.2 % bitsPerSlot) < 2 ^ 31 :=
        Nat.or_lt_two_pow small (Nat.pow_lt_pow_right (by decide) low)
      have mask : Int32.ofNat start ||| seenMask entry.2 = Int32.ofNat (start ||| 2 ^ (entry.2 % bitsPerSlot)) := by
        rw [seenMask, Nat.one_shiftLeft]
        apply Int32.toBitVec_inj.mp
        exact (BitVec.ofNat_or ..).symm
      obtain ⟨bound, same, bits⟩ := ih _ next
      rw [if_pos here, if_pos here, mask]
      refine ⟨bound, same, fun bit => ?_⟩
      have here : entry.1.requiredness = .required ∧ entry.2 / bitsPerSlot = slot := by
        simpa using here
      rw [bits bit, Nat.testBit_or, Nat.testBit_two_pow]
      simp [here, or_assoc]
    · obtain ⟨bound, same, bits⟩ := ih start small
      rw [if_neg here, if_neg here]
      refine ⟨bound, same, fun bit => ?_⟩
      have here : ¬ (entry.1.requiredness = .required ∧ entry.2 / bitsPerSlot = slot) := by
        simpa using here
      rw [bits bit]
      simp only [mem_cons, exists_eq_or_imp]
      grind

lemma requiredMask_spec (slot : Nat) : ∃ bits, (immWord (requiredMask fields slot)).toNat = bits ∧
    ∀ bit, bits.testBit bit = true ↔ ∃ index f, fields[index]? = some f ∧
      f.requiredness = .required ∧ index / bitsPerSlot = slot ∧ index % bitsPerSlot = bit := by
  obtain ⟨small, mask, bits⟩ := foldl_requiredBits slot fields.zipIdx 0 (by decide)
  refine ⟨_, rfl, fun bit => ?_⟩
  rw [requiredMask, show (0 : Int32) = Int32.ofNat 0 from rfl, mask, immWord_ofNat small,
    Nat.toUInt64_eq, UInt64.toNat_ofNat', Nat.mod_eq_of_lt (Nat.lt_trans small (by decide)), bits]
  simp only [Nat.zero_testBit, Bool.false_eq_true, false_or, Prod.exists, mem_zipIdx_iff_getElem?]
  exact exists_comm

lemma and_requiredMask (met : Met fields.length seen c) (slot : Nat) : c.readSlot (slot + 1).toUInt8 &&&
    immWord (requiredMask fields slot) = immWord (requiredMask fields slot) ↔ ∀ index f, fields[index]? = some f →
    f.requiredness = .required → index / bitsPerSlot = slot → seen.contains index = true := by
  obtain ⟨bits, mask, holds⟩ := @requiredMask_spec fields slot
  have slotOf : ∀ index, index / bitsPerSlot = slot → seenSlot index = (slot + 1).toUInt8 := by
    intro index same
    rw [seenSlot, same, Nat.add_comm]
  rw [← UInt64.toNat_inj, UInt64.toNat_and, mask]
  constructor
  · intro same index f at_ required inSlot
    have bit := congrArg (Nat.testBit · (index % bitsPerSlot)) same
    have set := (holds (index % bitsPerSlot)).mpr ⟨index, f, at_, required, inSlot, rfl⟩
    simp only [Nat.testBit_and, set, Bool.and_true] at bit
    rw [← met index (List.getElem?_eq_some_iff.mp at_).1, slotOf index inSlot, bit]
  · intro all
    refine Nat.eq_of_testBit_eq fun bit => ?_
    rw [Nat.testBit_and]
    cases set : bits.testBit bit with
    | false => simp
    | true =>
      obtain ⟨index, f, at_, required, inSlot, rfl⟩ := (holds bit).mp set
      have isMet := met index (List.getElem?_eq_some_iff.mp at_).1
      rw [slotOf index inSlot, all index f at_ required inSlot] at isMet
      rw [isMet]
      rfl

lemma hasRequired_iff : Reading.hasRequired fields seen = true ↔ ∀ index f, fields[index]? = some f →
      f.requiredness = .required → seen.contains index = true := by
  unfold Reading.hasRequired
  rw [all_eq_true]
  constructor
  · intro all index f at_ required
    have := all (f, index) (mem_zipIdx_iff_getElem?.mpr at_)
    simpa [required] using this
  · intro all entry mem
    have at_ := mem_zipIdx_iff_getElem?.mp mem
    by_cases required : entry.1.requiredness = .required
    · simpa [required] using all entry.2 entry.1 at_ required
    · simp [required]

def isComplete (fields : List FieldDesc) (c : Context) (slot : Nat) : Bool :=
  c.readSlot (slot + 1).toUInt8 &&& immWord (requiredMask fields slot) = immWord (requiredMask fields slot)

lemma hasRequired_eq_all (met : Met fields.length seen c) : Reading.hasRequired fields seen =
      (List.range (slotCount fields.length)).all (isComplete fields c) := by
  rw [Bool.eq_iff_iff, hasRequired_iff, all_eq_true]
  simp only [isComplete, decide_eq_true_eq, and_requiredMask met, mem_range]
  constructor
  · exact fun all slot _ index f at_ required _ => all index f at_ required
  · intro all index f at_ required
    have low := (List.getElem?_eq_some_iff.mp at_).1
    refine all (index / bitsPerSlot) ?_ index f at_ required rfl
    simp only [slotCount, bitsPerSlot]
    omega

lemma Site.runs_checkRequired {E : Site} {table : TypeTable} {n : Nat} {m : Machine} (met : Met fields.length seen m.ctx) :
    E.Runs table n (checkRequired fields) m
      (if Reading.hasRequired fields seen then pure () else Act.fail .missingRequiredField)
      fun _ _ => True := by
  rw [hasRequired_eq_all met, checkRequired]
  generalize same : m.ctx = c
  -- slot by slot; only two registers change on the way
  induction List.range (slotCount fields.length) generalizing m with
  | nil => exact runs_nil trivial
  | cons slot slots ih =>
    have shape : (if (slot :: slots).all (isComplete fields c) = true then pure ()
        else Act.fail .missingRequiredField : Act Unit) =
        if isComplete fields c slot = false then Act.fail .missingRequiredField
        else if slots.all (isComplete fields c) = true then pure ()
        else Act.fail .missingRequiredField := by
      cases complete : isComplete fields c slot <;> simp [complete]
    rw [shape, flatMap_cons]
    simp only
    split
    · rename_i unused
      rw [if_neg (by simp [isComplete, unused])]
      exact ih met same
    · refine .loadFrame (.imm (.exitIf ?_ fun _ => ih met same))
      simp [Cond.eval, ImmOp.eval, isComplete, same]

end Required

end WireCodec
