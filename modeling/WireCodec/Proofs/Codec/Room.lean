import WireCodec.Proofs.Codec.Sending

/-! The memory that reading a content takes. It does not depend on the bytes that spell the content: fields that come in
another order take as much. -/
namespace WireCodec

open List Content

namespace Heap

def roundUp (size : Nat) : Nat := (size + (unit - 1)) / unit * unit

/-- The memory that blocks take, each from a place for one to the next. -/
def takes (blocks : List Nat) : Nat := (blocks.map roundUp).sum

lemma le_roundUp (size : Nat) : size ≤ roundUp size ∧ roundUp size < size + unit := by
  simp only [roundUp, unit]
  omega

lemma roundUp_after (size count : Nat) : roundUp (after size count) = roundUp size + roundUp count := by
  simp only [roundUp, after, unit]
  omega

lemma takes_cons (count : Nat) (blocks : List Nat) : takes (count :: blocks) = roundUp count + takes blocks := by
  rw [takes, map_cons, sum_cons, takes]

lemma takes_append (blocks more : List Nat) : takes (blocks ++ more) = takes blocks + takes more := by
  rw [takes, map_append, sum_append, takes, takes]

lemma takes_flatten (lists : List (List Nat)) : takes lists.flatten = (lists.map takes).sum := by
  induction lists with
  | nil => rfl
  | cons blocks rest ih => rw [flatten_cons, takes_append, ih, map_cons, sum_cons]

lemma roundUp_afterAll (size : Nat) (blocks : List Nat) : roundUp (afterAll size blocks) = roundUp size + takes blocks := by
  induction blocks generalizing size with
  | nil => rfl
  | cons count rest ih => rw [afterAll_cons, ih, roundUp_after, takes_cons, Nat.add_assoc]

lemma afterAll_le (size : Nat) (blocks : List Nat) : afterAll size blocks ≤ roundUp size + takes blocks := by
  rw [← roundUp_afterAll]
  exact (le_roundUp _).1

lemma takes_le_of_steps {α : Type} {blocks : α → List Nat} {xs : List α} {s s' : Nat}
    (through : Through (fun a s s' => roundUp s + takes (blocks a) ≤ roundUp s') xs s s') :
    roundUp s + takes (xs.map blocks).flatten ≤ roundUp s' := by
  induction through with
  | nil => exact le_rfl
  | cons first others ih =>
    rw [map_cons, flatten_cons, takes_append]
    omega

end Heap

lemma sum_le_of_keys {α : Type} {key : α → Option Nat} {h : α → Nat} {as bs : List α}
    (distinct : (as.filterMap key).Nodup)
    (each : ∀ a ∈ as, h a ≠ 0 → ∃ k, key a = some k ∧ ∃ b ∈ bs, key b = some k ∧ h b = h a) :
    (as.map h).sum ≤ (bs.map h).sum := by
  induction as generalizing bs with
  | nil => exact Nat.zero_le _
  | cons a rest ih =>
    rw [map_cons, sum_cons]
    have distinct' : (rest.filterMap key).Nodup := by
      refine distinct.sublist ?_
      exact (sublist_cons_self a rest).filterMap key
    by_cases zero : h a = 0
    · rw [zero, Nat.zero_add]
      exact ih distinct' fun b mem => each b (mem_cons_of_mem _ mem)
    · obtain ⟨k, isKey, b, mem, isKey', same⟩ := each a mem_cons_self zero
      obtain ⟨before, behind, rfl⟩ := append_of_mem mem
      have fresh : k ∉ rest.filterMap key := by
        rw [filterMap_cons_some isKey] at distinct
        exact (List.nodup_cons.mp distinct).1
      -- later keys are others, so what they are matched with is not the matched one
      have others := @ih (before ++ behind) distinct' fun a' member some_ => by
        obtain ⟨k', isKey₁, b', mem', isKey₂, same'⟩ := each a' (mem_cons_of_mem _ member) some_
        refine ⟨k', isKey₁, b', ?_, isKey₂, same'⟩
        rcases List.mem_append.mp mem' with mem' | mem'
        · exact List.mem_append.mpr (.inl mem')
        · rcases List.mem_cons.mp mem' with rfl | mem'
          · have : k' = k := Option.some.inj (isKey₂.symm.trans isKey')
            exact absurd (this ▸ List.mem_filterMap.mpr ⟨a', member, isKey₁⟩) fresh
          · exact List.mem_append.mpr (.inr mem')
      rw [map_append, sum_append] at others ⊢
      rw [map_cons, sum_cons, same]
      omega

namespace Content

variable {known : Registry} {field : FieldDesc}

lemma flatten_blocksFields_eq_nil {fields : List FieldDesc} {slots : List Content}
    (each : ∀ (i : Nat) (field : FieldDesc) c, fields[i]? = some field → slots[i]? = some c →
      c.isOmitted field = false → c.slotBlocks known field.isBoxed field.type = []) :
    (blocksFields known fields slots).flatten = [] := by
  rw [flatten_eq_nil_iff, blocksFields_eq]
  intro blocks mem
  obtain ⟨o, member, rfl⟩ := List.mem_map.mp mem
  obtain ⟨i, at_⟩ := mem_iff_getElem?.mp member
  obtain ⟨k, field, c, found, held, written, rfl, _⟩ := eq_of_occurrences at_
  simp only [occurrenceBlocks, Nat.zero_add, found]
  exact each k field c found held written

lemma optional_of_isBoxed (boxed : field.isBoxed = true) : field.requiredness = .optional := by
  simp only [Field.isBoxed, Bool.and_eq_true, decide_eq_true_eq] at boxed
  exact boxed.1.1

lemma slotBlocks_empty (plain : field.isBoxed = false → (zero field.type).blocks known field.type = [])
    (written : (if field.isBoxed then nil else zero field.type).isOmitted field = false) :
    (if field.isBoxed then nil else zero field.type).slotBlocks known field.isBoxed field.type = [] := by
  by_cases boxed : field.isBoxed = true
  · rw [if_pos boxed, isOmitted_nil, optional_of_isBoxed boxed] at written
    cases written
  · have isPlain : field.isBoxed = false := by simpa using boxed
    rw [if_neg boxed, slotBlocks, if_neg boxed]
    exact plain isPlain

lemma blocks_zero (t : TypeDesc) : (zero t).blocks known t = [] := by
  induction t using TypeDesc.field_induction with
  | step t ih =>
    rw [zero_eq]
    by_cases kind : t.kind = .struct
    · rw [if_pos kind, blocks, TypeDesc.targetBlocks, kind, TypeDesc.recordFields_struct kind, nil_append]
      refine flatten_blocksFields_eq_nil fun i field c at_ held written => ?_
      rw [zeroSlots_getElem?, at_, Option.map_some] at held
      cases held
      exact slotBlocks_empty (fun _ => ih field (mem_of_getElem? at_)) written
    · rw [if_neg kind]
      split <;> rfl

lemma slotBlocks_absent (written : (absent field).isOmitted field = false) :
    (absent field).slotBlocks known field.isBoxed field.type = [] := by
  unfold absent at written ⊢
  cases given : field.default with
  | some d =>
    simp only [given, isOmitted, Option.any_some, decide_true] at written
    cases written
  | none =>
    simp only [given] at written ⊢
    exact slotBlocks_empty (fun _ => blocks_zero field.type) written

end Content

open Heap in
lemma Spells.takes_le {known : Registry} {boxed : Bool} {left : Nat} {t : TypeDesc} {bytes : List UInt8} {c : Content}
    {s s' : Nat} (spells : Spells known boxed left t bytes c s s') :
    roundUp s + takes (c.slotBlocks known boxed t) ≤ roundUp s' := by
  have block : ∀ size count, roundUp size + takes [count] ≤ roundUp (after size count) := by
    intro size count
    rw [roundUp_after, takes_cons]
    exact le_rfl
  induction spells using Spells.parts_induction with
  | cell => exact block _ _
  | word => exact le_rfl
  | blob => exact block _ _
  | @items left inner s s' t elem tag parts is short tags distinct through =>
    have steps := @takes_le_of_steps _ (fun part => part.2.blocks known elem) _ _ _ (through.imp fun _ both => both.2)
    rw [roundUp_after] at steps
    rw [slotBlocks, if_neg Bool.false_ne_true, blocks, is.part, takes_cons, length_map, blocksAll_eq_map, map_map]
    change _ + (_ + takes (parts.map fun part => part.2.blocks known elem).flatten) ≤ _
    omega
  | @entries left inner s s' t key elem layout keyTag tag entries is short tags through =>
    have stride : t.entryStride = layout.stride.toNat := by
      rw [TypeDesc.entryStride, is.part, is.keyPart, is.layout?, Option.map_some, Option.getD_some]
    have steps := @takes_le_of_steps _ (fun entry => entry.1.2.blocks known key ++ entry.2.2.blocks known elem) _ _ _
      (through.imp fun _ both => by
        obtain ⟨r, ⟨_, first⟩, _, second⟩ := both
        rw [slotBlocks, if_neg Bool.false_ne_true] at first second
        rw [takes_append]
        omega)
    rw [roundUp_after] at steps
    rw [slotBlocks, if_neg Bool.false_ne_true, blocks, is.part, is.keyPart, stride, takes_cons]
    simp only [blocksAll_eq_map, map_map, zipWith_map, zipWith_self, length_map, Function.comp_apply]
    omega
  | @record left s s' t slots occs kind make through =>
    have steps := @takes_le_of_steps _ (occurrenceBlocks known t.fields) _ _ _ (through.imp fun {o s s'} _ step => by
      rcases step with ⟨is, rfl⟩ | ⟨index, c, field, is, at_, _, le⟩
      · simp only [occurrenceBlocks, is]
        exact le_rfl
      · simp only [occurrenceBlocks, is, at_]
        exact le)
    have fewer := @sum_le_of_keys _ _ (fun o => takes (occurrenceBlocks known t.fields o)) _ occs
      (@Content.nodup_occurrences known 0 t.fields slots) fun o mem some_ => by
        obtain ⟨i, at_⟩ := mem_iff_getElem?.mp mem
        obtain ⟨k, field, c, found, held, written, rfl, _⟩ := eq_of_occurrences at_
        refine ⟨k, by simp [Occurrence.index?], ?_⟩
        rcases make.slot k field c found held with ⟨o, member, is⟩ | ⟨_, _, rfl⟩
        · refine ⟨o, member, by rw [Occurrence.index?, is]; rfl, ?_⟩
          simp only [occurrenceBlocks, is, Nat.zero_add]
        · refine absurd ?_ some_
          simp only [occurrenceBlocks, Nat.zero_add, found, slotBlocks_absent written]
          rfl
    rw [takes_flatten, map_map] at steps
    rw [slotBlocks, if_neg Bool.false_ne_true, blocks, TypeDesc.targetBlocks, kind,
      TypeDesc.recordFields_struct kind, nil_append, takes_flatten, blocksFields_eq, map_map]
    exact le_trans (Nat.add_le_add_left fewer _) steps
  | @target left s s' t record bytes c kind isRecord struct inner le =>
    have same := TypeDesc.recordFields_target isRecord (.inl struct)
    have first : t.targetBlocks known = [record.size.toNat] := by
      rw [TypeDesc.targetBlocks, kind, isRecord]
    have none_ : record.targetBlocks known = [] := by
      rw [TypeDesc.targetBlocks, struct]
    obtain ⟨slots, rfl⟩ := inner.eq_record struct
    rw [slotBlocks, if_neg Bool.false_ne_true, blocks, none_, nil_append, roundUp_after] at le
    rw [slotBlocks, if_neg Bool.false_ne_true, blocks, first, same, takes_append, takes_cons]
    simp only [takes, map_nil, sum_nil] at le ⊢
    omega

end WireCodec
