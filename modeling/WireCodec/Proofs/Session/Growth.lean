import WireCodec.Proofs.Session.Barrier
import WireCodec.Proofs.Session.Decoding

/-! Decoding into new memory takes memory in proportion to its input and to the frames it may take. -/
namespace WireCodec

namespace Session

variable {known : Registry} {options : Options} {s : Session} {t record : TypeDesc} {wire : Bytes}

lemma decode_grows (heap : Heap) (numbered : known.Numbered) (sound : s.Sound known options) (has : known.Has t)
    (wireFits : wire.size ≤ maxBlock) (root : UInt32) (barrier : Bool) :
    (s.decode known t wire heap root barrier).heap.size ≤
      heap.size + (options.maxNestingDepth * known.unit + 8) * (wire.size + 1) := by
  obtain ⟨v, task, fulfils⟩ := exists_task .decode numbered options has
  have leaves := (fulfils s wire heap root barrier sound wireFits nofun).delivers.leaves (by simp)
    (task.uncut numbered.sound (by simp) has _ _)
  have left : (s.decode known t wire heap root barrier).heap = _ := leaves.heap
  rw [left]
  have consumes := task.consumes (w := ⟨0, 0, 0⟩) numbered.sound (.inl rfl) has (.inl (Nat.zero_le root.toNat))
    (scene wire heap barrier) (lt_of_le_of_lt wireFits (by decide)) (Nat.zero_le _) (.inl rfl)
  cases ran : v root.toUInt64 (scene wire heap barrier) with
  | ok u c =>
    obtain ⟨bytes, _, took, _⟩ := consumes.ok ran
    have inside : 0 + bytes.length ≤ wire.size := took.at_.2
    refine le_trans took.size (Nat.add_le_add_left (Nat.mul_le_mul_left _ ?_) _)
    omega
  | error t c => exact (consumes.error ran).size

/-- Decoding into new memory allocates what the codec of the type is made for, and decodes. -/
lemma decodeNew_cases (known : Registry) (t : TypeDesc) (s : Session) (wire : Bytes) (heap : Heap) (barrier : Bool) :
    (s.decodeNew known t wire heap barrier).heap = heap ∨ ∃ set s₁ root heap', lookup known t s = .ok set s₁ ∧
      heap.alloc? set.type.size.toNat = some (root, heap') ∧
      (s.decodeNew known t wire heap barrier).heap = (s.decode known t wire heap' root barrier).heap := by
  cases looked : lookup known t s with
  | error f s₁ => exact .inl (by simp only [decodeNew, codecs, looked])
  | ok set s₁ =>
    cases got : heap.alloc? set.type.size.toNat with
    | none => exact .inl (by simp only [decodeNew, codecs, looked, got])
    | some pair =>
      refine .inr ⟨set, s₁, pair.1, pair.2, rfl, got, ?_⟩
      simp only [decodeNew, decode, perform, codecs, looked, got, Outcome.map]

/-- Decoding into a new record takes memory in proportion to the length of the input, whether it succeeds or fails: for each
byte of it and each frame, and one byte and two frames more, what the largest type of the schema takes. -/
theorem decodeNew_grows (built : known.Built) (numbers : known.types.size ≤ 2 ^ 32) (sound : s.Sound known options)
    (has : known.Has t) (wireFits : wire.size ≤ maxBlock) (heap : Heap) (barrier : Bool) :
    (s.decodeNew known t wire heap barrier).heap.size ≤
      heap.size + known.unit * (options.maxNestingDepth + 2) * (wire.size + 1) := by
  rcases decodeNew_cases known t s wire heap barrier with same | ⟨set, s₁, root, heap', looked, got, same⟩
  · rw [same]
    exact Nat.le_add_right _ _
  · rw [same]
    have hasType := sound.has_of_lookup built.sound has looked
    have grows := decode_grows heap' ⟨built.sound, numbers⟩ sound has wireFits root barrier
    have size := (Heap.alloc?_eq_some got).size
    have next : heap.next ≤ heap.size + 7 := Nat.div_mul_le_self _ _
    have span := known.spans_unit.size set.type hasType
    have total : known.unit * (options.maxNestingDepth + 2) =
        (options.maxNestingDepth * known.unit + 8) + (known.unit - 8) + known.unit := by
      rw [Nat.mul_add, Nat.mul_comm known.unit options.maxNestingDepth]
      omega
    rw [total, Nat.add_mul, Nat.add_mul]
    have := Nat.mul_le_mul_left (known.unit - 8) (show 1 ≤ wire.size + 1 by omega)
    omega

/-- A node that ends within its number. -/
theorem decodeNew_grows_node : ((start Chain.options).decodeNew Chain.schema Chain.node #[8, 0, 1, 0] .empty false).heap.size ≤
    Heap.empty.size + 23 * (Chain.options.maxNestingDepth + 2) * 5 := by
  have unit : Chain.schema.unit = 23 := by decide
  rw [← unit]
  exact decodeNew_grows Chain.built (by decide) (sound_start _ Chain.options) Chain.has_node
    (show (#[8, 0, 1, 0] : Bytes).size ≤ maxBlock by decide) .empty false

end Session

end WireCodec
