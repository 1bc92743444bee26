import WireCodec.Proofs.Codec.Acceptance
import WireCodec.Proofs.Session.Encoding

/-! Decoding accepts exactly the bytes that spell a record, and gives the value that they spell. -/
namespace WireCodec

lemma At.take {wire : Bytes} {n : Nat} (inside : n ≤ wire.size) : At wire 0 (wire.toList.take n) := by
  refine ⟨fun k b at_ => ?_, ?_⟩
  · rw [List.getElem?_take] at at_
    split at at_
    · rw [Nat.zero_add, ← at_, Array.getElem?_toList]
    · cases at_
  · rw [List.length_take, Array.length_toList]
    omega

lemma At.eq_take {wire : Bytes} {data : List UInt8} (at_ : At wire 0 data) : data = wire.toList.take data.length := by
  have inside := at_.2
  refine at_.eq (At.take (by omega)) ?_
  rw [List.length_take]
  exact (Nat.min_eq_left (show data.length ≤ wire.size by omega)).symm

lemma Chain.flat : Chain.schema.Flat := by
  refine ⟨fun t elem has given => ?_, fun t key has given => ?_⟩ <;>
    rcases Chain.eq_of_has has with rfl | rfl | rfl <;> cases given

namespace Session

variable {known : Registry} {options : Options} {s : Session} {t : TypeDesc} {heap : Heap} {root : UInt32}
  {wire : Bytes} {barrier : Bool}

lemma scene_ready (started : heap.Started) (small : heap.size ≤ Heap.limit) (wireFits : wire.size ≤ maxBlock)
    (barrier : Bool) : (scene wire heap barrier).Ready :=
  ⟨lt_of_le_of_lt wireFits (by decide), started, small⟩

lemma decode_of_walk (usable : known.Usable) (sound : s.Sound known options) (has : known.Has t) (kind : t.kind = .struct)
    (frames : options.Framed) (wireFits : wire.size ≤ maxBlock)
    {c : Scene}
    (ran : Reading.walk known (options.maxNestingDepth + 1) options.maxNestingDepth t root.toUInt64
      (scene wire heap barrier) = .ok () c) :
    (s.decode known t wire heap root barrier).result = .ok c.pos.toNat ∧
      (s.decode known t wire heap root barrier).Leaves c := by
  have delivers := (perform_delivers usable sound has .decode wire wireFits heap root barrier).1
  rw [task_of_fits kind frames] at delivers
  change Delivers _ _ _ (Reading.walk known (options.maxNestingDepth + 1) options.maxNestingDepth t root.toUInt64
    (scene wire heap barrier)) at delivers
  rwa [ran] at delivers

section

variable (usable : known.Usable)
  (compact : known.Compact)
  (flat : known.Flat)
  (sound : s.Sound known options)
  (has : known.Has t)
  (kind : t.kind = .struct)
include usable compact flat sound has kind

lemma decode_of_spells (frames : options.Framed) (started : heap.Started) (small : heap.size ≤ Heap.limit)
    (inside : root.toNat + t.size.toNat ≤ heap.size) (wireFits : wire.size ≤ maxBlock) (barrier : Bool)
    {bytes : List UInt8} {c : Content} {s' : Nat} (at_ : At wire 0 bytes)
    (spells : Spells known false options.maxNestingDepth t bytes c heap.size s') (fits : s' ≤ Heap.limit) :
    (s.decode known t wire heap root barrier).result = .ok bytes.length ∧
    (s.decode known t wire heap root barrier).heap.size = s' ∧ heap.Extends
    (s.decode known t wire heap root barrier).heap (Within root.toNat t.size.toNat) ∧ Holds known
    (s.decode known t wire heap root barrier).heap heap.size s' false root.toNat t c := by
  have walks := spells.fills_walk usable compact flat has kind (Nat.lt_succ_self _) root.toUInt64
  rw [UInt32.toNat_toUInt64] at walks
  obtain ⟨c', ran, went, size, holds, _⟩ := walks (scene wire heap barrier) (scene_ready started small wireFits barrier) rfl fits
    at_ inside
  obtain ⟨result, leaves⟩ := decode_of_walk usable sound has kind frames wireFits ran
  have consumed : c'.pos.toNat = bytes.length := went.pos.trans (Nat.zero_add _)
  have heap_ : (s.decode known t wire heap root barrier).heap = c'.heap := leaves.heap
  rw [heap_]
  exact ⟨result.trans (congrArg _ consumed), size, went.heap, size ▸ holds⟩

lemma spells_of_decode (started : heap.Started)
    (small : heap.size ≤ Heap.limit) (inside : root.toNat + t.size.toNat ≤ heap.size) (wireFits : wire.size ≤ maxBlock) {n : Nat} (ok : (s.decode known t wire heap root barrier).result = .ok n) :
    options.Framed ∧ ∃ bytes c s', At wire 0 bytes ∧ bytes.length = n ∧
      Spells known false options.maxNestingDepth t bytes c heap.size s' ∧ s' ≤ Heap.limit := by
  have ready := scene_ready started small wireFits barrier
  obtain ⟨c', done, pos, _⟩ := (perform_delivers usable sound has .decode wire wireFits heap root barrier).1.eq_ok ok
  have frames : options.Framed := by
    by_contra large
    simp only [task, TypeDesc.recordType_struct kind, if_neg large] at done
    cases done
  rw [task_of_fits kind frames] at done
  have parses : Parses known _ false _ root.toUInt64.toNat t :=
    ⟨told_walk usable compact flat (Nat.lt_succ_self options.maxNestingDepth) t has kind root.toUInt64,
      fun spells => spells.fills_walk usable compact flat has kind (Nat.lt_succ_self _) root.toUInt64⟩
  rw [UInt32.toNat_toUInt64] at parses
  obtain ⟨bytes, c, at_, spells, went⟩ := parses.run ready (Nat.zero_le _) inside done
  refine ⟨frames, bytes, c, _, at_, ?_, spells, went.heap.small⟩
  rw [← pos, went.pos]
  exact (Nat.zero_add _).symm

end

end Session

end WireCodec
