import WireCodec.Heap
import WireCodec.Proofs.Bytes

/-! What is where in an arena. Writing changes only the bytes it names, and allocating keeps all
bytes there were and adds zeros. -/
namespace WireCodec

open List

variable {n : Nat}

lemma toNat_toUInt64 (low : n < 2 ^ 32) : n.toUInt64.toNat = n := by
  simp only [Nat.toUInt64_eq, UInt64.toNat_ofNat']
  omega

lemma toUInt64_eq_zero (low : n < 2 ^ 32) : n.toUInt64 = 0 ↔ n = 0 := by
  rw [← UInt64.toNat_inj, toNat_toUInt64 low]
  rfl

lemma getElem?_patch (bytes : Bytes) (off : Nat) (data : List UInt8) (k : Nat) : (patch bytes off data)[k]? =
      if off ≤ k ∧ k < off + data.length ∧ k < bytes.size then data[k - off]? else bytes[k]? := by
  induction data generalizing bytes off with
  | nil =>
    rw [patch, if_neg]
    simp only [length_nil]
    omega
  | cons b rest ih =>
    rw [patch, ih, Array.size_setIfInBounds, Array.getElem?_setIfInBounds, length_cons]
    by_cases here : k = off
    · subst here
      by_cases low : k < bytes.size
      · rw [if_neg (by omega), if_pos rfl, if_pos low, if_pos (by omega), Nat.sub_self]
        rfl
      · rw [if_neg (by omega), if_pos rfl, if_neg low, if_neg (by omega), Array.getElem?_eq_none (Nat.not_lt.mp low)]
    · rw [if_neg (Ne.symm here)]
      by_cases inside : off + 1 ≤ k ∧ k < off + 1 + rest.length ∧ k < bytes.size
      · rw [if_pos inside, if_pos (by omega), show k - off = k - (off + 1) + 1 by omega, getElem?_cons_succ]
      · rw [if_neg inside, if_neg (by omega)]

namespace Heap

/-- The arena has the given bytes from `at_` on. -/
def Spans (heap : Heap) (at_ : Nat) (data : List UInt8) : Prop :=
  ∀ (k : Nat) (b : UInt8), data[k]? = some b → heap.bytes[at_ + k]? = some b

def Clear (heap : Heap) (at_ count : Nat) : Prop := heap.Spans at_ (List.replicate count 0)

def Same (heap heap' : Heap) (start stop : Nat) : Prop :=
  ∀ k, start ≤ k → k < stop → heap'.bytes[k]? = heap.bytes[k]?

variable {heap heap' heap'' : Heap} {at_ start stop width count : Nat} {data more : List UInt8} {word : UInt64}
  {off : UInt32}

lemma Same.refl (heap : Heap) (start stop : Nat) : heap.Same heap start stop := fun _ _ _ => rfl

lemma Same.mono (same : heap.Same heap' start stop) {start' stop' : Nat} (low : start ≤ start')
    (high : stop' ≤ stop) : heap.Same heap' start' stop' :=
  fun k low' high' => same k (le_trans low low') (lt_of_lt_of_le high' high)

lemma Spans.same (spans : heap.Spans at_ data)
    (same : heap.Same heap' at_ (at_ + data.length)) : heap'.Spans at_ data := by
  intro k b at_k
  have low := (List.getElem?_eq_some_iff.mp at_k).1
  rw [same _ (Nat.le_add_right _ _) (by omega)]
  exact spans k b at_k

lemma spans_append : heap.Spans at_ (data ++ more) ↔ heap.Spans at_ data ∧ heap.Spans (at_ + data.length) more := by
  refine ⟨fun spans => ⟨fun k b at_k => spans k b ?_, fun k b at_k => ?_⟩, fun ⟨first, second⟩ k b at_k => ?_⟩
  · rw [getElem?_append_left (List.getElem?_eq_some_iff.mp at_k).1, at_k]
  · rw [Nat.add_assoc]
    exact spans _ b (by rw [getElem?_append_right (Nat.le_add_right _ _), Nat.add_sub_cancel_left, at_k])
  · by_cases low : k < data.length
    · rw [getElem?_append_left low] at at_k
      exact first k b at_k
    · rw [getElem?_append_right (Nat.not_lt.mp low)] at at_k
      have := second _ b at_k
      rwa [Nat.add_assoc, Nat.add_sub_of_le (Nat.not_lt.mp low)] at this

lemma Spans.slice (spans : heap.Spans at_ data) (inside : at_ + data.length ≤ heap.size) :
    WireCodec.slice? heap.bytes at_ data.length = some data := by
  rw [Heap.size] at inside
  rw [WireCodec.slice?, if_pos inside]
  congr 1
  refine ext_getElem? fun k => ?_
  rw [Array.getElem?_toList]
  by_cases low : k < data.length
  · have is := spans k _ (getElem?_eq_getElem low)
    rw [Array.getElem?_extract, if_pos (by omega), is, getElem?_eq_getElem low]
  · rw [getElem?_eq_none (Nat.not_lt.mp low), Array.getElem?_eq_none]
    rw [Array.size_extract]
    omega

lemma spans_of_slice {len : Nat} (slice : WireCodec.slice? heap.bytes at_ len = some data) :
    heap.Spans at_ data ∧ data.length = len ∧ at_ + len ≤ heap.size := by
  unfold WireCodec.slice? at slice
  split at slice
  · rename_i inside
    obtain rfl := Option.some.inj slice
    refine ⟨fun k b at_k => ?_, ?_, inside⟩
    · rw [Array.getElem?_toList] at at_k
      have low := (Array.getElem?_eq_some_iff.mp at_k).1
      rw [Array.size_extract] at low
      rwa [Array.getElem?_extract, if_pos low] at at_k
    · rw [Array.length_toList, Array.size_extract]
      omega
  · cases slice

/-! Words. -/

def Word (heap : Heap) (at_ width : Nat) (word : UInt64) : Prop :=
  heap.Spans at_ (leBytes width word) ∧ at_ + width ≤ heap.size

lemma Word.same (is : heap.Word at_ width word)
    (same : heap.Same heap' at_ (at_ + width)) (size : heap.size ≤ heap'.size) : heap'.Word at_ width word :=
  ⟨is.1.same (by rwa [length_leBytes]), le_trans is.2 size⟩

lemma toNat_toUInt32 (low : n < 2 ^ 32) : n.toUInt32.toNat = n := by
  simp only [Nat.toUInt32, UInt32.toNat_ofNat']
  exact Nat.mod_eq_of_lt low

lemma Word.read (is : heap.Word at_ width word) (small : heap.size < 2 ^ 32)
    (short : width ≤ 8) (fits : word.toNat < 256 ^ width) : heap.read? at_.toUInt32 width = some word := by
  have low : at_ < 2 ^ 32 := by
    have := is.2
    omega
  have slice := is.1.slice (by rw [length_leBytes]; exact is.2)
  rw [length_leBytes] at slice
  rw [read?, if_pos short, Heap.slice?, toNat_toUInt32 low, slice, Option.map_some]
  congr 1
  apply UInt64.toNat_inj.mp
  rw [toNat_leWord_leBytes short, Nat.mod_eq_of_lt fits]

/-! Writing. -/

lemma size_patch (heap : Heap) (off : UInt32) (data : List UInt8) :
    (heap.patch off data).size = heap.size := WireCodec.size_patch _ _ _

lemma spans_patch (inside : off.toNat + data.length ≤ heap.size) : (heap.patch off data).Spans off.toNat data := by
  intro k b at_k
  have low := (List.getElem?_eq_some_iff.mp at_k).1
  have size : heap.bytes.size = heap.size := rfl
  rw [patch, getElem?_patch, if_pos (by omega), Nat.add_sub_cancel_left, at_k]

/-! Allocating. -/

lemma le_next (heap : Heap) : heap.size ≤ heap.next := by
  simp only [next, unit]
  omega

structure Allocated (heap : Heap) (count : Nat) (off : UInt32) (heap' : Heap) : Prop where
  place : off.toNat = heap.next
  size : heap'.size = heap.next + count
  small : heap'.size ≤ limit
  same : heap.Same heap' 0 heap.size
  clear : heap'.Clear heap.next count

lemma alloc?_eq_some (ok : heap.alloc? count = some (off, heap')) : heap.Allocated count off heap' := by
  have up := heap.le_next
  simp only [alloc?] at ok
  split at ok
  · rename_i room
    cases ok
    have size : heap.bytes.size = heap.size := rfl
    have total : (Heap.mk (heap.bytes ++ Array.replicate (heap.next + count - heap.size) 0)).size =
        heap.next + count := by
      rw [Heap.size, Array.size_append, Array.size_replicate]
      omega
    refine ⟨toNat_toUInt32 ?_, total, le_trans (le_of_eq total) room, fun k _ high => ?_, fun k b at_k => ?_⟩
    · simp only [limit] at room
      omega
    · exact Array.getElem?_append_left high
    · obtain ⟨low, rfl⟩ := List.getElem?_eq_some_iff.mp at_k
      rw [length_replicate] at low
      rw [Array.getElem?_append_right (by omega), Array.getElem?_replicate, if_pos (by omega), getElem_replicate]
  · cases ok

lemma alloc?_eq_none_iff : heap.alloc? count = none ↔ limit < heap.next + count := by
  simp only [alloc?]
  split
  · rename_i room
    simp only [reduceCtorEq, false_iff]
    omega
  · rename_i full
    simp only [true_iff]
    omega

end Heap

end WireCodec
