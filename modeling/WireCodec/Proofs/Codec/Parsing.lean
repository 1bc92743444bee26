import WireCodec.Proofs.Codec.Parts
import WireCodec.Proofs.Codec.Reports

/-! Reading bytes that spell a content fills the slot with it, and reports the pointer slots of it. -/
namespace WireCodec

open Lowering List Reading
open Act (alloc bind_ok copyIn onHeap store storePtr zero)
open Heap (after limit spans_patch)

variable {word : UInt64} {e : Entry} {keyTags : List UInt8} {tag : UInt8} {n : Nat} {bytes : List UInt8}

/-- Wire and arena are of a size that codecs can work with. -/
structure Scene.Ready (c : Scene) : Prop where
  wire : c.wire.size < 2 ^ 63
  started : c.heap.Started
  small : c.heap.size ≤ limit

/-- A reader moved past `n` bytes, and changed old bytes of the arena only where they are `owned`. -/
structure Went (c c' : Scene) (n : Nat) (owned : Nat → Prop) : Prop where
  wire : c'.wire = c.wire
  pos : c'.pos.toNat = c.pos.toNat + n
  heap : c.heap.Extends c'.heap owned

section Running

variable {c c' c'' : Scene} {n m : Nat} {owned owned' : Nat → Prop} {data : List UInt8} {base : UInt64} {off : UInt32}

lemma Scene.Ready.went (ready : c.Ready) (went : Went c c' n owned) : c'.Ready :=
  ⟨went.wire ▸ ready.wire, le_trans ready.started went.heap.grows, went.heap.small⟩

lemma Went.trans (first : Went c c' n owned) (second : Went c' c'' m owned')
    (part : ∀ k < c.heap.size, owned' k → owned k) : Went c c'' (n + m) owned :=
  ⟨second.wire.trans first.wire, by rw [second.pos, first.pos, Nat.add_assoc], first.heap.trans second.heap part⟩

lemma Went.mono (went : Went c c' n owned) (part : ∀ k < c.heap.size, owned k → owned' k) : Went c c' n owned' :=
  ⟨went.wire, went.pos, went.heap.mono part⟩

lemma Went.ahead (went : Went c c' n owned) (at_ : At c.wire (c.pos.toNat + n) bytes) :
    At c'.wire c'.pos.toNat bytes := by
  rw [went.wire, went.pos]
  exact at_

lemma Went.inWire (went : Went c c' bytes.length owned) (at_ : At c.wire c.pos.toNat bytes) :
    c'.pos.toNat ≤ c'.wire.size := by
  rw [went.wire, went.pos]
  exact at_.2

lemma widen_byte (b : UInt8) : Machine.widen .w1 false (beWord [b]) = b.toUInt64 := by
  simp [Machine.widen, beWord]

lemma went_read (ready : c.Ready) (width : Width) (signed : Bool) (at_ : At c.wire c.pos.toNat data)
    (length : data.length = width.bytes) : ∃ c', Act.read eof width signed c = .ok
    (Machine.widen width signed (beWord data)) c' ∧ c'.heap = c.heap ∧ Went c c' width.bytes fun _ => False := by
  have cut := at_.slice
  rw [length] at cut
  have inside := at_.2
  have small := ready.wire
  have moved : (c.move width.bytes.toUInt64).pos.toNat = c.pos.toNat + width.bytes := by
    change (c.pos + width.bytes.toUInt64).toNat = _
    rw [UInt64.toNat_add, (width_cases width).2, Nat.mod_eq_of_lt (by omega)]
  exact ⟨c.move width.bytes.toUInt64, by rw [Act.read, cut], rfl, rfl, moved, .refl ready.small⟩

lemma need_ok {n : UInt64} (inside : c.pos.toNat + n.toNat ≤ c.wire.size) : Act.need eof n c = .ok () c := by
  rw [Act.need_apply, if_pos inside]

lemma went_alloc (count : UInt64) (fits : after c.heap.size count.toNat ≤ limit) : ∃ c' start, alloc count
    c = .ok start c' ∧ start.toNat = c.heap.next ∧ start.toUInt32.toNat = c.heap.next ∧ c'.heap.size = after
    c.heap.size count.toNat ∧ c'.heap.Clear c.heap.next count.toNat ∧ Went c c' 0 fun _ => False := by
  cases got : c.heap.alloc? count.toNat with
  | none => exact absurd (Heap.alloc?_eq_none_iff.mp got) (Nat.not_lt.mpr fits)
  | some pair =>
    obtain ⟨start, heap⟩ := pair
    have made := Heap.alloc?_eq_some got
    refine ⟨{ c with heap := heap }, start.toUInt64, by rw [alloc, got], ?_, ?_, made.size, made.clear, rfl, rfl,
      (Heap.fresh_alloc got).extends_⟩
    · rw [UInt32.toNat_toUInt64]
      exact made.place
    · rw [UInt32.toUInt32_toUInt64]
      exact made.place

lemma at?_of_inside {len : Nat} (inside : base.toNat + off.toNat + len ≤ c.heap.size) (small : c.heap.size ≤ limit)
    (some_ : 0 < len) : ∃ start : UInt32, c.at? base off len = some start ∧ start.toNat = base.toNat + off.toNat := by
  refine ⟨_, if_pos inside, Heap.toNat_toUInt32 ?_⟩
  unfold limit at small
  omega

lemma went_store (ready : c.Ready) (width : Width) (word base : UInt64) (off : UInt32)
    (inside : base.toNat + off.toNat + width.bytes ≤ c.heap.size) : ∃ c', store width word base off c = .ok () c' ∧
    c'.heap.size = c.heap.size ∧ c'.heap.Word (base.toNat + off.toNat) width.bytes word ∧ Went c c' 0
    (Within (base.toNat + off.toNat) width.bytes) := by
  obtain ⟨start, found, place⟩ := at?_of_inside inside ready.small (by cases width <;> decide)
  have step := @Heap.extends_patch start c.heap (leBytes width.bytes word) ready.small
  rw [length_leBytes, place] at step
  refine ⟨c.patchHeap start (leBytes width.bytes word), ?_, Heap.size_patch _ _ _, ⟨?_, ?_⟩, rfl, rfl, step⟩
  · rw [store, onHeap, found]
  · rw [← place]
    exact spans_patch (by rw [length_leBytes, place]; exact inside)
  · exact le_trans inside (le_of_eq (Heap.size_patch _ _ _).symm)

lemma toUInt64_of_toNat {start : UInt64} (is : start.toUInt32.toNat = n) : start.toUInt32.toUInt64 = n.toUInt64 := by
  apply UInt64.toNat_inj.mp
  rw [UInt32.toNat_toUInt64, is, toNat_toUInt64 (is ▸ start.toUInt32.toNat_lt)]

lemma went_storePtr (ready : c.Ready) (ptr base : UInt64) (off : UInt32)
    (inside : base.toNat + off.toNat + 4 ≤ c.heap.size) :
    ∃ c', storePtr ptr base off c = .ok () c' ∧ c'.heap.size = c.heap.size ∧
      c'.heap.Word (base.toNat + off.toNat) 4 ptr.toUInt32.toUInt64 ∧
      Went c c' 0 (Within (base.toNat + off.toNat) 4) ∧ (c.heap.link (base.toNat + off.toNat) = 0 →
        Reports c c' (Within (base.toNat + off.toNat) 4) (· = base.toNat + off.toNat)) := by
  obtain ⟨start, found, place⟩ := at?_of_inside inside ready.small (by decide)
  have same : (c.storePointer start ptr.toUInt32).heap = c.heap.patch start (leBytes 4 ptr.toUInt32.toUInt64) := by
    unfold Scene.storePointer
    cases c.barrier <;> rfl
  have step := @Heap.extends_patch start c.heap (leBytes 4 ptr.toUInt32.toUInt64) ready.small
  rw [length_leBytes, place] at step
  have word : (c.storePointer start ptr.toUInt32).heap.Word (base.toNat + off.toNat) 4 ptr.toUInt32.toUInt64 := by
    rw [same, ← place]
    refine ⟨spans_patch (by rw [length_leBytes, place]; exact inside), ?_⟩
    rw [Heap.size_patch, place]
    exact inside
  have small : (c.storePointer start ptr.toUInt32).heap.size ≤ limit := by
    rw [same, Heap.size_patch]
    exact ready.small
  refine ⟨c.storePointer start ptr.toUInt32, ?_, ?_, word, ⟨?_, ?_, ?_⟩, fun nil_ => ⟨?_, ?_, fun on => ?_⟩⟩
  · rw [storePtr, onHeap, found]
  · rw [same, Heap.size_patch]
  · unfold Scene.storePointer
    cases c.barrier <;> rfl
  · unfold Scene.storePointer
    cases c.barrier <;> rfl
  · rw [same]
    exact step
  · unfold Scene.storePointer
    cases on : c.barrier <;> simp [Scene.patchHeap, on]
  · rintro a rfl
    exact ⟨word.2, fun k in_ => .inl in_⟩
  · refine ⟨[⟨start, (c.heap.read32? start).getD 0, ptr.toUInt32⟩], ?_, nodup_singleton _, fun a => ?_, ?_⟩
    · unfold Scene.storePointer
      rw [on]
      rfl
    · simp [place, eq_comm]
    · simp only [mem_singleton, forall_eq, place]
      rw [toUInt64_of_toNat rfl] at word
      refine ⟨?_, (word.link small ptr.toUInt32.toNat_lt).symm⟩
      rw [Heap.link, ← place, show start.toNat.toUInt32 = start by simp] at nil_
      exact UInt32.toNat_inj.mp nil_

lemma went_zero (ready : c.Ready) {len : UInt32} (some_ : 0 < len.toNat) (inside : base.toNat + len.toNat ≤ c.heap.size) :
    ∃ c', zero base 0 len c = .ok () c' ∧ c'.heap.size = c.heap.size ∧ c'.heap.Clear base.toNat len.toNat ∧
      Went c c' 0 (Within base.toNat len.toNat) := by
  obtain ⟨start, found, place⟩ := @at?_of_inside c base 0 len.toNat inside ready.small some_
  change start.toNat = base.toNat at place
  have step := @Heap.extends_patch start c.heap (List.replicate len.toNat 0) ready.small
  rw [length_replicate, place] at step
  refine ⟨c.patchHeap start (List.replicate len.toNat 0), ?_, Heap.size_patch _ _ _, ?_, rfl, rfl, step⟩
  · rw [zero, onHeap, found]
  · rw [← place]
    exact spans_patch (by rw [length_replicate, place]; exact inside)

lemma went_copyIn (ready : c.Ready) (dst : UInt64) {len : UInt64} (at_ : At c.wire c.pos.toNat data) (length : len.toNat = data.length)
    (inside : dst.toNat + data.length ≤ c.heap.size) :
    ∃ c', copyIn eof dst len c = .ok () c' ∧ c'.heap.size = c.heap.size ∧ c'.heap.Spans dst.toNat data ∧
      Went c c' data.length (Within dst.toNat data.length) := by
  have cut := at_.slice
  have range := at_.2
  have wire := ready.wire
  have small := ready.small
  have found : c.at? dst 0 data.length = some (dst.toNat + 0).toUInt32 := if_pos inside
  have place : (dst.toNat + 0).toUInt32.toNat = dst.toNat := by
    rw [Nat.add_zero]
    exact Heap.toNat_toUInt32 (by unfold limit at small; omega)
  have step := @Heap.extends_patch (dst.toNat + 0).toUInt32 c.heap data ready.small
  rw [place] at step
  have moved : (c.pos + len).toNat = c.pos.toNat + data.length := by
    rw [UInt64.toNat_add, length, Nat.mod_eq_of_lt (by omega)]
  refine ⟨(c.patchHeap (dst.toNat + 0).toUInt32 data).move len, ?_, Heap.size_patch _ _ _, ?_, rfl, moved, step⟩
  · rw [copyIn, length, cut]
    simp only [found]
  · have spans : (c.heap.patch (dst.toNat + 0).toUInt32 data).Spans (dst.toNat + 0).toUInt32.toNat data :=
      spans_patch (by rw [place]; exact inside)
    rwa [place] at spans

lemma went_header (ready : c.Ready) (start count base : UInt64) (near : off.toNat < 2 ^ 31)
    (inside : base.toNat + off.toNat + 8 ≤ c.heap.size) :
    ∃ c₁ c', storePtr start base off c = .ok () c₁ ∧ store .w4 count base (off + 4) c₁ = .ok () c' ∧
      c'.heap.size = c.heap.size ∧ c'.heap.Word (base.toNat + off.toNat) 4 start.toUInt32.toUInt64 ∧
      c'.heap.Word (base.toNat + off.toNat + 4) 4 count ∧ Went c c' 0 (Within (base.toNat + off.toNat) 8) ∧
      (c.heap.link (base.toNat + off.toNat) = 0 →
        Reports c c' (Within (base.toNat + off.toNat) 8) (· = base.toNat + off.toNat)) := by
  have next := toNat_add_four near
  obtain ⟨c₁, first, size₁, word₁, went₁, reports⟩ := went_storePtr ready start base off (by omega)
  obtain ⟨c₂, second, size₂, word₂, went₂⟩ := went_store (ready.went went₁) .w4 count base (off + 4)
    (by rw [next, size₁]; change _ + 4 ≤ _; omega)
  rw [next] at word₂ went₂
  refine ⟨c₁, c₂, first, second, size₂.trans size₁, ?_, word₂, ?_, fun nil_ => ?_⟩
  · exact word₁.same (went₂.heap.range word₁.2 fun k _ high own => by omega) went₂.heap.grows
  · refine (went₁.mono fun k _ own => by omega).trans went₂ fun k _ own => ?_
    change Within (base.toNat + off.toNat + 4) 4 k at own
    omega
  · refine ((reports nil_).mono fun k _ own => by omega).andThen (Act.silent_store _ _ _ _ second) went₂.heap ?_
    rintro a rfl k in_ own
    omega

end Running

/-- Reading the bytes fills a slot with a content. If the slot had no pointer slots before, those it has then are
reported. -/
def Fills (known : Registry) (x : Act Unit) (bytes : List UInt8) (boxed : Bool) (addr : Nat) (t : TypeDesc)
    (content : Content) (s s' : Nat) : Prop :=
  ∀ c : Scene, c.Ready → c.heap.size = s → s' ≤ limit → At c.wire c.pos.toNat bytes →
    addr + Holds.slotSize boxed t ≤ s →
    ∃ c', x c = .ok () c' ∧ Went c c' bytes.length (Within addr (Holds.slotSize boxed t)) ∧ c'.heap.size = s' ∧
      Holds known c'.heap c.heap.size c'.heap.size boxed addr t content ∧
      ((∀ a, ¬ LinkAt known c.heap boxed addr t a) →
        Reports c c' (Within addr (Holds.slotSize boxed t)) (LinkAt known c'.heap boxed addr t))

/-! Several slots that are filled one after the other. -/

/-- A slot for a value of a type of the schema, and what it is to hold. -/
structure Spot (known : Registry) where
  boxed : Bool
  addr : Nat
  type : TypeDesc
  content : Content
  has : known.Has type

namespace Spot

variable {known : Registry}

abbrev width (p : Spot known) : Nat := Holds.slotSize p.boxed p.type

abbrev Covers (p : Spot known) : Nat → Prop := Within p.addr p.width

abbrev HeldIn (p : Spot known) (heap : Heap) (lo : Nat) : Prop :=
  Holds known heap lo heap.size p.boxed p.addr p.type p.content

abbrev Links (p : Spot known) (heap : Heap) : Nat → Prop := LinkAt known heap p.boxed p.addr p.type

def each {α : Type} (row : α → Nat → List (Spot known)) (stride : Nat) : Nat → List α → List (Spot known)
  | _, [] => []
  | start, a :: rest => row a start ++ each row stride (start + stride) rest

lemma mem_each {α : Type} {row : α → Nat → List (Spot known)} {stride start : Nat} {xs : List α} {p : Spot known} :
    p ∈ each row stride start xs ↔ ∃ (i : Nat) (a : α), xs[i]? = some a ∧ p ∈ row a (start + i * stride) := by
  induction xs generalizing start with
  | nil => simp [each]
  | cons a rest ih =>
    simp only [each, mem_append, ih, ← Holds.row_succ]
    constructor
    · rintro (mem | ⟨i, a', at_, mem⟩)
      · exact ⟨0, a, rfl, by simpa using mem⟩
      · exact ⟨i + 1, a', at_, mem⟩
    · rintro ⟨i, a', at_, mem⟩
      cases i with
      | zero =>
        cases at_
        exact .inl (by simpa using mem)
      | succ i => exact .inr ⟨i, a', at_, mem⟩

lemma within_each {α : Type} {row : α → Nat → List (Spot known)} {stride start : Nat} {xs : List α}
    (within : ∀ a start, ∀ p ∈ row a start, start ≤ p.addr ∧ p.addr + p.width ≤ start + stride) :
    ∀ p ∈ each row stride start xs, start ≤ p.addr ∧ p.addr + p.width ≤ start + xs.length * stride := by
  intro p mem
  obtain ⟨i, a, at_, member⟩ := mem_each.mp mem
  have := within a _ p member
  have := Holds.mul_add_le (List.getElem?_eq_some_iff.mp at_).1 stride
  omega

end Spot

def FillsAll {known : Registry} (x : Act Unit) (bytes : List UInt8) (spots : List (Spot known)) (s s' : Nat) : Prop :=
  ∀ c : Scene, c.Ready → c.heap.size = s → s' ≤ limit → At c.wire c.pos.toNat bytes → (∀ p ∈ spots, p.addr + p.width ≤ s) →
    ∃ c', x c = .ok () c' ∧ Went c c' bytes.length (fun k => ∃ p ∈ spots, p.Covers k) ∧ c'.heap.size = s' ∧
      (∀ p ∈ spots, p.HeldIn c'.heap c.heap.size) ∧
      ((∀ p ∈ spots, ∀ a, ¬ p.Links c.heap a) →
        Reports c c' (fun k => ∃ p ∈ spots, p.Covers k) fun a => ∃ p ∈ spots, p.Links c'.heap a)

section Sequences

variable {known : Registry} {x y : Act Unit} {bytes more : List UInt8} {spots others : List (Spot known)} {s m s' : Nat}

lemma Fills.one {p : Spot known} (fills : Fills known x bytes p.boxed p.addr p.type p.content s s') :
    FillsAll x bytes [p] s s' := by
  simp only [FillsAll, mem_singleton, exists_eq_left, forall_eq]
  exact fills

lemma fillsAll_pure (s : Nat) : FillsAll (pure () : Act Unit) [] ([] : List (Spot known)) s s :=
  fun c ready size _ _ _ => ⟨c, rfl, ⟨rfl, rfl, .refl ready.small⟩, size, nofun, fun _ =>
    Scene.Quiet.reports ⟨rfl, rfl⟩ nofun⟩

lemma FillsAll.behind (head : List UInt8) (fills : FillsAll y bytes spots s s')
    (reads : ∀ c : Scene, c.Ready → At c.wire c.pos.toNat (head ++ bytes) →
      ∃ c', x c = y c' ∧ c'.heap = c.heap ∧ c.Quiet c' ∧ Went c c' head.length fun _ => False) :
    FillsAll x (head ++ bytes) spots s s' := by
  intro c ready size fits at_ inside
  obtain ⟨c₁, ran, heap₁, quiet, went₁⟩ := reads c ready at_
  obtain ⟨c₂, ran₂, went₂, size₂, held, reports⟩ := fills c₁ (ready.went went₁) (by rw [heap₁, size]) fits
    (went₁.ahead (At.append.mp at_).2) inside
  rw [heap₁] at held reports
  refine ⟨c₂, ran.trans ran₂, ?_, size₂, held, fun unlinked =>
    quiet.andThen (reports unlinked) (le_of_eq (by rw [heap₁]))⟩
  rw [length_append]
  exact (went₁.mono fun _ _ => False.elim).trans went₂ fun _ _ => id

lemma FillsAll.check (fills : FillsAll x bytes spots s s') (passes : ∀ (c : Scene) (lo : Nat), c.Ready →
    (∀ p ∈ spots, p.addr + p.width ≤ c.heap.size ∧ p.HeldIn c.heap lo) → y c = .ok () c) :
    FillsAll (do x; y) bytes spots s s' := by
  intro c ready size fits at_ inside
  obtain ⟨c', ran, went, size', held, reports⟩ := fills c ready size fits at_ inside
  refine ⟨c', ?_, went, size', held, reports⟩
  rw [bind_ok ran]
  have grown := went.heap.grows
  exact passes c' _ (ready.went went) fun p mem => ⟨by have := inside p mem; omega, held p mem⟩

lemma FillsAll.bind (sound : known.Sound) (first : FillsAll x bytes spots s m) (second : FillsAll y more others m s')
    (le : m ≤ s') (apart : ∀ p ∈ spots, ∀ q ∈ others, ∀ k, p.Covers k → ¬ q.Covers k) :
    FillsAll (do x; y) (bytes ++ more) (spots ++ others) s s' := by
  intro c ready size fits at_ inside
  obtain ⟨insideFirst, insideSecond⟩ := forall_mem_append.mp inside
  obtain ⟨atFirst, atSecond⟩ := At.append.mp at_
  obtain ⟨c₁, ran₁, went₁, size₁, held₁, reports₁⟩ := first c ready size (le_trans le fits) atFirst insideFirst
  have grown := went₁.heap.grows
  obtain ⟨c₂, ran₂, went₂, size₂, held₂, reports₂⟩ := second c₁ (ready.went went₁) size₁ fits (went₁.ahead atSecond)
    fun q mem => by
      have := insideSecond q mem
      omega
  have room : ∀ p ∈ spots, p.addr + p.width ≤ c₁.heap.size := fun p mem => by
    have := insideFirst p mem
    omega
  have else_ : ∀ p ∈ spots, ∀ k, p.Covers k → ¬ ∃ q ∈ others, q.Covers k := fun p mem k own ⟨q, mem', own'⟩ =>
    apart p mem q mem' k own own'
  have above : ∀ k, c.heap.size ≤ k → ¬ ∃ q ∈ others, q.Covers k := by
    rintro k low ⟨q, mem, own⟩
    have := insideSecond q mem
    omega
  have left : ∀ k, (∃ p ∈ spots, p.Covers k) → ∃ p ∈ spots ++ others, p.Covers k := fun k ⟨p, mem, own⟩ =>
    ⟨p, mem_append_left _ mem, own⟩
  have right : ∀ k, (∃ p ∈ others, p.Covers k) → ∃ p ∈ spots ++ others, p.Covers k := fun k ⟨p, mem, own⟩ =>
    ⟨p, mem_append_right _ mem, own⟩
  refine ⟨c₂, by rw [bind_ok ran₁, ran₂], ?_, size₂, forall_mem_append.mpr ⟨fun p mem => ?_, fun q mem => ?_⟩,
    fun unlinked => ?_⟩
  · rw [length_append]
    exact (went₁.mono fun k _ => left k).trans went₂ fun k _ => right k
  · exact (held₁ p mem).keep sound p.has went₂.heap (room p mem) (else_ p mem) (fun k low _ => above k low) le_rfl
  · exact (held₂ q mem).widen sound q.has grown le_rfl
  · obtain ⟨unlinkedFirst, unlinkedSecond⟩ := forall_mem_append.mp unlinked
    have told := reports₁ unlinkedFirst
    -- the slots that come later are still as they were
    have later := reports₂ fun q mem a link => by
      have inside := insideSecond q mem
      rw [← size] at inside
      obtain ⟨a', before⟩ := link.same sound q.has (went₁.heap.range inside fun k low high ⟨p, mem', own⟩ =>
        apart p mem' q mem k own ⟨low, high⟩) inside grown ready.small
      exact unlinkedSecond q mem a' before
    refine ((told.mono fun k _ => left k).trans later grown went₂.heap (fun k _ => right k) fun a is k in_ => ?_).congr
      fun a => ?_
    · rcases (told.inside a is).2 k in_ with ⟨p, mem, own⟩ | new
      · exact else_ p mem k own
      · exact above k new
    · simp only [mem_append, or_and_right, exists_or]
      refine or_congr_left (exists_congr fun p => and_congr_right fun mem => ?_)
      exact (held₁ p mem).linkAt_keep sound p.has went₂.heap (room p mem) (else_ p mem) (fun k low _ => above k low) a

lemma fillsAll_each {α : Type} {piece : α → List UInt8} {row : α → Nat → List (Spot known)} {body : UInt64 → Act Unit}
    {stride : UInt32} (sound : known.Sound) (near : stride.toNat < 2 ^ 31)
    (within : ∀ a start, ∀ p ∈ row a start, start ≤ p.addr ∧ p.addr + p.width ≤ start + stride.toNat) {xs : List α}
    (through : Through (fun a s s' => s ≤ s' ∧ ∀ place : UInt64, FillsAll (body place) (piece a) (row a place.toNat) s s')
      xs s s') {base : UInt64} (room : base.toNat + xs.length * stride.toNat ≤ s) :
    FillsAll (Act.each body stride xs.length base) (xs.flatMap piece) (Spot.each row stride.toNat base.toNat xs) s s' := by
  induction through generalizing base with
  | nil => exact fillsAll_pure _
  | @cons a rest s r s' first others ih =>
    rw [length_cons, Nat.succ_mul] at room
    intro c ready size
    have small := ready.small
    unfold limit at small
    have next : (base + immWord stride.toInt32).toNat = base.toNat + stride.toNat := toNat_add_immWord near (by omega)
    have later := @ih (base + immWord stride.toInt32) (by have := first.1; omega)
    rw [next] at later
    refine (first.2 base).bind sound later (others.le And.left) (fun p mem q mem' k own own' => ?_) c ready size
    have := within a _ p mem
    have := Spot.within_each within q mem'
    omega

end Sequences

lemma widen_countBytes (short : n < 2 ^ 31) :
    Machine.widen .w4 true (beWord (countBytes n)) = n.toUInt64 ∧ isNegative n.toUInt64 = false := by
  have word : beWord (countBytes n) = n.toUInt64 := by
    apply UInt64.toNat_inj.mp
    rw [toNat_beWord_countBytes short, toNat_toUInt64 (by omega)]
  have toNat := toNat_toUInt64 (show n < 2 ^ 32 by omega)
  have same := widen_four_of_lt (show n.toUInt64.toNat < 2 ^ 31 by omega)
  refine ⟨by rw [word, same], ?_⟩
  rw [← same]
  exact (isNegative_widen_four (by omega)).mpr (by omega)

section Filling

variable {known : Registry} {left addr s s' : Nat} {t elem : TypeDesc} {bytes : List UInt8} {base : UInt64} {off : UInt32}

lemma fills_word (shaped : t.Shaped) (isScalar : t.kind.isScalar = true) (length : bytes.length = t.size.toNat)
    (place : base.toNat + off.toNat = addr) : Fills known (do
      let word ← Act.read eof (Writing.width t) false
      store (Writing.width t) word base off) bytes false addr t (.word (beWord bytes)) s s := by
  intro c ready size _ at_ inside
  have wide := Writing.bytes_width shaped isScalar
  generalize Writing.width t = width at wide ⊢
  obtain ⟨c₁, read, heap₁, went₁⟩ := went_read ready width false at_ (by rw [length, wide])
  obtain ⟨c₂, stored, size₂, word, went₂⟩ := went_store (ready.went went₁) width (beWord bytes) base off
    (by rw [place, heap₁, wide, size]; exact inside)
  rw [place, wide] at word went₂
  refine ⟨c₂, ?_, ?_, by rw [size₂, heap₁, size], .word isScalar word ?_, fun _ =>
    ((Act.silent_read _ _ _ read).trans (Act.silent_store _ _ _ _ stored)).reports fun _ => not_linkAt_scalar isScalar⟩
  · rw [bind_ok read]
    exact stored
  · rw [length, ← wide]
    rw [wide] at went₁ ⊢
    exact (went₁.mono fun k _ => False.elim).trans went₂ fun k _ own => own
  · have short : bytes.length ≤ 8 := by
      rw [length, ← wide]
      cases width <;> decide
    rw [toNat_beWord short, ← length]
    exact beNat_lt bytes

lemma after_eq (c : Scene) (count : Nat) : after c.heap.size count = c.heap.next + count := rfl

lemma fills_cell {field : FieldDesc} {nested : Visit} (shaped : field.type.Shaped) (isBoxed : field.isBoxed = true)
    (length : bytes.length = field.type.size.toNat) : Fills known (Reading.field known (fun _ => nested) left base field) bytes
    true (base.toNat + field.offset.toNat) field.type (.word (beWord bytes)) s (after s boxSize.toNat) := by
  intro c ready size fits at_ inside
  subst size
  have isScalar := Field.isScalar_of_isBoxed isBoxed
  have wide := Writing.bytes_width shaped isScalar
  have short := shaped.size_le isScalar
  rw [Reading.field, if_pos isBoxed]
  generalize Writing.width field.type = width at wide ⊢
  have up := c.heap.le_next
  have next := ready.started.next_ne
  rw [after_eq] at fits ⊢
  change c.heap.next + 8 ≤ _ at fits
  change base.toNat + field.offset.toNat + 4 ≤ _ at inside
  obtain ⟨c₁, cell, allocated, place, place', size₁, _, went₁⟩ := went_alloc boxSize.toUInt64 fits
  change c₁.heap.size = c.heap.next + 8 at size₁
  obtain ⟨c₂, linked, size₂, word₂, went₂, reports⟩ := went_storePtr (ready.went went₁) cell base field.offset (by omega)
  have ready₂ := (ready.went went₁).went went₂
  have at₂ := went₂.ahead (went₁.ahead at_)
  obtain ⟨c₃, read, heap₃, went₃⟩ := went_read ready₂ width false at₂ (by rw [length, wide])
  obtain ⟨c₄, stored, size₄, word₄, went₄⟩ := went_store (ready₂.went went₃) width (beWord bytes) cell 0
    (by rw [heap₃, place]; change c.heap.next + 0 + _ ≤ _; omega)
  rw [place] at word₄ went₄
  change c₄.heap.Word c.heap.next _ _ at word₄
  change Went c₃ c₄ 0 (Within c.heap.next _) at went₄
  have link := word₂.same (went₃.heap.range word₂.2 fun k _ _ => id) went₃.heap.grows
  have link' := link.same (went₄.heap.range link.2 fun k _ high own => by omega) went₄.heap.grows
  rw [toUInt64_of_toNat place'] at link'
  refine ⟨c₄, ?_, ?_, by rw [size₄, heap₃, size₂, size₁]; rfl, ?_, fun unlinked => ?_⟩
  · rw [bind_ok allocated, bind_ok linked, bind_ok read]
    exact stored
  · have all := (((went₁.mono fun k _ => False.elim).trans went₂ fun k _ own => own).trans went₃ fun k _ => False.elim).trans
      went₄ fun k low own => by omega
    rw [length, ← wide]
    change Went c c₄ width.bytes (Within _ 4)
    simpa only [Nat.zero_add, Nat.add_zero] using all
  · rw [wide] at word₄
    refine .cell c.heap.next link' next up (by rw [size₄, heap₃, size₂, size₁]) isScalar word₄ ?_
    rw [toNat_beWord (by omega), ← length]
    exact beNat_lt bytes
  · have nil_ : c₁.heap.link (base.toNat + field.offset.toNat) = 0 := by
      rw [Heap.Same.link (went₁.heap.range inside fun _ _ _ => id) inside went₁.heap.grows ready.small]
      by_contra some_
      exact unlinked _ (.cell some_)
    have told := (((Act.silent_alloc _ allocated).andThen (reports nil_) went₁.heap.grows).andThen
      (Act.silent_read _ _ _ read) went₃.heap fun _ _ _ _ => id).andThen (Act.silent_store _ _ _ _ stored) went₄.heap
      (by rintro a rfl k in_ own; omega)
    refine told.congr fun a => linkAt_cell.trans (and_iff_left ?_)
    rw [link'.link went₄.heap.small (by unfold limit at fits; omega)]
    exact next

lemma fills_blob {data : List UInt8} (kind : t.kind = .string ∨ t.kind = .binary) (shaped : t.Shaped)
    (short : data.length < 2 ^ 31) (place : base.toNat + off.toNat = addr) (near : off.toNat < 2 ^ 31) : Fills known
    (blob base off) (countBytes data.length ++ data) false addr t (.blob data) s (after s data.length) := by
  intro c ready size fits at_ inside
  subst size
  have slot := Holds.slotSize_header shaped (Kind.hasHeader_of_blob kind)
  rw [slot] at inside ⊢
  have up := c.heap.le_next
  have next := ready.started.next_ne
  obtain ⟨word, nonneg⟩ := widen_countBytes short
  have length := toNat_toUInt64 (show data.length < 2 ^ 32 by omega)
  obtain ⟨atCount, atData⟩ := At.append.mp at_
  rw [length_countBytes] at atData
  obtain ⟨c₁, read, heap₁, went₁⟩ := went_read ready .w4 true atCount (length_countBytes _)
  rw [word] at read
  have at₁ := went₁.ahead atData
  have enough := at₁.2
  rw [after_eq] at fits ⊢
  obtain ⟨c₂, start, allocated, place₂, place₂', size₂, _, went₂⟩ := went_alloc (c := c₁) data.length.toUInt64
    (by rw [length, heap₁]; exact fits)
  rw [length, heap₁] at size₂
  rw [heap₁] at place₂ place₂'
  rw [after_eq] at size₂
  have ready₂ := (ready.went went₁).went went₂
  obtain ⟨c₃', c₃, linked, counted, size₃, first, second, went₃, reports⟩ := went_header ready₂ start data.length.toUInt64 base near
    (by omega)
  rw [place] at first second went₃ reports
  have at₃ := went₃.ahead (went₂.ahead at₁)
  obtain ⟨c₄, copied, size₄, spans, went₄⟩ := went_copyIn (ready₂.went went₃) start at₃ length (by omega)
  rw [place₂] at spans went₄
  rw [toUInt64_of_toNat place₂'] at first
  have first₄ := first.same (went₄.heap.range first.2 fun k _ high own => by omega) went₄.heap.grows
  refine ⟨c₄, ?_, ?_, by rw [size₄, size₃, size₂], ?_, fun unlinked => ?_⟩
  · rw [blob, bind_ok read]
    simp only [nonneg, Bool.false_eq_true, if_false]
    rw [bind_ok (need_ok (by rw [length]; exact enough)), bind_ok allocated, bind_ok linked,
      bind_ok counted, copied]
  · have all := (((went₁.mono fun k _ => False.elim).trans went₂ fun k _ => False.elim).trans went₃ fun k _ own => own).trans
      went₄ fun k low own => by omega
    rw [length_append, length_countBytes]
    exact all
  · exact .blob c.heap.next kind ⟨first₄, second.same (went₄.heap.range second.2 fun k _ high own => by omega)
      went₄.heap.grows, next, up, by omega, by omega⟩ spans
  · have nil_ : c₂.heap.link addr = 0 := by
      rw [Heap.Same.link (went₂.heap.range (by rw [heap₁]; omega) fun _ _ _ => id) (by rw [heap₁]; omega) went₂.heap.grows
        (ready.went went₁).small, heap₁]
      by_contra some_
      exact unlinked _ ((linkAt_blob kind).mpr ⟨rfl, some_⟩)
    have told := (((Act.silent_read _ _ _ read).trans (Act.silent_alloc _ allocated)).andThen (reports nil_)
      (by omega)).andThen (Act.silent_copyIn _ _ _ copied) went₄.heap (by rintro a rfl k in_ own; omega)
    refine told.congr fun a => (linkAt_blob kind).trans (and_iff_left ?_)
    rw [first₄.link went₄.heap.small (by unfold limit at fits; omega)]
    exact next

/-! Containers. -/

lemma went_containerHead {c : Scene} (ready : c.Ready) (short : n < 2 ^ 31)
    (keyed : keyTags.length = if e.key.isSome then 1 else 0)
    (at_ : At c.wire c.pos.toNat (keyTags ++ ([tag] ++ countBytes n))) :
    ∃ c', containerHead e c = .ok ⟨beWord keyTags, tag.toUInt64, n.toUInt64⟩ c' ∧ c'.heap = c.heap ∧
      Went c c' (keyTags.length + 5) fun _ => False := by
  obtain ⟨word, nonneg⟩ := widen_countBytes short
  obtain ⟨atKey, atRest⟩ := At.append.mp at_
  obtain ⟨c₁, keyRead, heap₁, went₁⟩ : ∃ c₁, keyTag e c = .ok (beWord keyTags) c₁ ∧ c₁.heap = c.heap ∧
      Went c c₁ keyTags.length fun _ => False := by
    unfold keyTag
    by_cases some_ : e.key.isSome = true
    · rw [if_pos some_] at keyed ⊢
      have read := went_read ready .w1 false atKey keyed
      rw [keyed]
      exact read
    · rw [if_neg some_] at keyed ⊢
      obtain rfl := eq_nil_of_length_eq_zero keyed
      exact ⟨c, rfl, rfl, rfl, rfl, .refl ready.small⟩
  have ready₁ := ready.went went₁
  obtain ⟨atTag, atCount⟩ := At.append.mp (went₁.ahead atRest)
  obtain ⟨c₂, tagRead, heap₂, went₂⟩ := went_read ready₁ .w1 false atTag rfl
  rw [widen_byte] at tagRead
  obtain ⟨c₃, countRead, heap₃, went₃⟩ := went_read (ready₁.went went₂) .w4 true (went₂.ahead atCount) (length_countBytes _)
  rw [word] at countRead
  have enough : c.pos.toNat + e.headerSize.toUInt64.toNat ≤ c.wire.size := by
    have := at_.2
    simp only [length_append, length_countBytes, length_singleton, keyed] at this
    unfold Entry.headerSize
    split <;> simp_all
  refine ⟨c₃, ?_, heap₃.trans (heap₂.trans heap₁), (went₁.trans went₂ fun _ _ => id).trans went₃ fun _ _ => id⟩
  rw [containerHead, bind_ok (need_ok enough), bind_ok keyRead, bind_ok tagRead, bind_ok countRead]
  simp only [nonneg, Bool.false_eq_true, if_false]
  rfl

lemma checkTags_ok {c : Scene} (short : n < 2 ^ 31)
    (tags : n ≠ 0 → tag = e.elem.kind.tag ∧ ∀ key, e.key = some key → keyTags = [key.kind.tag]) :
    checkTags e ⟨beWord keyTags, tag.toUInt64, n.toUInt64⟩ c = .ok () c := by
  unfold checkTags
  by_cases zero : n = 0
  · rw [if_pos ((toUInt64_eq_zero (by omega)).mpr zero)]
    rfl
  · obtain ⟨same, keys⟩ := tags zero
    rw [if_neg (fun is => zero ((toUInt64_eq_zero (by omega)).mp is)), if_neg (by simp [same])]
    cases given : e.key with
    | none => rfl
    | some key =>
      have single : beWord keyTags = key.kind.tag.toUInt64 := by simp [keys key given, beWord]
      simp only [single, ne_eq, not_true_eq_false, if_false]
      rfl

lemma toNat_mul_immWord_of_lt {k : UInt32} (short : n < 2 ^ 31) (near : k.toNat < 2 ^ 31) :
    (n.toUInt64 * immWord k.toInt32).toNat = n * k.toNat := by
  have bound : n * k.toNat < 2 ^ 31 * 2 ^ 31 := Nat.mul_lt_mul'' short near
  rw [immWord_of_lt near, UInt64.toNat_mul, UInt32.toNat_toUInt64, toNat_toUInt64 (by omega), Nat.mod_eq_of_lt (by omega)]

lemma went_makeRoom {c : Scene} (ready : c.Ready) {n : Nat} (short : n < 2 ^ 31)
    (enough : c.pos.toNat + n * e.minSize.toNat ≤ c.wire.size) (stride : e.stride.toNat < 2 ^ 31)
    (fits : after c.heap.size (n * e.stride.toNat) ≤ limit) (near : off.toNat < 2 ^ 31)
    (inside : base.toNat + off.toNat + 8 ≤ c.heap.size) :
    ∃ c' data, makeRoom e false n.toUInt64 base off c = .ok data c' ∧ data.toNat = c.heap.next ∧
      c'.heap.size = c.heap.next + n * e.stride.toNat ∧ c'.heap.Word (base.toNat + off.toNat) 4 c.heap.next.toUInt64 ∧
      c'.heap.Word (base.toNat + off.toNat + 4) 4 n.toUInt64 ∧ c'.heap.Clear c.heap.next (n * e.stride.toNat) ∧
      Went c c' 0 (Within (base.toNat + off.toNat) 8) ∧ (c.heap.link (base.toNat + off.toNat) = 0 →
        Reports c c' (Within (base.toNat + off.toNat) 8) (· = base.toNat + off.toNat)) := by
  have up := c.heap.le_next
  rw [← toNat_mul_immWord_of_lt short stride] at fits
  obtain ⟨c₁, data, allocated, place, place', size₁, clear, went₁⟩ :=
    went_alloc (n.toUInt64 * immWord e.stride.toInt32) fits
  rw [toNat_mul_immWord_of_lt short stride, after_eq] at size₁
  rw [toNat_mul_immWord_of_lt short stride] at clear
  obtain ⟨c₂', c₂, linked, counted, size₂, first, second, went₂, reports⟩ :=
    went_header (ready.went went₁) data n.toUInt64 base near (by omega)
  rw [toUInt64_of_toNat place'] at first
  refine ⟨c₂, data, ?_, place, size₂.trans size₁, first, second, clear.same (went₂.heap.range (by omega)
    fun k low _ own => by omega), (went₁.mono fun k _ => False.elim).trans went₂ fun _ _ => id,
    fun nil_ => (Act.silent_alloc _ allocated).andThen (reports ?_) went₁.heap.grows⟩
  rotate_left
  · rwa [Heap.Same.link (went₁.heap.range (by omega) fun _ _ _ => id) (by omega) went₁.heap.grows ready.small]
  rw [makeRoom, bind_ok (need_ok (by rw [toNat_mul_immWord_of_lt short (minSize_lt e)]; exact enough)),
    bind_ok allocated]
  simp only [Bool.false_eq_true, if_false]
  rw [bind_ok linked, bind_ok counted]
  rfl

end Filling

end WireCodec
