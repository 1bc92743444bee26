import WireCodec.Proofs.Codec.Forward
import WireCodec.Proofs.Codec.Instructions

/-! What reading takes. An action passes some bytes, and it does the same wherever these bytes stand. It stores
where it may and nowhere else, and each byte it passes pays for a bounded number of new arena bytes. -/
namespace WireCodec

open Lowering Heap

/-- Where stores may go: from `low` up to `high`, and anywhere from `old` on. -/
structure Window where
  low : Nat
  high : Nat
  old : Nat

namespace Window

variable {w : Window} {c c' c'' : Scene} {base data : UInt64} {off : UInt32} {start count : Nat} {t : TypeDesc}

/-- Stores to `count` bytes from `start` on are allowed. -/
def Owns (w : Window) (start count : Nat) : Prop := w.old ≤ start ∨ w.low ≤ start ∧ start + count ≤ w.high

/-- The old bytes are there, and no offset into the arena is too large. -/
def Guards (w : Window) (c : Scene) : Prop := w.old = 0 ∨ w.old ≤ c.heap.size ∧ c.heap.size ≤ limit

/-- What an action may make of a scene. -/
structure Keeps (w : Window) (c c' : Scene) : Prop where
  wire : c'.wire = c.wire
  grows : c.heap.size ≤ c'.heap.size
  guards : w.Guards c'
  same : ∀ k < w.old, ¬ (w.low ≤ k ∧ k < w.high) → c'.heap.bytes[k]? = c.heap.bytes[k]?

/-- Stores to the slot of a record at `base` are allowed. -/
def Grants (w : Window) (base : UInt64) (off : UInt32) (size : Nat) : Prop :=
  w.old = 0 ∨ off.toNat < 2 ^ 31 ∧ base.toNat + off.toNat ≤ 2 ^ 32 ∧ w.Owns (base.toNat + off.toNat) size

/-- There may be a record at `base`. -/
def Takes (w : Window) (base : UInt64) (record : TypeDesc) : Prop :=
  w.old = 0 ∨ base.toNat ≤ 2 ^ 32 ∧ (w.old ≤ base.toNat ∨ record.kind = .struct ∧ w.Owns base.toNat record.size.toNat)

lemma Owns.part (owns : w.Owns start count) {start' count' : Nat} (low : start ≤ start')
    (high : start' + count' ≤ start + count) : w.Owns start' count' := by
  unfold Owns at owns ⊢
  omega

lemma Keeps.refl (guards : w.Guards c) : w.Keeps c c := ⟨rfl, le_rfl, guards, fun _ _ _ => rfl⟩

lemma Keeps.trans (first : w.Keeps c c') (second : w.Keeps c' c'') : w.Keeps c c'' :=
  ⟨second.wire.trans first.wire, le_trans first.grows second.grows, second.guards,
    fun k low apart => (second.same k low apart).trans (first.same k low apart)⟩

lemma Grants.owns (grants : w.Grants base off count) : w.Owns (base.toNat + off.toNat) count := by
  rcases grants with none_ | ⟨_, _, owns⟩
  · exact .inl (none_ ▸ Nat.zero_le _)
  · exact owns

lemma grants_fresh (fresh : w.old ≤ base.toNat ∧ base.toNat + count ≤ limit) (inside : off.toNat ≤ count)
    (low : off.toNat < 2 ^ 31) (size : Nat) : w.Grants base off size := by
  refine .inr ⟨low, ?_, .inl (le_trans fresh.1 (Nat.le_add_right _ _))⟩
  have near := fresh.2
  unfold limit at near
  omega

lemma Takes.owns (takes : w.Takes base t) : w.Owns base.toNat t.size.toNat := by
  rcases takes with none_ | ⟨_, fresh | ⟨_, owns⟩⟩
  · exact .inl (none_ ▸ Nat.zero_le _)
  · exact .inl fresh
  · exact owns

lemma takes_fresh (fresh : w.old ≤ data.toNat ∧ data.toNat + count ≤ limit) (t : TypeDesc) : w.Takes data t :=
  .inr ⟨le_trans (Nat.le_add_right _ _) (le_trans fresh.2 (by decide)), .inl fresh.1⟩

lemma Grants.takes (grants : w.Grants base off t.size.toNat) (kind : t.kind = .struct) :
    w.Takes (base + immWord off.toInt32) t := by
  rcases grants with none_ | ⟨low, near, owns⟩
  · exact .inl none_
  · have place := @toNat_add_immWord base off low (by omega)
    exact .inr ⟨place ▸ near, .inr ⟨kind, place ▸ owns⟩⟩

end Window

lemma toNat_add_four {off : UInt32} (low : off.toNat < 2 ^ 31) : (off + 4).toNat = off.toNat + 4 := by
  rw [UInt32.toNat_add]
  change (off.toNat + 4) % 2 ^ 32 = _
  omega

/-- A header goes to a slot, or to new memory. -/
lemma Window.Grants.header {w : Window} {base data : UInt64} {off : UInt32} (grants : w.Grants base off 8)
    (fresh : w.old ≤ data.toNat) (loose : Bool) : w.Owns ((if loose then data else base).toNat + off.toNat) 4 ∧
      w.Owns ((if loose then data else base).toNat + (off + 4).toNat) 4 := by
  have above : ∀ n, w.Owns (data.toNat + n) 4 := fun n => .inl (le_trans fresh (Nat.le_add_right _ _))
  cases loose with
  | true => exact ⟨above _, above _⟩
  | false =>
    simp only [Bool.false_eq_true, if_false]
    refine ⟨grants.owns.part le_rfl (by omega), ?_⟩
    rcases grants with none_ | ⟨low, _, owns⟩
    · exact .inl (none_ ▸ Nat.zero_le _)
    · have next := toNat_add_four low
      exact owns.part (by omega) (by omega)

/-- From `pos` on the wire has the bytes, as far as it goes. -/
def Starts (wire : Bytes) (pos : Nat) (bytes : List UInt8) : Prop :=
  ∀ (k : Nat) (b : UInt8), bytes[k]? = some b → pos + k < wire.size → wire[pos + k]? = some b

namespace Starts

variable {wire : Bytes} {pos : Nat} {bytes more : List UInt8}

lemma at_ (starts : Starts wire pos bytes) (inside : pos + bytes.length ≤ wire.size) : At wire pos bytes := by
  refine ⟨fun k b is => starts k b is ?_, inside⟩
  have := (List.getElem?_eq_some_iff.mp is).1
  omega

lemma of_append (starts : Starts wire pos (bytes ++ more)) :
    Starts wire pos bytes ∧ Starts wire (pos + bytes.length) more := by
  refine ⟨fun k b is low => starts k b ?_ low, fun k b is low => ?_⟩
  · rw [List.getElem?_append_left (List.getElem?_eq_some_iff.mp is).1, is]
  · rw [Nat.add_assoc] at low ⊢
    exact starts _ b (by rw [List.getElem?_append_right (Nat.le_add_right _ _), Nat.add_sub_cancel_left, is]) low

end Starts

/-- The same, with the cursor at another place of another wire. -/
def Scene.on (c : Scene) (wire : Bytes) (pos : UInt64) : Scene := { c with wire := wire, pos := pos }

lemma toNat_advance {wire : Bytes} {pos : UInt64} {n : Nat} (small : wire.size < 2 ^ 64) (inside : pos.toNat + n ≤ wire.size) :
    (pos + n.toUInt64).toNat = pos.toNat + n := by
  rw [UInt64.toNat_add, Nat.toUInt64_eq, UInt64.toNat_ofNat']
  omega

namespace Act

variable {α β : Type} {x : Act α} {c c' c'' : Scene} {a : α} {b : β} {w : Window} {rate price debt debt' : Nat}
  {P : α → Nat → Prop} {R : β → Nat → Prop} {bytes more : List UInt8} {wire : Bytes} {pos : UInt64}

/-- What gave `a` and led to `c'` does the same where the bytes stand on a wire, and meets the end if it comes within
them. -/
structure Repeats (x : Act α) (c : Scene) (a : α) (c' : Scene) (bytes : List UInt8) (wire : Bytes) (pos : UInt64) :
    Prop where
  whole : At wire pos.toNat bytes → x (c.on wire pos) = .ok a (c'.on wire (pos + bytes.length.toUInt64))
  cut : Starts wire pos.toNat bytes → wire.size < pos.toNat + bytes.length →
    ∃ offset scene, x (c.on wire pos) = .error (.codec .unexpectedEof offset) scene

lemma Repeats.bind {f : α → Act β} (small : wire.size < 2 ^ 64) (first : Repeats x c a c' bytes wire pos)
    (second : pos.toNat + bytes.length ≤ wire.size →
      Repeats (f a) c' b c'' more wire (pos + bytes.length.toUInt64)) :
    Repeats (x >>= f) c b c'' (bytes ++ more) wire pos := by
  refine ⟨fun at_ => ?_, fun starts short => ?_⟩
  · obtain ⟨one, two⟩ := At.append.mp at_
    rw [← toNat_advance small one.2] at two
    rw [bind_ok (first.whole one), (second one.2).whole two]
    simp only [List.length_append, Nat.toUInt64_eq, UInt64.ofNat_add, UInt64.add_assoc]
  · obtain ⟨one, two⟩ := starts.of_append
    rw [List.length_append] at short
    by_cases reached : pos.toNat + bytes.length ≤ wire.size
    · have place := toNat_advance small reached
      rw [bind_ok (first.whole (one.at_ reached))]
      rw [← place] at two
      exact (second reached).cut two (by omega)
    · obtain ⟨offset, scene, failed⟩ := first.cut one (Nat.not_le.mp reached)
      exact ⟨offset, scene, by rw [bind_apply, failed]⟩

/-- The bytes were passed. Each of them pays for `rate` bytes of memory, and `debt` more are left to pay. -/
structure Took (w : Window) (rate debt : Nat) (c c' : Scene) (bytes : List UInt8) : Prop extends w.Keeps c c' where
  at_ : At c.wire c.pos.toNat bytes
  pos : c'.pos = c.pos + bytes.length.toUInt64
  size : c'.heap.size ≤ c.heap.size + rate * bytes.length + debt

/-- Where an action fails, the bytes that are there pay for its memory, and one more. -/
structure Lost (w : Window) (rate debt : Nat) (c c' : Scene) : Prop extends w.Keeps c c' where
  size : c'.heap.size ≤ c.heap.size + rate * (c.wire.size - c.pos.toNat + 1) + debt

/-- The action stores inside the window only, passes a number of bytes that goes with its result, and does the same
elsewhere. -/
def Consumes (w : Window) (rate debt : Nat) (x : Act α) (post : α → Nat → Prop) : Prop :=
  ∀ c : Scene, c.wire.size < 2 ^ 64 → c.pos.toNat ≤ c.wire.size → w.Guards c → Ends x c
    (fun a c' => ∃ bytes, post a bytes.length ∧ Took w rate debt c c' bytes ∧
      ∀ wire pos, wire.size < 2 ^ 64 → pos.toNat ≤ wire.size → Repeats x c a c' bytes wire pos)
    fun _ c' => Lost w rate debt c c'

section

variable (small : c.wire.size < 2 ^ 64) (took : Took w rate debt c c' bytes)
include small took

lemma Took.toNat : c'.pos.toNat = c.pos.toNat + bytes.length := by
  rw [took.pos, toNat_advance small took.at_.2]

lemma Took.inside : c'.pos.toNat ≤ c'.wire.size := by
  rw [took.toNat small, took.wire]
  exact took.at_.2

lemma Took.trans (took' : Took w rate debt' c' c'' more) : Took w rate (debt + debt') c c'' (bytes ++ more) := by
  refine ⟨took.toKeeps.trans took'.toKeeps, At.append.mpr ⟨took.at_, ?_⟩, ?_, ?_⟩
  · have at_ := took'.at_
    rwa [took.toNat small, took.wire] at at_
  · rw [took'.pos, took.pos, List.length_append, Nat.toUInt64_eq, Nat.toUInt64_eq, Nat.toUInt64_eq, UInt64.ofNat_add,
      UInt64.add_assoc]
  · have := took.size
    have := took'.size
    rw [List.length_append, Nat.mul_add]
    omega

lemma Took.lost (lost : Lost w rate debt' c' c'') : Lost w rate (debt + debt') c c'' := by
  refine ⟨took.toKeeps.trans lost.toKeeps, ?_⟩
  have := took.size
  have := lost.size
  have split : c.wire.size - c.pos.toNat + 1 = bytes.length + (c'.wire.size - c'.pos.toNat + 1) := by
    have := took.at_.2
    rw [took.toNat small, took.wire]
    omega
  rw [split, Nat.mul_add]
  omega

end

lemma lost_at (guards : w.Guards c) : Lost w rate debt c c := ⟨.refl guards, by omega⟩

/-- Nothing is passed. -/
def Still (post : α → Prop) (a : α) (n : Nat) : Prop := n = 0 ∧ post a

lemma Consumes.mono {P' : α → Nat → Prop} (consumes : Consumes w rate debt x P)
    (imp : ∀ a n, P a n → P' a n) : Consumes w rate debt x P' :=
  fun c small inside guards => (consumes c small inside guards).imp
    (fun a _ ⟨bytes, is, rest⟩ => ⟨bytes, imp a _ is, rest⟩) fun _ _ => id

lemma Consumes.bind_of {f : α → Act β} (first : Consumes w rate debt x P)
    (rest : ∀ a n, P a n → Consumes w rate debt' (f a) fun b m => R b (n + m)) :
    Consumes w rate (debt + debt') (x >>= f) R := by
  intro c small inside guards
  have one := first c small inside guards
  refine Ends.bind (one.imp (fun _ _ => id) fun _ _ lost => ⟨lost.toKeeps, by have := lost.size; omega⟩)
    fun a c' ⟨bytes, is, took, repeats⟩ => ?_
  refine (rest a _ is c' (took.wire ▸ small) (took.inside small) took.guards).imp
    (fun b c'' ⟨more, is', took', repeats'⟩ => ?_) fun _ _ => took.lost small
  exact ⟨_, List.length_append ▸ is', took.trans small took', fun wire pos small' inside' => (repeats wire pos small' inside').bind small'
    fun reached => repeats' wire _ small' (by rwa [toNat_advance small' reached])⟩

lemma Consumes.bind {f : α → Act β} (first : Consumes w rate 0 x P)
    (rest : ∀ a n, P a n → Consumes w rate debt (f a) fun b m => R b (n + m)) :
    Consumes w rate debt (x >>= f) R :=
  Nat.zero_add debt ▸ first.bind_of rest

lemma Consumes.after {post : α → Prop} {f : α → Act β} (first : Consumes w rate 0 x (Still post))
    (rest : ∀ a, post a → Consumes w rate debt (f a) R) : Consumes w rate debt (x >>= f) R := by
  refine first.bind fun a n ⟨none_, holds⟩ => ?_
  simp only [none_, Nat.zero_add]
  exact rest a holds

/-- The debt is paid for at a higher rate by the bytes that are passed, or, if the action fails, by those that are
there and one more. -/
lemma Consumes.pay (consumes : Consumes w rate debt x P) (some_ : ∀ a n, P a n → 0 < n)
    (paid : debt ≤ price) : Consumes w (rate + price) 0 x P := by
  intro c small inside guards
  have enough : ∀ n, 0 < n → debt ≤ price * n := fun n pos => le_trans paid (Nat.le_mul_of_pos_right price pos)
  refine (consumes c small inside guards).imp (fun a c' ⟨bytes, is, took, repeats⟩ => ?_) fun _ c' lost => ?_
  · refine ⟨bytes, is, ⟨took.toKeeps, took.at_, took.pos, ?_⟩, repeats⟩
    have := took.size
    have := enough bytes.length (some_ a _ is)
    rw [Nat.add_mul]
    omega
  · refine ⟨lost.toKeeps, ?_⟩
    have := lost.size
    have := enough (c.wire.size - c.pos.toNat + 1) (Nat.succ_pos _)
    rw [Nat.add_mul]
    omega

lemma need_apply (eof : ErrorCode) (n : UInt64) (c : Scene) : Act.need eof n c =
    if c.pos.toNat + n.toNat ≤ c.wire.size then .ok () c else .error (.codec eof c.pos) c := by
  simp only [Act.need, Scene.fits, decide_eq_true_eq]

/-- Bytes that are asked for before they are read pay in advance. -/
lemma Consumes.need {n : UInt64} (consumes : Consumes w rate debt x P)
    (long : ∀ a m, P a m → n.toNat ≤ m) (paid : debt ≤ price * n.toNat + debt') :
    Consumes w (rate + price) debt' (Act.need .unexpectedEof n >>= fun _ => x) P := by
  intro c small inside guards
  have asked : Ends (Act.need .unexpectedEof n) c (fun _ c' => c.pos.toNat + n.toNat ≤ c.wire.size ∧ c' = c)
      fun _ c' => Lost w (rate + price) debt' c c' := ends_need (fun fits => ⟨fits, rfl⟩) (lost_at guards)
  refine asked.bind fun _ c' ⟨fits, same⟩ => ?_
  subst same
  refine (consumes c' small inside guards).imp (fun a c'' ⟨bytes, is, took, repeats⟩ => ?_) fun _ c'' lost => ?_
  · have enough := long a _ is
    refine ⟨bytes, is, ⟨took.toKeeps, took.at_, took.pos, ?_⟩, fun wire pos small' inside' => ?_⟩
    · have := took.size
      have := Nat.mul_le_mul_left price enough
      rw [Nat.add_mul]
      omega
    · have again := repeats wire pos small' inside'
      have ran : (Act.need .unexpectedEof n >>= fun _ => x) (c'.on wire pos) = if pos.toNat + n.toNat ≤ wire.size
          then x (c'.on wire pos) else .error (.codec .unexpectedEof pos) (c'.on wire pos) := by
        rw [bind_apply, need_apply]
        by_cases fits : pos.toNat + n.toNat ≤ wire.size
        · rw [if_pos fits, if_pos (show (c'.on wire pos).pos.toNat + n.toNat ≤ (c'.on wire pos).wire.size from fits)]
        · rw [if_neg fits, if_neg (show ¬ (c'.on wire pos).pos.toNat + n.toNat ≤ (c'.on wire pos).wire.size from fits)]
          rfl
      constructor
      · intro at_
        rw [ran, if_pos (le_trans (Nat.add_le_add_left enough _) at_.2)]
        exact again.whole at_
      · intro starts short
        rw [ran]
        split
        · exact again.cut starts short
        · exact ⟨_, _, rfl⟩
  · refine ⟨lost.toKeeps, ?_⟩
    have := lost.size
    have := Nat.mul_le_mul_left price (show n.toNat ≤ c'.wire.size - c'.pos.toNat + 1 by omega)
    rw [Nat.add_mul]
    omega

lemma Consumes.ask {n : UInt64} (consumes : Consumes w rate debt x P)
    (long : ∀ a m, P a m → n.toNat ≤ m) :
    Consumes w rate debt (Act.need .unexpectedEof n >>= fun _ => x) P :=
  show Consumes w (rate + 0) debt _ P from consumes.need long (by omega)

lemma consumes_fail (e : ErrorCode) : Consumes w rate debt (fail e : Act α) P := fun _ _ _ guards => lost_at guards

lemma consumes_ite {p : Prop} [Decidable p] {y : Act α} (first : p → Consumes w rate debt x P)
    (second : ¬ p → Consumes w rate debt y P) : Consumes w rate debt (if p then x else y) P :=
  iteInduction (motive := (Consumes w rate debt · P)) first second

lemma consumes_still {post : α → Prop} (still : ∀ c, w.Guards c → Ends x c (fun a c' => w.Keeps c c' ∧ c'.pos = c.pos ∧
      post a ∧ (∀ wire pos, x (c.on wire pos) = .ok a (c'.on wire pos)) ∧ c'.heap.size ≤ c.heap.size + debt)
      fun _ c' => c' = c) :
    Consumes w rate debt x (Still post) := by
  refine fun c small inside guards => (still c guards).imp (fun a c' ⟨keeps, samePos, holds, again, le⟩ => ?_)
    fun _ c' same => by rw [same]; exact lost_at guards
  have unmoved : ∀ pos : UInt64, pos = pos + ([] : List UInt8).length.toUInt64 := fun pos => (UInt64.add_zero pos).symm
  refine ⟨[], ⟨rfl, holds⟩, ⟨keeps, At.nil inside, samePos.trans (unmoved _), le⟩, fun wire pos _ inside' => ⟨fun _ => ?_,
    fun _ short => absurd short (Nat.not_lt.mpr inside')⟩⟩
  rw [← unmoved, again wire pos]

lemma consumes_pure {post : α → Prop} (holds : post a) : Consumes w rate debt (pure a : Act α) (Still post) :=
  consumes_still fun _ guards => ⟨.refl guards, rfl, holds, fun _ _ => rfl, Nat.le_add_right _ _⟩

lemma consumes_end (holds : P a 0) : Consumes w rate debt (pure a : Act α) P := by
  have still : Consumes w rate debt (pure a : Act α) (Still fun b => b = a) := consumes_pure rfl
  exact still.mono fun _ _ ⟨none_, same⟩ => by rwa [none_, same]

/-! Stores. -/

lemma keeps_patchHeap {start : Nat} {data : List UInt8} (guards : w.Guards c)
    (inside : start + data.length ≤ c.heap.size) (owns : w.Owns start data.length) :
    w.Keeps c (c.patchHeap start.toUInt32 data) := by
  have size : (c.patchHeap start.toUInt32 data).heap.size = c.heap.size := size_patch _ _ _
  refine ⟨rfl, le_of_eq size.symm, by rwa [Window.Guards, size], fun k low apart => ?_⟩
  change (patch c.heap.bytes _ _)[k]? = _
  rcases guards with none_ | ⟨_, small⟩
  · omega
  · have place : start.toUInt32.toNat = start := toNat_toUInt32 (by unfold limit at small; omega)
    rw [getElem?_patch, if_neg]
    unfold Window.Owns at owns
    omega

lemma consumes_onHeap {base : UInt64} {off : UInt32} {len : Nat} {access : UInt32 → Scene → Unit × Scene} {post : Prop}
    (keeps : ∀ c : Scene, w.Guards c → base.toNat + off.toNat + len ≤ c.heap.size →
      w.Keeps c (access (base.toNat + off.toNat).toUInt32 c).2 ∧ post)
    (still : ∀ k c, (access k c).2.pos = c.pos ∧ (access k c).2.heap.size = c.heap.size)
    (apart : ∀ k c wire pos, (access k (c.on wire pos)).2 = (access k c).2.on wire pos) :
    Consumes w rate 0 (onHeap base off len access) (Still fun _ => post) := by
  refine consumes_still fun c guards => ends_onHeap (fun inside => ?_) rfl
  obtain ⟨kept, holds⟩ := keeps c guards inside
  refine ⟨kept, (still _ c).1, holds, fun wire pos => ?_, le_of_eq (still _ c).2⟩
  have place : (c.on wire pos).at? base off len = some _ := if_pos inside
  simp only [onHeap, place, apart]

lemma consumes_store {width : Width} {base : UInt64} {off : UInt32} (owns : w.Owns (base.toNat + off.toNat) width.bytes)
    (word : UInt64) : Consumes w rate 0 (store width word base off) (Still fun _ => True) :=
  consumes_onHeap (fun c guards inside => ⟨keeps_patchHeap guards (by rwa [length_leBytes]) (by rwa [length_leBytes]),
    trivial⟩) (fun _ _ => ⟨rfl, size_patch _ _ _⟩) fun _ _ _ _ => rfl

lemma consumes_storePtr {base : UInt64} {off : UInt32} (owns : w.Owns (base.toNat + off.toNat) 4) (ptr : UInt64) :
    Consumes w rate 0 (storePtr ptr base off) (Still fun _ => True) := by
  refine consumes_onHeap (fun c guards inside => ⟨?_, trivial⟩) (fun k c => ?_) fun k c wire pos => ?_
  · -- Reporting the store changes neither the wire nor the arena.
    have keeps := @keeps_patchHeap c w (base.toNat + off.toNat) (leBytes 4 ptr.toUInt32.toUInt64) guards
      (by rwa [length_leBytes]) (by rwa [length_leBytes])
    unfold Scene.storePointer
    split <;> exact ⟨keeps.wire, keeps.grows, keeps.guards, keeps.same⟩
  · unfold Scene.storePointer
    split <;> exact ⟨rfl, size_patch _ _ _⟩
  · unfold Scene.storePointer
    cases barrier : c.barrier <;> simp [Scene.on, Scene.patchHeap, barrier]

lemma consumes_zero {base : UInt64} {len : UInt32} (owns : w.Owns base.toNat len.toNat) :
    Consumes w rate 0 (zero base 0 len) (Still fun _ => w.old = 0 ∨ base.toNat + len.toNat ≤ limit) :=
  consumes_onHeap (fun c guards inside => ⟨keeps_patchHeap guards (by rwa [List.length_replicate])
    (by rwa [List.length_replicate]), guards.imp_right fun small => le_trans inside small.2⟩)
    (fun _ _ => ⟨rfl, size_patch _ _ _⟩) fun _ _ _ _ => rfl

lemma consumes_alloc {count : UInt64} (le : count.toNat ≤ limit → count.toNat + 7 ≤ debt) : Consumes w rate debt (alloc count)
    (Still fun data => w.old ≤ data.toNat ∧ data.toNat + count.toNat ≤ limit) := by
  refine consumes_still fun c guards => ends_alloc (fun off heap got => ?_) rfl
  have allocated := alloc?_eq_some got
  have up := c.heap.le_next
  have size := allocated.size
  have small := allocated.small
  have next : c.heap.next ≤ c.heap.size + 7 := Nat.div_mul_le_self _ _
  have above : w.old ≤ c.heap.size := guards.elim (fun none_ => none_ ▸ Nat.zero_le _) And.left
  refine ⟨⟨rfl, ?_, .inr ⟨?_, small⟩, fun k low _ => ?_⟩, rfl, ⟨?_, ?_⟩, fun wire pos => ?_, ?_⟩
  · change c.heap.size ≤ heap.size
    omega
  · change w.old ≤ heap.size
    omega
  · exact allocated.same k (Nat.zero_le _) (lt_of_lt_of_le low above)
  · rw [UInt32.toNat_toUInt64, allocated.place]
    omega
  · rw [UInt32.toNat_toUInt64, allocated.place, ← size]
    exact small
  · have got' : (c.on wire pos).heap.alloc? count.toNat = some (off, heap) := got
    rw [alloc, got']
    rfl
  · change heap.size ≤ _
    omega

lemma consumes_alloc_bind {count : UInt64} {f : UInt64 → Act β} (le : count.toNat ≤ limit → count.toNat + 7 ≤ debt)
    (rest : ∀ data : UInt64, w.old ≤ data.toNat ∧ data.toNat + count.toNat ≤ limit → Consumes w rate 0 (f data) R) :
    Consumes w rate debt (alloc count >>= f) R := by
  refine Nat.add_zero debt ▸ Consumes.bind_of (consumes_alloc le) fun data n still => ?_
  simp only [still.1, Nat.zero_add]
  exact rest data still.2

lemma consumes_distinct (known : Registry) (elem : TypeDesc) (data count : UInt64) :
    Consumes w rate 0 (distinct known elem data count) (Still fun _ => True) := by
  refine consumes_still fun c guards => ends_of (fun a c' ok => ?_) fun t c' failed => ?_
  · unfold distinct at ok
    split at ok
    · rename_i all
      cases ok
      refine ⟨.refl guards, rfl, trivial, fun wire pos => ?_, le_rfl⟩
      have all' : checkDistinct (loadValue known (c.on wire pos).heap · elem) elem.size count.toUInt32.toNat
          data.toUInt32.toNat [] = .distinct := all
      rw [distinct, all']
    all_goals cases ok
  · have still : Ends (distinct known elem data count) c (fun _ _ => True) fun _ c' => c' = c :=
      ends_distinct trivial rfl (fun _ => rfl) fun _ => rfl
    exact still.error failed

/-! Bytes. -/

lemma took_cut {len : UInt64} {data : List UInt8} (cut : slice? c.wire c.pos.toNat len.toNat = some data)
    (is : P a data.length) (keeps : w.Keeps c c') (moved : c'.pos = c.pos + len) (size : c'.heap.size = c.heap.size)
    (again : ∀ wire pos, slice? wire pos.toNat len.toNat = some data → x (c.on wire pos) = .ok a (c'.on wire (pos + len)))
    (short : ∀ wire pos, slice? wire pos.toNat len.toNat = none →
      ∃ offset scene, x (c.on wire pos) = .error (.codec .unexpectedEof offset) scene) :
    ∃ bytes, P a bytes.length ∧ Took w rate 0 c c' bytes ∧
      ∀ wire pos, wire.size < 2 ^ 64 → pos.toNat ≤ wire.size → Repeats x c a c' bytes wire pos := by
  obtain ⟨at_, length⟩ := At.of_slice cut
  have same : data.length.toUInt64 = len := by rw [length, Nat.toUInt64_eq, UInt64.ofNat_toNat]
  refine ⟨data, is, ⟨keeps, at_, same ▸ moved, by omega⟩, fun wire pos _ _ => ⟨fun at' => ?_, fun _ less => ?_⟩⟩
  · have found := at'.slice
    rw [length] at found
    rw [same]
    exact again wire pos found
  · exact short wire pos (if_neg (by omega))

/-- The word is what some bytes of the width stand for. -/
def IsWord (width : Width) (signed : Bool) (word : UInt64) (n : Nat) : Prop :=
  n = width.bytes ∧ ∃ data : List UInt8, data.length = n ∧ word = Machine.widen width signed (beWord data)

lemma consumes_read (width : Width) (signed : Bool) :
    Consumes w rate 0 (read .unexpectedEof width signed) (IsWord width signed) := by
  intro c _ _ guards
  have bytes : width.bytes.toUInt64.toNat = width.bytes := by cases width <;> rfl
  refine ends_read (fun data cut => ?_) (lost_at guards)
  have length := (At.of_slice cut).2
  rw [← bytes] at cut
  refine took_cut cut ⟨length, data, rfl, rfl⟩ ⟨rfl, le_rfl, guards, fun _ _ _ => rfl⟩ rfl rfl (fun wire pos found => ?_)
    fun wire pos none_ => ?_
  · rw [bytes] at found
    simp only [Act.read, Scene.on, found]
    rfl
  · rw [bytes] at none_
    simp only [Act.read, Scene.on, none_]
    exact ⟨_, _, rfl⟩

lemma consumes_copyIn {dst : UInt64} (owns : w.old ≤ dst.toNat) (len : UInt64) :
    Consumes w rate 0 (copyIn .unexpectedEof dst len) fun _ n => n = len.toNat := by
  refine fun c _ _ guards => ends_copyIn (fun data cut room => ?_) (lost_at guards) (lost_at guards)
  have length := (At.of_slice cut).2
  have keeps := @keeps_patchHeap c w dst.toNat data guards (by rwa [length]) (.inl owns)
  have place : ∀ wire pos, (c.on wire pos).at? dst 0 len.toNat = some dst.toNat.toUInt32 := fun _ _ => if_pos room
  refine took_cut (P := fun _ n => n = len.toNat) cut length
    ⟨keeps.wire, keeps.grows, keeps.guards, keeps.same⟩ rfl (size_patch _ _ _) (fun wire pos found => ?_)
    fun wire pos none_ => ?_
  · rw [copyIn, place]
    simp only [Scene.on, found]
    rfl
  · simp only [copyIn, Scene.on, none_]
    exact ⟨_, _, rfl⟩

end Act

end WireCodec
