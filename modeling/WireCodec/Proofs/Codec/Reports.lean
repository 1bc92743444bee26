import WireCodec.Proofs.Codec.Forward
import WireCodec.Proofs.Value.Links

/-! What a reader reports to the barrier. The stores it reports are those of certain pointer slots, each
once, from nil to what the slot holds in the end. -/
namespace WireCodec

open Lowering

/-- The events tell of the pointer slots `slots` of the arena: of each once, and that it went from nil to
what it holds. -/
structure Logs (heap : Heap) (slots : Nat → Prop) (events : List StoreEvent) : Prop where
  once : (events.map StoreEvent.slot).Nodup
  exact : ∀ a : Nat, (∃ e ∈ events, e.slot.toNat = a) ↔ slots a
  words : ∀ e ∈ events, e.old = 0 ∧ e.new.toNat = heap.link e.slot.toNat

structure Scene.Quiet (c c' : Scene) : Prop where
  barrier : c'.barrier = c.barrier
  stores : c'.stores = c.stores

/-- What is reported between two scenes, with the slots in bytes that are `owned` or new. -/
structure Reports (c c' : Scene) (owned slots : Nat → Prop) : Prop where
  barrier : c'.barrier = c.barrier
  inside : ∀ a, slots a → a + 4 ≤ c'.heap.size ∧ ∀ k, Within a 4 k → owned k ∨ c.heap.size ≤ k
  events : c.barrier = true → ∃ events, c'.stores = events ++ c.stores ∧ Logs c'.heap slots events

section Sequences

variable {c c' c'' : Scene} {owned owned' slots slots' : Nat → Prop}

lemma Scene.Quiet.trans (first : c.Quiet c') (second : c'.Quiet c'') : c.Quiet c'' :=
  ⟨second.barrier.trans first.barrier, second.stores.trans first.stores⟩

lemma Scene.Quiet.reports (quiet : c.Quiet c') (none_ : ∀ a, ¬ slots a) : Reports c c' owned slots :=
  ⟨quiet.barrier, fun a is => absurd is (none_ a), fun _ => ⟨[], quiet.stores, List.nodup_nil,
    fun a => iff_of_false (by simp) (none_ a), nofun⟩⟩

lemma Reports.congr (reports : Reports c c' owned slots) (same : ∀ a, slots' a ↔ slots a) :
    Reports c c' owned slots' := (funext fun a => propext (same a) : slots' = slots) ▸ reports

lemma Reports.mono (reports : Reports c c' owned slots) (part : ∀ k < c.heap.size, owned k → owned' k) :
    Reports c c' owned' slots :=
  ⟨reports.barrier, fun a is => ⟨(reports.inside a is).1, fun k in_ => by
    rcases (reports.inside a is).2 k in_ with own | new
    · exact (Nat.lt_or_ge k c.heap.size).imp (fun low => part k low own) id
    · exact .inr new⟩, reports.events⟩

lemma Reports.link (reports : Reports c c' owned slots) (step : c'.heap.Extends c''.heap owned')
    (apart : ∀ a, slots a → ∀ k, Within a 4 k → ¬ owned' k) {a : Nat} (is : slots a) :
    c''.heap.link a = c'.heap.link a :=
  Heap.Same.link (step.range (reports.inside a is).1 fun k low high => apart a is k ⟨low, high⟩) (reports.inside a is).1
    step.grows (le_trans step.grows step.small)

lemma Reports.trans (first : Reports c c' owned slots) (second : Reports c' c'' owned' slots')
    (grown : c.heap.size ≤ c'.heap.size) (step : c'.heap.Extends c''.heap owned')
    (part : ∀ k < c.heap.size, owned' k → owned k) (apart : ∀ a, slots a → ∀ k, Within a 4 k → ¬ owned' k) :
    Reports c c'' owned fun a => slots a ∨ slots' a := by
  refine ⟨second.barrier.trans first.barrier, fun a is => ?_, fun on => ?_⟩
  · rcases is with is | is
    · exact ⟨le_trans (first.inside a is).1 step.grows, (first.inside a is).2⟩
    · refine ⟨(second.inside a is).1, fun k in_ => ?_⟩
      rcases (second.inside a is).2 k in_ with own | new
      · exact (Nat.lt_or_ge k c.heap.size).imp (fun low => part k low own) id
      · exact .inr (le_trans grown new)
  · obtain ⟨early, same, logs⟩ := first.events on
    obtain ⟨late, same', logs'⟩ := second.events (first.barrier.trans on)
    refine ⟨late ++ early, by rw [same', same, List.append_assoc], ?_, fun a => ?_, fun e mem => ?_⟩
    · rw [List.map_append, List.nodup_append]
      refine ⟨logs'.once, logs.once, ?_⟩
      rintro _ memLate _ memEarly rfl
      obtain ⟨e', mem', is'⟩ := List.mem_map.mp memLate
      obtain ⟨e, mem, is⟩ := List.mem_map.mp memEarly
      -- a slot of the second part is owned by it or new, one of the first part is neither
      have before := (logs.exact _).mp ⟨e, mem, rfl⟩
      have after := (logs'.exact _).mp ⟨e', mem', rfl⟩
      rw [is', ← is] at after
      have here : Within e.slot.toNat 4 e.slot.toNat := ⟨le_rfl, by omega⟩
      rcases (second.inside _ after).2 _ here with own | new
      · exact apart _ before _ here own
      · have := (first.inside _ before).1
        omega
    · simp only [List.mem_append, or_and_right, exists_or]
      rw [logs.exact, logs'.exact, or_comm]
    · rcases List.mem_append.mp mem with mem | mem
      · exact logs'.words e mem
      · obtain ⟨old, new⟩ := logs.words e mem
        exact ⟨old, new.trans (first.link step apart ((logs.exact _).mp ⟨e, mem, rfl⟩)).symm⟩

lemma Scene.Quiet.andThen (quiet : c.Quiet c') (reports : Reports c' c'' owned slots)
    (grown : c.heap.size ≤ c'.heap.size) : Reports c c'' owned slots :=
  ⟨reports.barrier.trans quiet.barrier, fun a is => ⟨(reports.inside a is).1, fun k in_ =>
    ((reports.inside a is).2 k in_).imp id (le_trans grown)⟩, fun on => quiet.stores ▸
    reports.events (quiet.barrier.trans on)⟩

lemma Reports.andThen (reports : Reports c c' owned slots) (quiet : c'.Quiet c'')
    (step : c'.heap.Extends c''.heap owned') (apart : ∀ a, slots a → ∀ k, Within a 4 k → ¬ owned' k) :
    Reports c c'' owned slots := by
  refine ⟨quiet.barrier.trans reports.barrier, fun a is => ⟨le_trans (reports.inside a is).1 step.grows,
    (reports.inside a is).2⟩, fun on => ?_⟩
  obtain ⟨events, same, logs⟩ := reports.events on
  refine ⟨events, quiet.stores.trans same, logs.once, logs.exact, fun e mem => ?_⟩
  obtain ⟨old, new⟩ := logs.words e mem
  exact ⟨old, new.trans (reports.link step apart ((logs.exact _).mp ⟨e, mem, rfl⟩)).symm⟩

end Sequences

namespace Act

variable {α β : Type}

def Silent (x : Act α) : Prop := ∀ ⦃c a c'⦄, x c = .ok a c' → c.Quiet c'

lemma silent_pure (a : α) : Silent (pure a : Act α) := by
  intro c a c' ok
  cases ok
  exact ⟨rfl, rfl⟩

lemma silent_fail (e : ErrorCode) : Silent (fail e : Act α) := by
  intro c a c' ok
  cases ok

lemma Silent.bind {x : Act α} {f : α → Act β} (first : Silent x) (rest : ∀ a, Silent (f a)) : Silent (x >>= f) := by
  intro c b c'' ok
  obtain ⟨a, c', ok₁, ok₂⟩ := bind_eq_ok.mp ok
  exact (first ok₁).trans (rest a ok₂)

lemma silent_need (eof : ErrorCode) (n : UInt64) : Silent (need eof n) := by
  intro c a c' ok
  unfold need at ok
  split at ok <;> cases ok
  exact ⟨rfl, rfl⟩

lemma silent_read (eof : ErrorCode) (width : Width) (signed : Bool) : Silent (read eof width signed) := by
  intro c a c' ok
  unfold read at ok
  split at ok <;> cases ok
  exact ⟨rfl, rfl⟩

lemma silent_copyIn (eof : ErrorCode) (dst len : UInt64) : Silent (copyIn eof dst len) := by
  intro c a c' ok
  unfold copyIn at ok
  split at ok
  · cases ok
  · split at ok <;> cases ok
    exact ⟨rfl, rfl⟩

lemma silent_store (width : Width) (word base : UInt64) (off : UInt32) : Silent (store width word base off) := by
  intro c a c' ok
  unfold store onHeap at ok
  split at ok <;> cases ok
  exact ⟨rfl, rfl⟩

lemma silent_zero (base : UInt64) (off len : UInt32) : Silent (zero base off len) := by
  intro c a c' ok
  unfold zero onHeap at ok
  split at ok <;> cases ok
  exact ⟨rfl, rfl⟩

lemma silent_alloc (count : UInt64) : Silent (alloc count) := by
  intro c a c' ok
  unfold alloc at ok
  split at ok <;> cases ok
  exact ⟨rfl, rfl⟩

lemma silent_pass (left : Nat) (tag : UInt64) : Silent (pass left tag) := by
  intro c a c' ok
  unfold pass at ok
  split at ok <;> cases ok
  exact ⟨rfl, rfl⟩

lemma silent_ite {p : Prop} [Decidable p] {x y : Act α} (first : Silent x) (second : Silent y) :
    Silent (if p then x else y) := by
  split
  · exact first
  · exact second

end Act

namespace Reading

open Act

lemma silent_containerHead (e : Entry) : Silent (containerHead e) :=
  (silent_need _ _).bind fun _ => (silent_ite (silent_read _ _ _) (silent_pure _)).bind fun _ =>
    (silent_read _ _ _).bind fun _ => (silent_read _ _ _).bind fun _ => silent_ite (silent_fail _) (silent_pure _)

lemma silent_clear (base : UInt64) (t : TypeDesc) : Silent (clear base t) :=
  silent_ite (silent_pure _) (silent_zero _ _ _)

lemma silent_storeDefaults (base : UInt64) (fields : List FieldDesc) : Silent (storeDefaults base fields) := by
  induction fields with
  | nil => exact silent_pure _
  | cons f rest ih =>
    refine Silent.bind ?_ fun _ => ih
    unfold storeDefault
    split
    · exact silent_pure _
    · exact silent_ite (silent_pure _) (silent_store _ _ _ _)

end Reading

end WireCodec
