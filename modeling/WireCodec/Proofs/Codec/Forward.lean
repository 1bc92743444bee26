import WireCodec.Proofs.Codec.Visits
import WireCodec.Proofs.Wire.Grammar

/-! Reading goes forward: it leaves the wire as it is, and the cursor never goes back or past the end. -/
namespace WireCodec

open Lowering

structure Scene.Ahead (c c' : Scene) : Prop where
  wire : c'.wire = c.wire
  pos : c.pos.toNat ≤ c'.pos.toNat
  inside : c'.pos.toNat ≤ c.wire.size

lemma Scene.Ahead.trans {c c' c'' : Scene} (first : c.Ahead c') (second : c'.Ahead c'') : c.Ahead c'' :=
  ⟨second.wire.trans first.wire, le_trans first.pos second.pos, first.wire ▸ second.inside⟩

namespace Act

variable {α β : Type}

lemma bind_eq_ok {x : Act α} {f : α → Act β} {c c'' : Scene} {b : β} :
    (x >>= f) c = .ok b c'' ↔ ∃ a c', x c = .ok a c' ∧ f a c' = .ok b c'' := by
  rw [bind_apply]
  cases result : x c with
  | ok a c' =>
    refine ⟨fun eq => ⟨a, c', rfl, eq⟩, fun ⟨_, _, same, eq⟩ => ?_⟩
    cases same
    exact eq
  | error t c' => exact ⟨nofun, fun ⟨_, _, same, _⟩ => by cases same⟩

def Forward (x : Act α) : Prop :=
  ∀ c : Scene, c.wire.size < 2 ^ 64 → c.pos.toNat ≤ c.wire.size → Ends x c (fun _ c' => c.Ahead c') fun _ _ => True

lemma forward_pure (a : α) : Forward (pure a : Act α) := fun _ _ inside => ⟨rfl, le_rfl, inside⟩

lemma forward_fail (e : ErrorCode) : Forward (fail e : Act α) := fun _ _ _ => trivial

lemma Forward.bind {x : Act α} {f : α → Act β} (first : Forward x) (rest : ∀ a, Forward (f a)) : Forward (x >>= f) := by
  refine fun c small inside => (first c small inside).bind fun a c' ahead => ?_
  exact (rest a c' (ahead.wire ▸ small) (ahead.wire ▸ ahead.inside)).imp (fun _ _ => ahead.trans) fun _ _ => id

lemma forward_need (eof : ErrorCode) (n : UInt64) : Forward (need eof n) :=
  fun _ _ inside => ends_need (fun _ => ⟨rfl, le_rfl, inside⟩) trivial

lemma size_of_slice? {wire : Bytes} {pos len : Nat} {data : List UInt8}
    (cut : slice? wire pos len = some data) : pos + len ≤ wire.size := by
  unfold slice? at cut
  split at cut
  · assumption
  · cases cut

lemma ahead_move {c : Scene} {n : UInt64} (small : c.wire.size < 2 ^ 64)
    (fits : c.pos.toNat + n.toNat ≤ c.wire.size) : c.Ahead (c.move n) := by
  have sum : (c.pos + n).toNat = c.pos.toNat + n.toNat := by
    rw [UInt64.toNat_add, Nat.mod_eq_of_lt (by omega)]
  exact ⟨rfl, by simp [Scene.move, sum], by simpa [Scene.move, sum] using fits⟩

lemma forward_read (eof : ErrorCode) (width : Width) (signed : Bool) : Forward (read eof width signed) := by
  refine fun c small _ => ends_read (fun data cut => ahead_move small ?_) trivial
  have := size_of_slice? cut
  cases width <;> simpa [Width.bytes] using this

lemma forward_copyIn (eof : ErrorCode) (dst len : UInt64) : Forward (copyIn eof dst len) := by
  refine fun c small _ => ends_copyIn (fun data cut _ => ?_) trivial trivial
  have ahead := ahead_move small (size_of_slice? cut)
  exact ⟨rfl, ahead.pos, ahead.inside⟩

lemma forward_onHeap (base : UInt64) (off : UInt32) (len : Nat) {access : UInt32 → Scene → α × Scene}
    (still : ∀ k c, (access k c).2.wire = c.wire ∧ (access k c).2.pos = c.pos) :
    Forward (onHeap base off len access) := by
  refine fun c _ inside => ends_onHeap (fun _ => ?_) trivial
  obtain ⟨wire, pos⟩ := still (base.toNat + off.toNat).toUInt32 c
  exact ⟨wire, le_of_eq (congrArg _ pos.symm), by rwa [pos]⟩

lemma forward_store (width : Width) (word base : UInt64) (off : UInt32) :
    Forward (store width word base off) := forward_onHeap _ _ _ fun _ _ => ⟨rfl, rfl⟩

lemma forward_storePtr (ptr base : UInt64) (off : UInt32) : Forward (storePtr ptr base off) := by
  refine forward_onHeap _ _ _ fun k c => ?_
  simp only [Scene.storePointer, Scene.patchHeap]
  split <;> exact ⟨rfl, rfl⟩

lemma forward_zero (base : UInt64) (off len : UInt32) : Forward (zero base off len) :=
  forward_onHeap _ _ _ fun _ _ => ⟨rfl, rfl⟩

lemma forward_alloc (count : UInt64) : Forward (alloc count) :=
  fun _ _ inside => ends_alloc (fun _ _ _ => ⟨rfl, le_rfl, inside⟩) trivial

lemma forward_pass (left : Nat) (tag : UInt64) : Forward (pass left tag) := by
  refine fun c small inside => ends_pass (fun after skipped => ?_) fun _ => trivial
  obtain ⟨ge, fits⟩ := skip_ahead skipped
  have same : after.toUInt64.toNat = after := by
    simp only [Nat.toUInt64_eq, UInt64.toNat_ofNat']
    omega
  exact ⟨rfl, by simpa [same] using ge, by simpa [same] using fits⟩

lemma forward_distinct (known : Registry) (elem : TypeDesc) (data count : UInt64) :
    Forward (distinct known elem data count) :=
  fun _ _ inside => ends_distinct ⟨rfl, le_rfl, inside⟩ trivial (fun _ => trivial) fun _ => trivial

lemma forward_closed (known : Registry) : ClosedReads known Forward where
  pure := forward_pure
  fail := forward_fail
  bind := Forward.bind
  need := forward_need
  read := forward_read
  copyIn := forward_copyIn
  store := forward_store
  storePtr := forward_storePtr
  zero := forward_zero
  alloc := forward_alloc
  pass := forward_pass
  distinct := fun _ _ _ => forward_distinct known _
  size := fun all c small inside => all c.wire.size c small inside

end Act

end WireCodec
