import WireCodec.Proofs.Codec.Closed

/-! Reading does not see whether pointer stores are reported: the barrier changes what is reported, and
nothing else. -/
namespace WireCodec

def Scene.watched (c : Scene) (barrier : Bool) (stores : List StoreEvent) : Scene :=
  { c with barrier := barrier, stores := stores }

namespace Act

variable {α β : Type}

/-- The action does the same whatever is reported, and reports nothing while the barrier is off. -/
def Blind (x : Act α) : Prop :=
  ∀ c barrier stores, ∃ stores', (barrier = false → stores' = stores) ∧ x (c.watched barrier stores) = match x c with
      | .ok a c' => .ok a (c'.watched barrier stores')
      | .error t c' => .error t (c'.watched barrier stores')

lemma blind_pure (a : α) : Blind (pure a : Act α) := fun _ _ stores => ⟨stores, fun _ => rfl, rfl⟩

lemma blind_fail (e : ErrorCode) : Blind (fail e : Act α) := fun _ _ stores => ⟨stores, fun _ => rfl, rfl⟩

lemma Blind.bind {x : Act α} {f : α → Act β} (first : Blind x) (rest : ∀ a, Blind (f a)) : Blind (x >>= f) := by
  intro c barrier stores
  obtain ⟨stores₁, quiet₁, same₁⟩ := first c barrier stores
  rw [bind_apply, bind_apply, same₁]
  cases x c with
  | error t c' => exact ⟨stores₁, quiet₁, rfl⟩
  | ok a c' =>
    obtain ⟨stores₂, quiet₂, same₂⟩ := rest a c' barrier stores₁
    exact ⟨stores₂, fun off => (quiet₂ off).trans (quiet₁ off), same₂⟩

lemma blind_need (eof : ErrorCode) (n : UInt64) : Blind (need eof n) := by
  intro c barrier stores
  refine ⟨stores, fun _ => rfl, ?_⟩
  simp only [need, show (c.watched barrier stores).fits n = c.fits n from rfl]
  cases c.fits n <;> rfl

lemma blind_read (eof : ErrorCode) (width : Width) (signed : Bool) : Blind (read eof width signed) := by
  intro c barrier stores
  refine ⟨stores, fun _ => rfl, ?_⟩
  simp only [read, Scene.watched]
  cases slice? c.wire c.pos.toNat width.bytes <;> rfl

lemma blind_copyIn (eof : ErrorCode) (dst len : UInt64) : Blind (copyIn eof dst len) := by
  intro c barrier stores
  refine ⟨stores, fun _ => rfl, ?_⟩
  simp only [copyIn, show (c.watched barrier stores).at? dst 0 len.toNat = c.at? dst 0 len.toNat from rfl]
  simp only [Scene.watched]
  cases slice? c.wire c.pos.toNat len.toNat with
  | none => rfl
  | some data => cases c.at? dst 0 len.toNat <;> rfl

lemma blind_onHeap (base : UInt64) (off : UInt32) (len : Nat) {access : UInt32 → Scene → α × Scene}
    (blind : ∀ k c barrier stores, ∃ stores', (barrier = false → stores' = stores) ∧
      access k (c.watched barrier stores) = ((access k c).1, (access k c).2.watched barrier stores')) :
    Blind (onHeap base off len access) := by
  intro c barrier stores
  simp only [onHeap, show (c.watched barrier stores).at? base off len = c.at? base off len from rfl]
  cases c.at? base off len with
  | none => exact ⟨stores, fun _ => rfl, rfl⟩
  | some k =>
    obtain ⟨stores', quiet, same⟩ := blind k c barrier stores
    exact ⟨stores', quiet, by simp only [same]⟩

lemma blind_storePtr (ptr base : UInt64) (off : UInt32) : Blind (storePtr ptr base off) := by
  refine blind_onHeap _ _ _ fun k c barrier stores => ?_
  have unwatched : ∀ stores, (c.storePointer k ptr.toUInt32).watched barrier stores =
      (c.patchHeap k (leBytes 4 ptr.toUInt32.toUInt64)).watched barrier stores := by
    intro stores
    unfold Scene.storePointer
    cases c.barrier <;> rfl
  simp only [unwatched]
  cases barrier with
  | false => exact ⟨stores, fun _ => rfl, rfl⟩
  | true => exact ⟨⟨k, (c.heap.read32? k).getD 0, ptr.toUInt32⟩ :: stores, nofun, rfl⟩

lemma blind_alloc (count : UInt64) : Blind (alloc count) := by
  intro c barrier stores
  refine ⟨stores, fun _ => rfl, ?_⟩
  simp only [alloc, Scene.watched]
  cases c.heap.alloc? count.toNat <;> rfl

lemma blind_pass (left : Nat) (tag : UInt64) : Blind (pass left tag) := by
  intro c barrier stores
  refine ⟨stores, fun _ => rfl, ?_⟩
  simp only [pass, Scene.watched]
  cases skip c.wire left tag.toUInt8 c.pos.toNat <;> rfl

lemma blind_distinct (known : Registry) (elem : TypeDesc) (data count : UInt64) :
    Blind (distinct known elem data count) := by
  intro c barrier stores
  refine ⟨stores, fun _ => rfl, ?_⟩
  simp only [distinct, Scene.watched]
  split <;> rfl

lemma blind_closed (known : Registry) : ClosedReads known Blind where
  pure := blind_pure
  fail := blind_fail
  bind := Blind.bind
  need := blind_need
  read := blind_read
  copyIn := blind_copyIn
  store := fun _ _ _ _ => blind_onHeap _ _ _ fun _ _ _ stores => ⟨stores, fun _ => rfl, rfl⟩
  storePtr := blind_storePtr
  zero := fun _ _ _ => blind_onHeap _ _ _ fun _ _ _ stores => ⟨stores, fun _ => rfl, rfl⟩
  alloc := blind_alloc
  pass := blind_pass
  distinct := fun _ _ _ => blind_distinct known _
  size := fun all c barrier stores => all c.wire.size c barrier stores

end Act

end WireCodec
