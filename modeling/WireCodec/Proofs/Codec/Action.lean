import Mathlib
import WireCodec.Machine.Routine

/-! What codecs do, apart from the machine that runs them. An action works on the wire, the
cursor and the arena; it has no registers, no frames and no program. The actions below are
those of single instructions, and codecs are put together from them. -/
namespace WireCodec

/-- What a codec works on. -/
structure Scene where
  wire : Bytes
  pos : UInt64
  heap : Heap
  barrier : Bool
  stores : List StoreEvent

def Context.scene (c : Context) : Scene := ⟨c.wire, c.pos, c.heap, c.barrier, c.stores⟩

namespace Scene

def fits (c : Scene) (n : UInt64) : Bool := c.pos.toNat + n.toNat ≤ c.wire.size

/-- The arena offset `base + off`, if `len` bytes from there on are inside. -/
def at? (c : Scene) (base : UInt64) (off : UInt32) (len : Nat) : Option UInt32 :=
  let start := base.toNat + off.toNat
  if start + len ≤ c.heap.size then some start.toUInt32 else none

def move (c : Scene) (n : UInt64) : Scene := { c with pos := c.pos + n }

def put (c : Scene) (data : List UInt8) : Scene :=
  { c with wire := patch c.wire c.pos.toNat data, pos := c.pos + data.length.toUInt64 }

def patchHeap (c : Scene) (off : UInt32) (data : List UInt8) : Scene :=
  { c with heap := c.heap.patch off data }

/-- Stores a pointer, reporting it first while the barrier is on. -/
def storePointer (c : Scene) (off new : UInt32) : Scene :=
  let c := if c.barrier then
      { c with stores := ⟨off, (c.heap.read32? off).getD 0, new⟩ :: c.stores }
    else c
  c.patchHeap off (leBytes 4 new.toUInt64)

end Scene

/-- Why an action ends early: an error of the data, the end of the wire within a literal, an
access outside the arena, a defect that is reported, or a routine that gave up. -/
inductive Trouble
  | codec (code : ErrorCode) (offset : UInt64)
  | cut (offset : UInt64)
  | outside
  | defect (e : CompileError)
  | gaveUp (ending : Ending)

abbrev Act := EStateM Trouble Scene

/-- What to do with a record of a type at an address, with a number of frames left. -/
abbrev Visit := Nat → TypeDesc → UInt64 → Act Unit

namespace Act

variable {α β : Type} {a : α}

lemma bind_apply (x : Act α) (f : α → Act β) (c : Scene) : (x >>= f) c = match x c with
      | .ok a c' => f a c'
      | .error t c' => .error t c' := by
  change EStateM.bind x f c = _
  unfold EStateM.bind
  cases x c <;> rfl

lemma bind_ok {x : Act α} {f : α → Act β} {c c' : Scene} (ran : x c = .ok a c') : (x >>= f) c = f a c' := by
  rw [bind_apply, ran]

lemma pure_apply (a : α) (c : Scene) : (pure a : Act α) c = .ok a c := rfl

def fail (code : ErrorCode) : Act α := fun c => .error (.codec code c.pos) c

def need (eof : ErrorCode) (n : UInt64) : Act Unit := fun c =>
  if c.fits n then .ok () c else .error (.codec eof c.pos) c

def move (n : UInt64) : Act Unit := fun c => .ok () (c.move n)

def literal (data : List UInt8) : Act Unit := fun c =>
  if c.fits data.length.toUInt64 then .ok () (c.put data) else .error (.cut c.pos) c

def write (eof : ErrorCode) (data : List UInt8) : Act Unit := fun c =>
  if c.fits data.length.toUInt64 then .ok () (c.put data) else .error (.codec eof c.pos) c

def copyOut (eof : ErrorCode) (src len : UInt64) : Act Unit := fun c =>
  if !c.fits len then .error (.codec eof c.pos) c
  else
    match (c.at? src 0 len.toNat).bind fun off => c.heap.slice? off len.toNat with
    | none => .error .outside c
    | some data => .ok () (c.put data)

def read (eof : ErrorCode) (width : Width) (signed : Bool) : Act UInt64 := fun c =>
  match slice? c.wire c.pos.toNat width.bytes with
  | none => .error (.codec eof c.pos) c
  | some data => .ok (Machine.widen width signed (beWord data)) (c.move width.bytes.toUInt64)

def copyIn (eof : ErrorCode) (dst len : UInt64) : Act Unit := fun c =>
  match slice? c.wire c.pos.toNat len.toNat with
  | none => .error (.codec eof c.pos) c
  | some data =>
    match c.at? dst 0 len.toNat with
    | none => .error .outside c
    | some off => .ok () ((c.patchHeap off data).move len)

def onHeap (base : UInt64) (off : UInt32) (len : Nat) (access : UInt32 → Scene → α × Scene) : Act α := fun c =>
  match c.at? base off len with
  | some off => .ok (access off c).1 (access off c).2
  | none => .error .outside c

def fetch (width : Width) (base : UInt64) (off : UInt32) : Act UInt64 :=
  onHeap base off width.bytes fun off c => ((c.heap.read? off width.bytes).getD 0, c)

def store (width : Width) (word base : UInt64) (off : UInt32) : Act Unit :=
  onHeap base off width.bytes fun off c => ((), c.patchHeap off (leBytes width.bytes word))

def storePtr (ptr base : UInt64) (off : UInt32) : Act Unit :=
  onHeap base off 4 fun off c => ((), c.storePointer off ptr.toUInt32)

def zero (base : UInt64) (off len : UInt32) : Act Unit :=
  onHeap base off len.toNat fun off c => ((), c.patchHeap off (List.replicate len.toNat 0))

def alloc (count : UInt64) : Act UInt64 := fun c =>
  match c.heap.alloc? count.toNat with
  | some (off, heap) => .ok off.toUInt64 { c with heap := heap }
  | none => .error (.codec .invalidLength c.pos) c

/-- Skips one wire value that nests no deeper than `left`. -/
def pass (left : Nat) (tag : UInt64) : Act Unit := fun c =>
  match WireCodec.skip c.wire left tag.toUInt8 c.pos.toNat with
  | .ok pos => .ok () { c with pos := pos.toUInt64 }
  | .error e => .error (.codec e.code e.offset.toUInt64) c

/-- Refuses equal elements among `count` from `data` on. -/
def distinct (known : Registry) (elem : TypeDesc) (data count : UInt64) : Act Unit := fun c =>
  match checkDistinct (loadValue known c.heap · elem) elem.size count.toUInt32.toNat data.toUInt32.toNat [] with
  | .distinct => .ok () c
  | .duplicate => .error (.codec .duplicateSetElement c.pos) c
  | .unreadable .outOfBounds => .error (.gaveUp .crashed) c
  | .unreadable .endless => .error (.gaveUp .endless) c
  | .unreadable e => .error (.defect (.malformed (.unreadable e))) c

/-- Goes one frame deeper, with `left` frames there are. -/
def deeper : Nat → (Nat → Act α) → Act α
  | 0, _ => fail .nestingOverflow
  | left + 1, x => x left

def each (body : UInt64 → Act Unit) (stride : UInt32) : Nat → UInt64 → Act Unit
  | 0, _ => pure ()
  | count + 1, base => do
    body base
    each body stride count (base + immWord stride.toInt32)

/-! How actions end. -/

def Ends (x : Act α) (c : Scene) (good : α → Scene → Prop) (bad : Trouble → Scene → Prop) : Prop :=
  match x c with
  | .ok a c' => good a c'
  | .error t c' => bad t c'

section Ends

variable {x : Act α} {c c' : Scene} {good good' : α → Scene → Prop} {bad bad' : Trouble → Scene → Prop}

lemma Ends.ok (ends : Ends x c good bad) (ran : x c = .ok a c') : good a c' := by
  rw [Ends, ran] at ends
  exact ends

lemma Ends.error (ends : Ends x c good bad) {t : Trouble} (ran : x c = .error t c') : bad t c' := by
  rw [Ends, ran] at ends
  exact ends

lemma ends_of (ok : ∀ a c', x c = .ok a c' → good a c') (error : ∀ t c', x c = .error t c' → bad t c') :
    Ends x c good bad := by
  unfold Ends
  cases ran : x c with
  | ok a c' => exact ok a c' ran
  | error t c' => exact error t c' ran

lemma Ends.imp (ends : Ends x c good bad) (ok : ∀ a c', good a c' → good' a c')
    (error : ∀ t c', bad t c' → bad' t c') : Ends x c good' bad' :=
  ends_of (fun _ _ ran => ok _ _ (ends.ok ran)) fun _ _ ran => error _ _ (ends.error ran)

lemma Ends.bind {f : α → Act β} {after : β → Scene → Prop} (first : Ends x c good bad)
    (rest : ∀ a c', good a c' → Ends (f a) c' after bad) : Ends (x >>= f) c after bad := by
  unfold Ends
  rw [bind_apply]
  cases ran : x c with
  | ok a c' => exact rest a c' (first.ok ran)
  | error t c' => exact first.error ran

end Ends

section Steps

variable {c : Scene} {eof : ErrorCode} {bad : Trouble → Scene → Prop} {base dst len n : UInt64} {off : UInt32}
  {good : Unit → Scene → Prop}

lemma ends_need (ok : c.pos.toNat + n.toNat ≤ c.wire.size → good () c)
    (error : bad (.codec eof c.pos) c) : Ends (need eof n) c good bad := by
  unfold Ends need
  cases fits : c.fits n with
  | true => exact ok (of_decide_eq_true fits)
  | false => exact error

lemma ends_read {width : Width} {signed : Bool} {good : UInt64 → Scene → Prop}
    (ok : ∀ data, slice? c.wire c.pos.toNat width.bytes = some data →
      good (Machine.widen width signed (beWord data)) (c.move width.bytes.toUInt64))
    (error : bad (.codec eof c.pos) c) : Ends (read eof width signed) c good bad := by
  unfold Ends read
  cases cut : slice? c.wire c.pos.toNat width.bytes with
  | none => exact error
  | some data => exact ok data cut

lemma ends_copyIn (ok : ∀ data, slice? c.wire c.pos.toNat len.toNat = some data →
      dst.toNat + len.toNat ≤ c.heap.size → good () ((c.patchHeap dst.toNat.toUInt32 data).move len))
    (error : bad (.codec eof c.pos) c) (outside : bad .outside c) : Ends (copyIn eof dst len) c good bad := by
  unfold Ends copyIn
  cases cut : slice? c.wire c.pos.toNat len.toNat with
  | none => exact error
  | some data =>
    simp only [Scene.at?]
    by_cases inside : dst.toNat + (0 : UInt32).toNat + len.toNat ≤ c.heap.size
    · rw [if_pos inside]
      exact ok data cut inside
    · rw [if_neg inside]
      exact outside

lemma ends_onHeap {count : Nat} {access : UInt32 → Scene → α × Scene} {good : α → Scene → Prop}
    (ok : base.toNat + off.toNat + count ≤ c.heap.size → good (access (base.toNat + off.toNat).toUInt32 c).1
      (access (base.toNat + off.toNat).toUInt32 c).2)
    (outside : bad .outside c) : Ends (onHeap base off count access) c good bad := by
  unfold Ends onHeap Scene.at?
  by_cases inside : base.toNat + off.toNat + count ≤ c.heap.size
  · simp only [if_pos inside]
    exact ok inside
  · simp only [if_neg inside]
    exact outside

lemma ends_alloc {good : UInt64 → Scene → Prop} (ok : ∀ off heap, c.heap.alloc? n.toNat = some (off, heap) →
      good off.toUInt64 { c with heap := heap })
    (error : bad (.codec .invalidLength c.pos) c) : Ends (alloc n) c good bad := by
  unfold Ends alloc
  cases got : c.heap.alloc? n.toNat with
  | none => exact error
  | some made => exact ok made.1 made.2 got

lemma ends_pass {left : Nat} {tag : UInt64}
    (ok : ∀ after, WireCodec.skip c.wire left tag.toUInt8 c.pos.toNat = .ok after →
      good () { c with pos := after.toUInt64 })
    (error : ∀ e : CodecError, bad (.codec e.code e.offset.toUInt64) c) : Ends (pass left tag) c good bad := by
  unfold Ends pass
  cases skipped : WireCodec.skip c.wire left tag.toUInt8 c.pos.toNat with
  | ok after => exact ok after skipped
  | error e => exact error e

lemma ends_distinct {known : Registry} {elem : TypeDesc} (ok : good () c)
    (error : bad (.codec .duplicateSetElement c.pos) c) (gaveUp : ∀ ending, bad (.gaveUp ending) c)
    (defect : ∀ e, bad (.defect e) c) : Ends (distinct known elem dst n) c good bad := by
  unfold Ends distinct
  cases checkDistinct (loadValue known c.heap · elem) elem.size n.toUInt32.toNat dst.toUInt32.toNat [] with
  | distinct => exact ok
  | duplicate => exact error
  | unreadable e =>
    cases e with
    | outOfBounds | endless => exact gaveUp _
    | _ => exact defect _

end Steps

end Act

end WireCodec
