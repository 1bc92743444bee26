import WireCodec.Proofs.Codec.Reading

/-! Properties that readers and writers have because their steps have them and sequences keep them. -/
namespace WireCodec

open Lowering

namespace Act

variable {α : Type} {known : Registry} {out : Output} {P : {α : Type} → Act α → Prop} {fields : List FieldDesc}
  {f : FieldDesc} {t : TypeDesc}

/-- A property of actions that sequences keep, and that the check of a set of the schema has. -/
structure Closed (known : Registry) (P : {α : Type} → Act α → Prop) : Prop where
  pure : ∀ {α : Type} (a : α), P (pure a : Act α)
  fail : ∀ {α : Type} (e : ErrorCode), P (fail e : Act α)
  bind : ∀ {α β : Type} {x : Act α} {f : α → Act β}, P x → (∀ a, P (f a)) → P (x >>= f)
  distinct : ∀ {t elem : TypeDesc}, known.Has t → known.IsSequence t elem → t.kind = .set →
    ∀ data count : UInt64, P (distinct known elem data count)

structure ClosedPasses (known : Registry) (P : {α : Type} → Act α → Prop) : Prop extends Closed known P where
  need : ∀ (eof : ErrorCode) (n : UInt64), P (need eof n)
  read : ∀ (eof : ErrorCode) (width : Width) (signed : Bool), P (read eof width signed)
  copyIn : ∀ (eof : ErrorCode) (dst len : UInt64), P (copyIn eof dst len)
  store : ∀ (width : Width) (word base : UInt64) (off : UInt32), P (store width word base off)
  storePtr : ∀ (ptr base : UInt64) (off : UInt32), P (storePtr ptr base off)
  zero : ∀ (base : UInt64) (off len : UInt32), P (zero base off len)
  pass : ∀ (left : Nat) (tag : UInt64), P (pass left tag)
  size : ∀ {α : Type} {f : Nat → Act α}, (∀ n, P (f n)) → P (do let c ← get; f c.wire.size)

structure ClosedReads (known : Registry) (P : {α : Type} → Act α → Prop) : Prop extends ClosedPasses known P where
  alloc : ∀ count : UInt64, P (alloc count)

structure ClosedWrites (known : Registry) (out : Output) (P : {α : Type} → Act α → Prop) : Prop
    extends Closed known P where
  room : ∀ n : UInt64, P (Writing.room out n)
  literal : ∀ (width : Width) (value : UInt64), P (Writing.literal out width value)
  int : ∀ (width : Width) (value : UInt64), P (Writing.int out width value)
  bytes : ∀ src len : UInt64, P (Writing.bytes out src len)
  fetch : ∀ (width : Width) (base : UInt64) (off : UInt32), P (fetch width base off)

namespace Closed

lemma ite (_ : Closed known P) {p : Prop} [Decidable p] {x y : Act α} (first : P x) (second : P y) :
    P (if p then x else y) := by
  split
  · exact first
  · exact second

variable (closed : Closed known P)
include closed

lemma deeper {body : Nat → Act α} {left : Nat} (all : ∀ k < left, P (body k)) : P (deeper left body) := by
  cases left with
  | zero => exact closed.fail _
  | succ left => exact all left (Nat.lt_succ_self left)

lemma each {body : UInt64 → Act Unit} (all : ∀ base, P (body base)) (stride : UInt32) (count : Nat)
    (base : UInt64) : P (each body stride count base) := by
  induction count generalizing base with
  | zero => exact closed.pure ()
  | succ count ih => exact closed.bind (all base) fun _ => ih _

lemma only {p : Prop} [Decidable p] {x : Act Unit} (holds : p → P x) : P (if p then x else Pure.pure ()) := by
  split
  · exact holds ‹p›
  · exact closed.pure _

lemma nestedRecord {nested : Spots Visit}
    (all : ∀ way left record base, known.Target record → P (nested way left record base)) (has : known.Has t)
    (left : Nat) (base : UInt64) : P (Writing.nestedRecord known nested t left base) := by
  unfold Writing.nestedRecord
  split
  · rename_i ok
    exact all _ _ _ _ ⟨t, has, ok⟩
  · exact closed.fail _

end Closed

end Act

open Act

namespace Reading

lemma mem_of_fieldFor? {id tag : UInt64} {index : Nat} (found : fieldFor? fields id tag = some (index, f)) :
    fields[index]? = some f ∧ f.id.toUInt64 = id ∧ f.type.kind.tag.toUInt64 = tag := by
  unfold fieldFor? at found
  simp only [Option.bind_eq_bind, Option.bind_eq_some_iff] at found
  obtain ⟨k, first, g, at_, found⟩ := found
  split at found
  · rename_i sameTag
    cases found
    refine ⟨at_, ?_, sameTag⟩
    obtain ⟨low, holds, _⟩ := List.findIdx?_eq_some_iff_getElem.mp first
    rw [List.getElem?_eq_getElem low] at at_
    cases at_
    simpa using holds
  · cases found

variable {known : Registry} {nested : Spots Visit} {P : {α : Type} → Act α → Prop}

section Passes

variable (closed : ClosedPasses known P) {base : UInt64} {left : Nat}
include closed

lemma closed_containerHead (e : Entry) : P (containerHead e) :=
  closed.bind (closed.need _ _) fun _ =>
    closed.bind (closed.ite (closed.read _ _ _) (closed.pure _)) fun _ => closed.bind (closed.read _ _ _)
      fun _ => closed.bind (closed.read _ _ _) fun _ => closed.ite (closed.fail _) (closed.pure _)

lemma closed_checkTags (e : Entry) (head : Head) : P (checkTags e head) := by
  refine closed.ite (closed.pure _) (closed.ite (closed.fail _) ?_)
  cases e.key with
  | none => exact closed.pure _
  | some key => exact closed.ite (closed.fail _) (closed.pure _)

lemma closed_storeDefaults (base : UInt64) (fields : List FieldDesc) : P (storeDefaults base fields) := by
  induction fields with
  | nil => exact closed.pure _
  | cons f rest ih =>
    refine closed.bind ?_ fun _ => ih
    unfold storeDefault
    split
    · exact closed.pure _
    · exact closed.ite (closed.pure _) (closed.store _ _ _ _)

lemma closed_occurrences (all : ∀ i, ∀ f ∈ fields, P (field known (nested.part i) left base f))
    (count : Nat) (seen : List Nat) : P (occurrences known nested fields left base count seen) := by
  induction count generalizing seen with
  | zero => exact closed.fail _
  | succ count ih =>
    refine closed.bind (closed.read _ _ _) fun tag => closed.ite
      (closed.ite (closed.pure _) (closed.fail _)) (closed.bind (closed.read _ _ _) fun id => ?_)
    cases found : fieldFor? fields id tag with
    | none => exact closed.bind (closed.pass _ _) fun _ => ih _
    | some entry =>
      have mem := List.mem_of_getElem? (mem_of_fieldFor? found).1
      exact closed.ite (closed.fail _) (closed.bind (all _ _ mem) fun _ => ih _)

lemma closed_record
    (all : ∀ k < left, ∀ i, ∀ f ∈ t.fields, P (field known (nested.part i) k base f)) : P (record known nested left t base) :=
  closed.bind (closed.ite (closed.pure _) (closed.zero _ _ _)) fun _ =>
    closed.bind (closed_storeDefaults closed base t.fields) fun _ => closed.deeper fun k low =>
      closed.size fun size => closed_occurrences closed (all k low) (size + 1) []

end Passes

section Parts

variable (closed : ClosedReads known P)
include closed

lemma closed_blob (base : UInt64) (off : UInt32) : P (blob base off) :=
  closed.bind (closed.read _ _ _) fun _ => closed.ite (closed.fail _) <|
    closed.bind (closed.need _ _) fun _ => closed.bind (closed.alloc _) fun _ =>
      closed.bind (closed.storePtr _ _ _) fun _ => closed.bind (closed.store _ _ _ _) fun _ => closed.copyIn _ _ _

lemma closed_makeRoom (e : Entry) (loose : Bool) (count base : UInt64) (off : UInt32) :
    P (makeRoom e loose count base off) :=
  closed.bind (closed.need _ _) fun _ => closed.bind (closed.alloc _) fun _ =>
    closed.bind (closed.storePtr _ _ _) fun _ => closed.bind (closed.store _ _ _ _) fun _ => closed.pure _

lemma closed_container (isSet : Bool) (e : Entry) (loose : Bool) (left : Nat) (base : UInt64)
    (off : UInt32) {entry : Nat → UInt64 → Act Unit} (all : ∀ left base, P (entry left base))
    (check : isSet = true → ∀ data count, P (distinct known e.elem data count)) :
    P (container known isSet e loose left base off entry) := by
  have loop : ∀ head : Head, ∀ data, P (entryLoop e left head.count data entry) :=
    fun head data => closed.ite (closed.each (all left) _ _ _) (closed.deeper fun k _ => closed.each (all k) _ _ _)
  exact closed.bind (closed_containerHead closed.toClosedPasses e) fun head =>
    closed.bind (closed_checkTags closed.toClosedPasses e head) fun _ =>
      closed.bind (closed_makeRoom closed e loose head.count base off) fun data => closed.ite (closed.pure _) <|
        closed.bind (loop head data) fun _ => closed.only fun set => check set _ _

end Parts

section Records

variable (closed : ClosedReads known P) (sound : known.Sound)
  (all : ∀ way left record base, known.Target record → P (nested way left record base))
include closed sound all

lemma closed_value (t : TypeDesc) (has : known.Has t) (loose : Bool) (left : Nat) (base : UInt64) (off : UInt32) :
    P (value known nested t loose left base off) := by
  induction t, has using sound.induction generalizing nested loose left base off with
  | scalar t has isScalar =>
    rw [value_scalar _ _ _ _ isScalar]
    exact closed.bind (closed.read _ _ _) fun _ => closed.store _ _ _ _
  | blob t has kind =>
    rw [value_blob _ _ _ _ kind]
    exact closed_blob closed _ _
  | sequence t has elem is ih =>
    rw [value_sequence _ _ _ _ is]
    exact closed_container closed _ _ _ _ _ _ (fun left base => ih (fun way => all (0 :: way)) true left base 0)
      fun isSet => closed.distinct has is (of_decide_eq_true isSet)
  | map t has key elem layout is ihKey ihElem =>
    rw [value_map _ _ _ _ is]
    exact closed_container closed _ _ _ _ _ _ (fun left base =>
      closed.bind (closed.ite (closed.need _ _) (closed.pure _)) fun _ =>
        closed.bind (ihKey (fun way => all (0 :: way)) true left base 0) fun _ =>
          ihElem (fun way => all (1 :: way)) true left base _) nofun
  | cramped t has key elem is =>
    rw [value_cramped _ _ _ _ is]
    exact closed.fail _
  | struct t has kind =>
    rw [value_struct _ _ _ _ kind]
    exact closed.nestedRecord all has _ _
  | pointer t has kind =>
    cases ok : t.recordType known with
    | error e =>
      rw [value_untargeted _ _ _ _ kind ok]
      exact closed.fail _
    | ok record =>
      rw [value_pointer _ _ _ _ kind ok]
      exact closed.bind (closed.alloc _) fun _ => closed.bind (closed.storePtr _ _ _) fun _ =>
        all _ _ _ _ ⟨t, has, ok⟩

lemma closed_field (left : Nat) (base : UInt64) (has : known.Has f.type) : P (field known nested left base f) := by
  refine closed.ite ?_ (closed_value closed sound all _ has _ _ _ _)
  exact closed.bind (closed.alloc _) fun _ => closed.bind (closed.storePtr _ _ _) fun _ =>
    closed.bind (closed.read _ _ _) fun _ => closed.store _ _ _ _

end Records

lemma closed_walk (closed : ClosedReads known P) (sound : known.Sound) (depth left : Nat) (t : TypeDesc)
    (base : UInt64) (has : known.Has t) : P (walk known depth left t base) := by
  induction depth generalizing left t base with
  | zero => exact closed.pure _
  | succ depth ih =>
    exact closed_record closed.toClosedPasses fun k _ _ f mem => closed_field closed sound
      (fun _ left record base target => ih left record base (target.has sound)) k base (sound.field has mem)

end Reading

namespace Writing

variable {known : Registry} {nested : Spots Visit} {out : Output}
  {P : {α : Type} → Act α → Prop}

section Parts

variable (closed : ClosedWrites known out P)
include closed

lemma closed_header (f : FieldDesc) : P (header out f) :=
  closed.bind (closed.room _) fun _ => closed.bind (closed.literal _ _) fun _ => closed.literal _ _

lemma closed_stopMark : P (stopMark out) := closed.bind (closed.room _) fun _ => closed.literal _ _

lemma closed_scalar (reserved : Bool) (width : Width) (base : UInt64) (off : UInt32) :
    P (scalar out reserved width base off) := by
  have rest := closed.bind (closed.fetch width base off) fun word => closed.int width word
  cases reserved with
  | false => exact closed.bind (closed.room _) fun _ => rest
  | true => exact rest

lemma closed_blob (base : UInt64) (off : UInt32) : P (blob out base off) :=
  closed.bind (closed.fetch _ _ _) fun _ => closed.bind (closed.room _) fun _ => closed.bind (closed.int _ _) fun _ =>
    closed.bind (closed.fetch _ _ _) fun _ => closed.bind (closed.room _) fun _ => closed.bytes _ _

lemma closed_containerHead (e : Entry) (base : UInt64) (off : UInt32) : P (containerHead out e base off) := by
  have tag : P (keyTag out e) := by
    unfold keyTag
    split
    · exact closed.literal _ _
    · exact closed.pure _
  exact closed.bind (closed.fetch _ _ _) fun _ => closed.bind (closed.fetch _ _ _) fun _ =>
    closed.bind (closed.room _) fun _ => closed.bind tag fun _ => closed.bind (closed.literal _ _) fun _ =>
      closed.bind (closed.int _ _) fun _ => closed.pure _

lemma closed_container (kind : Kind) (e : Entry) (left : Nat) (base : UInt64) (off : UInt32)
    {entry : Bool → Nat → UInt64 → Act Unit} (all : ∀ reserved left base, P (entry reserved left base))
    (check : kind = .set → ∀ data count, P (distinct known e.elem data count)) :
    P (container known out kind e left base off entry) := by
  have loop : ∀ count data reserved, P (entryLoop e left count data reserved entry) := fun count data reserved =>
    closed.ite (closed.each (all _ _) _ _ _) (closed.deeper fun _ _ => closed.each (all _ _) _ _ _)
  refine closed.bind (closed_containerHead closed e base off) fun made =>
    closed.bind (closed.only fun set => check set _ _) fun _ => closed.ite (closed.pure _) ?_
  cases e.fixedSize? with
  | none => exact loop _ _ _
  | some size =>
    cases out with
    | count => exact closed.bytes 0 _
    | write => exact closed.bind (closed.room _) fun _ => loop _ _ _

end Parts

section Records

variable (closed : ClosedWrites known out P) (sound : known.Sound)
  (all : ∀ way left record base, known.Target record → P (nested way left record base))
include closed sound all

lemma closed_value (t : TypeDesc) (has : known.Has t) (reserved : Bool) (left : Nat) (base : UInt64) (off : UInt32) :
    P (value known nested out t reserved left base off) := by
  induction t, has using sound.induction generalizing nested reserved left base off with
  | scalar t has isScalar =>
    rw [value_scalar _ _ _ _ isScalar]
    exact closed_scalar closed _ _ _ _
  | blob t has kind =>
    rw [value_blob _ _ _ _ kind]
    exact closed_blob closed _ _
  | sequence t has elem is ih =>
    rw [value_sequence _ _ _ _ is]
    exact closed_container closed _ _ _ _ _ (fun reserved left base =>
      ih (fun way => all (0 :: way)) reserved left base 0) (closed.distinct has is)
  | map t has key elem layout is ihKey ihElem =>
    rw [value_map _ _ _ _ is]
    exact closed_container closed _ _ _ _ _ (fun reserved left base =>
      closed.bind (ihKey (fun way => all (0 :: way)) reserved left base 0) fun _ =>
        ihElem (fun way => all (1 :: way)) reserved left base _)
      fun set => by cases is.kind.symm.trans set
  | cramped t has key elem is =>
    rw [value_cramped _ _ _ _ is]
    exact closed.fail _
  | struct t has kind =>
    rw [value_struct _ _ _ _ kind]
    exact closed.nestedRecord all has _ _
  | pointer t has kind =>
    rw [value_pointer _ _ _ _ kind]
    exact closed.bind (closed.fetch _ _ _) fun _ => closed.ite (closed_stopMark closed)
      (closed.nestedRecord all has _ _)

lemma closed_field (left : Nat) (base : UInt64) (has : known.Has f.type) : P (field known nested out f left base) := by
  have header := closed_header closed f
  have record : ∀ base, P (nestedRecord known nested f.type left base) := fun base =>
    closed.nestedRecord all has left base
  have plain : P (scalarField out f base) := by
    have body := closed.bind header fun _ => closed_scalar closed false (width f.type) base f.offset
    unfold scalarField
    cases f.default with
    | none => exact body
    | some default => exact closed.bind (closed.fetch _ _ _) fun _ => closed.ite (closed.pure _) body
  have headed : P (headerField known nested out f left base) := by
    have body := closed.bind header fun _ => closed_value closed sound all _ has false left base f.offset
    exact closed.ite body (closed.bind (closed.fetch _ _ _) fun _ => closed.ite (closed.pure _) body)
  unfold field
  refine closed.ite (closed.bind (closed.fetch _ _ _) fun _ => closed.ite (closed.pure _) <|
    closed.bind header fun _ => closed_scalar closed _ _ _ _) ?_
  split
  · exact closed.bind (closed.fetch _ _ _) fun _ => closed.ite
      (closed.ite (closed.bind header fun _ => closed_stopMark closed) (closed.pure _))
      (closed.bind header fun _ => record _)
  · exact closed.bind header fun _ => record _
  · exact closed.ite plain headed

lemma closed_fields (left : Nat) (base : UInt64) (fs : List FieldDesc) (has : ∀ f ∈ fs, known.Has f.type) :
    P (fields known nested out left base fs) := by
  induction fs generalizing nested with
  | nil => exact closed.pure _
  | cons f rest ih =>
    obtain ⟨hasField, hasRest⟩ := List.forall_mem_cons.mp has
    exact closed.bind (closed_field closed sound (fun way => all (0 :: way)) left base hasField)
      fun _ => ih (fun way => all (1 :: way)) hasRest

lemma closed_record (has : known.Has t) (left : Nat) (base : UInt64) : P (record known nested out left t base) := by
  have body := fun left => closed.bind
    (closed_fields closed sound all left base t.fields fun _ mem => sound.field has mem) fun _ =>
      closed_stopMark closed
  exact closed.ite (closed.deeper fun k _ => body k) (body left)

end Records

end Writing

/-! Troubles that readers and writers never meet. -/

namespace Act

/-- The action never ends with trouble of a sort. -/
def Without (bad : Trouble → Prop) {α : Type} (x : Act α) : Prop := ∀ c, Ends x c (fun _ _ => True) fun t _ => ¬ bad t

section Without

variable {bad : Trouble → Prop} (codec : ∀ code offset, ¬ bad (.codec code offset)) (outside : ¬ bad .outside)
  {known : Registry} {α : Type}

lemma without_of_ok {x : Act α} (ok : ∀ c, ∃ a c', x c = .ok a c') : Without bad x := by
  intro c
  obtain ⟨a, c', done⟩ := ok c
  rw [Ends, done]
  trivial

include codec in
lemma without_need (eof : ErrorCode) (n : UInt64) : Without bad (need eof n) :=
  fun _ => ends_need (fun _ => trivial) (codec _ _)

include codec in
lemma closed_without (check : ∀ {t elem : TypeDesc}, known.Has t → known.IsSequence t elem →
    t.kind = .set → ∀ data count, Without bad (distinct known elem data count)) : Closed known (Without bad) where
  pure := fun _ _ => trivial
  fail := fun _ _ => codec _ _
  bind := fun first rest c => (first c).bind fun a c' _ => rest a c'
  distinct := check

include outside in
lemma without_onHeap (base : UInt64) (off : UInt32) (len : Nat) (access : UInt32 → Scene → α × Scene) :
    Without bad (onHeap base off len access) := fun _ => ends_onHeap (fun _ => trivial) outside

include codec outside

lemma closedReads_without (check : ∀ {t elem : TypeDesc}, known.Has t → known.IsSequence t elem →
    t.kind = .set → ∀ data count, Without bad (distinct known elem data count)) : ClosedReads known (Without bad) where
  toClosed := closed_without codec check
  need := without_need codec
  read := fun _ _ _ _ => ends_read (fun _ _ => trivial) (codec _ _)
  copyIn := fun _ _ _ _ => ends_copyIn (fun _ _ _ => trivial) (codec _ _) outside
  store := fun _ _ _ _ => without_onHeap outside _ _ _ _
  storePtr := fun _ _ _ => without_onHeap outside _ _ _ _
  zero := fun _ _ _ => without_onHeap outside _ _ _ _
  alloc := fun _ _ => ends_alloc (fun _ _ _ => trivial) (codec _ _)
  pass := fun _ _ _ => ends_pass (fun _ _ => trivial) fun _ => codec _ _
  size := fun all c => all c.wire.size c

lemma closedWrites_without {out : Output} (cut : out = .write → ∀ offset, ¬ bad (.cut offset))
    (check : ∀ {t elem : TypeDesc}, known.Has t → known.IsSequence t elem → t.kind = .set →
      ∀ data count, Without bad (distinct known elem data count)) : ClosedWrites known out (Without bad) where
  toClosed := closed_without codec check
  room := by
    intro n
    cases out with
    | count => exact without_of_ok fun _ => ⟨_, _, rfl⟩
    | write => exact without_need codec _ _
  literal := by
    intro width value
    cases out with
    | count => exact without_of_ok fun _ => ⟨_, _, rfl⟩
    | write =>
      refine fun c => ends_of (fun _ _ _ => trivial) fun t c' failed => ?_
      simp only [Writing.literal, Act.literal] at failed
      split at failed <;> cases failed
      exact cut rfl _
  int := by
    intro width value
    cases out with
    | count => exact without_of_ok fun _ => ⟨_, _, rfl⟩
    | write =>
      refine fun c => ends_of (fun _ _ _ => trivial) fun t c' failed => ?_
      simp only [Writing.int, Act.write] at failed
      split at failed <;> cases failed
      exact codec _ _
  bytes := by
    intro src len
    cases out with
    | count => exact without_of_ok fun _ => ⟨_, _, rfl⟩
    | write =>
      refine fun c => ends_of (fun _ _ _ => trivial) fun t c' failed => ?_
      simp only [Writing.bytes, Act.copyOut] at failed
      split at failed
      · cases failed
        exact codec _ _
      · split at failed <;> cases failed
        exact outside
  fetch := fun _ _ _ => without_onHeap outside _ _ _ _

end Without

end Act

end WireCodec
