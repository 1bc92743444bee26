import WireCodec.Proofs.Schema.Alignment
import WireCodec.Proofs.Session.Decoding

/-! Encoding a value that was put into the arena writes its bytes. -/
namespace WireCodec

variable {out : Bytes}

lemma take_toList_patch {data : List UInt8} (fits : data.length ≤ out.size) :
    (patch out 0 data).toList.take data.length = data := by
  refine List.ext_getElem? fun k => ?_
  rw [List.getElem?_take, Array.getElem?_toList, getElem?_patch]
  by_cases low : k < data.length
  · rw [if_pos low, if_pos (by omega), Nat.sub_zero]
  · rw [if_neg low, List.getElem?_eq_none (Nat.not_lt.mp low)]

/-- A value of a record type that was put into the arena. -/
structure Placed (known : Registry) (t : TypeDesc) (v : Value) (heap : Heap) (root : UInt32) : Prop where
  has : known.Has t
  kind : t.kind = .struct
  stored : ∃ before : Heap, before.Started ∧ allocValue known t v before = .ok root heap

/-- A record in the arena, with what it holds. -/
structure Rooted (known : Registry) (t : TypeDesc) (c : Content) (heap : Heap) (root : UInt32) : Prop where
  has : known.Has t
  kind : t.kind = .struct
  small : heap.size ≤ Heap.limit
  inside : root.toNat + t.size.toNat ≤ heap.size
  holds : ∃ lo, Holds known heap lo heap.size false root.toNat t c

section Rooted

variable {known : Registry} {t : TypeDesc} {v : Value} {c : Content} {heap : Heap} {root : UInt32}

lemma Placed.rooted (placed : Placed known t v heap root) (usable : known.Usable) :
    Rooted known t (Content.ofValue known t v) heap root := by
  obtain ⟨before, started, stored⟩ := placed.stored
  obtain ⟨small, _, inside, _, holds⟩ := holds_of_allocValue usable.sound usable.entries placed.has started stored
  exact ⟨placed.has, placed.kind, small, inside, _, holds⟩

lemma Rooted.plays (rooted : Rooted known t c heap root) (usable : known.Usable) (compact : known.Compact)
    (limit : Nat) : Plays heap (c.script known limit t) fun out =>
      Writing.walk known out (limit + 1) limit t root.toUInt64 := by
  obtain ⟨lo, holds⟩ := rooted.holds
  have plays := holds.plays usable compact rooted.has rooted.small le_rfl rooted.inside rfl (Nat.lt_succ_self limit)
    (show root.toUInt64.toNat + (0 : UInt32).toNat = _ from UInt32.toNat_toUInt64 root) (by decide)
  simpa only [Writing.value_here _ rooted.kind] using plays

lemma Rooted.loadValue_eq (rooted : Rooted known t c heap root) (usable : known.Usable) :
    loadValue known heap root t = .ok (c.value known t) := by
  obtain ⟨lo, holds⟩ := rooted.holds
  have read := holds.loadValue_of usable rooted.has rooted.small le_rfl rooted.inside
  rwa [show root.toNat.toUInt32 = root by simp] at read

end Rooted

/-! A chain of two links in the arena. -/
namespace Chain

def pair : Value :=
  .struct [some (.scalar (.i32 7)), some (.struct [some (.scalar (.i32 8)), none])]

def arena : Heap := ⟨#[0, 0, 0, 0, 0, 0, 0, 0, 7, 0, 0, 0, 16, 0, 0, 0, 8, 0, 0, 0, 0, 0, 0, 0]⟩

lemma placed : Placed schema node pair arena 8 := ⟨has_node, rfl, .empty, le_rfl, rfl⟩

lemma compact : schema.Compact := by
  refine ⟨size_lt, fun t key elem layout has is => ?_⟩
  rcases eq_of_has has with rfl | rfl | rfl <;> cases is.kind

end Chain

namespace Session

variable {known : Registry} {options : Options} {s : Session} {t : TypeDesc} {v : Value} {c : Content} {heap : Heap}
  {root : UInt32}

lemma task_of_fits {job : Job} (kind : t.kind = .struct) (frames : options.Framed) (wire : Bytes) (barrier : Bool) :
    task known options.maxNestingDepth job t wire heap root barrier = job.walk known (options.maxNestingDepth + 1)
    options.maxNestingDepth t root.toUInt64 (scene wire heap barrier) := by
  simp only [task, TypeDesc.recordType_struct kind, if_pos frames]

def verdict (script : Script) : Except SessionError Nat :=
  match script.error with
  | none => .ok script.bytes.length
  | some o => .error (.codec ⟨o.code, script.bytes.length⟩)

section Plays

variable {script : Script} (usable : known.Usable) (sound : s.Sound known options) (has : known.Has t)
  (kind : t.kind = .struct) (frames : options.Framed)
  (plays : Plays heap script fun out =>
    Writing.walk known out (options.maxNestingDepth + 1) options.maxNestingDepth t root.toUInt64) (barrier : Bool)

include usable sound has kind frames plays

lemma encodedSize_plays (short : script.bytes.length < 2 ^ 64) : (s.encodedSize known t heap root barrier).result =
    verdict script ∧ (s.encodedSize known t heap root barrier).heap = heap := by
  have delivers := (perform_delivers usable sound has .measure #[] (Nat.zero_le _) heap root barrier).1
  rw [task_of_fits kind frames] at delivers
  change Delivers _ _ _ (Writing.walk known .count _ _ _ _ _) at delivers
  rw [plays.count _ rfl] at delivers
  have place : ((scene #[] heap barrier).move script.bytes.length.toUInt64).pos.toNat = script.bytes.length := by
    change (0 + script.bytes.length.toUInt64).toNat = _
    rw [UInt64.zero_add, Nat.toUInt64_eq, UInt64.toNat_ofNat', Nat.mod_eq_of_lt short]
  obtain ⟨bytes, error⟩ := script
  cases error with
  | none => exact ⟨delivers.1.trans (congrArg _ place), delivers.2.heap⟩
  | some o =>
    obtain ⟨_, _, result, _, exact_⟩ := delivers
    obtain ⟨rfl, leaves⟩ := exact_ (.inl nofun)
    exact ⟨result.trans (by rw [place]; rfl), leaves.heap⟩

/-- Encoding plays a script. A buffer that is too short is filled up to a place before its end. -/
lemma encode_plays {out : Bytes} (outFits : out.size ≤ maxBlock) :
    (script.bytes.length ≤ out.size → (s.encode known t heap root out barrier).result = verdict script ∧
      (s.encode known t heap root out barrier).wire = patch out 0 script.bytes) ∧
    (out.size < script.bytes.length → ∃ place ≤ out.size,
      (s.encode known t heap root out barrier).result = .error (.codec ⟨.bufferTooSmall, place⟩) ∧
      (s.encode known t heap root out barrier).wire.toList = script.bytes.take place ++ out.toList.drop place) := by
  have small : out.size < 2 ^ 64 := lt_of_le_of_lt outFits (by decide)
  have written := plays.write (scene out heap barrier) rfl small (Nat.zero_le _)
  obtain ⟨delivers, -, spares⟩ := perform_delivers usable sound has .encode out outFits heap root barrier
  rw [task_of_fits kind frames] at delivers
  change Delivers _ _ (s.encode known t heap root out barrier) (Writing.walk known .write _ _ _ _ _) at delivers
  have put : ∀ {data : List UInt8}, data.length ≤ out.size →
      ((scene out heap barrier).put data).pos.toNat = data.length := fun fits =>
    (Scene.toNat_pos_put small (show 0 + _ ≤ out.size by rwa [Nat.zero_add])).trans (Nat.zero_add _)
  refine ⟨fun room => ?_, fun less => ?_⟩
  · rw [written.1 (by change 0 + _ ≤ out.size; rwa [Nat.zero_add])] at delivers
    obtain ⟨bytes, error⟩ := script
    cases error with
    | none => exact ⟨delivers.1.trans (congrArg _ (put room)), delivers.2.wire⟩
    | some o =>
      obtain ⟨_, _, result, _, exact_⟩ := delivers
      obtain ⟨rfl, leaves⟩ := exact_ (.inr (by cases o <;> nofun))
      exact ⟨result.trans (by rw [put room]; rfl), leaves.wire⟩
  · obtain ⟨k, low, fits, failed⟩ := written.2 (by change out.size < 0 + _; rwa [Nat.zero_add])
    change 0 + k ≤ out.size at fits
    rw [failed] at delivers
    obtain ⟨place, le, result, agree, _⟩ := delivers
    have length : (script.bytes.take k).length = k := List.length_take_of_le low.le
    have before : place.toNat ≤ k := length ▸ put (by rw [length]; omega) ▸ UInt64.le_iff_toNat_le.mp le
    refine ⟨place.toNat, by omega, result, List.ext_getElem? fun j => ?_⟩
    have taken : (script.bytes.take place.toNat).length = place.toNat := List.length_take_of_le (by omega)
    rw [Array.getElem?_toList]
    by_cases front : j < place.toNat
    · rw [List.getElem?_append_left (by rwa [taken]), agree j front, List.getElem?_take_of_lt front]
      change (patch out 0 (script.bytes.take k))[j]? = _
      rw [getElem?_patch, if_pos (by rw [length]; omega), Nat.sub_zero, List.getElem?_take_of_lt (by omega)]
    · rw [List.getElem?_append_right (by rw [taken]; omega), taken, List.getElem?_drop, Array.getElem?_toList,
        Nat.add_sub_cancel' (Nat.not_lt.mp front)]
      exact (spares rfl).wire _ _ result j (Nat.not_lt.mp front)

end Plays

lemma encode_of_rooted (usable : known.Usable) (compact : known.Compact) (sound : s.Sound known options)
    (rooted : Rooted known t c heap root) (distinct : c.NoRepeats known t)
    (cap : c.frames known t ≤ options.maxNestingDepth) (frames : options.Framed) (barrier : Bool)
    (outFits : out.size ≤ maxBlock) (room : (c.serial known t).length ≤ out.size) :
    (s.encode known t heap root out barrier).result = .ok (c.serial known t).length ∧
    (s.encode known t heap root out barrier).wire = patch out 0 (c.serial known t) ∧
    (s.encode known t heap root out barrier).heap = heap := by
  have plays := rooted.plays usable compact options.maxNestingDepth
  rw [Content.script_eq t c options.maxNestingDepth cap distinct] at plays
  obtain ⟨result, wire⟩ := (encode_plays usable sound rooted.has rooted.kind frames plays barrier outFits).1 room
  exact ⟨result, wire, ((perform_delivers usable sound rooted.has .encode out outFits heap root barrier).2.2 rfl).heap⟩

/-- Encoding a value into a buffer with room for it writes its bytes, given frames enough and sets without
repeats. It leaves the arena as it is. -/
theorem encode_writes_serial (regular : known.Regular) (compact : known.Compact) (sound : s.Sound known options)
    (placed : Placed known t v heap root) (distinct : (Content.ofValue known t v).NoRepeats known t)
    (cap : (Content.ofValue known t v).frames known t ≤ options.maxNestingDepth)
    (frames : Context.frameBytes * (options.maxNestingDepth + 1) ≤ maxBlock) (barrier : Bool) {out : Bytes}
    (outFits : out.size ≤ maxBlock) (room : ((Content.ofValue known t v).serial known t).length ≤ out.size) :
    (s.encode known t heap root out barrier).result = .ok ((Content.ofValue known t v).serial known t).length ∧
    (s.encode known t heap root out barrier).wire.toList.take ((Content.ofValue known t v).serial known t).length =
      (Content.ofValue known t v).serial known t ∧ (s.encode known t heap root out barrier).heap = heap := by
  have usable := regular.usable (regular.built.entriesFit compact.sizes)
  obtain ⟨result, wire, same⟩ := encode_of_rooted usable compact sound (placed.rooted usable) distinct cap frames barrier
    outFits room
  refine ⟨result, ?_, same⟩
  rw [wire, take_toList_patch room]

/-- A chain of two links takes nineteen bytes. -/
theorem encode_writes_serial_chain :
    ((start Chain.options).encode Chain.schema Chain.node Chain.arena 8 (Array.replicate 20 0) false).result = .ok 19 := by
  have distinct : (Content.ofValue Chain.schema Chain.node Chain.pair).NoRepeats Chain.schema Chain.node :=
    ⟨trivial, ⟨trivial, trivial, trivial⟩, trivial⟩
  exact (encode_writes_serial Chain.regular Chain.compact (sound_start _ Chain.options) Chain.placed distinct
    (by decide) (by decide) false (by decide) (by decide)).1

end Session

end WireCodec
