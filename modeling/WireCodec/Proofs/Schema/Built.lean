import Mathlib
import WireCodec.Schema.Registry

/-! Schemas as they can be built, and what holds of every type in one: its parts are types of
the schema, its size is that of its kind, and the slots of a record lie inside it side by
side. -/
namespace WireCodec

open List

namespace Registry

/-- The type is the one registered under its identity. -/
def Has (known : Registry) (t : TypeDesc) : Prop := known.get? t.id = some t

/-- Registries made of the basic types, containers, pointers and records. A record is defined
under an identity that was set aside, so that its own fields may refer to it. -/
inductive Built : Registry → Prop
  | empty : Built .empty
  | scalar {known : Registry} (kind : Kind) (isScalar : kind.isScalar = true)
      (built : Built known) : Built (known.add (.scalar kind)).2
  | string {known : Registry} (built : Built known) : Built (known.add .string).2
  | binary {known : Registry} (built : Built known) : Built (known.add .binary).2
  | list {known : Registry} {elem : TypeDesc} (has : known.Has elem) (built : Built known) :
      Built (known.add (.list elem)).2
  | set {known : Registry} {elem : TypeDesc} (has : known.Has elem) (built : Built known) :
      Built (known.add (.set elem)).2
  | map {known : Registry} {key elem : TypeDesc} (hasKey : known.Has key) (has : known.Has elem)
      (built : Built known) : Built (known.add (.map key elem)).2
  | pointer {known : Registry} {target : TypeDesc} (has : known.Has target)
      (built : Built known) : Built (known.add (.pointer (.strong target))).2
  | weakPointer {known : Registry} (id : Nat) (built : Built known) : Built (known.add (.pointer (.weak id))).2
  | reserve {known : Registry} (built : Built known) : Built known.reserve.2
  | define {known : Registry} {name : String} {fields : List FieldDesc} {id : Nat} {t : TypeDesc}
      (reserved : known.types[id]? = some none) (has : ∀ field ∈ fields, known.Has field.type)
      (made : TypeDesc.record name fields id = .ok t) (built : Built known) :
      Built (known.define t)

end Registry

def Kind.slotSize (kind : Kind) : UInt32 :=
  match kind.scalarSize? with
  | some size => size
  | none => if kind = .pointer then pointerSize else headerSize

/-- Fields of a record of `size` bytes: inside it, side by side, with numbers of their own. -/
structure LaidOut (fields : List FieldDesc) (size : Nat) : Prop where
  inside : ∀ field ∈ fields, field.offset.toNat + field.slotSize.toNat ≤ size
  apart : fields.Pairwise fun a b => a.offset.toNat + a.slotSize.toNat ≤ b.offset.toNat
  ids : (fields.map (·.id)).Nodup
  idRange : ∀ field ∈ fields, field.id.toNat < 2 ^ 15
  defaults : ∀ field ∈ fields, ∀ default, field.default = some default →
    field.requiredness = .optional ∧ default.kind = field.type.kind

/-- What a type is made of besides fields. -/
structure TypeDesc.Shaped (t : TypeDesc) : Prop where
  size : t.kind ≠ .struct → t.size = t.kind.slotSize
  elem : t.kind.isContainer = true → t.elem.isSome = true
  key : t.kind = .map → t.key.isSome = true
  target : t.kind = .pointer → t.target.isSome = true
  fields : t.kind ≠ .struct → t.fields = []
  laidOut : LaidOut t.fields t.size.toNat

def TypeDesc.parts (t : TypeDesc) : List TypeDesc :=
  t.elem.toList ++ t.key.toList ++ t.fields.map (·.type) ++ match t.target with
    | some (.strong target) => [target]
    | _ => []

/-- Every type is shaped as its kind asks, and its parts are known. -/
structure Registry.Sound (known : Registry) : Prop where
  named : ∀ id t, known.get? id = some t → t.id = id
  shaped : ∀ t, known.Has t → t.Shaped
  parts : ∀ t, known.Has t → ∀ part ∈ t.parts, known.Has part

section Layout

lemma fit_eq_ok {n : Nat} {off : UInt32} (h : fit n = .ok off) : off.toNat = n := by
  unfold fit at h
  split at h
  · cases h
    rename_i fits
    exact toNat_of_offset? fits
  · cases h

variable {owner : String} {seen : List UInt16} {fields : List FieldDesc}

lemma Field.check_eq_ok {field : FieldDesc} (checked : field.check owner seen = .ok ()) :
    field.id ∉ seen ∧ field.id.toNat < 2 ^ 15 ∧ ∀ default, field.default = some default →
      field.requiredness = .optional ∧ default.kind = field.type.kind := by
  unfold Field.check at checked
  split at checked
  · cases checked
  · rename_i fresh
    split at checked
    · cases checked
    · rename_i range
      refine ⟨by simpa using fresh, ?_, ?_⟩
      · have low : field.id ≤ maxFieldId := UInt16.not_lt.mp range
        have := UInt16.le_iff_toNat_le.mp low
        have top : maxFieldId.toNat = 32767 := rfl
        omega
      · intro default given
        rw [given] at checked
        simp only at checked
        split at checked
        · rename_i fits
          simpa using fits
        · cases checked

lemma placeFields_eq_ok {offset align : UInt32} {placed : List FieldDesc} {stop most : UInt32}
    (ok : placeFields owner fields seen offset align = .ok (placed, stop, most)) :
    LaidOut placed stop.toNat ∧ offset.toNat ≤ stop.toNat ∧
      (∀ field ∈ placed, offset.toNat ≤ field.offset.toNat ∧ field.id ∉ seen ∧
        ∃ given ∈ fields, field.type = given.type) := by
  induction fields generalizing seen offset align placed stop most with
  | nil =>
    cases ok
    exact ⟨⟨by simp, .nil, by simp, by simp, by simp⟩, le_rfl, by simp⟩
  | cons field rest ih =>
    simp only [placeFields, bind, Except.bind] at ok
    split at ok
    · cases ok
    rename_i checked
    have checked : field.check owner seen = .ok () := by
      cases given : field.check owner seen with
      | ok => rfl
      | error =>
        rw [given] at checked
        cases checked
    split at ok
    · cases ok
    rename_i start atStart
    split at ok
    · cases ok
    rename_i next atNext
    split at ok
    · cases ok
    rename_i result placing
    obtain ⟨tail, stop', most'⟩ := result
    simp only [pure, Except.pure, Except.ok.injEq, Prod.mk.injEq] at ok
    obtain ⟨rfl, rfl, rfl⟩ := ok
    obtain ⟨fresh, range, default⟩ := Field.check_eq_ok checked
    obtain ⟨laid, low, each⟩ := ih placing
    have startsAt : start.toNat = alignUp offset.toNat field.slotAlign.toNat := fit_eq_ok atStart
    have endsAt : next.toNat = start.toNat + field.slotSize.toNat := fit_eq_ok atNext
    have above : offset.toNat ≤ start.toNat := by
      rw [startsAt]
      exact le_alignUp _ _
    refine ⟨⟨?_, ?_, ?_, ?_, ?_⟩, by omega, ?_⟩
    · intro f mem
      rcases List.mem_cons.mp mem with rfl | mem
      · change start.toNat + field.slotSize.toNat ≤ _
        omega
      · exact laid.inside f mem
    · refine List.pairwise_cons.mpr ⟨fun f mem => ?_, laid.apart⟩
      have := (each f mem).1
      change start.toNat + field.slotSize.toNat ≤ _
      omega
    · rw [map_cons, nodup_cons]
      refine ⟨fun mem => ?_, laid.ids⟩
      obtain ⟨f, mem, same⟩ := List.mem_map.mp mem
      exact (each f mem).2.1 (List.mem_cons.mpr (.inl same))
    · intro f mem
      rcases List.mem_cons.mp mem with rfl | mem
      · exact range
      · exact laid.idRange f mem
    · intro f mem
      rcases List.mem_cons.mp mem with rfl | mem
      · exact default
      · exact laid.defaults f mem
    · intro f mem
      rcases List.mem_cons.mp mem with rfl | mem
      · exact ⟨above, fresh, field, mem_cons_self, rfl⟩
      · obtain ⟨low', fresh', given, mem', same⟩ := each f mem
        refine ⟨by omega, fun seen' => fresh' (mem_cons_of_mem _ seen'), given, mem_cons_of_mem _ mem', same⟩

lemma LaidOut.mono {size size' : Nat} (laid : LaidOut fields size) (le : size ≤ size') : LaidOut fields size' :=
  { laid with inside := fun field mem => le_trans (laid.inside field mem) le }

lemma record_eq_ok {name : String} {id : Nat} {t : TypeDesc} (made : TypeDesc.record name fields id = .ok t) : t.id = id
    ∧ t.Shaped ∧ t.kind = .struct ∧ ∀ part ∈ t.parts, ∃ field ∈ fields, part = field.type := by
  simp only [TypeDesc.record, bind, Except.bind] at made
  split at made
  · cases made
  rename_i result placing
  obtain ⟨placed, stop, align⟩ := result
  simp only at made
  split at made
  · cases made
  rename_i size atSize
  cases made
  obtain ⟨laid, _, each⟩ := placeFields_eq_ok placing
  have le : stop.toNat ≤ size.toNat := by
    rw [fit_eq_ok atSize]
    exact le_alignUp _ _
  refine ⟨rfl, ⟨by simp, by simp [Kind.isContainer], by simp, by simp, by simp, laid.mono le⟩, rfl, ?_⟩
  intro part mem
  simp only [TypeDesc.parts, Option.toList_none, nil_append, append_nil, mem_map] at mem
  obtain ⟨field, mem, rfl⟩ := mem
  exact (each field mem).2.2

end Layout

namespace Registry

variable {known : Registry}

variable {make : Nat → TypeDesc} {id : Nat} {t : TypeDesc}

lemma get?_add : (known.add make).2.get? id = some t ↔
      known.get? id = some t ∨ id = known.types.size ∧ make known.types.size = t := by
  simp only [add, get?, Array.getElem?_push]
  split
  · rename_i same
    simp [same]
  · rename_i differ
    simp [differ]

lemma Has.add (has : known.Has t) (make : Nat → TypeDesc) : (known.add make).2.Has t := get?_add.mpr (.inl has)

lemma Sound.add (sound : known.Sound) (named : ∀ id, (make id).id = id) (shaped : ∀ id, (make id).Shaped)
    (parts : ∀ id, ∀ part ∈ (make id).parts, known.Has part) : (known.add make).2.Sound := by
  refine ⟨?_, ?_, ?_⟩
  · intro id t got
    rcases get?_add.mp got with old | ⟨rfl, rfl⟩
    · exact sound.named id t old
    · exact named _
  · intro t has
    rcases get?_add.mp has with old | ⟨_, rfl⟩
    · exact sound.shaped t old
    · exact shaped _
  · intro t has part mem
    rcases get?_add.mp has with old | ⟨_, rfl⟩
    · exact (sound.parts t old part mem).add make
    · exact Has.add (parts _ part mem) make

lemma get?_reserve (id : Nat) : known.reserve.2.get? id = known.get? id := by
  simp only [reserve, get?, Array.getElem?_push]
  split
  · rename_i same
    simp [same]
  · rfl

lemma Sound.reserve (sound : known.Sound) : known.reserve.2.Sound := by
  have same : ∀ t, known.reserve.2.Has t ↔ known.Has t := fun t => by
    rw [Has, Has, get?_reserve]
  refine ⟨fun id t got => sound.named id t (get?_reserve id ▸ got),
    fun t has => sound.shaped t ((same t).mp has), fun t has part mem => ?_⟩
  exact (same part).mpr (sound.parts t ((same t).mp has) part mem)

lemma get?_define {u : TypeDesc} (reserved : known.types[t.id]? = some none) :
    (known.define t).get? id = some u ↔ known.get? id = some u ∨ id = t.id ∧ t = u := by
  obtain ⟨low, slot⟩ := Array.getElem?_eq_some_iff.mp reserved
  simp only [define, get?, Array.getElem?_setIfInBounds]
  by_cases same : t.id = id
  · subst same
    simp [low, slot]
  · simp [same, Ne.symm same]

lemma Sound.define (sound : known.Sound) (reserved : known.types[t.id]? = some none) (shaped : t.Shaped)
    (parts : ∀ part ∈ t.parts, known.Has part) : (known.define t).Sound := by
  have keeps : ∀ u, known.Has u → (known.define t).Has u := fun u has => (get?_define reserved).mpr (.inl has)
  refine ⟨?_, ?_, ?_⟩
  · intro id u got
    rcases (get?_define reserved).mp got with old | ⟨rfl, rfl⟩
    · exact sound.named id u old
    · rfl
  · intro u has
    rcases (get?_define reserved).mp has with old | ⟨_, rfl⟩
    · exact sound.shaped u old
    · exact shaped
  · intro u has part mem
    rcases (get?_define reserved).mp has with old | ⟨_, rfl⟩
    · exact keeps part (sound.parts u old part mem)
    · exact keeps part (parts part mem)

lemma laidOut_nil (size : Nat) : LaidOut [] size :=
  ⟨by simp, .nil, by simp, by simp, by simp⟩

lemma Built.sound (built : Built known) : known.Sound := by
  induction built with
  | empty =>
    have none : ∀ id t, Registry.empty.get? id ≠ some t := by
      simp [get?, Registry.empty]
    exact ⟨fun id t got => absurd got (none id t), fun t has => absurd has (none _ t),
      fun t has => absurd has (none _ t)⟩
  | @scalar known kind isScalar _ ih =>
    refine ih.add (fun _ => rfl) (fun id => ?_) (fun id part mem => ?_)
    · refine ⟨fun _ => ?_, ?_, ?_, ?_, fun _ => rfl, laidOut_nil _⟩
      all_goals revert isScalar; cases kind <;> simp [Kind.isScalar, Kind.scalarSize?,
        Kind.isContainer, TypeDesc.scalar, TypeDesc.leaf, Kind.slotSize]
    · cases mem
  | string _ ih | binary _ ih =>
    exact ih.add (fun _ => rfl)
      (fun _ => ⟨fun _ => rfl, nofun, nofun, nofun, fun _ => rfl, laidOut_nil _⟩) (fun _ _ => nofun)
  | list has _ ih | set has _ ih =>
    refine ih.add (fun _ => rfl) (fun _ => ⟨fun _ => rfl, fun _ => rfl, nofun, nofun, fun _ => rfl, laidOut_nil _⟩) ?_
    intro _ part mem
    cases List.mem_singleton.mp mem
    exact has
  | map hasKey has _ ih =>
    refine ih.add (fun _ => rfl)
      (fun _ => ⟨fun _ => rfl, fun _ => rfl, fun _ => rfl, nofun, fun _ => rfl, laidOut_nil _⟩) ?_
    intro _ part mem
    rcases List.mem_cons.mp mem with rfl | mem
    · exact has
    · cases List.mem_singleton.mp mem
      exact hasKey
  | pointer has _ ih =>
    refine ih.add (fun _ => rfl) (fun _ => ⟨fun _ => rfl, nofun, nofun, fun _ => rfl, fun _ => rfl, laidOut_nil _⟩) ?_
    intro _ part mem
    cases List.mem_singleton.mp mem
    exact has
  | weakPointer id _ ih =>
    exact ih.add (fun _ => rfl) (fun _ => ⟨fun _ => rfl, nofun, nofun, fun _ => rfl, fun _ => rfl, laidOut_nil _⟩)
      (fun _ _ => nofun)
  | reserve _ ih => exact ih.reserve
  | define reserved has made _ ih =>
    obtain ⟨named, shaped, _, parts⟩ := record_eq_ok made
    refine ih.define (named ▸ reserved) shaped ?_
    intro part mem
    obtain ⟨field, given, rfl⟩ := parts part mem
    exact has field given

end Registry

/-- A schema that codecs can be made for: pointers refer to records, map entries have a layout,
no record has more than 217 fields, and types can be numbered by 32 bits. -/
structure Registry.Usable (known : Registry) : Prop where
  sound : known.Sound
  targets : ∀ t, known.Has t → t.kind = .pointer → ∃ record, t.recordType known = .ok record ∧ record.kind = .struct
  entries : ∀ t key elem, known.Has t → t.kind = .map → t.key = some key → t.elem = some elem →
    (TypeDesc.EntryLayout.of? key elem).isSome = true
  fieldCount : ∀ t, known.Has t → t.fields.length ≤ 217
  numbers : known.types.size ≤ 2 ^ 32

/-- A schema made with the constructors whose pointers refer to records and whose records have at
most 217 fields. -/
structure Registry.Regular (known : Registry) : Prop where
  built : known.Built
  targets : ∀ t, known.Has t → t.kind = .pointer → ∃ record, t.recordType known = .ok record ∧ record.kind = .struct
  fieldCount : ∀ t, known.Has t → t.fields.length ≤ 217
  numbers : known.types.size ≤ 2 ^ 32

/-- Sound descriptors, few enough for numbers of 32 bits. -/
structure Registry.Numbered (known : Registry) : Prop where
  sound : known.Sound
  numbers : known.types.size ≤ 2 ^ 32

/-- No check for room can ask for more than 32 bits hold: there is less of it, or records are not that large. -/
def Registry.Roomy (known : Registry) (size : Nat) : Prop :=
  size < 2 ^ 32 - 1 ∨ ∀ t, known.Has t → t.fields.length ≤ 2 ^ 13

def Registry.Target (known : Registry) (record : TypeDesc) : Prop :=
  ∃ t, known.Has t ∧ t.recordType known = .ok record

def Registry.EntriesFit (known : Registry) : Prop :=
  ∀ t key elem, known.Has t → t.kind = .map → t.key = some key → t.elem = some elem →
    (TypeDesc.EntryLayout.of? key elem).isSome = true

namespace Registry

variable {known : Registry} {t : TypeDesc}

lemma Regular.usable (regular : known.Regular) (entries : known.EntriesFit) : known.Usable :=
  ⟨regular.built.sound, regular.targets, entries, regular.fieldCount, regular.numbers⟩

lemma Usable.numbered (usable : known.Usable) : known.Numbered := ⟨usable.sound, usable.numbers⟩

lemma Usable.roomy (usable : known.Usable) (size : Nat) : known.Roomy size :=
  .inr fun t has => (usable.fieldCount t has).trans (by decide)

/-- Fields have numbers of 15 bits. -/
lemma Sound.length_fields_le (sound : known.Sound) (has : known.Has t) : t.fields.length ≤ 2 ^ 15 := by
  have laid := (sound.shaped t has).laidOut
  have nodup : (t.fields.map (·.id.toNat)).Nodup := by
    have := laid.ids.map fun _ _ => UInt16.toNat_inj.mp
    rwa [List.map_map] at this
  have low : t.fields.map (·.id.toNat) ⊆ List.range (2 ^ 15) := by
    intro n mem
    obtain ⟨field, isField, rfl⟩ := List.mem_map.mp mem
    exact List.mem_range.mpr (laid.idRange field isField)
  have := (nodup.subperm low).length_le
  rwa [List.length_map, List.length_range] at this

lemma recordType_struct (kind : t.kind = .struct) : t.recordType known = .ok t := by
  simp [TypeDesc.recordType, kind]

section

variable (sound : known.Sound) (has : known.Has t)
include sound has

lemma Sound.recordType {record : TypeDesc} (ok : t.recordType known = .ok record) : known.Has record := by
  unfold TypeDesc.recordType at ok
  split at ok
  · cases ok
    exact has
  · unfold TypeDesc.pointee at ok
    split at ok
    · rename_i ref target
      unfold resolve at ok
      split at ok
      · cases ok
        refine sound.parts t has _ ?_
        simp [TypeDesc.parts, target]
      · split at ok
        · cases ok
          rename_i got
          have named := sound.named _ _ got
          subst named
          exact got
        · cases ok
    · cases ok
  · cases ok

lemma Sound.elem {elem : TypeDesc} (given : t.elem = some elem) : known.Has elem :=
  sound.parts t has elem (by simp [TypeDesc.parts, given])

lemma Sound.key {key : TypeDesc} (given : t.key = some key) : known.Has key :=
  sound.parts t has key (by simp [TypeDesc.parts, given])

lemma Sound.field {field : FieldDesc} (mem : field ∈ t.fields) : known.Has field.type := by
  refine sound.parts t has field.type ?_
  simp only [TypeDesc.parts, mem_append, mem_map]
  exact .inl (.inr ⟨field, mem, rfl⟩)

end

lemma Target.has (sound : known.Sound) {record : TypeDesc} (target : known.Target record) : known.Has record := by
  obtain ⟨t, has, found⟩ := target
  exact sound.recordType has found

lemma Usable.record (usable : known.Usable) (has : known.Has t) (isRecord : t.kind = .struct ∨ t.kind = .pointer) : ∃
    record, t.recordType known = .ok record ∧ record.kind = .struct ∧ known.Has record := by
  rcases isRecord with kind | kind
  · exact ⟨t, recordType_struct kind, kind, has⟩
  · obtain ⟨record, ok, struct⟩ := usable.targets t has kind
    exact ⟨record, ok, struct, usable.sound.recordType has ok⟩

lemma Usable.recordType_kind (usable : known.Usable) (has : known.Has t) {record : TypeDesc}
    (ok : t.recordType known = .ok record) : record.kind = .struct := by
  by_cases struct : t.kind = .struct
  · simp only [TypeDesc.recordType, struct] at ok
    exact Except.ok.inj ok ▸ struct
  by_cases pointer : t.kind = .pointer
  · obtain ⟨other, ok', kind⟩ := usable.targets t has pointer
    rw [ok] at ok'
    exact Except.ok.inj ok' ▸ kind
  · unfold TypeDesc.recordType at ok
    split at ok
    · contradiction
    · contradiction
    · cases ok

end Registry

lemma TypeDesc.inner_induction {motive : TypeDesc → Prop}
    (step : ∀ t : TypeDesc, (∀ elem, t.elem = some elem → motive elem) →
      (∀ key, t.key = some key → motive key) → motive t) (t : TypeDesc) : motive t := by
  obtain ⟨_, kind⟩ := t
  refine step _ (fun e given => ?_) (fun k given => ?_)
  · cases given
    exact inner_induction step e
  · cases given
    exact inner_induction step k

end WireCodec
