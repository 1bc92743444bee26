import WireCodec.Proofs.Codec.Canonical
import WireCodec.Proofs.Text

/-! When what is in memory can be sent, told from the value that it reads back as. -/
namespace WireCodec

open Lowering List

variable {elems slots : List Content} {fields : List FieldDesc} {c : Content}

namespace Value

mutual
/-- A property of a value of a type, and of all its parts. -/
def Every (known : Registry) (p : TypeDesc → Value → Prop) (t : TypeDesc) : Value → Prop
  | .scalar s => p t (.scalar s)
  | .string s => p t (.string s)
  | .binary data => p t (.binary data)
  | .list items => p t (.list items) ∧ EveryItem known p t.part items
  | .set items => p t (.set items) ∧ EveryItem known p t.part items
  | .map entries => p t (.map entries) ∧ EveryEntry known p t.keyPart t.part entries
  | .struct slots => p t (.struct slots) ∧ EverySlot known p (t.recordFields known) slots

def EveryItem (known : Registry) (p : TypeDesc → Value → Prop) (t : TypeDesc) : List Value → Prop
  | [] => True
  | v :: rest => Every known p t v ∧ EveryItem known p t rest

def EveryEntry (known : Registry) (p : TypeDesc → Value → Prop) (key elem : TypeDesc) : List (Value × Value) → Prop
  | [] => True
  | (k, v) :: rest => Every known p key k ∧ Every known p elem v ∧ EveryEntry known p key elem rest

def EverySlot (known : Registry) (p : TypeDesc → Value → Prop) : List FieldDesc → List (Option Value) → Prop
  | field :: fields, some v :: rest => Every known p field.type v ∧ EverySlot known p fields rest
  | _ :: fields, none :: rest => EverySlot known p fields rest
  | _, _ => True
end

def HasRequired (known : Registry) (t : TypeDesc) : Value → Prop
  | .struct slots => ∀ slot ∈ (t.recordFields known).zip slots, slot.1.requiredness = .required → slot.2.isSome = true
  | _ => True

instance (known : Registry) (t : TypeDesc) : (v : Value) → Decidable (HasRequired known t v)
  | .struct slots => inferInstanceAs (Decidable (∀ slot ∈ (t.recordFields known).zip slots,
      slot.1.requiredness = .required → slot.2.isSome = true))
  | .scalar _ | .string _ | .binary _ | .list _ | .set _ | .map _ => isTrue trivial

/-- Strings and containers have less than two to the thirty-one parts, and sets no two equal elements. -/
def IsCountable : Value → Prop
  | .scalar _ | .struct _ => True
  | .string s => s.utf8ByteSize < 2 ^ 31
  | .binary data => data.length < 2 ^ 31
  | .list items => items.length < 2 ^ 31
  | .set items => items.length < 2 ^ 31 ∧ items.Nodup
  | .map entries => entries.length < 2 ^ 31

mutual
/-- The frames that reading a value enters: on each path one for a record, and one for a container that has entries
with a part that is no scalar, string or binary. -/
def depth (known : Registry) (t : TypeDesc) : Value → Nat
  | .scalar _ | .string _ | .binary _ => 0
  | .list items => depthItems known t.part items + if Content.isFlat t items.length then 0 else 1
  | .set items => depthItems known t.part items + if Content.isFlat t items.length then 0 else 1
  | .map entries => depthEntries known t.keyPart t.part entries + if Content.isFlat t entries.length then 0 else 1
  | .struct slots => depthSlots known (t.recordFields known) slots + 1

def depthItems (known : Registry) (t : TypeDesc) : List Value → Nat
  | [] => 0
  | v :: rest => max (depth known t v) (depthItems known t rest)

def depthEntries (known : Registry) (key elem : TypeDesc) : List (Value × Value) → Nat
  | [] => 0
  | (k, v) :: rest => max (max (depth known key k) (depth known elem v)) (depthEntries known key elem rest)

def depthSlots (known : Registry) : List FieldDesc → List (Option Value) → Nat
  | field :: fields, some v :: rest => max (depth known field.type v) (depthSlots known fields rest)
  | _ :: fields, none :: rest => depthSlots known fields rest
  | _, _ => 0
end

end Value

namespace Content

mutual
/-- Like content that can be sent, but with required fields that may be missing. -/
def Tidy (known : Registry) (t : TypeDesc) : Content → Prop
  | .word _ => True
  | .blob data => data.length < 2 ^ 31
  | .items elems => elems.length < 2 ^ 31 ∧ (t.kind = .set → (values known t.part elems).Nodup) ∧
      TidyAll known t.part elems
  | .entries keys elems => elems.length = keys.length ∧ keys.length < 2 ^ 31 ∧ TidyAll known t.keyPart keys ∧
      TidyAll known t.part elems
  | .record slots => TidyFields known (t.recordFields known) slots
  | .nil => False

def TidyAll (known : Registry) (t : TypeDesc) : List Content → Prop
  | [] => True
  | c :: rest => Tidy known t c ∧ TidyAll known t rest

def TidyFields (known : Registry) : List FieldDesc → List Content → Prop
  | field :: fields, c :: rest => (c.isNil = true ∨ Tidy known field.type c) ∧ TidyFields known fields rest
  | _, _ => True
end

variable {known : Registry} {t key : TypeDesc} {keys : List Content}

lemma tidyAll_iff : TidyAll known t elems ↔ ∀ c ∈ elems, c.Tidy known t :=
  each_elem trivial fun _ _ => Iff.rfl

lemma tidyFields_iff : TidyFields known fields slots ↔ ∀ (i : Nat) (field : FieldDesc) c, fields[i]? = some field →
    slots[i]? = some c → c.isNil = true ∨ c.Tidy known field.type :=
  each_slot (by simp [TidyFields]) (by simp [TidyFields]) fun _ _ _ _ => Iff.rfl

/-! What holds of all parts of a value holds of the parts of its content. -/

section Parts

variable {p : TypeDesc → Value → Prop}

lemma everyItem_values :
    Value.EveryItem known p t (values known t elems) ↔ ∀ c ∈ elems, (c.value known t).Every known p t :=
  each_elem (D := fun elems => Value.EveryItem known p t (values known t elems)) trivial fun _ _ => Iff.rfl

lemma everyEntry_values (length : elems.length = keys.length) :
    Value.EveryEntry known p key t ((values known key keys).zip (values known t elems)) ↔
      (∀ c ∈ keys, (c.value known key).Every known p key) ∧ ∀ c ∈ elems, (c.value known t).Every known p t := by
  induction keys generalizing elems with
  | nil =>
    obtain rfl := eq_nil_of_length_eq_zero length
    simp [values, Value.EveryEntry]
  | cons k rest ih =>
    cases elems with
    | nil => cases length
    | cons c others =>
      simp only [values, zip_cons_cons, Value.EveryEntry, ih (Nat.succ.inj length), forall_mem_cons]
      tauto

lemma everySlot_slotValues :
    Value.EverySlot known p fields (slotValues known fields slots) ↔ ∀ (i : Nat) (field : FieldDesc) c,
      fields[i]? = some field → slots[i]? = some c → c.isNil = false → (c.value known field.type).Every known p field.type := by
  refine each_slot (D := fun fields slots => Value.EverySlot known p fields (slotValues known fields slots))
    (by simp [slotValues, Value.EverySlot]) (by simp [slotValues, Value.EverySlot]) fun field fields c rest => ?_
  rw [slotValues]
  cases isNil : c.isNil with
  | true | false => simp [Value.EverySlot]

end Parts

lemma slotValues_getElem? {i : Nat} {field : FieldDesc} (at_ : fields[i]? = some field) (held : slots[i]? = some c) :
    (slotValues known fields slots)[i]? = some (if c.isNil then none else some (c.value known field.type)) := by
  induction fields generalizing slots i with
  | nil => cases at_
  | cons first fields ih =>
    cases slots with
    | nil => cases held
    | cons c' rest =>
      cases i with
      | zero =>
        cases at_
        cases held
        rfl
      | succ i => exact ih at_ held

/-- Tidy content can be sent if the value it reads back as has all required fields. -/
lemma Tidy.sendable (tidy : c.Tidy known t) (complete : (c.value known t).Every known (Value.HasRequired known) t) :
    c.Sendable known t := by
  induction c using Content.induction generalizing t with
  | word w => exact trivial
  | blob data => exact tidy
  | nil => exact tidy
  | items elems ih =>
    rw [Tidy, tidyAll_iff] at tidy
    have parts : ∀ c ∈ elems, (c.value known t.part).Every known (Value.HasRequired known) t.part := by
      rw [← everyItem_values]
      rw [value] at complete
      split at complete
      · exact complete.2
      · exact complete.2
    rw [Sendable, sendableAll_iff]
    exact ⟨tidy.1, tidy.2.1, fun c mem => ih c mem (tidy.2.2 c mem) (parts c mem)⟩
  | entries keys elems ihKey ih =>
    rw [Tidy, tidyAll_iff, tidyAll_iff] at tidy
    obtain ⟨length, short, goodKey, good⟩ := tidy
    rw [value, Value.Every, everyEntry_values length] at complete
    rw [Sendable, sendableAll_iff, sendableAll_iff]
    exact ⟨short, fun c mem => ihKey c mem (goodKey c mem) (complete.2.1 c mem),
      fun c mem => ih c mem (good c mem) (complete.2.2 c mem)⟩
  | record slots ih =>
    rw [Tidy, tidyFields_iff] at tidy
    rw [value, Value.Every, everySlot_slotValues] at complete
    rw [Sendable, sendableFields_iff]
    intro i field c at_ held
    cases isNil : c.isNil with
    | true =>
      have slot := @slotValues_getElem? _ _ _ known _ _ at_ held
      rw [isNil, if_pos rfl] at slot
      have pair : ((t.recordFields known).zip (slotValues known (t.recordFields known) slots))[i]? =
          some (field, none) := List.getElem?_zip_eq_some.mpr ⟨at_, slot⟩
      rw [if_pos rfl]
      intro required
      cases complete.1 _ (mem_of_getElem? pair) required
    | false =>
      rw [if_neg Bool.false_ne_true]
      refine ih c (mem_of_getElem? held) ?_ (complete.2 i field c at_ held isNil)
      rcases tidy i field c at_ held with none_ | tidy
      · rw [isNil] at none_
        cases none_
      · exact tidy

/-! Depth. -/

lemma depthAll_values (each : ∀ c ∈ elems, c.depth known t ≤ (c.value known t).depth known t) :
    depthAll known t elems ≤ Value.depthItems known t (values known t elems) := by
  induction elems with
  | nil => exact le_rfl
  | cons c rest ih =>
    rw [depthAll, values, Value.depthItems]
    have := each c mem_cons_self
    have := ih fun c mem => each c (mem_cons_of_mem _ mem)
    omega

lemma depthEntries_le (length : elems.length = keys.length)
    (eachKey : ∀ c ∈ keys, c.depth known key ≤ (c.value known key).depth known key)
    (each : ∀ c ∈ elems, c.depth known t ≤ (c.value known t).depth known t) : max (depthAll known key keys)
    (depthAll known t elems) ≤ Value.depthEntries known key t ((values known key keys).zip (values known t elems)) := by
  induction keys generalizing elems with
  | nil =>
    obtain rfl := eq_nil_of_length_eq_zero length
    exact le_rfl
  | cons k rest ih =>
    cases elems with
    | nil => cases length
    | cons c others =>
      rw [depthAll, depthAll, values, values, zip_cons_cons, Value.depthEntries]
      have := eachKey k mem_cons_self
      have := each c mem_cons_self
      have := ih (Nat.succ.inj length) (fun c mem => eachKey c (mem_cons_of_mem _ mem))
        fun c mem => each c (mem_cons_of_mem _ mem)
      omega

lemma depthFields_slotValues
    (each : ∀ (i : Nat) (field : FieldDesc) c, fields[i]? = some field → slots[i]? = some c → c.isNil = false →
      c.depth known field.type ≤ (c.value known field.type).depth known field.type) :
    depthFields known fields slots ≤ Value.depthSlots known fields (slotValues known fields slots) := by
  induction fields generalizing slots with
  | nil => cases slots <;> exact le_rfl
  | cons field fields ih =>
    cases slots with
    | nil => exact le_rfl
    | cons c rest =>
      have others := ih fun i f c' at_ held => each (i + 1) f c' at_ held
      rw [depthFields, slotValues]
      cases isNil : c.isNil with
      | true =>
        rw [if_pos rfl, Value.depthSlots]
        cases c with
        | nil => exact Nat.max_le.mpr ⟨Nat.zero_le _, others⟩
        | _ => cases isNil
      | false =>
        rw [if_neg Bool.false_ne_true, Value.depthSlots]
        have := each 0 field c rfl rfl isNil
        omega

lemma Tidy.depth_le (tidy : c.Tidy known t) : c.depth known t ≤ (c.value known t).depth known t := by
  induction c using Content.induction generalizing t with
  | word w => exact Nat.zero_le _
  | blob data => exact Nat.zero_le _
  | nil => exact Nat.zero_le _
  | items elems ih =>
    rw [Tidy, tidyAll_iff] at tidy
    have length : (values known t.part elems).length = elems.length := by rw [values_eq_map, length_map]
    have parts := depthAll_values fun c mem => ih c mem (tidy.2.2 c mem)
    rw [depth, value]
    by_cases set : t.kind = .set
    · rw [if_pos set, Value.depth, length]
      omega
    · rw [if_neg set, Value.depth, length]
      omega
  | entries keys elems ihKey ih =>
    rw [Tidy, tidyAll_iff, tidyAll_iff] at tidy
    obtain ⟨length, _, goodKey, good⟩ := tidy
    have count : ((values known t.keyPart keys).zip (values known t.part elems)).length = keys.length := by
      rw [length_zip, values_eq_map, values_eq_map, length_map, length_map]
      omega
    have parts := depthEntries_le length (fun c mem => ihKey c mem (goodKey c mem)) fun c mem => ih c mem (good c mem)
    rw [depth, value, Value.depth, count]
    omega
  | record slots ih =>
    rw [Tidy, tidyFields_iff] at tidy
    rw [depth, value, Value.depth]
    refine Nat.add_le_add_right (depthFields_slotValues fun i field c at_ held full => ?_) 1
    rcases tidy i field c at_ held with isNil | good
    · rw [full] at isNil
      cases isNil
    · exact ih c (mem_of_getElem? held) good

lemma frames_le_depth (c : Content) : c.frames known t ≤ c.depth known t := by
  induction c using Content.induction generalizing t with
  | word w => exact le_rfl
  | blob data => exact le_rfl
  | nil => exact le_rfl
  | items elems ih =>
    rw [frames, depth]
    exact Nat.add_le_add_right (framesAll_le.mpr fun c mem =>
      le_trans (ih c mem) (depthAll_le.mp le_rfl c mem)) _
  | entries keys elems ihKey ih =>
    have first : framesAll known t.keyPart keys ≤ _ := framesAll_le.mpr fun c mem =>
      le_trans (ihKey c mem) (depthAll_le.mp le_rfl c mem)
    have second : framesAll known t.part elems ≤ _ := framesAll_le.mpr fun c mem =>
      le_trans (ih c mem) (depthAll_le.mp le_rfl c mem)
    rw [frames, depth]
    omega
  | record slots ih =>
    have fields : framesFields known (t.recordFields known) slots ≤ _ := framesFields_le.mpr fun i field c at_ held =>
      le_trans (ih c (mem_of_getElem? held)) (depthFields_le.mp le_rfl i field c at_ held)
    rw [frames, depth]
    split <;> omega

lemma Tidy.noRepeats (tidy : c.Tidy known t) : c.NoRepeats known t := by
  induction c using Content.induction generalizing t with
  | word w => exact trivial
  | blob data => exact trivial
  | nil => exact trivial
  | items elems ih =>
    rw [Tidy, tidyAll_iff] at tidy
    exact ⟨tidy.2.1, noRepeatsAll_iff.mpr fun c mem => ih c mem (tidy.2.2 c mem)⟩
  | entries keys elems ihKey ih =>
    rw [Tidy, tidyAll_iff, tidyAll_iff] at tidy
    exact ⟨noRepeatsAll_iff.mpr fun c mem => ihKey c mem (tidy.2.2.1 c mem),
      noRepeatsAll_iff.mpr fun c mem => ih c mem (tidy.2.2.2 c mem)⟩
  | record slots ih =>
    rw [Tidy, tidyFields_iff] at tidy
    refine noRepeatsFields_iff.mpr fun i field c at_ held => ?_
    rcases tidy i field c at_ held with isNil | good
    · cases c with
      | nil => exact trivial
      | _ => cases isNil
    · exact ih c (mem_of_getElem? held) good

/-! Which contents are tidy. -/

lemma tidy_zero (t : TypeDesc) : (zero t).isNil = true ∨ (zero t).Tidy known t := by
  induction t using TypeDesc.field_induction with
  | step t ih =>
    rw [zero_eq]
    by_cases kind : t.kind = .struct
    · rw [if_pos kind]
      refine .inr ?_
      rw [Tidy, TypeDesc.recordFields_struct kind, tidyFields_iff]
      intro i field c at_ held
      rw [zeroSlots_getElem?, at_, Option.map_some] at held
      cases held
      split
      · exact .inl rfl
      · exact ih field (mem_of_getElem? at_)
    · rw [if_neg kind]
      split
      · exact .inr trivial
      · exact .inl rfl

lemma tidy_absent (field : FieldDesc) : (absent field).isNil = true ∨ (absent field).Tidy known field.type := by
  unfold absent
  split
  · exact .inr trivial
  · split
    · exact .inl rfl
    · exact tidy_zero field.type

lemma tidy_blob {data : List UInt8}
    (countable : ((Content.blob data).value known t).Every known (fun _ => Value.IsCountable) t) :
    (Content.blob data).Tidy known t := by
  rw [value] at countable
  split at countable
  · exact lt_of_le_of_lt (Text.length_le_lossy data) countable
  · exact countable

lemma tidy_items (countable : ((Content.items elems).value known t).Every known (fun _ => Value.IsCountable) t)
    (each : ∀ c ∈ elems, (c.value known t.part).Every known (fun _ => Value.IsCountable) t.part → c.Tidy known t.part) :
    (Content.items elems).Tidy known t := by
  have length : (values known t.part elems).length = elems.length := by rw [values_eq_map, length_map]
  rw [Tidy, tidyAll_iff, ← length]
  rw [value] at countable
  split at countable
  · rw [Value.Every, everyItem_values] at countable
    exact ⟨countable.1.1, fun _ => countable.1.2, fun c mem => each c mem (countable.2 c mem)⟩
  · rename_i notSet
    rw [Value.Every, everyItem_values] at countable
    exact ⟨countable.1, fun set => absurd set notSet, fun c mem => each c mem (countable.2 c mem)⟩

lemma eq_of_ofSlots {slots : List (Option Value)} {i : Nat} {field : FieldDesc} (at_ : fields[i]? = some field)
    (held : (ofSlots known fields slots)[i]? = some c) :
    (∃ v, some v ∈ slots ∧ c = ofValue known field.type v) ∨ c = absent field := by
  induction fields generalizing slots i with
  | nil => cases at_
  | cons first fields ih =>
    cases slots with
    | nil => cases held
    | cons slot rest =>
      cases i with
      | zero =>
        cases at_
        cases slot with
        | none =>
          cases held
          exact .inr rfl
        | some v =>
          cases held
          exact .inl ⟨v, mem_cons_self, rfl⟩
      | succ i =>
        have later : (ofSlots known fields rest)[i]? = some c := by
          cases slot with
          | none => exact held
          | some v => exact held
        rcases ih at_ later with ⟨v, mem, is⟩ | is
        · exact .inl ⟨v, mem_cons_of_mem _ mem, is⟩
        · exact .inr is

lemma tidy_ofValue (v : Value) (t : TypeDesc)
    (countable : ((ofValue known t v).value known t).Every known (fun _ => Value.IsCountable) t) :
    (ofValue known t v).Tidy known t := by
  induction v using Value.induction generalizing t with
  | scalar s => exact trivial
  | string | binary => exact tidy_blob countable
  | list items ih | set items ih =>
    refine tidy_items countable fun c mem good => ?_
    obtain ⟨v, member, rfl⟩ := mem_map.mp (ofItems_eq_map items ▸ mem_of_mem_take mem)
    exact ih v member t.part good
  | map entries ih =>
    have length : (counted (ofElems known t.part entries)).length = (counted (ofKeys known t.keyPart entries)).length := by
      rw [length_counted, length_counted, ofElems_eq_map, ofKeys_eq_map, length_map, length_map]
    rw [ofValue, value, Value.Every, everyEntry_values length] at countable
    obtain ⟨short, goodKey, good⟩ := countable
    have count : ((values known t.keyPart (counted (ofKeys known t.keyPart entries))).zip
        (values known t.part (counted (ofElems known t.part entries)))).length =
          (counted (ofKeys known t.keyPart entries)).length := by
      rw [length_zip, values_eq_map, values_eq_map, length_map, length_map, length, Nat.min_self]
    rw [ofValue, Tidy, tidyAll_iff, tidyAll_iff]
    refine ⟨length, count ▸ short, fun c mem => ?_, fun c mem => ?_⟩
    · obtain ⟨e, member, rfl⟩ := mem_map.mp (ofKeys_eq_map entries ▸ mem_of_mem_take mem)
      exact (ih e member).1 t.keyPart (goodKey _ mem)
    · obtain ⟨e, member, rfl⟩ := mem_map.mp (ofElems_eq_map entries ▸ mem_of_mem_take mem)
      exact (ih e member).2 t.part (good _ mem)
  | struct slots ih =>
    rw [ofValue, value, Value.Every, everySlot_slotValues] at countable
    rw [ofValue, Tidy, tidyFields_iff]
    intro i field c at_ held
    cases full : c.isNil with
    | true => exact .inl rfl
    | false =>
      have good := countable.2 i field c at_ held full
      rcases eq_of_ofSlots at_ held with ⟨v, mem, rfl⟩ | rfl
      · exact .inr (ih v mem field.type good)
      · have := @tidy_absent known field
        rwa [full] at this

end Content

lemma Spells.tidy {known : Registry} {boxed : Bool} {left : Nat} {t : TypeDesc} {bytes : List UInt8}
    {s s' : Nat} (spells : Spells known boxed left t bytes c s s') : c.Tidy known t := by
  induction spells using Spells.parts_induction with
  | cell => exact trivial
  | word => exact trivial
  | blob kind short => exact short
  | items is short tags distinct through =>
    rw [Content.Tidy, is.part, Content.tidyAll_iff, length_map]
    refine ⟨short, distinct, fun c mem => ?_⟩
    obtain ⟨part, member, rfl⟩ := List.mem_map.mp mem
    obtain ⟨_, _, _, tidy⟩ := through.mem member
    exact tidy
  | entries is short tags through =>
    rw [Content.Tidy, is.part, is.keyPart, Content.tidyAll_iff, Content.tidyAll_iff]
    simp only [length_map, map_map, mem_map, Function.comp_apply, true_and]
    refine ⟨short, ?_, ?_⟩
    all_goals
      rintro _ ⟨entry, member, rfl⟩
      obtain ⟨_, _, _, ⟨_, tidyKey⟩, _, tidy⟩ := through.mem member
    · exact tidyKey
    · exact tidy
  | record kind make through =>
    rw [Content.Tidy, TypeDesc.recordFields_struct kind, Content.tidyFields_iff]
    intro i field c at_ held
    rcases make.slot i field c at_ held with ⟨o, member, is⟩ | ⟨_, _, rfl⟩
    · obtain ⟨_, _, ⟨none_, _⟩ | ⟨_, _, field', is', found, _, tidy⟩⟩ := through.mem member
      · cases none_.symm.trans is
      · cases is.symm.trans is'
        cases at_.symm.trans found
        exact .inr tidy
    · exact Content.tidy_absent field
  | target kind isRecord struct inner tidy =>
    have same := TypeDesc.recordFields_target isRecord (.inl struct)
    obtain ⟨slots, rfl⟩ := inner.eq_record struct
    rwa [Content.Tidy, same]

end WireCodec
