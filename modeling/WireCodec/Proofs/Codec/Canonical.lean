import WireCodec.Proofs.Codec.Parts

/-! The bytes that are written for a content spell it, if they can: counts must be positive as signed numbers,
sets without repeats, and required fields present. -/
namespace WireCodec

open Lowering List Heap

variable {elems slots : List Content} {fields : List FieldDesc} {i : Nat} {field : FieldDesc}

def Heap.afterAll (size : Nat) (blocks : List Nat) : Nat := blocks.foldl after size

lemma Heap.afterAll_cons (size count : Nat) (blocks : List Nat) :
    afterAll size (count :: blocks) = afterAll (after size count) blocks := rfl

lemma Heap.afterAll_append (size : Nat) (blocks more : List Nat) :
    afterAll size (blocks ++ more) = afterAll (afterAll size blocks) more := foldl_append

namespace TypeDesc

def entryStride (t : TypeDesc) : Nat := ((EntryLayout.of? t.keyPart t.part).map (·.stride.toNat)).getD 0

def targetBlocks (known : Registry) (t : TypeDesc) : List Nat :=
  match t.kind, t.recordType known with
  | .pointer, .ok record => [record.size.toNat]
  | _, _ => []

end TypeDesc

namespace Content

mutual
/-- Lengths and counts are positive as signed numbers, no set has two elements that read back as equal values, and
nothing is missing but fields that need not be there. -/
def Sendable (known : Registry) (t : TypeDesc) : Content → Prop
  | .word _ => True
  | .blob data => data.length < 2 ^ 31
  | .items elems => elems.length < 2 ^ 31 ∧ (t.kind = .set → (values known t.part elems).Nodup) ∧
      SendableAll known t.part elems
  | .entries keys elems => keys.length < 2 ^ 31 ∧ SendableAll known t.keyPart keys ∧ SendableAll known t.part elems
  | .record slots => SendableFields known (t.recordFields known) slots
  | .nil => False

def SendableAll (known : Registry) (t : TypeDesc) : List Content → Prop
  | [] => True
  | c :: rest => Sendable known t c ∧ SendableAll known t rest

def SendableFields (known : Registry) : List FieldDesc → List Content → Prop
  | field :: fields, c :: rest =>
    (if c.isNil then field.requiredness ≠ .required else Sendable known field.type c) ∧ SendableFields known fields rest
  | _, _ => True
end

mutual
/-- The frames that reading a content enters: one for a record, and one for a container that has entries with a part
that is no scalar, string or binary. -/
def depth (known : Registry) (t : TypeDesc) : Content → Nat
  | .items elems => depthAll known t.part elems + if isFlat t elems.length then 0 else 1
  | .entries keys elems => max (depthAll known t.keyPart keys) (depthAll known t.part elems) +
      if isFlat t keys.length then 0 else 1
  | .record slots => depthFields known (t.recordFields known) slots + 1
  | _ => 0

def depthAll (known : Registry) (t : TypeDesc) : List Content → Nat
  | [] => 0
  | c :: rest => max (depth known t c) (depthAll known t rest)

def depthFields (known : Registry) : List FieldDesc → List Content → Nat
  | field :: fields, c :: rest => max (depth known field.type c) (depthFields known fields rest)
  | _, _ => 0
end

mutual
/-- The blocks of memory that reading a content allocates, in order. -/
def blocks (known : Registry) (t : TypeDesc) : Content → List Nat
  | .blob data => [data.length]
  | .items elems => elems.length * t.part.size.toNat :: (blocksAll known t.part elems).flatten
  | .entries keys elems => keys.length * t.entryStride ::
      (List.zipWith (· ++ ·) (blocksAll known t.keyPart keys) (blocksAll known t.part elems)).flatten
  | .record slots => t.targetBlocks known ++ (blocksFields known (t.recordFields known) slots).flatten
  | _ => []

def blocksAll (known : Registry) (t : TypeDesc) : List Content → List (List Nat)
  | [] => []
  | c :: rest => blocks known t c :: blocksAll known t rest

def blocksFields (known : Registry) : List FieldDesc → List Content → List (List Nat)
  | field :: fields, c :: rest =>
    if c.isOmitted field then blocksFields known fields rest
    else (if field.isBoxed then [boxSize.toNat] else blocks known field.type c) :: blocksFields known fields rest
  | _, _ => []
end

def slotBlocks (known : Registry) (boxed : Bool) (t : TypeDesc) (c : Content) : List Nat :=
  if boxed then [boxSize.toNat] else c.blocks known t

def occurrences (known : Registry) : Nat → List FieldDesc → List Content → List Occurrence
  | index, field :: fields, c :: rest =>
    if c.isOmitted field then occurrences known (index + 1) fields rest
    else ⟨field.type.kind.tag, field.id, c.serial known field.type, some (index, c)⟩ ::
      occurrences known (index + 1) fields rest
  | _, _, _ => []

variable {known : Registry} {t : TypeDesc} {n : Nat}

lemma sendableAll_iff : SendableAll known t elems ↔ ∀ c ∈ elems, c.Sendable known t :=
  each_elem trivial fun _ _ => Iff.rfl

lemma sendableFields_iff :
    SendableFields known fields slots ↔ ∀ (i : Nat) (field : FieldDesc) c, fields[i]? = some field →
      slots[i]? = some c → if c.isNil then field.requiredness ≠ .required else c.Sendable known field.type :=
  each_slot (by simp [SendableFields]) (by simp [SendableFields]) fun _ _ _ _ => Iff.rfl

lemma depthAll_le : depthAll known t elems ≤ n ↔ ∀ c ∈ elems, c.depth known t ≤ n :=
  each_elem (D := (depthAll known t · ≤ n)) (Nat.zero_le _) fun _ _ => Nat.max_le

lemma depthFields_le : depthFields known fields slots ≤ n ↔ ∀ (i : Nat) (field : FieldDesc) c,
    fields[i]? = some field → slots[i]? = some c → c.depth known field.type ≤ n :=
  each_slot (D := (depthFields known · · ≤ n)) (by simp [depthFields]) (by simp [depthFields]) fun _ _ _ _ => Nat.max_le

lemma blocksAll_eq_map (elems : List Content) : blocksAll known t elems = elems.map (blocks known t) := by
  induction elems with
  | nil => rfl
  | cons c rest ih => rw [blocksAll, ih, map_cons]

lemma isOmitted_nil : isOmitted field .nil = decide (field.requiredness ≠ .required) := rfl

/-! Occurrences. -/

lemma occurrences_bytes (index : Nat) (fields : List FieldDesc) (slots : List Content) :
    (occurrences known index fields slots).flatMap Occurrence.bytes = (serialFields known fields slots).flatten := by
  induction fields generalizing slots index with
  | nil => cases slots <;> rfl
  | cons field fields ih =>
    cases slots with
    | nil => rfl
    | cons c rest =>
      rw [occurrences, serialFields, flatten_cons]
      split
      · exact ih (index + 1) rest
      · rw [flatMap_cons, ih]
        simp only [Occurrence.bytes, fieldHead, append_assoc]

lemma eq_of_occurrences {index : Nat} {o : Occurrence} (at_ : (occurrences known index fields slots)[i]? = some o) : ∃
    (k : Nat) (field : FieldDesc) (c : Content), fields[k]? = some field ∧ slots[k]? = some c ∧ c.isOmitted field =
    false ∧ o = ⟨field.type.kind.tag, field.id, c.serial known field.type, some (index + k, c)⟩ ∧
    (blocksFields known fields slots)[i]? = some (slotBlocks known field.isBoxed field.type c) := by
  induction fields generalizing slots index i with
  | nil => cases slots <;> cases at_
  | cons field fields ih =>
    cases slots with
    | nil => cases at_
    | cons c rest =>
      have later : ∀ {j : Nat}, (occurrences known (index + 1) fields rest)[j]? = some o → ∃ (k : Nat) (f : FieldDesc)
          (c' : Content), (field :: fields)[k]? = some f ∧ (c :: rest)[k]? = some c' ∧ c'.isOmitted f = false ∧ o =
          ⟨f.type.kind.tag, f.id, c'.serial known f.type, some (index + k, c')⟩ ∧ (blocksFields known fields rest)[j]? =
          some (slotBlocks known f.isBoxed f.type c') := by
        intro j at_
        obtain ⟨k, f, c', found, held, written, is, sizes⟩ := ih at_
        refine ⟨k + 1, f, c', found, held, written, ?_, sizes⟩
        rw [is, Nat.add_assoc, Nat.add_comm 1 k]
      rw [occurrences] at at_
      rw [blocksFields]
      split at at_
      · rename_i omitted
        rw [if_pos omitted]
        exact later at_
      · rename_i written
        rw [if_neg written]
        cases i with
        | zero =>
          cases at_
          exact ⟨0, field, c, rfl, rfl, by simpa using written, rfl, rfl⟩
        | succ i => exact later at_

lemma length_blocksFields (index : Nat) (fields : List FieldDesc) (slots : List Content) :
    (blocksFields known fields slots).length = (occurrences known index fields slots).length := by
  induction fields generalizing slots index with
  | nil => cases slots <;> rfl
  | cons field fields ih =>
    cases slots with
    | nil => rfl
    | cons c rest =>
      rw [blocksFields, occurrences]
      split
      · exact ih (index + 1) rest
      · rw [length_cons, length_cons, ih (index + 1) rest]

lemma mem_occurrences {index : Nat} {k : Nat} {c : Content} (at_ : fields[k]? = some field)
    (held : slots[k]? = some c) (written : c.isOmitted field = false) :
    ∃ o ∈ occurrences known index fields slots, o.field? = some (index + k, c) := by
  induction fields generalizing slots index k with
  | nil => cases at_
  | cons first fields ih =>
    cases slots with
    | nil => cases held
    | cons c' rest =>
      rw [occurrences]
      cases k with
      | zero =>
        cases at_
        cases held
        rw [if_neg (by rw [written]; nofun)]
        exact ⟨_, mem_cons_self, rfl⟩
      | succ k =>
        obtain ⟨o, mem, is⟩ := @ih rest (index + 1) k at_ held
        rw [Nat.add_assoc, Nat.add_comm 1 k] at is
        refine ⟨o, ?_, is⟩
        split
        · exact mem
        · exact mem_cons_of_mem _ mem

lemma nodup_occurrences (index : Nat) (fields : List FieldDesc) (slots : List Content) :
    ((occurrences known index fields slots).filterMap Occurrence.index?).Nodup := by
  induction fields generalizing slots index with
  | nil => cases slots <;> exact nodup_nil
  | cons field fields ih =>
    cases slots with
    | nil => exact nodup_nil
    | cons c rest =>
      rw [occurrences]
      split
      · exact ih (index + 1) rest
      · rw [filterMap_cons]
        refine List.nodup_cons.mpr ⟨fun mem => ?_, ih (index + 1) rest⟩
        obtain ⟨o, member, is⟩ := List.mem_filterMap.mp mem
        obtain ⟨i, at_⟩ := mem_iff_getElem?.mp member
        obtain ⟨k, f, c', _, _, _, rfl, _⟩ := eq_of_occurrences at_
        have : index + 1 + k = index := Option.some.inj is
        omega

def occurrenceBlocks (known : Registry) (fields : List FieldDesc) (o : Occurrence) : List Nat :=
  match o.field? with
  | none => []
  | some (index, c) =>
    match fields[index]? with
    | none => []
    | some field => c.slotBlocks known field.isBoxed field.type

lemma blocksFields_eq (fields : List FieldDesc) (slots : List Content) : blocksFields known fields slots =
      (occurrences known 0 fields slots).map (occurrenceBlocks known fields) := by
  refine ext_getElem? fun i => ?_
  rw [getElem?_map]
  cases at_ : (occurrences known 0 fields slots)[i]? with
  | none =>
    rw [Option.map_none, getElem?_eq_none_iff, length_blocksFields 0]
    exact List.getElem?_eq_none_iff.mp at_
  | some o =>
    obtain ⟨k, field, c, found, _, _, rfl, sized⟩ := eq_of_occurrences at_
    rw [sized, Option.map_some]
    simp only [occurrenceBlocks, Nat.zero_add, found]

end Content

lemma Through.of_blocks {α : Type} {step : α → Nat → Nat → Prop} {blocks : α → List Nat} {xs : List α}
    (each : ∀ a ∈ xs, ∀ s, step a s (afterAll s (blocks a))) (s : Nat) :
    Through step xs s (afterAll s (xs.map blocks).flatten) := by
  induction xs generalizing s with
  | nil => exact .nil
  | cons a rest ih =>
    rw [map_cons, flatten_cons, afterAll_append]
    exact .cons (each a mem_cons_self s) (ih (fun a mem => each a (mem_cons_of_mem _ mem)) _)

lemma Holds.eq_absent {known : Registry} {heap : Heap} {lo hi addr : Nat} {c : Content}
    (holds : Holds known heap lo hi field.isBoxed addr field.type c)
    (default : ∀ d, field.default = some d → field.requiredness = .optional ∧ d.kind = field.type.kind)
    (omitted : c.isOmitted field = true) : field.requiredness ≠ .required ∧ c = Content.absent field := by
  have scalar : ∀ d, field.default = some d → field.type.kind.isScalar = true := by
    intro d given
    rw [← (default d given).2]
    cases d <;> rfl
  cases c with
  | word w =>
    simp only [Content.isOmitted, Option.any_eq_true, decide_eq_true_eq] at omitted
    obtain ⟨d, given, same⟩ := omitted
    refine ⟨?_, ?_⟩
    · rw [(default d given).1]
      rintro ⟨⟩
    · simp only [Content.absent, given, same]
  | nil =>
    rw [Content.isOmitted_nil, decide_eq_true_eq] at omitted
    refine ⟨omitted, ?_⟩
    rw [Content.absent]
    rcases Option.eq_none_or_eq_some field.default with given | ⟨d, given⟩
    · simp only [given]
      by_cases boxed : field.isBoxed = true
      · rw [if_pos boxed]
      · have plain : field.isBoxed = false := by simpa using boxed
        rw [if_neg boxed]
        rw [plain] at holds
        rw [Content.zero_eq]
        cases holds with
        | noHeader hasHeader =>
          rw [if_neg (fun kind => by rw [kind] at hasHeader; cases hasHeader),
            if_neg (by rw [Kind.isScalar_of_hasHeader hasHeader]; decide)]
        | noTarget kind => rw [if_neg (by rw [kind]; decide), if_neg (by rw [kind]; decide)]
    · have plain : field.isBoxed = false := by simp [Field.isBoxed, given]
      rw [plain] at holds
      obtain ⟨w, is, _⟩ := holds.eq_word (scalar d given)
      cases is
  | _ => cases omitted

lemma Kind.tag_ne_stop (kind : Kind) : kind.tag ≠ Tag.stop := by
  cases kind <;> decide

namespace Holds

variable {known : Registry} {heap : Heap} {lo hi addr left : Nat} {boxed : Bool} {t : TypeDesc} {c : Content}

lemma exists_inside {flat : Bool} {need : Nat} (enough : need + (if flat then 0 else 1) ≤ left) :
    ∃ inner, Inside flat left inner ∧ need ≤ inner := by
  cases flat with
  | true => exact ⟨left, rfl, enough⟩
  | false =>
    cases left with
    | zero => cases enough
    | succ left => exact ⟨left, rfl, Nat.le_of_succ_le_succ enough⟩

lemma spells_items {elem : TypeDesc} (is : known.IsSequence t elem)
    (each : ∀ c ∈ elems, c.Sendable known elem → ∀ left, c.depth known elem ≤ left → ∀ s,
      Spells known false left elem (c.serial known elem) c s (afterAll s (c.blocks known elem)))
    (sendable : (Content.items elems).Sendable known t) (enough : (Content.items elems).depth known t ≤ left)
    (s : Nat) : Spells known false left t ((Content.items elems).serial known t) (.items elems) s
      (afterAll s ((Content.items elems).blocks known t)) := by
  have part := is.part
  have notMap : t.kind ≠ .map := by rcases is.kind with kind | kind <;> rw [kind] <;> nofun
  rw [Content.Sendable, part, Content.sendableAll_iff] at sendable
  obtain ⟨short, distinct, good⟩ := sendable
  rw [Content.depth, part] at enough
  obtain ⟨inner, inside, deep⟩ := exists_inside enough
  have frames : elems ≠ [] → Inside (isSimple elem) left inner := by
    intro some_
    have flat : Content.isFlat t elems.length = isSimple elem := by
      simp [Content.isFlat, part, notMap, some_]
    rwa [flat] at inside
  rw [Content.serial, Content.headBytes, if_neg notMap, Content.blocks, part, Content.serials_eq_map,
    Content.blocksAll_eq_map, nil_append, append_assoc, afterAll_cons]
  refine (spells_sequence_iff is).mpr ⟨elem.kind.tag, inner, elems.map fun c => (c.serial known elem, c), ?_⟩
  have same : (elems.map fun c => (c.serial known elem, c)).map Prod.snd = elems := by
    rw [map_map]
    exact map_id elems
  have through := @Through.of_blocks _ (fun part => Spells known false inner elem part.1 part.2)
    (fun part => part.2.blocks known elem) (elems.map fun c => (c.serial known elem, c)) (fun part mem => by
      obtain ⟨c, member, rfl⟩ := List.mem_map.mp mem
      exact each c member (good c member) inner (Content.depthAll_le.mp deep c member))
    (after s (elems.length * elem.size.toNat))
  rw [length_map, same]
  refine ⟨short, fun some_ => ⟨rfl, frames fun none_ => some_ (by rw [none_]; rfl)⟩, distinct, ?_, ?_, rfl⟩
  · rwa [map_map] at through
  · rw [flatMap_def, map_map]
    rfl

lemma spells_entries {key elem : TypeDesc} {layout : TypeDesc.EntryLayout} {keys : List Content}
    (is : known.IsMap t key elem layout) (length : elems.length = keys.length)
    (eachKey : ∀ c ∈ keys, c.Sendable known key → ∀ left, c.depth known key ≤ left → ∀ s,
      Spells known false left key (c.serial known key) c s (afterAll s (c.blocks known key)))
    (each : ∀ c ∈ elems, c.Sendable known elem → ∀ left, c.depth known elem ≤ left → ∀ s,
      Spells known false left elem (c.serial known elem) c s (afterAll s (c.blocks known elem)))
    (sendable : (Content.entries keys elems).Sendable known t)
    (enough : (Content.entries keys elems).depth known t ≤ left) (s : Nat) :
    Spells known false left t ((Content.entries keys elems).serial known t) (.entries keys elems) s
      (afterAll s ((Content.entries keys elems).blocks known t)) := by
  have part := is.part
  have keyPart := is.keyPart
  have stride : t.entryStride = layout.stride.toNat := by
    rw [TypeDesc.entryStride, part, keyPart, is.layout?, Option.map_some, Option.getD_some]
  rw [Content.Sendable, part, keyPart, Content.sendableAll_iff, Content.sendableAll_iff] at sendable
  obtain ⟨short, goodKey, good⟩ := sendable
  rw [Content.depth, part, keyPart] at enough
  obtain ⟨inner, inside, deep⟩ := exists_inside enough
  have frames : keys ≠ [] → Inside (isSimple elem && isSimple key) left inner := by
    intro some_
    have flat : Content.isFlat t keys.length = (isSimple elem && isSimple key) := by
      simp [Content.isFlat, part, keyPart, is.kind, some_]
    rwa [flat] at inside
  obtain ⟨pairs, rfl, rfl⟩ := exists_zip length.symm
  let entries := pairs.map fun pair => ((pair.1.serial known key, pair.1), (pair.2.serial known elem, pair.2))
  have through := @Through.of_blocks _ (SpellsEntry known inner key elem)
    (fun entry => entry.1.2.blocks known key ++ entry.2.2.blocks known elem) entries (fun entry mem s => by
      obtain ⟨pair, member, rfl⟩ := List.mem_map.mp mem
      have memKey := mem_map_of_mem (f := Prod.fst) member
      have memElem := mem_map_of_mem (f := Prod.snd) member
      rw [afterAll_append]
      exact ⟨_, eachKey _ memKey (goodKey _ memKey) inner
          (Content.depthAll_le.mp (le_trans (Nat.le_max_left _ _) deep) _ memKey) s,
        each _ memElem (good _ memElem) inner
          (Content.depthAll_le.mp (le_trans (Nat.le_max_right _ _) deep) _ memElem) _⟩)
    (after s (entries.length * layout.stride.toNat))
  have some_ : entries ≠ [] → pairs.map Prod.fst ≠ [] := by simp [entries]
  have spells := (spells_map_iff is).mpr ⟨key.kind.tag, elem.kind.tag, inner, entries,
    by simpa [entries] using short, fun nonempty => ⟨⟨rfl, rfl⟩, frames (some_ nonempty)⟩, through, rfl, rfl⟩
  rw [Content.serial, Content.headBytes, if_pos is.kind, Content.blocks, part, keyPart, stride, Content.serials_eq_map,
    Content.serials_eq_map, Content.blocksAll_eq_map, Content.blocksAll_eq_map]
  simp only [entries, length_map, map_map, flatMap_def, zipWith_map, zipWith_self, cons_append, nil_append,
    afterAll_cons] at spells ⊢
  exact spells

lemma spells_record (kind : t.kind = .struct) (laidOut : LaidOut t.fields t.size.toNat)
    (length : slots.length = t.fields.length)
    (held : ∀ (i : Nat) (field : FieldDesc) c, t.fields[i]? = some field → slots[i]? = some c →
      Holds known heap lo hi field.isBoxed (addr + field.offset.toNat) field.type c)
    (each : ∀ (i : Nat) (field : FieldDesc) c, t.fields[i]? = some field → slots[i]? = some c →
      c.Sendable known field.type → ∀ left, c.depth known field.type ≤ left → ∀ s,
      Spells known field.isBoxed left field.type (c.serial known field.type) c s
        (afterAll s (c.slotBlocks known field.isBoxed field.type)))
    (sendable : (Content.record slots).Sendable known t) (enough : (Content.record slots).depth known t ≤ left)
    (s : Nat) : Spells known false left t ((Content.record slots).serial known t) (.record slots) s
      (afterAll s ((Content.record slots).blocks known t)) := by
  have fields := @TypeDesc.recordFields_struct known t kind
  have noTarget : t.targetBlocks known = [] := by
    rw [TypeDesc.targetBlocks, kind]
  rw [Content.Sendable, fields, Content.sendableFields_iff] at sendable
  rw [Content.depth, fields] at enough
  obtain ⟨left, rfl⟩ := Nat.exists_eq_add_of_le' (le_trans (Nat.le_add_left 1 _) enough)
  have deep : Content.depthFields known t.fields slots ≤ left := by omega
  let occs := Content.occurrences known 0 t.fields slots
  have written : ∀ {o : Occurrence}, o ∈ occs → ∃ (k : Nat) (field : FieldDesc) (c : Content),
      t.fields[k]? = some field ∧ slots[k]? = some c ∧ c.isOmitted field = false ∧
      o = ⟨field.type.kind.tag, field.id, c.serial known field.type, some (k, c)⟩ := by
    intro o mem
    obtain ⟨i, at_⟩ := mem_iff_getElem?.mp mem
    obtain ⟨k, field, c, found, held, notOmitted, is, _⟩ := Content.eq_of_occurrences at_
    rw [Nat.zero_add] at is
    exact ⟨k, field, c, found, held, notOmitted, is⟩
  have takes : ∀ o ∈ occs, ∀ s, o.Takes known t.fields left s (afterAll s (Content.occurrenceBlocks known t.fields o)) := by
    intro o mem s
    obtain ⟨k, field, c, found, holds, notOmitted, rfl⟩ := written mem
    simp only [Occurrence.Takes, Content.occurrenceBlocks, found]
    have good := sendable _ _ _ found holds
    have full : ¬ c.isNil = true := by
      intro isNil
      rw [if_pos isNil] at good
      cases c with
      | nil =>
        rw [Content.isOmitted_nil, decide_eq_false_iff_not] at notOmitted
        exact notOmitted good
      | _ => cases isNil
    rw [if_neg full] at good
    exact ⟨field, rfl, each _ _ _ found holds good left (Content.depthFields_le.mp deep _ _ _ found holds) s⟩
  rw [Content.serial, Content.blocks, fields, noTarget, nil_append, ← Content.occurrences_bytes 0, Content.blocksFields_eq]
  refine (spells_record_iff kind).mpr ⟨left, occs, slots, rfl, ⟨fun o mem => ?_, Content.nodup_occurrences 0 t.fields slots,
    length, fun i field c found holds => ?_⟩, .of_blocks takes s, rfl, rfl⟩
  · obtain ⟨k, field, c, found, _, _, rfl⟩ := written mem
    refine ⟨Kind.tag_ne_stop _, fun index c' is => ?_, by rintro ⟨⟩⟩
    cases is
    exact ⟨field, found, rfl, rfl⟩
  · by_cases omitted : c.isOmitted field = true
    · obtain ⟨notRequired, absent⟩ := (held i field c found holds).eq_absent
        (laidOut.defaults field (mem_of_getElem? found)) omitted
      refine .inr ⟨fun mem => ?_, notRequired, absent⟩
      obtain ⟨o, member, is⟩ := List.mem_filterMap.mp mem
      obtain ⟨k, f, c', found', holds', notOmitted, rfl⟩ := written member
      cases Option.some.inj is
      cases found'.symm.trans found
      cases holds'.symm.trans holds
      rw [omitted] at notOmitted
      cases notOmitted
    · obtain ⟨o, mem, is⟩ := @Content.mem_occurrences _ _ _ known 0 _ _ found holds (by simpa using omitted)
      rw [Nat.zero_add] at is
      exact .inl ⟨o, mem, is⟩

/-- The bytes of a content spell it. -/
lemma spells (usable : known.Usable) (holds : Holds known heap lo hi boxed addr t c) (has : known.Has t)
    (sendable : c.Sendable known t) (enough : c.depth known t ≤ left) (s : Nat) :
    Spells known boxed left t (c.serial known t) c s (afterAll s (c.slotBlocks known boxed t)) := by
  have sound := usable.sound
  have word : ∀ {t : TypeDesc} {w : UInt64}, known.Has t → t.kind.isScalar = true → w.toNat < 256 ^ t.size.toNat →
      beWord (beBytes t.size.toNat w) = w := by
    intro t w has isScalar fits
    obtain ⟨width, _, bytes, _⟩ := (sound.shaped t has).width isScalar
    have short : t.size.toNat ≤ 8 := by
      rw [← bytes]
      cases width <;> decide
    apply UInt64.toNat_inj.mp
    rw [toNat_beWord_beBytes short, Nat.mod_eq_of_lt fits]
  induction holds generalizing left s with
  | noCell | noHeader | noTarget => exact sendable.elim
  | @cell addr t w data at_ some_ low high isScalar inner fits =>
    have spells := @Spells.cell known left t _ s isScalar (length_beBytes t.size.toNat w)
    rwa [word has isScalar fits] at spells
  | @word addr t w isScalar at_ fits =>
    have spells := @Spells.word known left t _ s isScalar (length_beBytes t.size.toNat w)
    rwa [word has isScalar fits] at spells
  | blob data kind head at_ => exact .blob kind sendable
  | items data is head each ih =>
    refine spells_items is (fun c mem good left deep s => ?_) sendable enough s
    obtain ⟨i, at_⟩ := mem_iff_getElem?.mp mem
    exact ih i c at_ is.hasElem good deep s
  | entries data is length head eachKey each ihKey ih =>
    refine spells_entries is length (fun c mem good left deep s => ?_) (fun c mem good left deep s => ?_) sendable enough s
    · obtain ⟨i, at_⟩ := mem_iff_getElem?.mp mem
      exact ihKey i c at_ is.hasKey good deep s
    · obtain ⟨i, at_⟩ := mem_iff_getElem?.mp mem
      exact ih i c at_ is.hasElem good deep s
  | record kind length each ih =>
    refine spells_record kind (sound.shaped _ has).laidOut length each (fun i field c at_ held good left deep s => ?_)
      sendable enough s
    exact ih i field c at_ held (sound.field has (mem_of_getElem? at_)) good deep s
  | @target addr t record slots data kind isRecord at_ some_ low high inner ih =>
    have struct := usable.recordType_kind has isRecord
    have same := TypeDesc.recordFields_target isRecord (.inl struct)
    have first : t.targetBlocks known = [record.size.toNat] := by
      rw [TypeDesc.targetBlocks, kind, isRecord]
    have none_ : record.targetBlocks known = [] := by
      rw [TypeDesc.targetBlocks, struct]
    rw [Content.Sendable, same] at sendable
    rw [Content.depth, same] at enough
    have spells := ih (sound.recordType has isRecord) sendable enough (after s record.size.toNat)
    rw [Content.slotBlocks, if_neg nofun, Content.blocks, none_, nil_append] at spells
    rw [Content.slotBlocks, if_neg nofun, Content.blocks, first, same, Content.serial, same]
    exact .target kind isRecord struct spells

end Holds

end WireCodec
