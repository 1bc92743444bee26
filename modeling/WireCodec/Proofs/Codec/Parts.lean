import WireCodec.Proofs.Codec.Grammar

/-! What is spelled, kind by kind: a sequence, a map and a record as their parts one after another. -/
namespace WireCodec

open Lowering List
open Prod (fst snd)

variable {fields : List FieldDesc} {o : Occurrence} {boxed : Bool}

/-- Things done one after another, each from where the one before it ended. -/
inductive Through {α : Type} (step : α → Nat → Nat → Prop) : List α → Nat → Nat → Prop
  | nil {s : Nat} : Through step [] s s
  | cons {a : α} {rest : List α} {s r s' : Nat} (first : step a s r) (others : Through step rest r s') :
      Through step (a :: rest) s s'

namespace Through

variable {α : Type} {step step' : α → Nat → Nat → Prop} {xs ys : List α} {s s' : Nat}

lemma of_sizes (sizes : Nat → Nat) (each : ∀ (i : Nat) a, xs[i]? = some a → step a (sizes i) (sizes (i + 1))) :
    Through step xs (sizes 0) (sizes xs.length) := by
  induction xs generalizing sizes with
  | nil => exact .nil
  | cons a rest ih => exact .cons (each 0 a rfl) (ih (fun i => sizes (i + 1)) fun i a at_ => each (i + 1) a at_)

lemma sizes (through : Through step xs s s') : ∃ sizes : Nat → Nat, sizes 0 = s ∧ sizes xs.length = s' ∧
    ∀ (i : Nat) a, xs[i]? = some a → step a (sizes i) (sizes (i + 1)) := by
  induction through with
  | @nil s => exact ⟨fun _ => s, rfl, rfl, fun i a at_ => by cases at_⟩
  | @cons a rest s r s' first others ih =>
    obtain ⟨sizes, start, last, each⟩ := ih
    refine ⟨fun i => Nat.casesOn i s sizes, rfl, last, fun i a' at_ => ?_⟩
    cases i with
    | zero =>
      cases at_
      subst start
      exact first
    | succ i => exact each i a' at_

lemma imp (through : Through step xs s s') (imp : ∀ {a s s'}, a ∈ xs → step a s s' → step' a s s') :
    Through step' xs s s' := by
  induction through with
  | nil => exact .nil
  | cons first _ ih => exact .cons (imp mem_cons_self first) (ih fun mem => imp (mem_cons_of_mem _ mem))

lemma le (through : Through step xs s s') (grows : ∀ {a s s'}, step a s s' → s ≤ s') : s ≤ s' := by
  induction through with
  | nil => exact le_rfl
  | cons first _ ih => exact le_trans (grows first) ih

lemma append_iff : Through step (xs ++ ys) s s' ↔ ∃ r, Through step xs s r ∧ Through step ys r s' := by
  induction xs generalizing s with
  | nil =>
    refine ⟨fun through => ⟨s, .nil, through⟩, fun ⟨r, first, second⟩ => ?_⟩
    cases first
    exact second
  | cons a rest ih =>
    refine ⟨fun through => ?_, fun ⟨r, first, second⟩ => ?_⟩
    · cases through with
      | cons first others =>
        obtain ⟨r, front, back⟩ := ih.mp others
        exact ⟨r, .cons first front, back⟩
    · cases first with
      | cons step others => exact .cons step (ih.mpr ⟨r, others, second⟩)

lemma middle_iff {a : α} : Through step (xs ++ a :: ys) s s' ↔
    ∃ r r', Through step xs s r ∧ step a r r' ∧ Through step ys r' s' := by
  rw [append_iff]
  refine ⟨fun ⟨r, before, rest⟩ => ?_, fun ⟨r, r', before, first, others⟩ => ⟨r, before, .cons first others⟩⟩
  cases rest with
  | cons first others => exact ⟨r, _, before, first, others⟩

lemma mem (through : Through step xs s s') {a : α} (mem : a ∈ xs) : ∃ r r', step a r r' := by
  obtain ⟨before, behind, rfl⟩ := append_of_mem mem
  obtain ⟨r, r', _, first, _⟩ := middle_iff.mp through
  exact ⟨r, r', first⟩

end Through

section Forms

variable {known : Registry} {left : Nat} {t key elem : TypeDesc} {layout : TypeDesc.EntryLayout} {bytes : List UInt8}
  {c : Content} {s s' : Nat}

lemma exists_zip {α β : Type} {xs : List α} {ys : List β} (length : xs.length = ys.length) :
    ∃ pairs : List (α × β), xs = pairs.map fst ∧ ys = pairs.map snd :=
  ⟨xs.zip ys, (map_fst_zip (le_of_eq length)).symm, (map_snd_zip (le_of_eq length.symm)).symm⟩

abbrev Part := List UInt8 × Content

def entryBytes (entry : Part × Part) : List UInt8 := entry.1.1 ++ entry.2.1

lemma zipWith_append_eq (entries : List (Part × Part)) :
    List.zipWith (· ++ ·) ((entries.map fst).map fst) ((entries.map snd).map fst) =
      entries.map entryBytes := by
  simp only [map_map, zipWith_map, zipWith_self]
  rfl

lemma through_parts {P : List UInt8 → Content → Nat → Nat → Prop} {pieces : List (List UInt8)} {elems : List Content}
    {sizes : Nat → Nat} (length : pieces.length = elems.length)
    (each : ∀ (i : Nat) piece c, pieces[i]? = some piece → elems[i]? = some c → P piece c (sizes i) (sizes (i + 1))) :
    ∃ parts : List Part, pieces = parts.map fst ∧ elems = parts.map snd ∧
      Through (fun part => P part.1 part.2) parts (sizes 0) (sizes parts.length) := by
  obtain ⟨parts, rfl, rfl⟩ := exists_zip length
  exact ⟨parts, rfl, rfl, .of_sizes sizes fun i part at_ =>
    each i _ _ (by rw [getElem?_map, at_]; rfl) (by rw [getElem?_map, at_]; rfl)⟩

lemma through_entries {P Q : List UInt8 → Content → Nat → Nat → Prop} {keyPieces pieces : List (List UInt8)}
    {keys elems : List Content} {sizes middles : Nat → Nat}
    (lengths : elems.length = keys.length ∧ keyPieces.length = keys.length ∧ pieces.length = keys.length)
    (eachKey : ∀ (i : Nat) piece c, keyPieces[i]? = some piece → keys[i]? = some c → P piece c (sizes i) (middles i))
    (each : ∀ (i : Nat) piece c, pieces[i]? = some piece → elems[i]? = some c → Q piece c (middles i) (sizes (i + 1))) :
    ∃ entries : List (Part × Part), keyPieces = (entries.map fst).map fst ∧ keys = (entries.map fst).map
    snd ∧ pieces = (entries.map snd).map fst ∧ elems = (entries.map snd).map snd ∧ Through
    (fun entry s s' => ∃ r, P entry.1.1 entry.1.2 s r ∧ Q entry.2.1 entry.2.2 r s') entries (sizes 0)
    (sizes entries.length) := by
  obtain ⟨keyParts, rfl, rfl⟩ := exists_zip lengths.2.1
  obtain ⟨parts, rfl, rfl⟩ := exists_zip (lengths.2.2.trans lengths.1.symm)
  obtain ⟨entries, rfl, rfl⟩ := exists_zip (show keyParts.length = parts.length by simpa using lengths.2.2.symm)
  refine ⟨entries, rfl, rfl, rfl, rfl, .of_sizes sizes fun i entry at_ => ⟨middles i, ?_, ?_⟩⟩
  · exact eachKey i _ _ (by simp only [getElem?_map, at_]; rfl) (by simp only [getElem?_map, at_]; rfl)
  · exact each i _ _ (by simp only [getElem?_map, at_]; rfl) (by simp only [getElem?_map, at_]; rfl)

lemma spells_sequence_iff (is : known.IsSequence t elem) : Spells known false left t bytes c s s' ↔ ∃ (tag : UInt8)
    (inner : Nat) (parts : List Part), parts.length < 2 ^ 31 ∧
    (parts ≠ [] → tag = elem.kind.tag ∧ Inside (isSimple elem) left inner) ∧
    (t.kind = .set → (Content.values known elem (parts.map snd)).Nodup) ∧ Through
    (fun part => Spells known false inner elem part.1 part.2) parts (Heap.after s (parts.length * elem.size.toNat)) s' ∧
    bytes = [tag] ++ (countBytes parts.length ++ parts.flatMap fst) ∧ c = .items (parts.map snd) := by
  constructor
  · intro spells
    cases spells with
    | word isScalar => rcases is.kind with kind | kind <;> rw [kind] at isScalar <;> cases isScalar
    | blob kind => rcases is.kind with kind' | kind' <;> rcases kind with kind | kind <;> cases kind.symm.trans kind'
    | @items _ inner _ elem' tag elems _ pieces sizes is' short tags frames length start each distinct =>
      obtain rfl : elem' = elem := Option.some.inj (is'.elem?.symm.trans is.elem?)
      obtain ⟨parts, rfl, rfl, through⟩ := through_parts length each
      simp only [length_map, ne_eq, map_eq_nil_iff] at short start tags frames ⊢
      exact ⟨tag, inner, parts, short, fun some_ => ⟨tags some_, frames some_⟩, distinct, start ▸ through,
        by rw [flatMap_def], rfl⟩
    | entries _ _ _ _ is' => rcases is.kind with kind | kind <;> cases kind.symm.trans is'.kind
    | record _ _ kind' | target kind' => rcases is.kind with kind | kind <;> cases kind.symm.trans kind'
  · rintro ⟨tag, inner, parts, short, tags, distinct, through, rfl, rfl⟩
    obtain ⟨sizes, start, last, each⟩ := through.sizes
    have some_ : parts.map snd ≠ [] → parts ≠ [] := fun some_ none_ => some_ (List.map_eq_nil_iff.mpr none_)
    have made := @Spells.items known left inner t elem tag (parts.map snd) s (parts.map fst) sizes is
      (by rwa [length_map]) (fun nonempty => (tags (some_ nonempty)).1) (fun nonempty => (tags (some_ nonempty)).2)
      (by rw [length_map, length_map]) (by rw [length_map, start])
      (fun i piece c atPiece atElem => by
        rw [getElem?_map, Option.map_eq_some_iff] at atPiece atElem
        obtain ⟨part, at_, rfl⟩ := atPiece
        obtain ⟨_, at_', rfl⟩ := atElem
        cases at_.symm.trans at_'
        exact each i part at_)
      distinct
    rwa [length_map, last, ← flatMap_def] at made

def SpellsEntry (known : Registry) (left : Nat) (key elem : TypeDesc) (entry : Part × Part) (s s' : Nat) : Prop :=
  ∃ r, Spells known false left key entry.1.1 entry.1.2 s r ∧ Spells known false left elem entry.2.1 entry.2.2 r s'

lemma spells_map_iff (is : known.IsMap t key elem layout) : Spells known false left t bytes c s s' ↔ ∃
    (keyTag tag : UInt8) (inner : Nat) (entries : List (Part × Part)), entries.length < 2 ^ 31 ∧
    (entries ≠ [] → (keyTag = key.kind.tag ∧ tag = elem.kind.tag) ∧ Inside (isSimple elem && isSimple key) left inner) ∧
    Through (SpellsEntry known inner key elem) entries (Heap.after s (entries.length * layout.stride.toNat)) s' ∧ bytes
    = [keyTag] ++ ([tag] ++ (countBytes entries.length ++ entries.flatMap entryBytes)) ∧ c = .entries
    ((entries.map fst).map snd) ((entries.map snd).map snd) := by
  constructor
  · intro spells
    cases spells with
    | word isScalar =>
      rw [is.kind] at isScalar
      cases isScalar
    | blob kind => rcases kind with kind | kind <;> cases kind.symm.trans is.kind
    | items _ _ is' => rcases is'.kind with kind | kind <;> cases kind.symm.trans is.kind
    | @entries _ inner _ key' elem' layout' keyTag tag keys elems _ keyPieces pieces sizes middles is' short tags frames
        lengths start eachKey each =>
      obtain rfl : elem' = elem := Option.some.inj (is'.elem?.symm.trans is.elem?)
      obtain rfl : key' = key := Option.some.inj (is'.key?.symm.trans is.key?)
      obtain rfl : layout' = layout := Option.some.inj (is'.layout?.symm.trans is.layout?)
      obtain ⟨entries, rfl, rfl, rfl, rfl, through⟩ := through_entries lengths eachKey each
      simp only [length_map, ne_eq, map_eq_nil_iff] at short start tags frames ⊢
      exact ⟨keyTag, tag, inner, entries, short, fun some_ => ⟨tags some_, frames some_⟩, start ▸ through,
        by rw [zipWith_append_eq, flatMap_def], rfl⟩
    | record _ _ kind | target kind => cases kind.symm.trans is.kind
  · rintro ⟨keyTag, tag, inner, entries, short, tags, through, rfl, rfl⟩
    obtain ⟨sizes, start, last, each⟩ := through.sizes
    have middle : ∀ i, ∃ r, ∀ entry, entries[i]? = some entry → Spells known false inner key entry.1.1 entry.1.2
        (sizes i) r ∧ Spells known false inner elem entry.2.1 entry.2.2 r (sizes (i + 1)) := by
      intro i
      cases at_ : entries[i]? with
      | none => exact ⟨0, fun _ found => by cases found⟩
      | some entry =>
        obtain ⟨r, first, second⟩ := each i entry at_
        refine ⟨r, fun _ found => ?_⟩
        cases found
        exact ⟨first, second⟩
    choose middles both using middle
    have at_ : ∀ {α : Type} {f : Part → α} {g : Part × Part → Part} {i : Nat} {a : α},
        ((entries.map g).map f)[i]? = some a → ∃ entry, entries[i]? = some entry ∧ f (g entry) = a := by
      intro α f g i a found
      simpa using found
    have made := @Spells.entries known left inner t key elem layout keyTag tag ((entries.map fst).map snd)
      ((entries.map snd).map snd) s ((entries.map fst).map fst) ((entries.map snd).map fst)
      sizes middles is (by simpa using short) (fun some_ => (tags (by simpa using some_)).1)
      (fun some_ => (tags (by simpa using some_)).2) (by simp) (by simpa using start)
      (fun i piece c atPiece atKey => by
        obtain ⟨entry, found, rfl⟩ := at_ atPiece
        obtain ⟨_, found', rfl⟩ := at_ atKey
        cases found.symm.trans found'
        exact (both i entry found).1)
      (fun i piece c atPiece atElem => by
        obtain ⟨entry, found, rfl⟩ := at_ atPiece
        obtain ⟨_, found', rfl⟩ := at_ atElem
        cases found.symm.trans found'
        exact (both i entry found).2)
    rw [zipWith_append_eq, ← flatMap_def] at made
    simpa only [length_map, last] using made

/-- What a field on the wire takes: nothing if it is not of the schema. -/
def Occurrence.Takes (known : Registry) (fields : List FieldDesc) (left : Nat) (o : Occurrence) (s s' : Nat) : Prop :=
  match o.field? with
  | none => s' = s
  | some (index, c) => ∃ field, fields[index]? = some field ∧ Spells known field.isBoxed left field.type o.payload c s s'

/-- A field on the wire that is of the schema has what is said of its payload, and another one changes nothing. -/
def Occurrence.Steps (fields : List FieldDesc) (step : FieldDesc → Content → Nat → Nat → Prop) (o : Occurrence)
    (s s' : Nat) : Prop :=
  (o.field? = none ∧ s' = s) ∨
    ∃ index c field, o.field? = some (index, c) ∧ fields[index]? = some field ∧ step field c s s'

lemma Occurrence.Steps.takes : o.Steps fields
    (fun field => Spells known field.isBoxed left field.type o.payload) s s' ↔ o.Takes known fields left s s' := by
  unfold Steps Takes
  cases o.field? with
  | none => simp
  | some pair => exact pair.rec fun _ _ => by simp

lemma Occurrence.Proper.steps
    {step : FieldDesc → Content → Nat → Nat → Prop} (proper : o.Proper fields left)
    (each : ∀ (index : Nat) (c : Content) (field : FieldDesc), o.field? = some (index, c) → fields[index]? = some field →
      step field c s s') (skipped : o.field? = none → s' = s) : o.Steps fields step s s' := by
  cases is : o.field? with
  | none => exact .inl ⟨is, skipped is⟩
  | some pair =>
    obtain ⟨field, found, _⟩ := proper.known pair.1 pair.2 is
    exact .inr ⟨_, _, field, is, found, each _ _ field is found⟩

/-- Fields on the wire make a record with what is in its slots. -/
structure Occurrence.Make (fields : List FieldDesc) (left : Nat) (occs : List Occurrence) (slots : List Content) : Prop where
  proper : ∀ o ∈ occs, o.Proper fields left
  once : (occs.filterMap Occurrence.index?).Nodup
  length : slots.length = fields.length
  slot : ∀ (i : Nat) (field : FieldDesc) c, fields[i]? = some field → slots[i]? = some c → Occurrence.Gives occs i field c

lemma spells_record_iff (struct : t.kind = .struct) : Spells known false left t bytes c s s' ↔
    ∃ (inner : Nat) (occs : List Occurrence) (slots : List Content), left = inner + 1 ∧
      Occurrence.Make t.fields inner occs slots ∧ Through (Occurrence.Takes known t.fields inner) occs s s' ∧
      bytes = occs.flatMap Occurrence.bytes ++ [Tag.stop] ∧ c = .record slots := by
  constructor
  · intro spells
    cases spells with
    | word isScalar =>
      rw [struct] at isScalar
      cases isScalar
    | blob kind => rcases kind with kind | kind <;> cases struct.symm.trans kind
    | items _ _ is => rcases is.kind with kind | kind <;> cases struct.symm.trans kind
    | entries _ _ _ _ is => cases struct.symm.trans is.kind
    | @record inner _ slots occs sizes kind proper each skipped once length slot =>
      refine ⟨inner, occs, slots, rfl, ⟨proper, once, length, slot⟩, .of_sizes sizes fun i o at_ => ?_, rfl, rfl⟩
      exact Occurrence.Steps.takes.mp ((proper o (mem_of_getElem? at_)).steps
        (fun index c field => each i o index c field at_) (skipped i o at_))
    | target kind => cases struct.symm.trans kind
  · rintro ⟨inner, occs, slots, rfl, ⟨proper, once, length, slot⟩, through, rfl, rfl⟩
    obtain ⟨sizes, rfl, rfl, each⟩ := through.sizes
    refine .record occs sizes struct proper (fun i o index c field at_ is found => ?_) (fun i o at_ is => ?_) once length slot
    · have takes := each i o at_
      simp only [Occurrence.Takes, is] at takes
      obtain ⟨field', found', spells⟩ := takes
      cases found.symm.trans found'
      exact spells
    · have takes := each i o at_
      simp only [Occurrence.Takes, is] at takes
      exact takes

/-- An induction over what is spelled, with the parts of a value one after another. -/
lemma Spells.parts_induction
    {motive : ∀ {boxed : Bool} {left : Nat} {t : TypeDesc} {bytes : List UInt8} {c : Content} {s s' : Nat},
      Spells known boxed left t bytes c s s' → Prop}
    (cell : ∀ {left s : Nat} {t : TypeDesc} {bytes : List UInt8} (_ : t.kind.isScalar = true) (_ : bytes.length = t.size.toNat)
      (whole : Spells known true left t bytes (.word (beWord bytes)) s (Heap.after s boxSize.toNat)), motive whole)
    (word : ∀ {left s : Nat} {t : TypeDesc} {bytes : List UInt8} (_ : t.kind.isScalar = true) (_ : bytes.length = t.size.toNat)
      (whole : Spells known false left t bytes (.word (beWord bytes)) s s), motive whole)
    (blob : ∀ {left s : Nat} {t : TypeDesc} {data : List UInt8} (_ : t.kind = .string ∨ t.kind = .binary) (_ : data.length < 2 ^ 31)
      (whole : Spells known false left t (countBytes data.length ++ data) (.blob data) s (Heap.after s data.length)),
      motive whole)
    (items : ∀ {left inner s s' : Nat} {t elem : TypeDesc} {tag : UInt8} {parts : List Part} (_ : known.IsSequence t elem)
      (_ : parts.length < 2 ^ 31) (_ : parts ≠ [] → tag = elem.kind.tag ∧ Inside (isSimple elem) left inner)
      (_ : t.kind = .set → (Content.values known elem (parts.map snd)).Nodup)
      (_ : Through (fun part s s' => ∃ spells : Spells known false inner elem part.1 part.2 s s', motive spells) parts
        (Heap.after s (parts.length * elem.size.toNat)) s')
      (whole : Spells known false left t ([tag] ++ (countBytes parts.length ++ parts.flatMap fst))
        (.items (parts.map snd)) s s'), motive whole)
    (entries : ∀ {left inner s s' : Nat} {t key elem : TypeDesc} {layout : TypeDesc.EntryLayout} {keyTag tag : UInt8}
      {entries : List (Part × Part)} (_ : known.IsMap t key elem layout) (_ : entries.length < 2 ^ 31)
      (_ : entries ≠ [] → (keyTag = key.kind.tag ∧ tag = elem.kind.tag) ∧
        Inside (isSimple elem && isSimple key) left inner)
      (_ : Through (fun entry s s' => ∃ r, (∃ spells : Spells known false inner key entry.1.1 entry.1.2 s r, motive spells) ∧
        ∃ spells : Spells known false inner elem entry.2.1 entry.2.2 r s', motive spells) entries
        (Heap.after s (entries.length * layout.stride.toNat)) s') (whole : Spells known false left t
        ([keyTag] ++ ([tag] ++ (countBytes entries.length ++ entries.flatMap entryBytes)))
        (.entries ((entries.map fst).map snd) ((entries.map snd).map snd)) s s'), motive whole)
    (record : ∀ {left s s' : Nat} {t : TypeDesc} {slots : List Content} {occs : List Occurrence} (_ : t.kind = .struct) (_ : Occurrence.Make t.fields left occs slots)
      (_ : Through (fun o => o.Steps t.fields fun field c s s' =>
        ∃ spells : Spells known field.isBoxed left field.type o.payload c s s', motive spells) occs s s')
      (whole : Spells known false (left + 1) t (occs.flatMap Occurrence.bytes ++ [Tag.stop]) (.record slots) s s'),
      motive whole)
    (target : ∀ {left s s' : Nat} {t record : TypeDesc} {bytes : List UInt8} {c : Content} (_ : t.kind = .pointer) (_ : t.recordType known = .ok record)
      (_ : record.kind = .struct) (inner : Spells known false left record bytes c (Heap.after s record.size.toNat) s')
      (_ : motive inner) (whole : Spells known false left t bytes c s s'), motive whole) {left : Nat} {t : TypeDesc} {bytes : List UInt8} {c : Content} {s s' : Nat}
    (spells : Spells known boxed left t bytes c s s') : motive spells := by
  induction spells with
  | cell isScalar length => exact cell isScalar length _
  | word isScalar length => exact word isScalar length _
  | blob kind short => exact blob kind short _
  | @items left inner t elem tag elems s pieces sizes is short tags frames length start each distinct ih =>
    obtain ⟨parts, rfl, rfl, through⟩ := @through_parts (fun piece c s s' =>
      ∃ spells : Spells known false inner elem piece c s s', motive spells) _ _ sizes length
      fun i piece c at_ held => ⟨_, ih i piece c at_ held⟩
    have whole := Spells.items _ sizes is short tags frames length start each distinct
    simp only [length_map, ne_eq, map_eq_nil_iff] at short start tags frames whole ⊢
    exact items is short (fun some_ => ⟨tags some_, frames some_⟩) distinct (start ▸ through) whole
  | @entries left inner t key elem layout keyTag tag keys elems s keyPieces pieces sizes middles is short tags frames lengths
      start eachKey each ihKey ih =>
    obtain ⟨entries', rfl, rfl, rfl, rfl, through⟩ := @through_entries (fun piece c s s' =>
      ∃ spells : Spells known false inner key piece c s s', motive spells) (fun piece c s s' =>
      ∃ spells : Spells known false inner elem piece c s s', motive spells) _ _ _ _ sizes middles lengths
      (fun i piece c at_ held => ⟨_, ihKey i piece c at_ held⟩) fun i piece c at_ held => ⟨_, ih i piece c at_ held⟩
    have whole := Spells.entries _ _ sizes middles is short tags frames lengths start eachKey each
    simp only [length_map, ne_eq, map_eq_nil_iff, zipWith_append_eq] at short start tags frames whole ⊢
    exact entries is short (fun some_ => ⟨tags some_, frames some_⟩) (start ▸ through) whole
  | @record left t slots occs sizes kind proper each skipped once length slot ih =>
    exact record kind ⟨proper, once, length, slot⟩ (.of_sizes sizes fun i o at_ => (proper o (mem_of_getElem? at_)).steps
      (fun index c field is found => ⟨_, ih i o index c field at_ is found⟩) (skipped i o at_)) _
  | target kind isRecord struct inner ih => exact target kind isRecord struct inner ih _

lemma Spells.eq_record (spells : Spells known false left t bytes c s s') (struct : t.kind = .struct) :
    ∃ slots, c = .record slots := by
  obtain ⟨_, _, slots, _, _, _, _, is⟩ := (spells_record_iff struct).mp spells
  exact ⟨slots, is⟩

lemma Spells.grows (spells : Spells known boxed left t bytes c s s') : s ≤ s' := by
  have up := fun size count => le_trans (Nat.le_add_right size count) (Heap.le_after size count)
  induction spells using Spells.parts_induction with
  | cell => exact up _ _
  | word => exact le_rfl
  | blob => exact up _ _
  | items is short tags distinct through =>
    exact le_trans (up _ _) (through.le fun ⟨_, le⟩ => le)
  | entries is short tags through =>
    exact le_trans (up _ _) (through.le fun ⟨_, ⟨_, first⟩, _, second⟩ => le_trans first second)
  | record kind make through =>
    refine through.le ?_
    rintro o s s' (⟨_, rfl⟩ | ⟨_, _, _, _, _, _, le⟩)
    · exact le_rfl
    · exact le
  | target kind isRecord struct inner le => exact le_trans (up _ _) le

end Forms

end WireCodec
