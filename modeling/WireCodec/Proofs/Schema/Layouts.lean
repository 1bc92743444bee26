import WireCodec.Proofs.Schema.Alignment

/-! Layouts below the bound of offsets. Where fields end is a plain sum with rounding; below the bound no
offset is refused, so that only what is wrong with a field keeps a record from being laid out. -/
namespace WireCodec

open List

variable {field : FieldDesc}

/-- Where fields laid out from `offset` on end, before the end is rounded up. -/
def extent (offset : Nat) : List FieldDesc → Nat
  | [] => offset
  | field :: rest => extent (alignUp offset field.slotAlign.toNat + field.slotSize.toNat) rest

def widest : List FieldDesc → Nat
  | [] => 1
  | field :: rest => max field.slotAlign.toNat (widest rest)

variable {owner : String} {fields : List FieldDesc} {seen : List UInt16} {n : Nat}
  {known : Registry} {key elem : TypeDesc}

lemma le_extent (offset : Nat) (fields : List FieldDesc) : offset ≤ extent offset fields := by
  induction fields generalizing offset with
  | nil => exact le_rfl
  | cons field rest ih =>
    have rounded := le_alignUp offset field.slotAlign.toNat
    exact le_trans (le_trans rounded (Nat.le_add_right _ _)) (ih _)

lemma one_le_widest (fields : List FieldDesc) : 1 ≤ widest fields := by
  induction fields with
  | nil => exact le_rfl
  | cons field rest ih => exact le_trans ih (Nat.le_max_right _ _)

lemma fit_of_lt (low : n < 2 ^ 32) : ∃ off, fit n = .ok off ∧ off.toNat = n := by
  have made : fit n = .ok n.toUInt32 := by rw [fit, offset?_of_lt low]
  exact ⟨_, made, fit_eq_ok made⟩

/-- What is asked of a field on its own: a number in range, and a default only where one is read. -/
def Field.Allowed (field : FieldDesc) : Prop :=
  field.id.toNat ≤ 32767 ∧ ∀ default, field.default = some default →
    field.requiredness = .optional ∧ default.kind = field.type.kind

lemma Field.check_eq_ok_iff : field.check owner seen = .ok () ↔ field.id ∉ seen ∧ field.Allowed := by
  constructor
  · intro checked
    obtain ⟨fresh, range, default⟩ := Field.check_eq_ok checked
    exact ⟨fresh, by omega, default⟩
  · rintro ⟨fresh, range, default⟩
    have inRange : ¬ field.id > maxFieldId := UInt16.not_lt.mpr (UInt16.le_iff_toNat_le.mpr range)
    rw [Field.check, if_neg (by simpa using fresh), if_neg inRange]
    cases given : field.default with
    | none => rfl
    | some value => simp [default value given]

def Field.spec (field : FieldDesc) : FieldDesc := { field with offset := 0 }

/-- Fields that pass their checks behind fields with the numbers `seen`. -/
def Passes (seen : List UInt16) (fields : List FieldDesc) : Prop :=
  (fields.map (·.id)).Nodup ∧ (∀ field ∈ fields, field.id ∉ seen) ∧ ∀ field ∈ fields, field.Allowed

lemma passes_cons : Passes seen (field :: fields) ↔
    field.check owner seen = .ok () ∧ Passes (field.id :: seen) fields := by
  rw [Field.check_eq_ok_iff, Passes, forall_mem_cons, forall_mem_cons, map_cons, nodup_cons, Passes]
  simp only [mem_map, mem_cons, not_or]
  constructor
  · rintro ⟨⟨new, ids⟩, ⟨fresh, fresh'⟩, allowed, allowed'⟩
    exact ⟨⟨fresh, allowed⟩, ids, fun f mem => ⟨fun is => new ⟨f, mem, is⟩, fresh' f mem⟩, allowed'⟩
  · rintro ⟨⟨fresh, allowed⟩, ids, fresh', allowed'⟩
    exact ⟨⟨fun ⟨f, mem, is⟩ => (fresh' f mem).1 is, ids⟩, ⟨fresh, fun f mem => (fresh' f mem).2⟩, allowed, allowed'⟩

lemma placeFields_cons {offset : UInt32} (owner : String) (seen : List UInt16) (align : UInt32)
    (low : extent offset.toNat (field :: fields) < 2 ^ 32) :
    ∃ first next : UInt32, first.toNat = alignUp offset.toNat field.slotAlign.toNat ∧
      extent next.toNat fields = extent offset.toNat (field :: fields) ∧
      placeFields owner (field :: fields) seen offset align = (field.check owner seen).mapError .issue >>= fun _ =>
        placeFields owner fields (field.id :: seen) next (max align field.slotAlign) >>= fun (placed, stop, most) =>
          .ok ({ field with offset := first } :: placed, stop, most) := by
  rw [extent] at low
  have stop := le_extent (alignUp offset.toNat field.slotAlign.toNat + field.slotSize.toNat) fields
  obtain ⟨first, startFits, startIs⟩ := fit_of_lt (n := alignUp offset.toNat field.slotAlign.toNat) (by omega)
  obtain ⟨next, nextFits, nextIs⟩ := fit_of_lt (n := first.toNat + field.slotSize.toNat) (by omega)
  refine ⟨first, next, startIs, by rw [nextIs, startIs, extent], ?_⟩
  rw [placeFields, startFits]
  change _ >>= (fun _ => fit (first.toNat + field.slotSize.toNat) >>= _) = _
  rw [nextFits]
  rfl

/-- Below the bound, fields that pass their checks are placed one behind the other, each aligned. -/
lemma exists_placeFields (owner : String) (seen : List UInt16) (offset align : UInt32)
    (aligned : ∀ field ∈ fields, IsAlignment field.slotAlign.toNat) (start : 1 ≤ align.toNat)
    (low : extent offset.toNat fields < 2 ^ 32) (passes : Passes seen fields) : ∃ placed stop most, placeFields owner
    fields seen offset align = .ok (placed, stop, most) ∧ placed.map Field.spec = fields.map Field.spec ∧ stop.toNat =
    extent offset.toNat fields ∧ most.toNat = max align.toNat (widest fields) ∧ ∀ field ∈ placed, field.offset.toNat %
    field.slotAlign.toNat = 0 := by
  induction fields generalizing seen offset align with
  | nil => exact ⟨[], offset, align, rfl, rfl, rfl, (Nat.max_eq_left start).symm, nofun⟩
  | cons field rest ih =>
    obtain ⟨checked, later⟩ := passes_cons.mp passes
    obtain ⟨first, next, startIs, same, step⟩ := placeFields_cons owner seen align low
    obtain ⟨placed, stop, most, made, order, ends, widens, each⟩ := ih (field.id :: seen) next
      (max align field.slotAlign) (fun f mem => aligned f (mem_cons_of_mem _ mem)) (by rw [UInt32.toNat_max]; omega)
      (same ▸ low) later
    refine ⟨{ field with offset := first } :: placed, stop, most, by rw [step, checked, made]; rfl,
      by rw [map_cons, map_cons, order]; rfl, ends.trans same, by rw [widens, UInt32.toNat_max, widest]; omega,
      forall_mem_cons.mpr ⟨?_, each⟩⟩
    change first.toNat % field.slotAlign.toNat = 0
    rw [startIs, (aligned field mem_cons_self).alignUp_mod]

lemma exists_placeFields_error (owner : String) (seen : List UInt16) (offset align : UInt32)
    (low : extent offset.toNat fields < 2 ^ 32) (wrong : ¬ Passes seen fields) :
    ∃ issue, placeFields owner fields seen offset align = .error (.issue issue) := by
  induction fields generalizing seen offset align with
  | nil => simp [Passes] at wrong
  | cons field rest ih =>
    obtain ⟨first, next, -, same, step⟩ := placeFields_cons owner seen align low
    cases checked : field.check owner seen with
    | error issue => exact ⟨issue, by rw [step, checked]; rfl⟩
    | ok =>
      obtain ⟨issue, failed⟩ := ih (field.id :: seen) next (max align field.slotAlign) (same ▸ low)
        fun later => wrong (passes_cons.mpr ⟨checked, later⟩)
      exact ⟨issue, by rw [step, checked, failed]; rfl⟩

lemma alignUp_lt (n align : Nat) : alignUp n align < n + max align 1 := by
  have := Nat.div_mul_le_self (n + (max align 1 - 1)) (max align 1)
  simp only [alignUp]
  omega

/-- A record with the given fields, in slots that are aligned and lie side by side inside it. -/
structure TypeDesc.Arranged (t : TypeDesc) (fields : List FieldDesc) : Prop where
  order : t.fields.map Field.spec = fields.map Field.spec
  apart : t.fields.Pairwise fun a b => a.offset.toNat + a.slotSize.toNat ≤ b.offset.toNat
  inside : ∀ field ∈ t.fields, field.offset.toNat + field.slotSize.toNat ≤ t.size.toNat
  aligned : ∀ field ∈ t.fields, field.offset.toNat % field.slotAlign.toNat = 0
  size : t.size.toNat % t.align.toNat = 0

def Acceptable (fields : List FieldDesc) : Prop := (fields.map (·.id)).Nodup ∧ ∀ field ∈ fields, field.Allowed

lemma exists_record (aligned : ∀ field ∈ fields, field.type.Aligned) (low : extent 0 fields + widest fields < 2 ^ 32)
    (accept : Acceptable fields) (name : String) (id : Nat) : ∃ t, TypeDesc.record name fields id = .ok t ∧ t.Arranged fields := by
  have slots : ∀ field ∈ fields, IsAlignment field.slotAlign.toNat := fun field mem => by
    unfold Field.slotAlign
    split
    · exact .inr (.inr (.inl rfl))
    · exact (aligned field mem).align
  obtain ⟨placed, stop, most, made, order, ends, widens, each⟩ := exists_placeFields name [] 0 1 slots
    le_rfl (show extent 0 fields < 2 ^ 32 by omega) ⟨accept.1, by simp, accept.2⟩
  have wide : most.toNat = widest fields := widens.trans (Nat.max_eq_right (one_le_widest fields))
  have rounded := alignUp_lt stop.toNat most.toNat
  obtain ⟨size, sizeFits, sizeIs⟩ := fit_of_lt (n := alignUp stop.toNat most.toNat) (by
    have := one_le_widest fields
    have : stop.toNat = extent 0 fields := ends
    omega)
  have is : TypeDesc.record name fields id = .ok ⟨id, .struct, name, size, most, none, none, none, placed⟩ := by
    simp only [TypeDesc.record, made, sizeFits, bind, Except.bind, pure, Except.pure]
  have laid := (record_eq_ok is).2.1.laidOut
  exact ⟨_, is, order, laid.apart, laid.inside, each, (record_aligned aligned is).size⟩

lemma exists_record_issue (low : extent 0 fields + widest fields < 2 ^ 32) (wrong : ¬ Acceptable fields)
    (name : String) (id : Nat) : ∃ issue, TypeDesc.record name fields id = .error (.issue issue) := by
  obtain ⟨issue, failed⟩ := exists_placeFields_error name [] 0 1
    (show extent 0 fields < 2 ^ 32 by omega) fun ⟨ids, _, allowed⟩ => wrong ⟨ids, allowed⟩
  exact ⟨issue, by simp only [TypeDesc.record, failed, bind, Except.bind]⟩

lemma step_mod {base stride align : Nat} (start : base % align = 0) (multiple : stride % align = 0) (i : Nat) :
    (base + i * stride) % align = 0 := by
  rw [Nat.add_mod, start, Nat.mul_mod, multiple, Nat.mul_zero, Nat.zero_mod, Nat.zero_add, Nat.zero_mod]

lemma step_le {stride size i j : Nat} (base : Nat) (fits : size ≤ stride) (behind : i < j) :
    base + i * stride + size ≤ base + j * stride := by
  have := Nat.mul_le_mul_right stride behind
  rw [Nat.succ_mul] at this
  omega

lemma IsAlignment.dvd_max {a b : Nat} (first : IsAlignment a) (second : IsAlignment b) : a ∣ max a b ∧ b ∣ max a b := by
  rcases first with rfl | rfl | rfl | rfl <;> rcases second with rfl | rfl | rfl | rfl <;> decide

lemma IsAlignment.mod_of_max {a b : Nat} (first : IsAlignment a) (second : IsAlignment b)
    (multiple : n % max a b = 0) : n % a = 0 ∧ n % b = 0 := by
  obtain ⟨left, right⟩ := first.dvd_max second
  have whole := Nat.dvd_of_mod_eq_zero multiple
  exact ⟨Nat.mod_eq_zero_of_dvd (Nat.dvd_trans left whole), Nat.mod_eq_zero_of_dvd (Nat.dvd_trans right whole)⟩

/-- Values of the type, one behind the other from an aligned place on, are aligned and apart. -/
def TypeDesc.Tiles (t : TypeDesc) : Prop := ∀ base i, base % t.align.toNat = 0 →
  (base + i * t.size.toNat) % t.align.toNat = 0 ∧
    ∀ j, i < j → base + i * t.size.toNat + t.size.toNat ≤ base + j * t.size.toNat

/-- Entries from a place on that suits key and value: both are aligned, the value comes behind its key, and the
next entry behind both. -/
def TypeDesc.EntryLayout.Tiles (layout : EntryLayout) (key elem : TypeDesc) : Prop :=
  ∀ base i, base % max key.align.toNat elem.align.toNat = 0 → (base + i * layout.stride.toNat) % key.align.toNat = 0 ∧
    (base + i * layout.stride.toNat + layout.valueOffset.toNat) % elem.align.toNat = 0 ∧
    key.size.toNat ≤ layout.valueOffset.toNat ∧
    ∀ j, i < j → base + i * layout.stride.toNat + layout.valueOffset.toNat + elem.size.toNat ≤ base + j * layout.stride.toNat

lemma TypeDesc.Aligned.exists_tiles (first : key.Aligned) (second : elem.Aligned)
    (room : key.size.toNat + elem.size.toNat + max key.align.toNat elem.align.toNat < 2 ^ 32) :
    ∃ layout, EntryLayout.of? key elem = some layout ∧ layout.Tiles key elem := by
  obtain ⟨layout, made, value, stride⟩ := first.entryLayout second room
  refine ⟨layout, made, fun base i start => ?_⟩
  have most := isAlignment_max first.align second.align
  have entry := step_mod start (stride ▸ most.alignUp_mod _) i
  obtain ⟨keyFits, valueFits⟩ := first.align.mod_of_max second.align entry
  refine ⟨keyFits, ?_, value ▸ le_alignUp _ _, fun j behind => ?_⟩
  · rw [Nat.add_mod, valueFits, value, second.align.alignUp_mod, Nat.zero_add, Nat.zero_mod]
  · rw [Nat.add_assoc]
    exact step_le base (stride ▸ le_alignUp _ _) behind

/-- Below the bound a record is refused only for what is wrong with its fields, and otherwise laid out soundly.
Elements of lists and entries of maps are aligned and apart, too. -/
theorem layouts_sound (built : known.Built) :
    (∀ name fields id, (∀ field ∈ fields, known.Has field.type) → extent 0 fields + widest fields < 2 ^ 32 →
      (Acceptable fields → ∃ t, TypeDesc.record name fields id = .ok t ∧ t.Arranged fields) ∧
      (¬ Acceptable fields → ∃ issue, TypeDesc.record name fields id = .error (.issue issue))) ∧
    (∀ t, known.Has t → t.size.toNat % t.align.toNat = 0 ∧ t.Tiles) ∧
    ∀ key elem, known.Has key → known.Has elem →
      key.size.toNat + elem.size.toNat + max key.align.toNat elem.align.toNat < 2 ^ 32 →
      ∃ layout, TypeDesc.EntryLayout.of? key elem = some layout ∧ layout.Tiles key elem := by
  refine ⟨fun name fields id has low => ⟨fun accept => ?_, fun wrong => exists_record_issue low wrong name id⟩,
    fun t has => ?_, fun key elem hasKey hasElem room => ?_⟩
  · exact exists_record (fun field mem => built.aligned _ (has field mem)) low accept name id
  · have aligned := built.aligned t has
    exact ⟨aligned.size, fun base i start =>
      ⟨step_mod start aligned.size i, fun j behind => step_le base le_rfl behind⟩⟩
  · exact (built.aligned key hasKey).exists_tiles (built.aligned elem hasElem) room

def Registry.plain : Registry := ((Registry.empty.add (.scalar .bool)).2.add (.scalar .i64)).2

def pairFields (id : UInt16) : List FieldDesc :=
  [⟨1, "a", .required, .scalar .bool 0, none, 0⟩, ⟨id, "b", .required, .scalar .i64 1, none, 0⟩]

theorem layouts_sound_plain : (∃ t, TypeDesc.record "pair" (pairFields 2) 2 = .ok t ∧ t.Arranged (pairFields 2)) ∧
    (∃ issue, TypeDesc.record "pair" (pairFields 1) 2 = .error (.issue issue)) ∧
    ∃ layout, TypeDesc.EntryLayout.of? (.scalar .bool 0) (.scalar .i64 1) = some layout ∧
      (8 + 3 * layout.stride.toNat + layout.valueOffset.toNat) % 8 = 0 := by
  have built : Registry.plain.Built := .scalar .i64 rfl (.scalar .bool rfl .empty)
  have flag : Registry.plain.Has (.scalar .bool 0) := rfl
  have long : Registry.plain.Has (.scalar .i64 1) := rfl
  obtain ⟨records, -, entries⟩ := layouts_sound built
  have pair := fun id low => records "pair" (pairFields id) 2 (by simp [pairFields, flag, long]) low
  obtain ⟨layout, laid, tiles⟩ := entries _ _ flag long (by decide)
  exact ⟨(pair 2 (by decide)).1 ⟨by decide, by simp [pairFields, Field.Allowed]⟩,
    (pair 1 (by decide)).2 fun ⟨ids, _⟩ => absurd ids (by decide), layout, laid, (tiles 8 3 (by decide)).2.1⟩

end WireCodec
