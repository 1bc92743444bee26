import WireCodec.Proofs.Codec.Filling

/-! Reading records: memory is cleared, defaults are stored, and then the fields on the wire are read in any order. -/
namespace WireCodec

open Lowering List Occurrence
open Reading (clear eof fieldFor? hasRequired occurrences record storeDefault value walk)

variable {tag : UInt8} {field : FieldDesc} {nested : Visit} {occs : List Occurrence} {slots : List Content}
  {index s' s : Nat} {content : Content} {id : UInt16}

section Numbers

def wideId (id : UInt16) : UInt64 := Machine.widen .w2 true (beWord (beBytes 2 id.toUInt64))

lemma toInt_wideId (id : UInt16) :
    (wideId id).toInt64.toInt = if id.toNat < 2 ^ 15 then (id.toNat : Int) else id.toNat - 2 ^ 16 := by
  have low := id.toNat_lt
  have word : beWord (beBytes 2 id.toUInt64) = id.toUInt64 := by
    apply UInt64.toNat_inj.mp
    rw [toNat_beWord_beBytes (by decide), UInt16.toNat_toUInt64]
    exact Nat.mod_eq_of_lt low
  rw [wideId, word]
  change ((id.toUInt64.toBitVec <<< 48).sshiftRight 48).toInt = _
  rw [BitVec.toInt_sshiftRight, Int.shiftRight_eq_div_pow, BitVec.toInt_eq_toNat_cond, BitVec.toNat_shiftLeft]
  change ((if 2 * (id.toUInt64.toNat <<< 48 % 2 ^ 64) < 2 ^ 64 then ((id.toUInt64.toNat <<< 48 % 2 ^ 64 : Nat) : Int)
    else (id.toUInt64.toNat <<< 48 % 2 ^ 64 : Nat) - (2 ^ 64 : Nat)) / _) = _
  rw [UInt16.toNat_toUInt64, Nat.shiftLeft_eq, Nat.mod_eq_of_lt (by omega)]
  by_cases positive : id.toNat < 2 ^ 15
  · rw [if_pos (by omega), if_pos positive]
    omega
  · rw [if_neg (by omega), if_neg positive]
    omega

/-- Numbers of fields are not negative, so that reading tells them apart from all others. -/
lemma toUInt64_eq_wideId {id' : UInt16} (low : id'.toNat < 2 ^ 15) : id'.toUInt64 = wideId id ↔ id' = id := by
  have range := id.toNat_lt
  have own := toInt_wideId id'
  have other := toInt_wideId id
  rw [if_pos low] at own
  have same : id'.toUInt64 = wideId id' := by
    suffices same : id'.toUInt64.toInt64 = (wideId id').toInt64 from congrArg Int64.toUInt64 same
    apply Int64.toInt_inj.mp
    rw [own, toInt_toInt64 (by rw [UInt16.toNat_toUInt64]; omega), UInt16.toNat_toUInt64]
  constructor
  · intro eq
    rw [← eq, same, own] at other
    apply UInt16.toNat_inj.mp
    split at other <;> omega
  · intro eq
    rw [same, eq]

variable {fields : List FieldDesc} {size : Nat}

lemma fieldFor?_eq_some (laidOut : LaidOut fields size) : fieldFor? fields (wideId id) tag.toUInt64 = some
    (index, field) ↔ fields[index]? = some field ∧ field.id = id ∧ field.type.kind.tag = tag := by
  constructor
  · intro found
    obtain ⟨at_, number, tag⟩ := Reading.mem_of_fieldFor? found
    have low := laidOut.idRange field (mem_of_getElem? at_)
    exact ⟨at_, (toUInt64_eq_wideId low).mp number, UInt8.toUInt64_inj.mp tag⟩
  · rintro ⟨at_, rfl, rfl⟩
    obtain ⟨low, rfl⟩ := List.getElem?_eq_some_iff.mp at_
    have own := laidOut.idRange _ (getElem_mem low)
    have first : fields.findIdx? (fun f => f.id.toUInt64 = wideId fields[index].id) = some index := by
      rw [findIdx?_eq_some_iff_getElem]
      refine ⟨low, by simpa using (toUInt64_eq_wideId own).mpr rfl, fun j before => ?_⟩
      have less := Nat.lt_trans before low
      have range := laidOut.idRange _ (getElem_mem less)
      simp only [decide_eq_true_eq, toUInt64_eq_wideId range]
      intro same
      have injective := List.nodup_iff_injective_getElem.mp laidOut.ids
      have equal := @injective ⟨j, by simpa using less⟩ ⟨index, by simpa using low⟩ (by simpa using same)
      have := Fin.mk.inj equal
      omega
    simp [fieldFor?, first, low]

lemma fields_apart (laidOut : LaidOut fields size) {i j : Nat} {a b : FieldDesc} (first : fields[i]? = some a)
    (second : fields[j]? = some b) (ne : i ≠ j) : a.offset.toNat + a.slotSize.toNat ≤ b.offset.toNat ∨
      b.offset.toNat + b.slotSize.toNat ≤ a.offset.toNat := by
  obtain ⟨low, rfl⟩ := List.getElem?_eq_some_iff.mp first
  obtain ⟨low', rfl⟩ := List.getElem?_eq_some_iff.mp second
  rcases Nat.lt_or_gt_of_ne ne with before | after
  · exact .inl (List.pairwise_iff_getElem.mp laidOut.apart i j low low' before)
  · exact .inr (List.pairwise_iff_getElem.mp laidOut.apart j i low' low after)

lemma hasRequired_eq_true {seen : List Nat} : hasRequired fields seen = true ↔
    ∀ (i : Nat) (field : FieldDesc), fields[i]? = some field → field.requiredness = .required → i ∈ seen := by
  simp only [hasRequired, all_eq_true, Bool.or_eq_true, decide_eq_true_eq, contains_iff_mem, ne_eq]
  constructor
  · intro all i field at_ required
    exact (all (field, i) (mem_zipIdx_iff_getElem?.mpr at_)).resolve_left fun not => not required
  · intro all entry mem
    by_cases required : entry.1.requiredness = .required
    · exact .inr (all entry.2 entry.1 (mem_zipIdx_iff_getElem?.mp mem) required)
    · exact .inl required

end Numbers

section Steps

variable {known : Registry} {left : Nat} {t : TypeDesc} {base : UInt64} {c : Scene}

lemma toUInt64_ne_zero (notStop : tag ≠ Tag.stop) : tag.toUInt64 ≠ 0 :=
  fun zero => notStop (UInt8.toUInt64_inj.mp zero)

lemma occurrences_head {fields : List FieldDesc} {count : Nat} {seen : List Nat} {c₁ c₂ : Scene}
    (notStop : tag ≠ Tag.stop) (tagRead : Act.read eof .w1 false c = .ok tag.toUInt64 c₁)
    (idRead : Act.read eof .w2 true c₁ = .ok (wideId id) c₂) :
    occurrences known (fun _ => nested) fields left base (count + 1) seen c =
      (match fieldFor? fields (wideId id) tag.toUInt64 with
      | some (index, f) =>
        if seen.contains index then Act.fail .duplicateField
        else do
          Reading.field known (fun _ => nested) left base f
          occurrences known (fun _ => nested) fields left base count (index :: seen)
      | none => do
        Act.pass left tag.toUInt64
        occurrences known (fun _ => nested) fields left base count seen) c₂ := by
  rw [occurrences, Act.bind_ok tagRead]
  simp only [if_neg (toUInt64_ne_zero notStop)]
  exact Act.bind_ok idRead

lemma went_fieldHead (ready : c.Ready) {o : Occurrence} (at_ : At c.wire c.pos.toNat o.bytes) : ∃ c₁ c₂, Act.read
    eof .w1 false c = .ok o.tag.toUInt64 c₁ ∧ Act.read eof .w2 true c₁ = .ok (wideId o.id) c₂ ∧ c₂.heap
    = c.heap ∧ c.Quiet c₂ ∧ (Went c c₂ 3 fun _ => False) ∧ At c₂.wire c₂.pos.toNat o.payload := by
  obtain ⟨atTag, atRest⟩ := At.append.mp at_
  obtain ⟨c₁, tagRead, heap₁, went₁⟩ := went_read ready .w1 false atTag rfl
  rw [widen_byte] at tagRead
  obtain ⟨atId, atPayload⟩ := At.append.mp (went₁.ahead atRest)
  obtain ⟨c₂, idRead, heap₂, went₂⟩ := went_read (ready.went went₁) .w2 true atId (length_beBytes _ _)
  rw [length_beBytes] at atPayload
  exact ⟨c₁, c₂, tagRead, idRead, heap₂.trans heap₁, (Act.silent_read _ _ _ tagRead).trans (Act.silent_read _ _ _ idRead),
    went₁.trans went₂ fun _ _ => id, went₂.ahead atPayload⟩

lemma Occurrence.length_bytes (o : Occurrence) : o.bytes.length = 3 + o.payload.length := by
  simp only [bytes, length_append, length_singleton, length_beBytes]
  omega

lemma went_pass (ready : c.Ready) {payload : List UInt8} (raw : Raw left tag payload)
    (at_ : At c.wire c.pos.toNat payload) :
    ∃ c', Act.pass left tag.toUInt64 c = .ok () c' ∧ c'.heap = c.heap ∧ Went c c' payload.length fun _ => False := by
  have passed := (skip_passes c.wire left tag c.pos.toNat (c.pos.toNat + payload.length)).mpr ⟨payload, at_, rfl, raw⟩
  have inside := at_.2
  have wire := ready.wire
  refine ⟨{ c with pos := (c.pos.toNat + payload.length).toUInt64 }, ?_, rfl, rfl, ?_, .refl ready.small⟩
  · have same : tag.toUInt64.toUInt8 = tag := by simp
    rw [Act.pass, same, passed]
  · change (c.pos.toNat + payload.length).toUInt64.toNat = _
    simp only [Nat.toUInt64_eq, UInt64.toNat_ofNat']
    omega


def fieldSpot (sound : known.Sound) (has : known.Has t) (base : Nat) {i : Nat} (at_ : t.fields[i]? = some field)
    (content : Content) : Spot known :=
  ⟨field.isBoxed, base + field.offset.toNat, field.type, content, sound.field has (mem_of_getElem? at_)⟩

def OnWire (sound : known.Sound) (has : known.Has t) (base : Nat) (occs : List Occurrence) (p : Spot known) : Prop :=
  ∃ o ∈ occs, ∃ i content field, o.field? = some (i, content) ∧
    ∃ at_ : t.fields[i]? = some field, p = fieldSpot sound has base at_ content

section OnWire

variable {sound : known.Sound} {has : known.Has t} {occs : List Occurrence} {p : Spot known} {o : Occurrence}

lemma OnWire.within (on : OnWire sound has base.toNat occs p) :
    base.toNat ≤ p.addr ∧ p.addr + p.width ≤ base.toNat + t.size.toNat := by
  obtain ⟨o, _, i, content, field, _, at_, rfl⟩ := on
  exact ⟨Nat.le_add_right _ _, Holds.slot_inside sound has (mem_of_getElem? at_) base.toNat⟩

lemma OnWire.apart {i k : Nat} (on : OnWire sound has base.toNat occs p) (at_ : t.fields[i]? = some field)
    (notIn : i ∉ occs.filterMap index?)
    (own : Within (base.toNat + field.offset.toNat) (Holds.slotSize field.isBoxed field.type) k) : ¬ p.Covers k := by
  obtain ⟨o, mem, j, content, other, is, at', rfl⟩ := on
  have apart := fields_apart (sound.shaped t has).laidOut at_ at' fun same =>
    notIn (List.mem_filterMap.mpr ⟨o, mem, by rw [index?, is, same]; rfl⟩)
  rw [Holds.slotSize_field] at own
  intro own'
  change Within (base.toNat + other.offset.toNat) (Holds.slotSize other.isBoxed other.type) k at own'
  rw [Holds.slotSize_field] at own'
  omega

lemma onWire_skip (none_ : o.field? = none) :
    OnWire sound has base.toNat (o :: occs) p ↔ OnWire sound has base.toNat occs p := by
  simp [OnWire, none_]

lemma onWire_cons {i : Nat} (is : o.field? = some (i, content)) (at_ : t.fields[i]? = some field) : OnWire sound has
    base.toNat (o :: occs) p ↔ p = fieldSpot sound has base.toNat at_ content ∨ OnWire sound has base.toNat occs p := by
  rw [OnWire, exists_mem_cons_iff]
  refine or_congr_left ⟨?_, fun same => ⟨i, content, field, is, at_, same⟩⟩
  rintro ⟨i', content', field', is', at', rfl⟩
  cases is.symm.trans is'
  cases at_.symm.trans at'
  rfl

end OnWire

/-- Fields of a record on the wire, where those in `seen` were met before. -/
@[mk_iff]
structure FieldRun (t : TypeDesc) (left : Nat) (seen : List Nat) (occs : List Occurrence) : Prop where
  proper : ∀ o ∈ occs, o.Proper t.fields left
  once : (occs.filterMap index?).Nodup
  fresh : ∀ i ∈ occs.filterMap index?, i ∉ seen
  required : ∀ (i : Nat) (field : FieldDesc), t.fields[i]? = some field → field.requiredness = .required →
    i ∈ seen ∨ i ∈ occs.filterMap index?

section FieldRun

variable {seen : List Nat} {occs : List Occurrence} {o : Occurrence}

lemma fieldRun_skip (none_ : o.field? = none) :
    FieldRun t left seen (o :: occs) ↔ o.Proper t.fields left ∧ FieldRun t left seen occs := by
  have index : o.index? = none := by rw [index?, none_]; rfl
  simp only [fieldRun_iff, filterMap_cons_none index, forall_mem_cons, and_assoc]

lemma fieldRun_cons (given : o.field? = some (index, content)) : FieldRun t left seen
    (o :: occs) ↔ o.Proper t.fields left ∧ index ∉ seen ∧ FieldRun t left (index :: seen) occs := by
  have isIndex : o.index? = some index := by rw [index?, given]; rfl
  simp only [fieldRun_iff, filterMap_cons_some isIndex, nodup_cons, mem_cons]
  grind

lemma Occurrence.Make.fieldRun (make : Make t.fields left occs slots) : FieldRun t left [] occs := by
  refine ⟨make.proper, make.once, fun _ _ => not_mem_nil, fun i field at_ required => ?_⟩
  obtain ⟨low, _⟩ := List.getElem?_eq_some_iff.mp at_
  rcases make.slot i field _ at_ (getElem?_eq_getElem (make.length ▸ low)) with ⟨o, mem, given⟩ | ⟨_, not, _⟩
  · exact .inr (List.mem_filterMap.mpr ⟨o, mem, by rw [index?, given]; rfl⟩)
  · exact absurd required not

end FieldRun

lemma fills_occurrences (sound : known.Sound) (has : known.Has t) {count : Nat}
    {seen : List Nat} (run : FieldRun t left seen occs)
    (through : Through (fun o => o.Steps t.fields fun field c s s' => s ≤ s' ∧
      Fills known (Reading.field known (fun _ => nested) left base field) o.payload field.isBoxed (base.toNat + field.offset.toNat)
        field.type c s s') occs s s') (enough : occs.length < count) :
    ∃ spots : List (Spot known), (∀ p, p ∈ spots ↔ OnWire sound has base.toNat occs p) ∧
      FillsAll (occurrences known (fun _ => nested) t.fields left base count seen)
        (occs.flatMap bytes ++ [Tag.stop]) spots s s' := by
  have laidOut := (sound.shaped t has).laidOut
  induction through generalizing count seen with
  | nil =>
    obtain ⟨count, rfl⟩ := Nat.exists_eq_succ_of_ne_zero (show count ≠ 0 by rintro rfl; cases enough)
    have full : hasRequired t.fields seen = true :=
      hasRequired_eq_true.mpr fun i field at_ is => (run.required i field at_ is).resolve_right nofun
    refine ⟨[], by simp [OnWire], (fillsAll_pure _).behind [Tag.stop] fun c ready at_ => ?_⟩
    obtain ⟨c₁, tagRead, heap₁, went₁⟩ := went_read ready .w1 false at_ rfl
    refine ⟨c₁, ?_, heap₁, Act.silent_read _ _ _ tagRead, went₁⟩
    rw [occurrences, Act.bind_ok tagRead]
    change (if hasRequired t.fields seen then pure () else Act.fail .missingRequiredField : Act Unit) c₁ = _
    rw [if_pos full]
  | @cons o rest s r s' first others ih =>
    obtain ⟨count, rfl⟩ := Nat.exists_eq_succ_of_ne_zero (show count ≠ 0 by rintro rfl; cases enough)
    rw [length_cons] at enough
    rw [flatMap_cons, append_assoc]
    rcases first with ⟨is, rfl⟩ | ⟨index, content, field, is, isField, _, fills⟩
    · obtain ⟨isProper, run⟩ := (fieldRun_skip is).mp run
      obtain ⟨unmatched, raw⟩ := isProper.unknown is
      have notFound : fieldFor? t.fields (wideId o.id) o.tag.toUInt64 = none := by
        rw [Option.eq_none_iff_forall_ne_some]
        rintro ⟨index, field⟩ found
        obtain ⟨at_, match_⟩ := (fieldFor?_eq_some laidOut).mp found
        exact unmatched field (mem_of_getElem? at_) match_
      obtain ⟨spots, listed, fills⟩ := @ih count seen run (by omega)
      refine ⟨spots, fun p => (listed p).trans (onWire_skip is).symm, fills.behind _ fun c ready at_ => ?_⟩
      obtain ⟨c₁, c₂, tagRead, idRead, heap₂, quiet₂, went₂, atPayload⟩ := went_fieldHead ready (At.append.mp at_).1
      obtain ⟨c₃, passed, heap₃, went₃⟩ := went_pass (ready.went went₂) raw atPayload
      refine ⟨c₃, ?_, heap₃.trans heap₂, quiet₂.trans (Act.silent_pass _ _ passed), ?_⟩
      · rw [occurrences_head isProper.notStop tagRead idRead, notFound]
        exact Act.bind_ok passed
      · rw [length_bytes]
        exact went₂.trans went₃ fun _ _ => id
    · obtain ⟨isProper, new, run⟩ := (fieldRun_cons is).mp run
      obtain ⟨field', isField', match_⟩ := isProper.known index content is
      cases isField.symm.trans isField'
      have found : fieldFor? t.fields (wideId o.id) o.tag.toUInt64 = some (index, field) :=
        (fieldFor?_eq_some laidOut).mpr ⟨isField, match_⟩
      obtain ⟨spots, listed, fillsRest⟩ := @ih count (index :: seen) run (by omega)
      have le : r ≤ s' := others.le fun step => by
        rcases step with ⟨_, rfl⟩ | ⟨_, _, _, _, _, le, _⟩
        · exact le_rfl
        · exact le
      have both := @FillsAll.bind known _ _ _ _ [fieldSpot sound has base.toNat isField content] spots _ _ _ sound
        (Fills.one fills) fillsRest le fun p mem q mem' k own => by
          cases List.mem_singleton.mp mem
          exact ((listed q).mp mem').apart isField (fun mem => run.fresh index mem mem_cons_self) own
      refine ⟨fieldSpot sound has base.toNat isField content :: spots, fun p => ?_, ?_⟩
      · rw [mem_cons, listed, onWire_cons is isField]
      · have split_ : o.bytes = ([o.tag] ++ beBytes 2 o.id.toUInt64) ++ o.payload := by
          rw [bytes, append_assoc]
        rw [split_, append_assoc]
        refine both.behind _ fun c ready at_ => ?_
        rw [← append_assoc, ← split_] at at_
        obtain ⟨c₁, c₂, tagRead, idRead, heap₂, quiet₂, went₂, _⟩ := went_fieldHead ready (At.append.mp at_).1
        refine ⟨c₂, ?_, heap₂, quiet₂, went₂⟩
        rw [occurrences_head isProper.notStop tagRead idRead, found]
        simp only [if_neg (mt List.contains_iff_mem.mp new)]

lemma went_clear (ready : c.Ready) (inside : base.toNat + t.size.toNat ≤ c.heap.size) :
    ∃ c', clear base t c = .ok () c' ∧ c'.heap.size = c.heap.size ∧ c'.heap.Clear base.toNat t.size.toNat ∧
      Went c c' 0 (Within base.toNat t.size.toNat) := by
  unfold clear
  by_cases none_ : t.size = 0
  · rw [if_pos none_, none_]
    exact ⟨c, rfl, rfl, nofun, rfl, rfl, .refl ready.small⟩
  · rw [if_neg none_]
    exact went_zero ready (Nat.pos_of_ne_zero fun zero => none_ (UInt32.toNat_inj.mp zero)) inside

lemma went_storeDefault (usable : known.Usable) (ready : c.Ready)
    (vacant : Vacant known c.heap field.isBoxed (base.toNat + field.offset.toNat) field.type)
    (default : ∀ d, field.default = some d → field.requiredness = .optional ∧ d.kind = field.type.kind) : ∃ c',
    storeDefault base field c = .ok () c' ∧ c'.heap.size = c.heap.size ∧ Went c c' 0
    (Within (base.toNat + field.offset.toNat) field.slotSize.toNat) ∧ Holds known c'.heap c'.heap.size c'.heap.size
    field.isBoxed (base.toNat + field.offset.toNat) field.type (Content.absent field) ∧ ∀ a, ¬ LinkAt known c'.heap
    field.isBoxed (base.toNat + field.offset.toNat) field.type a := by
  unfold storeDefault Content.absent
  rcases Option.eq_none_or_eq_some field.default with given | ⟨d, given⟩
  · simp only [given]
    exact ⟨c, rfl, rfl, ⟨rfl, rfl, .refl ready.small⟩, vacant.holds usable.sound, vacant.unlinked usable.sound⟩
  · have plain : field.isBoxed = false := by simp [Field.isBoxed, given]
    have slot := Holds.slotSize_field field
    have inside := vacant.inside
    have clear := vacant.clear
    obtain ⟨_, kind⟩ := default d given
    have isScalar : field.type.kind.isScalar = true := by
      rw [← kind]
      cases d <;> rfl
    have shaped := usable.sound.shaped _ vacant.has
    obtain ⟨_, _, _, size⟩ := shaped.width isScalar
    have wide := Writing.bytes_width shaped isScalar
    have bits := bits_lt (kind ▸ size)
    rw [plain] at slot inside clear ⊢
    change field.type.size.toNat = _ at slot
    change _ + field.type.size.toNat ≤ _ at inside
    simp only [given]
    by_cases zero : d.bits = 0
    · rw [if_pos zero]
      refine ⟨c, rfl, rfl, ⟨rfl, rfl, .refl ready.small⟩, .word isScalar ?_ bits, fun _ => not_linkAt_scalar isScalar⟩
      rw [zero]
      exact clear.word inside
    · rw [if_neg zero]
      obtain ⟨c', stored, size', word, went⟩ := went_store ready (Writing.width field.type) d.bits base field.offset (by rw [wide]; exact inside)
      rw [wide] at word went
      rw [slot] at went
      exact ⟨c', stored, size', went, .word isScalar word bits, fun _ => not_linkAt_scalar isScalar⟩

lemma Went.absent {c' : Scene} {n lo : Nat} {owned : Nat → Prop} (went : Went c c' n owned) (ready : c.Ready)
    (sound : known.Sound) (has : known.Has t) {boxed : Bool} {addr : Nat}
    (absent : Holds known c.heap c.heap.size c.heap.size boxed addr t content ∧ ∀ a, ¬ LinkAt known c.heap boxed addr t a)
    (inside : addr + Holds.slotSize boxed t ≤ c.heap.size)
    (apart : ∀ k, Within addr (Holds.slotSize boxed t) k → ¬ owned k) (le : lo ≤ c.heap.size) :
    Holds known c'.heap lo c'.heap.size boxed addr t content ∧ ∀ a, ¬ LinkAt known c'.heap boxed addr t a := by
  obtain ⟨holds, unlinked⟩ := absent
  refine ⟨holds.keep sound has went.heap inside apart (fun k low high => by omega) le, fun a link => ?_⟩
  obtain ⟨a', before⟩ := link.same sound has (went.heap.range inside fun k low high => apart k ⟨low, high⟩) inside
    went.heap.grows ready.small
  exact unlinked a' before

lemma went_storeDefaults (usable : known.Usable) {fields : List FieldDesc} (ready : c.Ready)
    (vacant : ∀ field ∈ fields, Vacant known c.heap field.isBoxed (base.toNat + field.offset.toNat) field.type)
    (apart : fields.Pairwise fun a b => a.offset.toNat + a.slotSize.toNat ≤ b.offset.toNat)
    (default : ∀ field ∈ fields, ∀ d, field.default = some d →
      field.requiredness = .optional ∧ d.kind = field.type.kind) :
    ∃ c', Reading.storeDefaults base fields c = .ok () c' ∧ c'.heap.size = c.heap.size ∧
      (Went c c' 0 fun k => ∃ field ∈ fields, Within (base.toNat + field.offset.toNat) field.slotSize.toNat k) ∧
      ∀ field ∈ fields, Holds known c'.heap c'.heap.size c'.heap.size field.isBoxed (base.toNat + field.offset.toNat)
          field.type (Content.absent field) ∧
        ∀ a, ¬ LinkAt known c'.heap field.isBoxed (base.toNat + field.offset.toNat) field.type a := by
  induction fields generalizing c with
  | nil => exact ⟨c, rfl, rfl, ⟨rfl, rfl, .refl ready.small⟩, nofun⟩
  | cons field rest ih =>
    rw [pairwise_cons] at apart
    have slot := Holds.slotSize_field field
    have first := vacant field mem_cons_self
    obtain ⟨c₁, stored, size₁, went₁, absent⟩ := went_storeDefault usable ready first (default field mem_cons_self)
    obtain ⟨c₂, others, size₂, went₂, held⟩ := ih (ready.went went₁)
      (fun f mem => (vacant f (mem_cons_of_mem _ mem)).keep went₁.heap fun k in_ own => by
        have := apart.1 f mem
        omega) apart.2 fun f mem => default f (mem_cons_of_mem _ mem)
    refine ⟨c₂, ?_, size₂.trans size₁, ?_, fun f mem => ?_⟩
    · rw [Reading.storeDefaults, Act.bind_ok stored, others]
    · refine (went₁.mono fun k _ own => ⟨field, mem_cons_self, own⟩).trans went₂ fun k _ own => ?_
      obtain ⟨f, mem, own⟩ := own
      exact ⟨f, mem_cons_of_mem _ mem, own⟩
    · rcases List.mem_cons.mp mem with rfl | mem
      · refine went₂.absent (ready.went went₁) usable.sound first.has absent (size₁ ▸ first.inside) ?_ (le_of_eq size₂)
        rintro k in_ ⟨g, mem, own⟩
        have := apart.1 g mem
        omega
      · exact held f mem

lemma went_prepare (usable : known.Usable) (has : known.Has t) (ready : c.Ready)
    (inside : base.toNat + t.size.toNat ≤ c.heap.size) : ∃ c₁ c₂, clear base t c = .ok () c₁ ∧
    Reading.storeDefaults base t.fields c₁ = .ok () c₂ ∧ c₂.heap.size = c.heap.size ∧ Went c c₂ 0
    (Within base.toNat t.size.toNat) ∧ ∀ field ∈ t.fields, Holds known c₂.heap c₂.heap.size c₂.heap.size field.isBoxed
    (base.toNat + field.offset.toNat) field.type (Content.absent field) ∧ ∀ a, ¬ LinkAt known c₂.heap field.isBoxed
    (base.toNat + field.offset.toNat) field.type a := by
  have laidOut := (usable.sound.shaped t has).laidOut
  obtain ⟨c₁, cleared, size₁, clear, went₁⟩ := went_clear ready inside
  have ready₁ := ready.went went₁
  obtain ⟨c₂, stored, size₂, went₂, held⟩ := @went_storeDefaults known base c₁ usable t.fields ready₁
    (fun field mem => by
      have room := Holds.slot_inside usable.sound has mem base.toNat
      exact ⟨usable.sound.field has mem, ready₁.started, ready₁.small, le_trans room (size₁ ▸ inside),
        clear.part (Nat.le_add_right _ _) room⟩)
    laidOut.apart laidOut.defaults
  refine ⟨c₁, c₂, cleared, stored, size₂.trans size₁, went₁.trans went₂ fun k _ own => ?_, held⟩
  obtain ⟨field, mem, own⟩ := own
  have := laidOut.inside field mem
  omega

lemma fills_record (usable : known.Usable)
    (has : known.Has t) (kind : t.kind = .struct) (make : Make t.fields left occs slots)
    (through : Through (fun o => o.Steps t.fields fun field c s s' => s ≤ s' ∧
      Fills known (Reading.field known (fun _ => nested) left base field) o.payload field.isBoxed (base.toNat + field.offset.toNat)
        field.type c s s') occs s s') :
    Fills known (record known (fun _ => nested) (left + 1) t base) (occs.flatMap bytes ++ [Tag.stop]) false
      base.toNat t (.record slots) s s' := by
  intro c ready size fits at_ inside
  change base.toNat + t.size.toNat ≤ _ at inside
  have sound := usable.sound
  obtain ⟨c₁, c₂, cleared, stored, same, went, held⟩ := went_prepare usable has ready (by rw [size]; exact inside)
  have short : occs.length < c₂.wire.size + 1 := by
    have count : occs.length * 1 ≤ (occs.flatMap bytes).length := by
      rw [flatMap_def, ← length_map bytes]
      refine mul_le_length_flatten (forall_mem_map.mpr fun o _ => ?_)
      rw [length_bytes]
      omega
    have whole := at_.2
    rw [length_append] at whole
    rw [went.wire]
    omega
  obtain ⟨spots, listed, fills⟩ := fills_occurrences sound has make.fieldRun through short
  have within : ∀ p ∈ spots, base.toNat ≤ p.addr ∧ p.addr + p.width ≤ base.toNat + t.size.toNat := fun p mem =>
    ((listed p).mp mem).within
  obtain ⟨c₃, read, went₃, size₃, filled, reports⟩ := fills c₂ (ready.went went) (by rw [same, size]) fits (went.ahead at_)
    fun p mem => le_trans (within p mem).2 inside
  have inRecord : ∀ k, (∃ p ∈ spots, p.Covers k) → Within base.toNat t.size.toNat k := by
    rintro k ⟨p, mem, own⟩
    have := within p mem
    omega
  -- a field that is not on the wire keeps its slot
  have kept : ∀ (i : Nat) (field : FieldDesc), t.fields[i]? = some field → i ∉ occs.filterMap index? → Holds known
      c₃.heap c.heap.size c₃.heap.size field.isBoxed (base.toNat + field.offset.toNat) field.type (Content.absent field)
      ∧ ∀ a, ¬ LinkAt known c₃.heap field.isBoxed (base.toNat + field.offset.toNat) field.type a := by
    intro i field at_ notIn
    have mem := mem_of_getElem? at_
    have room := le_trans (Holds.slot_inside sound has mem base.toNat) inside
    exact went₃.absent (ready.went went) sound (sound.field has mem) (held field mem) (by omega)
      (fun k own ⟨p, mem, own'⟩ => ((listed p).mp mem).apart at_ notIn own own') (le_of_eq same.symm)
  refine ⟨c₃, ?_, ?_, size₃, .record kind make.length fun i field content at_ is => ?_, fun _ => ?_⟩
  · rw [record, Act.bind_ok cleared, Act.bind_ok stored]
    exact read
  · have all := went.trans went₃ fun k _ => inRecord k
    rw [Nat.zero_add] at all
    exact all
  · rcases make.slot i field content at_ is with ⟨o, mem, given⟩ | ⟨notIn, _, rfl⟩
    · rw [← same]
      exact filled _ ((listed _).mpr ⟨o, mem, i, content, field, given, at_, rfl⟩)
    · exact (kept i field at_ notIn).1
  · have quiet := (Reading.silent_clear _ _ cleared).trans (Reading.silent_storeDefaults _ _ stored)
    have told := quiet.andThen (reports fun p mem => by
      obtain ⟨_, _, _, _, field, _, at_, rfl⟩ := (listed p).mp mem
      exact (held field (mem_of_getElem? at_)).2) (le_of_eq same.symm)
    refine (told.mono fun k _ => inRecord k).congr fun a => (linkAt_struct kind).trans ⟨?_, ?_⟩
    · rintro ⟨field, mem, link⟩
      obtain ⟨i, low, rfl⟩ := getElem_of_mem mem
      have at_ := getElem?_eq_getElem low
      by_cases isIn : i ∈ occs.filterMap index?
      · obtain ⟨o, memO, index⟩ := List.mem_filterMap.mp isIn
        obtain ⟨⟨_, content⟩, given, rfl⟩ := Option.map_eq_some_iff.mp index
        exact ⟨_, (listed _).mpr ⟨o, memO, _, content, _, given, at_, rfl⟩, link⟩
      · exact absurd link ((kept i _ at_ isIn).2 a)
    · rintro ⟨p, mem, link⟩
      obtain ⟨_, _, _, _, field, _, at_, rfl⟩ := (listed p).mp mem
      exact ⟨field, mem_of_getElem? at_, link⟩

lemma fills_target {record : TypeDesc} {off : UInt32} {bytes : List UInt8}
    (sound : known.Sound) (has : known.Has t) (kind : t.kind = .pointer) (isRecord : t.recordType known = .ok record)
    (struct : record.kind = .struct) (grows : Heap.after s record.size.toNat ≤ s')
    (fills : ∀ place : UInt64, Fills known (nested left record place) bytes false place.toNat record content
      (Heap.after s record.size.toNat) s') (loose : Bool) :
    Fills known (value known (fun _ => nested) t loose left base off) bytes false (base.toNat + off.toNat) t content s s' := by
  intro c ready size fits at_ inside
  subst size
  have slot := Holds.slotSize_pointer (sound.shaped t has) kind
  rw [slot] at inside ⊢
  have up := c.heap.le_next
  have next := ready.started.next_ne
  have count : record.size.toUInt64.toNat = record.size.toNat := UInt32.toNat_toUInt64 _
  obtain ⟨c₁, data, allocated, place, place', size₁, clear, went₁⟩ := went_alloc record.size.toUInt64
    (by rw [count]; exact le_trans grows fits)
  rw [count] at size₁
  have above : c₁.heap.size = c.heap.next + record.size.toNat := size₁
  obtain ⟨c₂, linked, size₂, word, went₂, reports₂⟩ := went_storePtr (ready.went went₁) data base off (by omega)
  have ready₂ := (ready.went went₁).went went₂
  obtain ⟨c₃, read, went₃, size₃, holds, reports₃⟩ := fills data c₂ ready₂ (by rw [size₂, size₁]) fits
    (went₂.ahead (went₁.ahead at_)) (by rw [place, ← size₁, above]; exact le_rfl)
  rw [place] at went₃ holds reports₃
  have grown := went₃.heap.grows
  rw [toUInt64_of_toNat place'] at word
  have word₃ := word.same (went₃.heap.range word.2 fun k _ high own => by omega) grown
  refine ⟨c₃, ?_, ?_, size₃, ?_, fun unlinked => ?_⟩
  · rw [Reading.value_pointer _ _ _ _ kind isRecord, Act.bind_ok allocated, Act.bind_ok linked, read]
  · have all := ((went₁.mono fun k _ => False.elim).trans went₂ fun _ _ => id).trans went₃ fun k low own => by omega
    rwa [Nat.zero_add] at all
  · obtain ⟨slots, rfl⟩ := holds.eq_record struct
    exact .target c.heap.next kind isRecord word₃ next up (by omega)
      (holds.widen sound (sound.recordType has isRecord) (by omega) le_rfl)
  · have hasRecord := sound.recordType has isRecord
    have nil_ : c₁.heap.link (base.toNat + off.toNat) = 0 := by
      rw [Heap.Same.link (went₁.heap.range inside fun _ _ _ => id) inside went₁.heap.grows ready.small]
      by_contra some_
      exact unlinked _ (.own (.inr kind) some_)
    have clear₂ : c₂.heap.Clear c.heap.next record.size.toNat := by
      rw [count] at clear
      exact clear.same (went₂.heap.range (by omega) fun k low _ own => by omega)
    have told := reports₃ (Vacant.unlinked sound ⟨hasRecord, ready₂.started, ready₂.small,
      (by change c.heap.next + record.size.toNat ≤ _; omega), clear₂⟩)
    refine (((Act.silent_alloc _ allocated).andThen (reports₂ nil_) went₁.heap.grows).trans told (by omega) went₃.heap
      (fun k low own => ?_) ?_).congr fun a => (linkAt_pointer kind isRecord).trans ?_
    · omega
    · rintro a rfl k in_ own
      omega
    · rw [word₃.link went₃.heap.small (by unfold Heap.limit at fits; omega)]
      exact and_iff_right next

end Steps

lemma Inside.lt {flat : Bool} {left inner depth : Nat} (inside : Inside flat left inner) (low : left < depth) :
    inner < depth := by
  unfold Inside at inside
  split at inside <;> omega

lemma not_loose {loose : Bool} {kind : Kind} (is : kind.isContainer = true)
    (plain : loose = true → kind.isContainer = false) : loose = false := by
  cases loose with
  | false => rfl
  | true => exact absurd (plain rfl) (by rw [is]; nofun)

lemma fills_field {known : Registry} {left : Nat} {bytes : List UInt8} {c : Content} {base : UInt64}
    (shaped : field.type.Shaped) (spells : Spells known field.isBoxed left field.type bytes c s s')
    (value : field.isBoxed = false → Fills known (value known (fun _ => nested) field.type false left base field.offset) bytes
      false (base.toNat + field.offset.toNat) field.type c s s') :
    Fills known (Reading.field known (fun _ => nested) left base field) bytes field.isBoxed (base.toNat + field.offset.toNat)
      field.type c s s' := by
  by_cases isBoxed : field.isBoxed = true
  · rw [isBoxed] at spells ⊢
    cases spells with
    | cell isScalar length => exact fills_cell shaped isBoxed length
  · have plain : field.isBoxed = false := by simpa using isBoxed
    rw [plain, Reading.field, if_neg isBoxed]
    exact value plain

lemma Reading.value_here {known : Registry} {t : TypeDesc} {loose : Bool} {left : Nat} {base : UInt64}
    (kind : t.kind = .struct) : value known (fun _ => nested) t loose left base 0 = nested left t base := by
  rw [value_struct _ _ _ _ kind, Writing.nestedRecord, TypeDesc.recordType_struct kind]
  exact congrArg (nested left t) (UInt64.add_zero base)

section

variable {known : Registry} {boxed loose : Bool} {left depth : Nat} {t : TypeDesc} {bytes : List UInt8} {c : Content}
  {s s' : Nat} {base : UInt64} {off : UInt32}

lemma Registry.Compact.near (compact : known.Compact) (sound : known.Sound) (has : known.Has t) (mem : field ∈ t.fields) :
    field.offset.toNat < 2 ^ 31 := by
  have inside := (sound.shaped t has).laidOut.inside field mem
  have sizeFits := compact.sizes t has
  omega

lemma Spells.fills (usable : known.Usable) (compact : known.Compact) (flat : known.Flat)
    (spells : Spells known boxed left t bytes c s s') (has : known.Has t) (inPlace : boxed = false)
    (plain : loose = true → t.kind.isContainer = false) (low : left < depth) (near : off.toNat < 2 ^ 31) : Fills known
    (value known (fun _ => walk known depth) t loose left base off) bytes false (base.toNat + off.toNat) t c s s' := by
  induction spells using Spells.parts_induction generalizing loose depth base off with
  | cell => cases inPlace
  | word isScalar length =>
    rw [Reading.value_scalar _ _ _ _ isScalar]
    exact fills_word (usable.sound.shaped _ has) isScalar length rfl
  | blob kind short =>
    rw [Reading.value_blob _ _ _ _ kind]
    exact fills_blob kind (usable.sound.shaped _ has) short rfl near
  | @items left inner s s' t elem tag parts is short tags distinct through =>
    rw [not_loose (by rcases is.kind with kind | kind <;> rw [kind] <;> rfl) plain]
    refine fills_items usable compact has is short tags distinct (through.imp fun mem both =>
      ⟨both.1, fun place => ?_⟩) rfl near
    exact both.2 is.hasElem rfl (fun _ => flat.elems t elem has is.elem?) ((tags (ne_nil_of_mem mem)).2.lt low)
      (by decide : (0 : UInt32).toNat < _)
  | @entries left inner s s' t key elem layout keyTag tag entries is short tags through =>
    rw [not_loose (by rw [is.kind]; rfl) plain]
    have strideFits := compact.strides t key elem layout has is
    have bounds := TypeDesc.EntryLayout.bounds is.layout?
    refine fills_entries usable compact has is short tags (through.imp fun mem both => ?_) rfl near
    obtain ⟨r, ⟨spellsKey, ihKey⟩, spells, ih⟩ := both
    refine ⟨r, ⟨spellsKey, fun place => ?_⟩, spells, fun place => ?_⟩
    · exact ihKey is.hasKey rfl (fun _ => flat.keys t key has is.key?) ((tags (ne_nil_of_mem mem)).2.lt low)
        (by decide : (0 : UInt32).toNat < _)
    · exact ih is.hasElem rfl (fun _ => flat.elems t elem has is.elem?) ((tags (ne_nil_of_mem mem)).2.lt low) (by omega)
  | @record left s s' t slots occs kind make through =>
    intro c ready size fits at_ inside
    obtain ⟨depth, rfl⟩ := Nat.exists_eq_succ_of_ne_zero (show depth ≠ 0 by omega)
    have place : (base + immWord off.toInt32).toNat = base.toNat + off.toNat := by
      have small := ready.small
      unfold Heap.limit at small
      exact toNat_add_immWord near (by omega)
    rw [Reading.value_struct _ _ _ _ kind, Writing.nestedRecord, TypeDesc.recordType_struct kind, ← place]
    rw [← place] at inside
    refine fills_record usable has kind make (through.imp fun _ step => step.imp id fun known => ?_)
      c ready size fits at_ inside
    obtain ⟨index, c, field, given, found, spells, ih⟩ := known
    refine ⟨index, c, field, given, found, spells.grows, ?_⟩
    have mem := mem_of_getElem? found
    have hasField := usable.sound.field has mem
    exact fills_field (usable.sound.shaped _ hasField) spells fun plain =>
      ih hasField plain (by rintro ⟨⟩) (by omega) (compact.near usable.sound has mem)
  | @target left s s' t record bytes slots kind isRecord struct inner ih =>
    refine fills_target usable.sound has kind isRecord struct inner.grows (fun place => ?_) loose
    rw [← @Reading.value_here (walk known depth) known record false left place struct]
    exact @ih false depth place 0 (usable.sound.recordType has isRecord) rfl (by rintro ⟨⟩) low (by decide)

lemma Spells.fills_walk (usable : known.Usable) (compact : known.Compact) (flat : known.Flat)
    (spells : Spells known false left t bytes c s s') (has : known.Has t) (kind : t.kind = .struct) (low : left < depth)
    (base : UInt64) : Fills known (walk known depth left t base) bytes false base.toNat t c s s' := by
  rw [← @Reading.value_here (walk known depth) known t false left base kind]
  exact spells.fills usable compact flat has rfl nofun low (by decide : (0 : UInt32).toNat < _)

end

end WireCodec
