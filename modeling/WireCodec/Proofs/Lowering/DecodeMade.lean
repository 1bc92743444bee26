import WireCodec.Proofs.Lowering.EncodeMade

/-! Code for reading: how it is put together, and that it is orderly. So are whole programs. -/
namespace WireCodec.Lowering

open List

variable {body : Code} {index top unknown low high : Nat} {arms : List Nat} {table table' : TypeTable} {t : TypeDesc}

variable {known : Registry} {job : Job} {bad : Failure → Prop} {nested : Spots (TypeDesc → Piece)}

@[simp] lemma mem_exitOrder_invalidLength : ErrorCode.invalidLength ∈ exitOrder := by decide

@[simp] lemma mem_exitOrder_invalidTag : ErrorCode.invalidTag ∈ exitOrder := by decide

@[simp] lemma mem_exitOrder_duplicateField : ErrorCode.duplicateField ∈ exitOrder := by decide

@[simp] lemma mem_exitOrder_missingRequiredField : ErrorCode.missingRequiredField ∈ exitOrder := by decide

attribute [local simp] Plain Job.allows Instr.targets

section Value

variable {t key elem record : TypeDesc} {layout : TypeDesc.EntryLayout} {base : Reg}
  {off : UInt32} {e : Entry} {entry : Bool → Piece}

lemma orderly_decodeBlob (low : off.toNat + 4 < 2 ^ 32) (isPtr : base.isPtr = true) :
    Orderly known .decode bad (decodeBlob base off) := by
  rw [decodeBlob, lengthAt_eq low, withM_pure]
  exact orderly_code (by simp [isPtr, allocate, ifNegative]; rfl)

lemma straight_decodeContainerHead : Straight .decode (decodeContainerHead e) := by
  unfold decodeContainerHead
  split <;> simp [ifNegative]

lemma straight_decodeTags : Straight .decode (decodeTags e) := by
  unfold decodeTags
  cases e.key <;> simp [ifNe]

lemma orderly_decodeRoom (low : off.toNat + 4 < 2 ^ 32) (isPtr : base.isPtr = true) :
    Orderly known .decode bad (decodeRoom e base off) := by
  rw [decodeRoom, lengthAt_eq low, withM_pure]
  exact orderly_code (by simp [isPtr, allocate]; rfl)

def readLoop (isSet : Bool) (e : Entry) (entry : Bool → Piece) : Piece :=
  if e.isSimple then
    seq [code (if isSet then [.seek p3 p1 0, .mov r3 r1] else []), e.registerLoop (entry e.fixedSize?.isSome)]
  else
    seq [code ([.enter, .storeFrame p1 0, .storeFrame r1 1] ++ keepBounds isSet),
      e.frameLoop (entry false), code (takeBounds isSet ++ [.leave])]

lemma decodeEntries_eq (isSet : Bool) : decodeEntries isSet e entry =
      if isSet then seq [readLoop isSet e entry, decodeDistinct e.elem] else readLoop isSet e entry :=
  rfl

lemma orderly_readLoop (isSet : Bool) (orderly : ∀ checked, Orderly known .decode bad (entry checked)) :
    Orderly known .decode bad (readLoop isSet e entry) := by
  unfold readLoop
  split
  · refine orderly_pair (orderly_code ?_) (orderly_registerLoop (orderly _))
    split <;> simp
  · refine orderly_cons (orderly_code ?_) (orderly_pair (orderly_frameLoop (orderly false)) (orderly_code ?_))
    · exact straight_cons.mpr ⟨by simp, straight_loopStart isSet⟩
    · exact straight_append.mpr ⟨straight_takeBounds isSet, by simp⟩

lemma orderly_decodeEntries (isSet : Bool) (has : known.Has e.elem)
    (orderly : ∀ checked, Orderly known .decode bad (entry checked)) :
    Orderly known .decode bad (decodeEntries isSet e entry) := by
  rw [decodeEntries_eq]
  split
  · exact orderly_pair (orderly_readLoop _ orderly) (orderly_distinctCheck has rfl)
  · exact orderly_readLoop isSet orderly

lemma orderly_decodeContainer (isSet : Bool) (has : known.Has e.elem) (low : off.toNat + 4 < 2 ^ 32)
    (isPtr : base.isPtr = true) (orderly : ∀ checked, Orderly known .decode bad (entry checked)) : Orderly known .decode
    bad (decodeContainer isSet e base off entry) :=
  orderly_cons (orderly_code straight_decodeContainerHead) (orderly_cons
    (orderly_skipping (isBranch_ifEq _ _) (orderly_code straight_decodeTags)) (orderly_pair
      (orderly_decodeRoom low isPtr)
      (orderly_skipping (isBranch_ifEq _ _) (orderly_decodeEntries isSet has orderly))))

variable (checked : Bool)

lemma decodeValue_scalar (isScalar : t.kind.isScalar = true) : decodeValue known nested t checked base off =
      withM (scalarWidth t) fun width => code ((if checked then [] else [.check width.bytes.toUInt32]) ++
          [.readInt width false r0, .store width r0 base off]) := by
  obtain ⟨_, kind⟩ := t
  cases kind <;> first | rfl | cases isScalar

lemma decodeValue_blob (kind : t.kind = .string ∨ t.kind = .binary) :
    decodeValue known nested t checked base off = decodeBlob base off := by
  obtain ⟨_, kind⟩ := t
  rcases kind with rfl | rfl <;> rfl

lemma decodeValue_sequence (is : known.IsSequence t elem) : decodeValue known nested t checked base off =
      decodeContainer (t.kind = .set) (.ofList elem) base off fun checked =>
        decodeValue known (nested.part 0) elem checked p1 0 := by
  obtain ⟨_, kind⟩ := t
  obtain ⟨kind, given, _⟩ := is
  cases given
  rcases kind with rfl | rfl <;> rfl

lemma decodeValue_map (is : known.IsMap t key elem layout) : decodeValue known nested t checked base off =
      withM (inReach (Entry.ofMap? key elem)) fun entry => decodeContainer false entry base off fun checked =>
          entry.parts (some (decodeValue known (nested.part 0) key checked p1 0))
            (decodeValue known (nested.part 1) elem checked p1 entry.valueOffset) := by
  obtain ⟨_, kind⟩ := t
  obtain ⟨kind, givenKey, givenElem, _⟩ := is
  cases givenKey
  cases givenElem
  cases kind
  rfl

lemma decodeValue_cramped (is : Registry.IsCramped t key elem) :
    decodeValue known nested t checked base off = fun _ => throw .overflow := by
  obtain ⟨_, kind⟩ := t
  obtain ⟨kind, givenKey, givenElem, layout⟩ := is
  cases givenKey
  cases givenElem
  cases kind
  rw [decodeValue.eq_def]
  simp only [Entry.ofMap?, layout]
  rfl

lemma decodeValue_struct (kind : t.kind = .struct) : decodeValue known nested t checked base off =
      seq [code (seekRecord base off), nestedRecord known nested t] := by
  obtain ⟨_, kind⟩ := t
  cases kind
  rfl

lemma decodeValue_pointer (kind : t.kind = .pointer) : decodeValue known nested t checked base off =
      withM (ofSchema (t.recordType known)) fun record =>
        seq [code (allocateConst p2 record.size ++ [.storePtr p2 base off, .seek p0 p2 0]), nested [] record] := by
  obtain ⟨_, kind⟩ := t
  cases kind
  rfl

end Value

section Grows

variable (known nested) (e : Entry) (isSet : Bool) (base : Reg) (off : UInt32) (start : Nat)

instance : Grows (decodeBlob base off start) := inferInstanceAs (Grows (withM _ _ start))

instance : Grows (decodeRoom e base off start) := inferInstanceAs (Grows (withM _ _ start))

instance (elem : TypeDesc) : Grows (decodeDistinct elem start) :=
  inferInstanceAs (Grows (withM _ _ start))

instance (entry : Bool → Piece) [∀ flag k, Grows (entry flag k)] : Grows (readLoop isSet e entry start) := by
  unfold readLoop
  infer_instance

instance (entry : Bool → Piece) [∀ flag k, Grows (entry flag k)] : Grows (decodeEntries isSet e entry start) := by
  rw [decodeEntries_eq]
  infer_instance

instance (entry : Bool → Piece) [∀ flag k, Grows (entry flag k)] :
    Grows (decodeContainer isSet e base off entry start) :=
  inferInstanceAs (Grows (seq _ start))

instance (fields : List FieldDesc) : Grows (storeDefaults fields start) := by
  fun_induction storeDefaults fields generalizing start <;> infer_instance

variable [∀ way t k, Grows (nested way t k)]

instance (t : TypeDesc) (flag : Bool) : Grows (decodeValue known nested t flag base off start) := by
  induction t using TypeDesc.inner_induction generalizing nested flag base off start with
  | step t ihElem ihKey =>
    obtain ⟨_, kind, _, _, _, key, elem, _, _⟩ := t
    rcases elem with _ | elem
    · cases kind <;> unfold decodeValue <;> infer_instance
    · have := ihElem elem rfl (nested.part 0)
      have := ihElem elem rfl (nested.part 1)
      rcases key with _ | key
      · cases kind <;> unfold decodeValue <;> infer_instance
      · have := ihKey key rfl (nested.part 0)
        cases kind <;> unfold decodeValue <;> infer_instance

instance (field : FieldDesc) : Grows (decodeField known nested field start) := by
  unfold decodeField
  infer_instance

end Grows

def OrderlyNested (known : Registry) (job : Job) (bad : Failure → Prop) (nested : Spots (TypeDesc → Piece)) :
    Prop := ∀ way record, known.Has record → Orderly known job bad (nested way record)

lemma orderly_recordType (foresees : Foresees known bad) (has : known.Has t)
    (isRecord : t.kind = .struct ∨ t.kind = .pointer) {body : TypeDesc → Piece}
    (orderly : ∀ record, known.Has record → Orderly known job bad (body record)) :
    Orderly known job bad (withM (ofSchema (t.recordType known)) body) := by
  cases found : t.recordType known with
  | ok record => exact orderly record (foresees.sound.recordType has found)
  | error issue => exact fun _ => checks_throw (foresees.issue has isRecord found)

lemma orderly_decodeValue (foresees : Foresees known bad) (inner : OrderlyNested known .decode bad nested)
    (t : TypeDesc) (has : known.Has t) (checked : Bool) {base : Reg} (isPtr : base.isPtr = true) {off : UInt32}
    (low : off.toNat + t.size.toNat < 2 ^ 32) : Orderly known .decode bad
    (decodeValue known nested t checked base off) := by
  induction t, has using foresees.sound.induction generalizing nested checked base off with
  | scalar t has isScalar =>
    rw [decodeValue_scalar checked isScalar, scalarWidth_eq (foresees.sound.shaped t has) isScalar, withM_pure]
    refine orderly_code ?_
    split <;> simp [isPtr]
  | blob t has kind =>
    have header := Kind.hasHeader_of_blob kind
    rw [decodeValue_blob checked kind]
    exact orderly_decodeBlob (length_low (foresees.sound.shaped t has) header low) isPtr
  | sequence t has elem is ih =>
    have header := is.hasHeader
    rw [decodeValue_sequence checked is]
    exact orderly_decodeContainer _ is.hasElem (length_low (foresees.sound.shaped t has) header low)
      isPtr fun checked => ih (fun way => inner (0 :: way)) checked rfl (by simpa using elem.size.toNat_lt)
  | map t has key elem layout is ihKey ihElem =>
    have header := is.hasHeader
    rw [decodeValue_map checked is, inReach_ofMap is, withM_pure]
    refine orderly_decodeContainer _ is.hasElem (length_low (foresees.sound.shaped t has) header low)
      isPtr fun checked => orderly_parts
        (ihKey (fun way => inner (0 :: way)) checked rfl (by simpa using key.size.toNat_lt))
        (ihElem (fun way => inner (1 :: way)) checked rfl ?_)
    exact lt_of_le_of_lt (TypeDesc.EntryLayout.bounds is.layout?).2 layout.stride.toNat_lt
  | cramped t has key elem is =>
    rw [decodeValue_cramped checked is]
    exact fun _ => checks_throw (foresees.reach has is)
  | struct t has kind =>
    rw [decodeValue_struct checked kind]
    exact orderly_pair (orderly_code (straight_seekRecord isPtr off))
      (orderly_recordType foresees has (.inl kind) (inner []))
  | pointer t has kind =>
    rw [decodeValue_pointer checked kind]
    refine orderly_recordType foresees has (.inr kind) fun record hasRecord =>
      orderly_pair (orderly_code ?_) (inner [] record hasRecord)
    simp [allocateConst, allocate, isPtr]
    rfl

section Field

variable {field : FieldDesc}

lemma orderly_decodeField (foresees : Foresees known bad) (has : known.Has field.type)
    (inner : OrderlyNested known .decode bad nested) (low : field.offset.toNat + field.slotSize.toNat < 2 ^ 32) :
    Orderly known .decode bad (decodeField known nested field) := by
  unfold decodeField
  split
  · rename_i boxed
    rw [scalarWidth_eq (foresees.sound.shaped _ has) (Field.isScalar_of_isBoxed boxed), withM_pure]
    refine orderly_code ?_
    simp [allocateConst, allocate]
    rfl
  · rename_i inPlace
    exact orderly_decodeValue foresees inner _ has false rfl (low_of_slot inPlace low)

lemma orderly_storeDefaults {fields : List FieldDesc} (shaped : ∀ field ∈ fields, field.type.Shaped)
    (defaults : ∀ field ∈ fields, ∀ default, field.default = some default →
      field.type.kind.isScalar = true) : Orderly known .decode bad (storeDefaults fields) := by
  induction fields with
  | nil => exact orderly_nil
  | cons field rest ih =>
    obtain ⟨shaped, shapedRest⟩ := List.forall_mem_cons.mp shaped
    obtain ⟨scalar, scalarRest⟩ := List.forall_mem_cons.mp defaults
    have tail := ih shapedRest scalarRest
    unfold storeDefaults
    cases given : field.default with
    | none => exact tail
    | some default =>
      simp only
      split
      · exact tail
      · rw [scalarWidth_eq shaped (scalar default given), withM_pure]
        exact orderly_pair (orderly_code (by simp)) tail

end Field

section Record

variable {fields : List FieldDesc} {start : Nat} {field : FieldDesc} {made : Code}

lemma slotCount_le (few : fields.length ≤ maxTracked) : slotCount fields.length ≤ 7 := by
  simp only [slotCount, maxTracked, bitsPerSlot] at *
  omega

lemma frameSlot_low {k : Nat} (low : k < 7) : (k + 1).toUInt8 < Instr.frameSlots := by
  rw [UInt8.lt_iff_toNat_lt]
  simp only [Nat.toUInt8_eq, UInt8.toNat_ofNat', Instr.frameSlots]
  simp
  omega

lemma toNat_seenSlot (low : index < maxTracked) : (seenSlot index).toNat = 1 + index / bitsPerSlot := by
  simp only [maxTracked, bitsPerSlot] at low
  simp only [seenSlot, bitsPerSlot, Nat.toUInt8_eq, UInt8.toNat_ofNat']
  omega

lemma straight_noteSeen (low : index < maxTracked) : Straight .decode (noteSeen index) := by
  have slot : seenSlot index < Instr.frameSlots := by
    rw [UInt8.lt_iff_toNat_lt, toNat_seenSlot low]
    simp only [maxTracked, bitsPerSlot] at *
    simp [Instr.frameSlots]
    omega
  simp [noteSeen, ifNe, slot]

lemma straight_checkRequired (few : fields.length ≤ maxTracked) : Straight .decode (checkRequired fields) := by
  intro i mem
  simp only [checkRequired, mem_flatMap, mem_range] at mem
  obtain ⟨slot, low, mem⟩ := mem
  have inFrame := frameSlot_low (lt_of_lt_of_le low (slotCount_le few))
  revert i
  change Straight _ _
  split
  · exact straight_nil
  · generalize (slot + 1).toUInt8 = place at inFrame ⊢
    simp [ifNe, inFrame]

def openFrame (slots : Nat) : Code :=
  [.storeFrame p0 0] ++ if slots = 0 then [] else
    .movImm r0 0 :: (List.range slots).map fun k => .storeFrame r0 (k + 1).toUInt8

lemma straight_openFrame {slots : Nat} (few : slots ≤ 7) : Straight .decode (openFrame slots) := by
  have each : Straight .decode ((List.range slots).map fun k => .storeFrame r0 (k + 1).toUInt8) := by
    intro i mem
    obtain ⟨k, low, rfl⟩ := List.mem_map.mp mem
    have inFrame := frameSlot_low (lt_of_lt_of_le (List.mem_range.mp low) few)
    exact ⟨decide_eq_true inFrame, nofun, .inl rfl⟩
  unfold openFrame
  split
  · simp [Instr.frameSlots]
  · refine straight_append.mpr ⟨by simp [Instr.frameSlots], ?_⟩
    exact straight_cons.mpr ⟨by simp, each⟩

lemma decodePrologue_eq (t : TypeDesc) : decodePrologue t = seq [code (if t.size = 0 then [] else [.zero p0 0 t.size]),
      storeDefaults t.fields, code (.enter :: openFrame (slotCount t.fields.length))] := by
  unfold decodePrologue openFrame
  simp

lemma orderly_decodePrologue (sound : known.Sound) (has : known.Has t)
    (few : t.fields.length ≤ maxTracked) : Orderly known .decode bad (decodePrologue t) := by
  rw [decodePrologue_eq]
  refine orderly_cons (orderly_code ?_) (orderly_pair (orderly_storeDefaults
    (fun field mem => sound.shaped _ (sound.field has mem)) fun field mem default given => ?_)
    (orderly_code (straight_cons.mpr ⟨by simp, straight_openFrame (slotCount_le few)⟩)))
  · split <;> simp
  · rw [← ((sound.shaped t has).laidOut.defaults field mem default given).2]
    cases default <;> rfl

def armCode (top unknown index : Nat) (field : FieldDesc) (inner : Code) : Code :=
  ifNe r0 (Int32.ofNat field.type.kind.tag.toNat) (.place unknown) :: noteSeen index ++ inner ++ [.jump (.place top)]

lemma length_armCode (top unknown index : Nat) (field : FieldDesc) (inner : Code) :
    (armCode top unknown index field inner).length = inner.length + 7 := by
  simp [armCode, noteSeen]

/-- The code of the fields from number `index` on, given how to read one. -/
def armsOf (read : Nat → FieldDesc → Piece) (top unknown : Nat) :
    Nat → List FieldDesc → Nat → LowerM (List Nat × Code)
  | _, [], _ => pure ([], [])
  | index, field :: rest, start => do
    let inner ← read index field (start + 6)
    let (places, after) ← armsOf read top unknown (index + 1) rest
      (start + (armCode top unknown index field inner).length)
    return (start :: places, armCode top unknown index field inner ++ after)

lemma decodeArms_eq (top unknown index : Nat) (fields : List FieldDesc) (start : Nat) : decodeArms known nested top
    unknown index fields start = armsOf (fun i => decodeField known (nested.part i)) top unknown index fields
    start := by
  induction fields generalizing index start with
  | nil => rfl
  | cons field rest ih =>
    rw [armsOf]
    simp only [← ih]
    rfl

variable {read : Nat → FieldDesc → Piece}

lemma armsOf_cons_eq_ok {rest : List FieldDesc} : armsOf read top unknown index (field :: rest) start table = .ok
    (arms, body) table' ↔ ∃ inner mid places after, read index field (start + 6) table = .ok inner mid ∧ armsOf read top
    unknown (index + 1) rest (start + (armCode top unknown index field inner).length) mid = .ok (places, after) table' ∧
    arms = start :: places ∧ body = armCode top unknown index field inner ++ after := by
  simp only [armsOf, lower_bind]
  constructor
  · rintro ⟨inner, mid, ok, ⟨places, after⟩, last, ok', done⟩
    cases done
    exact ⟨inner, mid, places, after, ok, ok', rfl, rfl⟩
  · rintro ⟨inner, mid, places, after, ok, ok', rfl, rfl⟩
    exact ⟨inner, mid, ok, (places, after), table', ok', rfl⟩

lemma length_armsOf (ok : armsOf read top unknown index fields start table = .ok (arms, body) table') :
    arms.length = fields.length := by
  induction fields generalizing index start table arms body with
  | nil =>
    cases ok
    rfl
  | cons field rest ih =>
    obtain ⟨inner, mid, places, after, _, ok', rfl, _⟩ := armsOf_cons_eq_ok.mp ok
    rw [length_cons, length_cons, ih ok']

instance (read : Nat → FieldDesc → Piece) [∀ i field k, Grows (read i field k)] (top unknown index : Nat)
    (fields : List FieldDesc) (start : Nat) : Grows (armsOf read top unknown index fields start) := by
  induction fields generalizing index start with
  | nil => exact inferInstanceAs (Grows (pure _))
  | cons => exact inferInstanceAs (Grows (_ >>= _))

/-- Where the code of the fields stands: for each field its place, its code, and the code that
reads its value, made there. -/
structure ArmsMade (read : Nat → FieldDesc → Piece) (top unknown index : Nat) (fields : List FieldDesc)
    (start : Nat) (arms : List Nat) (body : Code) (table' : TypeTable) : Prop where
  length : arms.length = fields.length
  arm : ∀ i field, fields[i]? = some field → ∃ before inner after table₁ table₂,
    body = before ++ armCode top unknown (index + i) field inner ++ after ∧
    arms[i]? = some (start + before.length) ∧
    read (index + i) field (start + before.length + 6) table₁ = .ok inner table₂ ∧ table₂.Within table'

lemma armsMade_of_ok [∀ i field k, Grows (read i field k)]
    (ok : armsOf read top unknown index fields start table = .ok (arms, body) table') :
    ArmsMade read top unknown index fields start arms body table' := by
  induction fields generalizing index start table arms body with
  | nil =>
    cases ok
    exact ⟨rfl, by simp⟩
  | cons field rest ih =>
    obtain ⟨inner, mid, places, after, ok₁, ok₂, rfl, rfl⟩ := armsOf_cons_eq_ok.mp ok
    have made := ih ok₂
    refine ⟨by simp [made.length], fun i f at_ => ?_⟩
    cases i with
    | zero =>
      cases at_
      exact ⟨[], inner, after, table, mid, by simp, by simp, ok₁, Grows.of_ok ok₂⟩
    | succ i =>
      obtain ⟨before, inner', after', table₃, table₄, rfl, atPlace, ok', within'⟩ := made.arm i f at_
      refine ⟨armCode top unknown index field inner ++ before, inner', after', table₃, table₄, ?_, ?_, ?_, within'⟩
      · rw [show index + (i + 1) = index + 1 + i by omega]
        simp
      · simpa [Nat.add_assoc] using atPlace
      · rw [show index + (i + 1) = index + 1 + i by omega]
        simpa [Nat.add_assoc] using ok'

lemma CodeFine.armCode {inner : Code} (inRange : index < maxTracked)
    (atTop : low ≤ top ∧ top ≤ high) (atUnknown : low ≤ unknown ∧ unknown ≤ high)
    (fine : CodeFine .decode low high inner) : CodeFine .decode low high (armCode top unknown index field inner) := by
  have seen : CodeFine .decode low high (noteSeen index) := (straight_noteSeen inRange).codeFine
  have enter : CodeFine .decode low high [_] :=
    (isBranch_ifNe r0 (Int32.ofNat field.type.kind.tag.toNat)).fine atUnknown.1 atUnknown.2
  exact codeFine_append.mpr ⟨codeFine_append.mpr ⟨codeFine_append.mpr ⟨enter, seen⟩, fine⟩,
    codeFine_jump atTop.1 atTop.2⟩

/-- The code of the fields is fine, in any stretch that has it and the places outside it that it
branches to. -/
structure ArmsFine (top unknown start : Nat) (arms : List Nat) (body : Code) : Prop where
  places : ∀ place ∈ arms, start ≤ place ∧ place ≤ start + body.length
  fine : ∀ low high, low ≤ top → top ≤ high → low ≤ unknown → unknown ≤ high → low ≤ start →
    start + body.length ≤ high → CodeFine .decode low high body

lemma checks_armsOf (orderly : ∀ i, ∀ field ∈ fields, Orderly known .decode bad (read i field))
    (inRange : index + fields.length ≤ maxTracked) (start : Nat) :
    Checks known bad (armsOf read top unknown index fields start) fun made =>
      made.1.length = fields.length ∧ ArmsFine top unknown start made.1 made.2 := by
  induction fields generalizing index start with
  | nil => exact checks_pure ⟨rfl, by simp, fun low high _ _ _ _ _ _ => codeFine_nil⟩
  | cons field rest ih =>
    rw [length_cons] at inRange
    refine (orderly index field mem_cons_self (start + 6)).bind fun inner fine => ?_
    refine (@ih (index + 1) (fun i f mem => orderly i f (mem_cons_of_mem _ mem)) (by omega)
      (start + (armCode top unknown index field inner).length)).bind ?_
    rintro ⟨places, after⟩ ⟨count, arms⟩
    have len := length_armCode top unknown index field inner
    refine checks_pure ⟨congrArg (· + 1) count, ?_, ?_⟩
    · simp only [mem_cons, forall_eq_or_imp, length_append]
      refine ⟨by omega, fun place mem => ?_⟩
      have := arms.places place mem
      simp only at this
      omega
    · intro low high a b c d e f
      rw [length_append] at f
      exact codeFine_append.mpr ⟨.armCode (by omega) ⟨a, b⟩ ⟨c, d⟩ (fine.mono (by omega) (by omega)),
        arms.fine low high a b c d (by omega) (by simpa only using by omega)⟩

/-- What stands after the prologue, up to the fields: the head of the loop, the selection, and
the code for unknown fields. -/
def loopHead (fields : List FieldDesc) (arms : List Nat) (top unknown stop : Nat) : Code :=
  [.loadFrame p0 0, .check 1, .readInt .w1 false r0, ifEq r0 0 (.place stop), .check 2,
    .readInt .w2 true r1] ++ dispatch fields arms unknown ++
  [.call Builtin.skip [r0] [], .jump (.place top)]

/-- The code of a record, given how to read a field of it. -/
def recordOf (read : Nat → FieldDesc → Piece) (t : TypeDesc) : Piece := fun start => do
  let prologue ← decodePrologue t start
  let top := start + prologue.length
  let unknown := top + 6 + dispatchSize t.fields
  let (arms, body) ← armsOf read top unknown 0 t.fields (unknown + 2)
  return prologue ++ loopHead t.fields arms top unknown (unknown + 2 + body.length) ++ body ++
    checkRequired t.fields ++ [.leave]

lemma decodeRecord_eq (few : t.fields.length ≤ maxTracked) :
    decodeRecord known nested t = recordOf (fun i => decodeField known (nested.part i)) t := by
  funext start
  unfold decodeRecord recordOf loopHead
  rw [if_neg (Nat.not_lt.mpr few)]
  simp only [decodeArms_eq, append_assoc]

lemma recordOf_eq_ok : recordOf read t start table = .ok made table' ↔ ∃ prologue mid arms body, decodePrologue t start
      table = .ok prologue mid ∧ armsOf read (start + prologue.length)
      (start + prologue.length + 6 + dispatchSize t.fields) 0 t.fields
      (start + prologue.length + 6 + dispatchSize t.fields + 2) mid = .ok (arms, body) table' ∧ made = prologue ++
      loopHead t.fields arms (start + prologue.length) (start + prologue.length + 6 + dispatchSize t.fields)
      (start + prologue.length + 6 + dispatchSize t.fields + 2 + body.length) ++ body ++ checkRequired t.fields ++
      [.leave] := by
  simp only [recordOf, lower_bind]
  constructor
  · rintro ⟨prologue, mid, ok, ⟨arms, body⟩, mid', ok', done⟩
    cases done
    exact ⟨prologue, mid, arms, body, ok, ok', rfl⟩
  · rintro ⟨prologue, mid, arms, body, ok, ok', rfl⟩
    exact ⟨prologue, mid, ok, (arms, body), table', ok', rfl⟩

lemma length_dispatch (same : arms.length = fields.length) (unknown : Nat) :
    (dispatch fields arms unknown).length = dispatchSize fields := by
  unfold dispatch dispatchSize
  cases idRange? fields with
  | none => rfl
  | some range =>
    simp only
    split
    · rfl
    · simp [same]

lemma codeFine_dispatch (inside : ∀ place ∈ arms, low ≤ place ∧ place ≤ high)
    (atUnknown : low ≤ unknown ∧ unknown ≤ high) : CodeFine .decode low high (dispatch fields arms unknown) := by
  have jump : CodeFine .decode low high [.jump (.place unknown)] := codeFine_jump atUnknown.1 atUnknown.2
  have armOf : ∀ entry ∈ fields.zip arms, low ≤ entry.2 ∧ entry.2 ≤ high := fun entry mem => inside _ (of_mem_zip mem).2
  unfold dispatch
  cases idRange? fields with
  | none => exact jump
  | some range =>
    simp only
    split
    · refine codeFine_cons.mpr ⟨⟨rfl, nofun⟩, codeFine_cons.mpr ⟨⟨rfl, fun d mem => ?_⟩, codeFine_nil⟩⟩
      simp only [Instr.targets, mem_append, mem_singleton, dispatchTable, mem_map] at mem
      rcases mem with ⟨k, _, rfl⟩ | rfl
      · split
        · rename_i entry found
          exact armOf entry (List.mem_reverse.mp (mem_of_find?_eq_some found))
        · exact atUnknown
      · exact atUnknown
    · refine codeFine_append.mpr ⟨fun i mem => ?_, jump⟩
      obtain ⟨entry, listed, rfl⟩ := List.mem_map.mp mem
      exact (isBranch_ifEq r1 _).fine (armOf entry listed).1 (armOf entry listed).2 _ (mem_singleton_self _)

lemma length_loopHead (same : arms.length = fields.length) (top unknown stop : Nat) :
    (loopHead fields arms top unknown stop).length = 6 + dispatchSize fields + 2 := by
  simp [loopHead, length_dispatch same]
  omega

lemma codeFine_loopHead {stop : Nat} (inside : ∀ place ∈ arms, low ≤ place ∧ place ≤ high)
    (atTop : low ≤ top ∧ top ≤ high) (atUnknown : low ≤ unknown ∧ unknown ≤ high) (atStop : low ≤ stop ∧ stop ≤ high) :
    CodeFine .decode low high (loopHead fields arms top unknown stop) := by
  refine codeFine_append.mpr ⟨codeFine_append.mpr ⟨?_, codeFine_dispatch inside atUnknown⟩, ?_⟩
  · simp [ifEq, Instr.frameSlots, Dest.Inside, atStop]
  · exact codeFine_cons.mpr ⟨⟨rfl, by simp⟩, codeFine_jump atTop.1 atTop.2⟩

lemma codeFine_record {prologue : Code} (few : fields.length ≤ maxTracked)
    (atTop : top = start + prologue.length) (atUnknown : unknown = top + 6 + dispatchSize fields)
    (fine : CodeFine .decode start top prologue) (length : arms.length = fields.length)
    (armsFine : ArmsFine top unknown (unknown + 2) arms body)
    (whole : made = prologue ++ loopHead fields arms top unknown (unknown + 2 + body.length) ++ body ++
      checkRequired fields ++ [.leave]) : CodeFine .decode start (start + made.length) made := by
  subst whole
  simp only [length_append, length_loopHead length, codeFine_append]
  have places := armsFine.places
  refine ⟨⟨⟨⟨fine.mono (by omega) (by omega), codeFine_loopHead (fun place mem => ?_) ?_ ?_ ?_⟩,
    armsFine.fine _ _ ?_ ?_ ?_ ?_ ?_ ?_⟩, (straight_checkRequired few).codeFine⟩,
    codeFine_cons.mpr ⟨⟨rfl, by simp⟩, codeFine_nil⟩⟩
  · have := places place mem
    omega
  all_goals omega

lemma orderly_decodeRecord (foresees : Foresees known bad) (inner : OrderlyNested known .decode bad nested)
    (has : known.Has t) : Orderly known .decode bad (decodeRecord known nested t) := by
  by_cases many : maxTracked < t.fields.length
  · intro start
    rw [decodeRecord, if_pos many]
    exact checks_throw (foresees.fields has many)
  · have few : t.fields.length ≤ maxTracked := Nat.le_of_not_lt many
    rw [decodeRecord_eq few]
    refine fun start => (orderly_decodePrologue foresees.sound has few start).bind fun prologue fine => ?_
    refine (checks_armsOf (fun i field mem => orderly_decodeField foresees (foresees.sound.field has mem)
      (fun way => inner (i :: way)) (field_low (foresees.sound.shaped t has) mem)) (by rwa [Nat.zero_add]) _).bind ?_
    rintro ⟨arms, body⟩ ⟨count, armsFine⟩
    exact checks_pure (codeFine_record few rfl rfl fine count armsFine rfl)

end Record

/-! Programs. -/

section Programs

instance (t : TypeDesc) (start : Nat) : Grows (decodePrologue t start) :=
  inferInstanceAs (Grows (seq _ start))

instance (t : TypeDesc) (read : Nat → FieldDesc → Piece) [∀ i field k, Grows (read i field k)] (start : Nat) :
    Grows (recordOf read t start) := inferInstanceAs (Grows (_ >>= _))

instance (t : TypeDesc) [∀ way t k, Grows (nested way t k)] (start : Nat) : Grows (decodeRecord known nested t start) := by
  by_cases many : t.fields.length > maxTracked
  · rw [decodeRecord, if_pos many]
    exact grows_of_same fun _ => rfl
  · rw [decodeRecord_eq (Nat.le_of_not_lt many)]
    infer_instance

variable {s : Setting}

instance (job : Job) [∀ way t k, Grows (nested way t k)] (t : TypeDesc) (start : Nat) :
    Grows (recordPiece s job nested t start) := by
  cases job <;> unfold recordPiece <;> infer_instance

instance (job : Job) (levels : Nat) (t : TypeDesc) (start : Nat) : Grows (nestedPiece s job levels t start) := by
  induction levels generalizing t start with
  | zero => exact inferInstanceAs (Grows (deferral job t start))
  | succ levels ih =>
    unfold nestedPiece
    split <;> infer_instance

lemma orderly_recordPiece (foresees : Foresees s.known bad) (job : Job) (inner : OrderlyNested s.known job bad nested)
    {t : TypeDesc} (has : s.known.Has t) : Orderly s.known job bad (recordPiece s job nested t) := by
  cases job with
  | measure => exact closed_encodeRecord (closed_orderly _ .count _) foresees inner has
  | encode => exact closed_encodeRecord (closed_orderly _ .write _) foresees inner has
  | decode => exact orderly_decodeRecord foresees inner has

lemma orderlyNested_nestedPiece (foresees : Foresees s.known bad) (job : Job) (levels : Nat) :
    OrderlyNested s.known job bad fun _ => nestedPiece s job levels := by
  induction levels with
  | zero => exact fun _ record has => orderly_deferral has job
  | succ levels ih =>
    intro _ record has start
    dsimp only
    unfold nestedPiece
    split
    · exact orderly_deferral has job start
    · exact orderly_recordPiece foresees job ih has start

end Programs

end WireCodec.Lowering
