import WireCodec.Proofs.Codec.Writing
import WireCodec.Proofs.Lowering.Loops

/-! Code for writing, and code that counts what would be written: how it is put together, and that
it is orderly. -/
namespace WireCodec.Lowering

open Instr

variable {known : Registry} {job : Job} {bad : Failure → Prop} {nested : Spots (TypeDesc → Piece)} {out : Output}
  {t : TypeDesc} {off : UInt32} {base : Reg}

lemma scalarWidth_eq (shaped : t.Shaped) (isScalar : t.kind.isScalar = true) :
    scalarWidth t = pure (Writing.width t) := by
  obtain ⟨width, found, _⟩ := shaped.width isScalar
  rw [scalarWidth, Writing.width, found]
  rfl

lemma lengthAt_eq (low : off.toNat + 4 < 2 ^ 32) : lengthAt off = pure (off + 4) := by
  have sum : (off.toNat + 4).toUInt32 = off + 4 := by
    apply UInt32.toNat_inj.mp
    simp [UInt32.toNat_add]
  rw [lengthAt, offset?_of_lt low, sum]
  rfl

lemma inReach_ofMap {key elem : TypeDesc} {layout : TypeDesc.EntryLayout} (is : known.IsMap t key elem layout) : inReach
    (Entry.ofMap? key elem) = pure ⟨some key, elem, layout.valueOffset, layout.stride⟩ := by
  rw [is.entry]
  rfl

section Value

variable {t key elem : TypeDesc} {layout : TypeDesc.EntryLayout} {base : Reg} {off : UInt32}
  (reserved : Bool)

lemma encodeValue_scalar (isScalar : t.kind.isScalar = true) : encodeValue known nested out t reserved base off =
      if reserved then encodeReserved out t base off else encodeScalar out t base off := by
  obtain ⟨_, kind⟩ := t
  cases kind <;> first | rfl | cases isScalar

lemma encodeValue_blob (kind : t.kind = .string ∨ t.kind = .binary) :
    encodeValue known nested out t reserved base off = encodeBlob out base off := by
  obtain ⟨_, kind⟩ := t
  rcases kind with rfl | rfl <;> rfl

lemma encodeValue_sequence (is : known.IsSequence t elem) : encodeValue known nested out t reserved base off =
      encodeContainer out t.kind (.ofList elem) base off fun reserved =>
        encodeValue known (nested.part 0) out elem reserved p1 0 := by
  obtain ⟨_, kind⟩ := t
  obtain ⟨kind, given, _⟩ := is
  cases given
  rcases kind with rfl | rfl <;> rfl

lemma encodeValue_map (is : known.IsMap t key elem layout) :
    encodeValue known nested out t reserved base off = withM (inReach (Entry.ofMap? key elem)) fun entry =>
        encodeContainer out t.kind entry base off fun reserved =>
          entry.parts (some (encodeValue known (nested.part 0) out key reserved p1 0))
            (encodeValue known (nested.part 1) out elem reserved p1 entry.valueOffset) := by
  obtain ⟨_, kind⟩ := t
  obtain ⟨kind, givenKey, givenElem, _⟩ := is
  cases givenKey
  cases givenElem
  cases kind
  rfl

lemma encodeValue_cramped (is : Registry.IsCramped t key elem) :
    encodeValue known nested out t reserved base off = fun _ => throw .overflow := by
  obtain ⟨_, kind⟩ := t
  obtain ⟨kind, givenKey, givenElem, layout⟩ := is
  cases givenKey
  cases givenElem
  cases kind
  rw [encodeValue.eq_def]
  simp only [Entry.ofMap?, layout]
  rfl

lemma encodeValue_struct (kind : t.kind = .struct) : encodeValue known nested out t reserved base off =
      seq [code (seekRecord base off), nestedRecord known nested t] := by
  obtain ⟨_, kind⟩ := t
  cases kind
  rfl

lemma encodeValue_pointer (kind : t.kind = .pointer) : encodeValue known nested out t reserved base off = seq
      [code [.loadPtr p0 base off], either (ifNe p0 0) (code (stopMark out)) (nestedRecord known nested t)] := by
  obtain ⟨_, kind⟩ := t
  cases kind
  rfl

end Value

lemma length_low (shaped : t.Shaped) (header : t.kind.hasHeader = true) (low : off.toNat + t.size.toNat < 2 ^ 32) : off.toNat + 4 < 2 ^ 32 := by
  rw [shaped.size_header header] at low
  have : headerSize.toNat = 8 := rfl
  omega

section Field

variable {field : FieldDesc}

lemma encodeField_boxed (boxed : field.isBoxed = true) :
    encodeField known nested out field = seq [code [.loadPtr p2 p0 field.offset],
      skipping (ifEq p2 0) (seq [code (fieldHeader out field), encodeScalar out field.type p2 0])] := by
  rw [encodeField, if_pos boxed]

lemma encodeField_pointer (kind : field.type.kind = .pointer) :
    encodeField known nested out field = encodePointerField known nested out field := by
  rw [encodeField, if_neg (Field.not_isBoxed (by rw [kind]; rfl)), kind]

lemma encodeField_struct (kind : field.type.kind = .struct) : encodeField known nested out field = seq
      [code (fieldHeader out field ++ [.seek p0 p0 field.offset.toInt32]), nestedRecord known nested field.type] := by
  rw [encodeField, if_neg (Field.not_isBoxed (by rw [kind]; rfl)), kind]

lemma encodeField_scalar (inPlace : ¬ field.isBoxed = true) (isScalar : field.type.kind.isScalar = true) :
    encodeField known nested out field = encodeScalarField out field := by
  rw [encodeField, if_neg inPlace]
  cases kind : field.type.kind <;> first | rfl | (rw [kind] at isScalar; cases isScalar)

lemma encodeField_header (hasHeader : field.type.kind.hasHeader = true) :
    encodeField known nested out field = encodeHeaderField known nested out field := by
  have notScalar : field.type.kind.isScalar = false := by
    cases kind : field.type.kind <;> first | rfl | (rw [kind] at hasHeader; cases hasHeader)
  rw [encodeField, if_neg (Field.not_isBoxed notScalar)]
  cases kind : field.type.kind <;> first | rfl | (rw [kind] at hasHeader; cases hasHeader)

lemma low_of_slot (inPlace : ¬ field.isBoxed = true) (low : field.offset.toNat + field.slotSize.toNat < 2 ^ 32) :
    field.offset.toNat + field.type.size.toNat < 2 ^ 32 := by
  rwa [Field.slotSize, if_neg inPlace] at low

end Field

lemma field_low (shaped : t.Shaped) {field : FieldDesc} (mem : field ∈ t.fields) :
    field.offset.toNat + field.slotSize.toNat < 2 ^ 32 :=
  lt_of_le_of_lt (shaped.laidOut.inside field mem) t.size.toNat_lt

section Grows

variable (known nested out) (e : Entry) (kind : Kind) (base : Reg) (off : UInt32) (start : Nat)

instance (t : TypeDesc) : Grows (encodeScalar out t base off start) :=
  inferInstanceAs (Grows (withM _ _ start))

instance (t : TypeDesc) : Grows (encodeReserved out t base off start) :=
  inferInstanceAs (Grows (withM _ _ start))

instance : Grows (encodeBlob out base off start) := inferInstanceAs (Grows (withM _ _ start))

instance : Grows (encodeContainerHead out kind e base off start) := by
  unfold encodeContainerHead
  infer_instance

set_option synthInstance.maxSize 512 in
instance (entry : Bool → Piece) [∀ flag k, Grows (entry flag k)] : Grows (encodeEntries out e entry start) := by
  unfold encodeEntries
  cases e.fixedSize? <;> cases out <;> dsimp only <;> infer_instance

instance (entry : Bool → Piece) [∀ flag k, Grows (entry flag k)] :
    Grows (encodeContainer out kind e base off entry start) := by
  unfold encodeContainer
  infer_instance

variable [∀ way t k, Grows (nested way t k)]

instance (t : TypeDesc) (flag : Bool) : Grows (encodeValue known nested out t flag base off start) := by
  induction t using TypeDesc.inner_induction generalizing nested flag base off start with
  | step t ihElem ihKey =>
    obtain ⟨_, kind, _, _, _, key, elem, _, _⟩ := t
    rcases elem with _ | elem
    · cases kind <;> unfold encodeValue <;> infer_instance
    · have := ihElem elem rfl (nested.part 0)
      have := ihElem elem rfl (nested.part 1)
      rcases key with _ | key
      · cases kind <;> unfold encodeValue <;> infer_instance
      · have := ihKey key rfl (nested.part 0)
        cases kind <;> unfold encodeValue <;> infer_instance

instance (default : Scalar) (body : Piece) [∀ k, Grows (body k)] : Grows (unlessDefault default body start) := by
  unfold unlessDefault
  infer_instance

instance (field : FieldDesc) : Grows (encodeScalarField out field start) := by
  unfold encodeScalarField
  cases field.default <;> infer_instance

set_option synthInstance.maxSize 512 in
instance (field : FieldDesc) : Grows (encodePointerField known nested out field start) := by
  unfold encodePointerField
  infer_instance

instance (field : FieldDesc) : Grows (encodeHeaderField known nested out field start) := by
  unfold encodeHeaderField
  infer_instance

instance (field : FieldDesc) : Grows (encodeField known nested out field start) := by
  by_cases boxed : field.isBoxed = true
  · rw [encodeField_boxed boxed]
    infer_instance
  rcases field.type.kind.form with isScalar | header | kind | kind
  · rw [encodeField_scalar boxed isScalar]
    infer_instance
  · rw [encodeField_header header]
    infer_instance
  · rw [encodeField_struct kind]
    infer_instance
  · rw [encodeField_pointer kind]
    infer_instance

instance (reload : Bool) (fields : List FieldDesc) : Grows (encodeFields known nested out reload fields start) := by
  induction fields generalizing nested reload start with
  | nil => exact inferInstanceAs (Grows (code [] start))
  | cons _ _ ih =>
    have := ih (nested.part 1)
    exact inferInstanceAs (Grows (seq _ start))

instance (t : TypeDesc) : Grows (encodeRecord known out nested t start) :=
  inferInstanceAs (Grows (seq _ start))

end Grows

section Straight

attribute [local simp] Plain Job.allows Instr.targets uses frameSlots

@[simp] lemma isPtr_p (i : Fin 10) : (Reg.p i).isPtr = true := rfl

@[simp] lemma r_eq_ptr {reg : Reg} (isPtr : reg.isPtr = true) (i : Fin 9) : (Reg.r i = reg) = False := by
  cases reg with
  | r j => cases isPtr
  | p j => simp

@[simp] lemma straight_reserve (n : UInt32) : Straight out.job (out.reserve n) := by
  cases out <;> simp [Output.reserve, Output.job]

@[simp] lemma straight_reserveReg : Straight out.job (out.reserveReg r0) := by
  cases out <;> simp [Output.reserveReg, Output.job]

@[simp] lemma straight_literal (width : Width) (value : UInt64) : Straight out.job (out.literal width value) := by
  cases out <;> simp [Output.literal, Output.job]

@[simp] lemma straight_int {reg : Reg} (other : r2 ≠ reg) (other' : r6 ≠ reg) (width : Width) :
    Straight out.job (out.int width reg) := by
  cases out <;> simp [Output.int, Output.job, other, other']

@[simp] lemma straight_bytes (i : Fin 10) : Straight out.job (out.bytes (.p i) r0) := by
  cases out <;> simp [Output.bytes, Output.job]

@[simp] lemma straight_fieldHeader (field : FieldDesc) : Straight out.job (fieldHeader out field) := by
  simp [fieldHeader]

@[simp] lemma straight_stopMark : Straight out.job (stopMark out) := by
  simp [stopMark]

lemma plain_load (isPtr : base.isPtr = true) (width : Width) (dst : Reg)
    (off : UInt32) : Plain job (.load width false dst base off) := by
  simp [isPtr]

lemma plain_loadPtr (isPtr : base.isPtr = true) (i : Fin 10) (off : UInt32) : Plain job (.loadPtr (.p i) base off) := by
  simp [isPtr]

lemma plain_seek {src : Reg} (isPtr : src.isPtr = true) (off : Int32) : Plain job (.seek p0 src off) := by
  simp [isPtr]

lemma straight_seekRecord (isPtr : base.isPtr = true) (off : UInt32) : Straight job (seekRecord base off) := by
  unfold seekRecord
  split
  · exact straight_nil
  · exact List.forall_mem_singleton.mpr (plain_seek isPtr _)

end Straight

/-! A property of pieces that is kept by the ways they are put together holds of the code for every
type. -/

section Closed

variable {P : Piece → Prop} (closed : Closed known out bad P) {piece : Piece}

include closed

lemma Closed.nil : P (seq []) := closed.straight straight_nil

lemma Closed.last (holds : P piece) : P (seq [piece]) := closed.cons holds closed.nil

lemma Closed.pair {piece' : Piece} (first : P piece) (second : P piece') :
    P (seq [piece, piece']) := closed.cons first (closed.last second)

variable (foresees : Foresees known bad) (inner : ∀ way record, known.Has record → P (nested way record))
  {t : TypeDesc} {base : Reg} {off : UInt32}

lemma closed_encodeScalar (shaped : t.Shaped) (isScalar : t.kind.isScalar = true)
    (isPtr : base.isPtr = true) : P (encodeScalar out t base off) := by
  rw [encodeScalar, scalarWidth_eq shaped isScalar, withM_pure]
  exact closed.straight (by simp [plain_load isPtr])

lemma closed_encodeReserved (shaped : t.Shaped) (isScalar : t.kind.isScalar = true)
    (isPtr : base.isPtr = true) : P (encodeReserved out t base off) := by
  rw [encodeReserved, scalarWidth_eq shaped isScalar, withM_pure]
  exact closed.straight (by simp [plain_load isPtr])

lemma closed_encodeBlob (low : off.toNat + 4 < 2 ^ 32) (isPtr : base.isPtr = true) : P (encodeBlob out base off) := by
  rw [encodeBlob, lengthAt_eq low, withM_pure]
  exact closed.straight (by simp [plain_load isPtr, plain_loadPtr isPtr])

variable {e : Entry} {kind : Kind} {entry : Bool → Piece}

lemma closed_encodeContainerHead (has : known.Has e.elem) (low : off.toNat + 4 < 2 ^ 32)
    (isPtr : base.isPtr = true) : P (encodeContainerHead out kind e base off) := by
  rw [encodeContainerHead, lengthAt_eq low, withM_pure]
  simp only
  split
  · rw [withM_internType_append]
    refine closed.pair (closed.straight ?_) (closed.distinct has)
    cases e.key <;> simp [plain_load isPtr, plain_loadPtr isPtr]
  · refine closed.straight ?_
    cases e.key <;> simp [plain_load isPtr, plain_loadPtr isPtr]

lemma closed_entryLoop (body : ∀ reserved, P (entry reserved)) (reserved : Bool) :
    P (if e.isSimple then e.registerLoop (entry reserved)
      else seq [code [.enter, .storeFrame p1 0, .storeFrame r1 1], e.frameLoop (entry false), code [.leave]]) := by
  split
  · exact closed.loop (closed.pair (body reserved) (closed.straight (straight_stepCode e)))
  · refine closed.cons (closed.straight ?_) (closed.pair (closed.loop (closed.pair (body false)
      (closed.straight (straight_loopStep e)))) (closed.straight ?_))
    all_goals simp [Plain, Job.allows, targets, uses, frameSlots]

lemma closed_encodeEntries (body : ∀ reserved, P (entry reserved)) : P (encodeEntries out e entry) := by
  unfold encodeEntries
  cases e.fixedSize? with
  | none => exact closed_entryLoop closed body false
  | some size =>
    cases out with
    | count =>
      exact closed.straight (by simp [Output.job, Plain, Job.allows, targets, uses])
    | write =>
      refine closed.pair (closed.straight ?_) (closed_entryLoop closed body true)
      simp [Output.job, Plain, Job.allows, targets, uses]

lemma closed_encodeContainer (has : known.Has e.elem) (low : off.toNat + 4 < 2 ^ 32) (isPtr : base.isPtr = true)
    (body : ∀ reserved, P (entry reserved)) : P (encodeContainer out kind e base off entry) :=
  closed.pair (closed_encodeContainerHead closed has low isPtr)
    (closed.skip nofun nofun (closed_encodeEntries closed body))

lemma closed_parts {key elem : Piece} (first : P key) (second : P elem) : P (e.parts (some key) elem) := by
  refine closed.cons first (closed.pair (closed.straight ?_) second)
  split
  · split <;> simp [Plain, Job.allows, targets, uses, frameSlots]
  · exact straight_nil

include foresees inner

lemma closed_nestedRecord (has : known.Has t) (isRecord : t.kind = .struct ∨ t.kind = .pointer) :
    P (nestedRecord known nested t) := by
  unfold nestedRecord
  cases found : t.recordType known with
  | ok record => exact inner [] record (foresees.sound.recordType has found)
  | error issue => exact closed.refuse (foresees.issue has isRecord found)

lemma closed_encodeValue (t : TypeDesc) (has : known.Has t) (reserved : Bool) (base : Reg)
    (isPtr : base.isPtr = true) (off : UInt32) (low : off.toNat + t.size.toNat < 2 ^ 32) :
    P (encodeValue known nested out t reserved base off) := by
  induction t, has using foresees.sound.induction generalizing nested reserved base off with
  | scalar t has isScalar =>
    have shaped := foresees.sound.shaped t has
    rw [encodeValue_scalar reserved isScalar]
    split
    · exact closed_encodeReserved closed shaped isScalar isPtr
    · exact closed_encodeScalar closed shaped isScalar isPtr
  | blob t has kind =>
    have header := Kind.hasHeader_of_blob kind
    rw [encodeValue_blob reserved kind]
    exact closed_encodeBlob closed (length_low (foresees.sound.shaped t has) header low) isPtr
  | sequence t has elem is ih =>
    have header := is.hasHeader
    rw [encodeValue_sequence reserved is]
    exact closed_encodeContainer closed is.hasElem
      (length_low (foresees.sound.shaped t has) header low) isPtr fun reserved =>
        ih (fun way => inner (0 :: way)) reserved p1 rfl 0 (by simpa using elem.size.toNat_lt)
  | map t has key elem layout is ihKey ihElem =>
    have header := is.hasHeader
    rw [encodeValue_map reserved is, inReach_ofMap is, withM_pure]
    refine closed_encodeContainer closed is.hasElem
      (length_low (foresees.sound.shaped t has) header low) isPtr fun reserved =>
        closed_parts closed (ihKey (fun way => inner (0 :: way)) reserved p1 rfl 0 (by simpa using key.size.toNat_lt))
          (ihElem (fun way => inner (1 :: way)) reserved p1 rfl _ ?_)
    exact lt_of_le_of_lt (TypeDesc.EntryLayout.bounds is.layout?).2 layout.stride.toNat_lt
  | cramped t has key elem is =>
    rw [encodeValue_cramped reserved is]
    exact closed.refuse (foresees.reach has is)
  | struct t has kind =>
    rw [encodeValue_struct reserved kind]
    exact closed.pair (closed.straight (straight_seekRecord isPtr off))
      (closed_nestedRecord closed foresees inner has (.inl kind))
  | pointer t has kind =>
    rw [encodeValue_pointer reserved kind]
    exact closed.pair (closed.straight (by simp [plain_loadPtr isPtr]))
      (closed.fork nofun nofun (closed.straight straight_stopMark)
        (closed_nestedRecord closed foresees inner has (.inr kind)))

variable {field : FieldDesc}

omit foresees inner in
lemma closed_unlessDefault {default : Scalar} {body : Piece} (holds : P body) : P (unlessDefault default body) := by
  unfold unlessDefault
  split
  · exact closed.skip nofun nofun holds
  · exact closed.notDefault holds

lemma closed_encodeField (has : known.Has field.type)
    (low : field.offset.toNat + field.slotSize.toNat < 2 ^ 32) : P (encodeField known nested out field) := by
  have shaped := foresees.sound.shaped _ has
  have header := closed.straight (@straight_fieldHeader out field)
  have slot := closed.straight (List.forall_mem_singleton.mpr (plain_loadPtr (isPtr_p 0) 2 field.offset))
  by_cases boxed : field.isBoxed = true
  · rw [encodeField_boxed boxed]
    exact closed.pair slot (closed.skip nofun nofun (closed.pair header
      (closed_encodeScalar closed shaped (Field.isScalar_of_isBoxed boxed) rfl)))
  rcases field.type.kind.form with isScalar | hasHeader | kind | kind
  · rw [encodeField_scalar boxed isScalar, encodeScalarField]
    have body := closed.pair header (@closed_encodeScalar _ _ _ _ closed _ p0 field.offset shaped isScalar rfl)
    cases field.default with
    | none => exact body
    | some default =>
      simp only
      rw [scalarWidth_eq shaped isScalar, withM_pure]
      exact closed.pair (closed.straight (by simp [plain_load (isPtr_p 0)])) (closed_unlessDefault closed body)
  · rw [encodeField_header hasHeader, encodeHeaderField]
    have body := closed.pair header (closed_encodeValue closed foresees inner _ has false p0 rfl
      field.offset (low_of_slot boxed low))
    split
    · exact body
    · exact closed.pair slot (closed.skip nofun nofun body)
  · rw [encodeField_struct kind]
    exact closed.pair (closed.straight (by simp [plain_seek (isPtr_p 0)]))
      (closed_nestedRecord closed foresees inner has (.inl kind))
  · rw [encodeField_pointer kind, encodePointerField]
    have body : P (seq [code (fieldHeader out field ++ [.seek p0 p2 0]), nestedRecord known nested field.type]) :=
      closed.pair (closed.straight (by simp [plain_seek (isPtr_p 2)]))
        (closed_nestedRecord closed foresees inner has (.inr kind))
    refine closed.pair slot ?_
    split
    · exact closed.fork nofun nofun (closed.straight (by simp)) body
    · exact closed.skip nofun nofun body

lemma closed_encodeFields (reload : Bool) (fields : List FieldDesc) (has : ∀ field ∈ fields, known.Has field.type)
    (low : ∀ field ∈ fields, field.offset.toNat + field.slotSize.toNat < 2 ^ 32) : P
    (encodeFields known nested out reload fields) := by
  induction fields generalizing nested reload with
  | nil => exact closed.nil
  | cons field rest ih =>
    obtain ⟨hasField, hasRest⟩ := List.forall_mem_cons.mp has
    obtain ⟨lowField, lowRest⟩ := List.forall_mem_cons.mp low
    refine closed.cons (closed.straight ?_) (closed.pair
      (closed_encodeField closed foresees (fun way => inner (0 :: way)) hasField lowField)
      (ih (fun way => inner (1 :: way)) _ hasRest lowRest))
    split <;> simp [Plain, Job.allows, targets, uses, frameSlots]

lemma closed_encodeRecord (has : known.Has t) : P (encodeRecord known out nested t) := by
  refine closed.cons (closed.straight ?_) (closed.pair (closed_encodeFields closed foresees inner false
    t.fields (fun field mem => foresees.sound.field has mem)
    fun field mem => field_low (foresees.sound.shaped t has) mem) (closed.straight ?_))
  · split <;> simp [Plain, Job.allows, targets, uses, frameSlots]
  · split <;> simp [Plain, Job.allows, targets, uses]

end Closed

end WireCodec.Lowering
