import WireCodec.Proofs.Lowering.DecodeMade
import WireCodec.Proofs.Lowering.Folded

/-! Code for reading with its checks folded. Checks of code for reading are folded in one place
only: in an entry of a map whose key is a scalar and whose value has a header, the check of the
header joins the one of the key. -/
namespace WireCodec.Lowering

open Peephole List

variable {known : Registry} {nested : Spots (TypeDesc → Piece)} {run : Option UInt32} {field : FieldDesc} {instrs : Code}

/-- A piece with its checks to itself: no run of checks goes across its ends, and its branches
stay in it. -/
structure Enclosed (piece : Piece) : Prop where
  shuts : ∀ run, Shuts run piece
  hushed : Hushed piece
  lands : ∀ run, LandsIn run piece

def EnclosedNested (known : Registry) (nested : Spots (TypeDesc → Piece)) : Prop :=
  ∀ way record, known.Has record → Enclosed (nested way record)

lemma nestedRecord_eq {t record : TypeDesc} (ok : t.recordType known = .ok record) :
    nestedRecord known nested t = nested [] record := by
  rw [nestedRecord, ok]
  rfl

attribute [local simp] Instr.targets Instr.mapTargets Instr.cursorDelta?

section Value

variable {t key elem record : TypeDesc} {layout : TypeDesc.EntryLayout} {base : Reg}
  {off : UInt32} {e : Entry} {entry : Bool → Piece}

lemma shuts_decodeBlob : Shuts run (decodeBlob base off) :=
  shuts_withM fun _ => shuts_code (by cases run <;> rfl)

lemma landsIn_decodeBlob : LandsIn run (decodeBlob base off) :=
  landsIn_withM fun _ => landsIn_code (by simp [allocate, ifNegative])

lemma openAfter_decodeContainerHead : openAfter run (decodeContainerHead e) = none := by
  unfold decodeContainerHead
  cases e.key.isSome <;> cases run <;> rfl

lemma openAfter_decodeTags : openAfter none (decodeTags e) = none := by
  unfold decodeTags
  cases e.key <;> rfl

lemma shuts_decodeRoom : Shuts run (decodeRoom e base off) :=
  shuts_withM fun _ => shuts_code (by cases run <;> rfl)

lemma shuts_decodeDistinct : Shuts run (decodeDistinct elem) :=
  shuts_withM fun _ => shuts_code (by cases run <;> rfl)

lemma shuts_readLoop (isSet : Bool) : Shuts run (readLoop isSet e entry) := by
  unfold readLoop
  split
  · exact shuts_seq_last fun _ => shuts_seq (shuts_looping (endsRun_ifNe _ _)) shuts_nil
  · refine shuts_seq_last fun _ => shuts_seq (shuts_looping (endsRun_ifNe _ _)) (shuts_seq (shuts_code ?_) shuts_nil)
    cases isSet <;> rfl

lemma shuts_decodeEntries (isSet : Bool) : Shuts run (decodeEntries isSet e entry) := by
  rw [decodeEntries_eq]
  split
  · exact shuts_seq (shuts_readLoop _) (shuts_seq shuts_decodeDistinct shuts_nil)
  · exact shuts_readLoop isSet

lemma shuts_decodeContainer (isSet : Bool) : Shuts run (decodeContainer isSet e base off entry) :=
  shuts_seq (shuts_code openAfter_decodeContainerHead) <|
    shuts_seq (shuts_skipping (endsRun_ifEq _ _) (shuts_code openAfter_decodeTags)) <|
    shuts_seq shuts_decodeRoom <|
    shuts_seq (shuts_skipping (endsRun_ifEq _ _) (shuts_decodeEntries isSet)) shuts_nil

lemma landsIn_decodeEntries (isSet : Bool) (inner : ∀ checked, LandsIn none (entry checked)) :
    LandsIn none (decodeEntries isSet e entry) := by
  have loop : LandsIn none (readLoop isSet e entry) := by
    unfold readLoop
    split
    · have start : openAfter none (if isSet then [.seek p3 p1 0, .mov r3 r1] else [] : Code) = none := by
        cases isSet <;> rfl
      refine landsIn_seq_shut (landsIn_code ?_) (shuts_code start) (landsIn_seq ?_ fun _ _ _ _ _ => ?_)
      · cases isSet <;> simp
      · refine landsIn_looping (isBranch_ifNe _ _) (landsIn_seq (inner _) fun _ _ _ _ _ => ?_)
        exact landsIn_seq (landsIn_code (by simp [Entry.stepCode])) fun _ _ _ _ _ => landsIn_nil
      · exact landsIn_nil
    · have start : openAfter none ([.enter, .storeFrame p1 0, .storeFrame r1 1] ++ keepBounds isSet : Code) = none := by
        cases isSet <;> rfl
      refine landsIn_seq_shut (landsIn_code ?_) (shuts_code start) (landsIn_seq ?_ fun _ _ _ _ _ => ?_)
      · cases isSet <;> simp [keepBounds]
      · refine landsIn_looping (isBranch_ifNe _ _) (landsIn_seq (inner _) fun _ _ _ _ _ => ?_)
        exact landsIn_seq (landsIn_code (by simp [Entry.stepCode])) fun _ _ _ _ _ => landsIn_nil
      · refine landsIn_seq (landsIn_code ?_) fun _ _ _ _ _ => landsIn_nil
        cases isSet <;> simp [takeBounds]
  rw [decodeEntries_eq]
  split
  · refine landsIn_seq loop fun _ _ _ _ _ => landsIn_seq ?_ fun _ _ _ _ _ => landsIn_nil
    exact landsIn_withM fun _ => landsIn_code (by simp)
  · exact loop

lemma landsIn_decodeContainer (isSet : Bool) (inner : ∀ checked, LandsIn none (entry checked)) :
    LandsIn run (decodeContainer isSet e base off entry) := by
  have tags : ∀ i ∈ decodeTags e, ∀ place, Dest.place place ∉ i.targets := by
    unfold decodeTags
    cases e.key <;> simp [ifNe]
  have head : ∀ i ∈ decodeContainerHead e, ∀ place, Dest.place place ∉ i.targets := by
    unfold decodeContainerHead
    cases e.key.isSome <;> simp [ifNegative]
  refine landsIn_seq_shut (landsIn_code head) (shuts_code openAfter_decodeContainerHead) ?_
  refine landsIn_seq_shut (landsIn_skipping (isBranch_ifEq _ _) (endsRun_ifEq _ _)
    (landsIn_code tags) (shuts_code openAfter_decodeTags))
    (shuts_skipping (endsRun_ifEq _ _) (shuts_code openAfter_decodeTags)) ?_
  refine landsIn_seq_shut (landsIn_withM fun _ => landsIn_code ?_) shuts_decodeRoom ?_
  · simp [allocate]
  · refine landsIn_seq (landsIn_skipping (isBranch_ifEq _ _) (endsRun_ifEq _ _)
      (landsIn_decodeEntries isSet inner) (shuts_decodeEntries isSet)) fun _ _ _ _ _ => landsIn_nil

/-! Folding. -/

lemma hushed_still (still : Still instrs) : Hushed (seq [code instrs]) :=
  hushed_code_seq still (hushed_code quiet_nil)

lemma foldFrom_unchecked (unchecked : ∀ i ∈ instrs, ∀ n, paceOf i ≠ .asks n) :
    foldFrom run (code instrs) = code instrs := by
  rw [foldFrom_code, fold_unchecked unchecked]

lemma foldFrom_loop {body : Piece} {step : Code} (still : Still step) : foldFrom none
    (looping (seq [body, code step]) (ifNe r1 0)) = looping (seq [foldFrom none body, code step]) (ifNe r1 0) := by
  rw [foldFrom_looping (endsRun_ifNe _ _), foldFrom_seq (.inr (hushed_still still)) (apart_last _),
    map_singleton, foldFrom_unchecked still.unchecked]

lemma still_stepCode : Still e.stepCode := .cons rfl (.cons rfl still_nil)

lemma still_loopStep : Still (loopStep e) :=
  .append (.append (.cons rfl (.cons rfl still_nil)) still_stepCode) (.cons rfl (.cons rfl still_nil))

lemma foldFrom_readLoop (isSet : Bool) : foldFrom none (readLoop isSet e entry) =
      readLoop isSet e fun checked => foldFrom none (entry checked) := by
  unfold readLoop
  split
  · have start : openAfter none (if isSet then [.seek p3 p1 0, .mov r3 r1] else [] : Code) = none := by
      cases isSet <;> rfl
    rw [foldFrom_seq (.inl (shuts_code start)) (apart_last _), map_singleton,
      Entry.registerLoop, foldFrom_loop still_stepCode]
    cases isSet <;> rfl
  · have start : openAfter none ([.enter, .storeFrame p1 0, .storeFrame r1 1] ++ keepBounds isSet : Code) = none := by
      cases isSet <;> rfl
    have loop : foldFrom none (e.frameLoop (entry false)) = e.frameLoop (foldFrom none (entry false)) :=
      foldFrom_loop still_loopStep
    have shut : Shuts none (e.frameLoop (entry false)) := shuts_looping (endsRun_ifNe _ _)
    rw [foldFrom_seq (.inl (shuts_code start)) (apart_cons (.inl shut) (apart_last _)), map_cons, map_singleton, loop]
    cases isSet <;> rfl

lemma foldFrom_decodeDistinct : foldFrom run (decodeDistinct elem) = decodeDistinct elem := by
  unfold decodeDistinct
  rw [foldFrom_withM]
  cases run <;> rfl

lemma foldFrom_decodeEntries (isSet : Bool) : foldFrom none (decodeEntries isSet e entry) =
      decodeEntries isSet e fun checked => foldFrom none (entry checked) := by
  rw [decodeEntries_eq, decodeEntries_eq]
  split
  · rw [foldFrom_seq (.inl (shuts_readLoop isSet)) (apart_last _), map_singleton,
      foldFrom_readLoop, foldFrom_decodeDistinct]
  · exact foldFrom_readLoop isSet

def headRest (e : Entry) : Code :=
  (if e.key.isSome then [.readInt .w1 false r2] else []) ++
    [.readInt .w1 false r3, .readInt .w4 true r1, ifNegative r1 (.exit .invalidLength)]

lemma decodeContainerHead_eq (e : Entry) : decodeContainerHead e = .check e.headerSize :: headRest e := by
  simp [decodeContainerHead, headRest]

/-- The check of a value's head, which joins a run of checks that is open before it. -/
def headCheck (run : Option UInt32) (n : UInt32) : Instr Dest :=
  match run with
  | none => .check n
  | some _ => .nop

lemma fold_decodeContainerHead (e : Entry) :
    (fold nothing run (decodeContainerHead e)).2 = headCheck run e.headerSize :: headRest e := by
  rw [decodeContainerHead_eq]
  unfold headRest Entry.headerSize
  cases e.key.isSome <;> cases run <;> rfl

/-- A container whose head may be behind an open run of checks. -/
def containerFrom (run : Option UInt32) (isSet : Bool) (e : Entry) (base : Reg) (off : UInt32)
    (entry : Bool → Piece) : Piece :=
  seq [code (headCheck run e.headerSize :: headRest e), skipping (ifEq r1 0) (code (decodeTags e)),
    decodeRoom e base off, skipping (ifEq r1 0) (decodeEntries isSet e entry)]

lemma foldFrom_decodeContainer (isSet : Bool) : foldFrom run (decodeContainer isSet e base off entry) =
      containerFrom run isSet e base off fun checked => foldFrom none (entry checked) := by
  have room : foldFrom none (decodeRoom e base off) = decodeRoom e base off := by
    unfold decodeRoom
    rw [foldFrom_withM]
    rfl
  have tags : foldFrom none (code (decodeTags e)) = code (decodeTags e) := by
    refine foldFrom_unchecked ?_
    unfold decodeTags
    cases e.key <;> simp [ifNe, paceOf, pace, runDelta?, isCursorNeutral]
  unfold decodeContainer
  rw [foldFrom_seq (.inl (shuts_code openAfter_decodeContainerHead))
    (apart_cons (.inl (shuts_skipping (endsRun_ifEq _ _) (shuts_code openAfter_decodeTags)))
      (apart_cons (.inl shuts_decodeRoom) (apart_last _))), foldFrom_code, fold_decodeContainerHead]
  simp only [map_cons, map_nil, foldFrom_skipping (endsRun_ifEq _ _), tags, room, foldFrom_decodeEntries]
  rfl

def blobFrom (run : Option UInt32) (base : Reg) (off : UInt32) : Piece :=
  withM (lengthAt off) fun length => code
    [headCheck run 4, .readInt .w4 true r2, ifNegative r2 (.exit .invalidLength), .checkReg r2,
     allocate r2 p2, .storePtr p2 base off, .store .w4 r2 base length, .readBytes p2 r2]

lemma foldFrom_decodeBlob : foldFrom run (decodeBlob base off) = blobFrom run base off := by
  unfold decodeBlob blobFrom
  rw [foldFrom_withM]
  cases run <;> rfl

def reload (e : Entry) : Code :=
  match e.key with
  | some t => if isSimple t then [] else [.loadFrame p1 0]
  | none => []

lemma parts_eq (first second : Piece) : e.parts (some first) second = seq [first, code (reload e), second] := rfl

lemma still_reload : Still (reload e) := by
  unfold reload
  split
  · split
    · exact still_nil
    · exact .cons rfl still_nil
  · exact still_nil

lemma foldFrom_parts_apart {first second : Piece} (apart : Shuts none first ∨ Hushed second ∧ ∀ run, Shuts run second) :
    foldFrom none (e.parts (some first) second) = e.parts (some (foldFrom none first)) (foldFrom none second) := by
  have shut : openAfter none (reload e) = none := openAfter_unchecked still_reload.unchecked
  rw [parts_eq, parts_eq, foldFrom_seq (apart.imp id fun ⟨hushed, shuts⟩ =>
    hushed_code_seq still_reload (hushed_seq hushed shuts))
    (apart_cons (.inl (shuts_code shut)) (apart_last _)), map_cons, map_singleton,
    foldFrom_unchecked still_reload.unchecked]

/-- What a piece asks for in a run that is open before it. -/
def Asks (passed need : UInt32) (piece : Piece) : Prop :=
  Always (fun made => (fold nothing (some passed) made).1 = need) piece

lemma asks_withM {passed need : UInt32} {α : Type} {check : LowerM α} {body : α → Piece}
    (each : ∀ a, Asks passed need (body a)) : Asks passed need (withM check body) := always_withM each

lemma asks_decodeBlob (passed : UInt32) : Asks passed (max (addCapped passed 4) 0) (decodeBlob base off) :=
  asks_withM fun _ => always_code rfl

lemma asks_decodeContainer (passed : UInt32) (isSet : Bool) :
    Asks passed (max (addCapped passed e.headerSize) 0) (decodeContainer isSet e base off entry) := by
  intro start table made table' made_
  obtain ⟨head, mid, rest, ok, _, rfl⟩ := seq_cons_eq_ok.mp made_
  obtain ⟨rfl, rfl⟩ := code_eq_ok.mp ok
  rw [fold_append, fold_closed openAfter_decodeContainerHead _ nothing, decodeContainerHead_eq]
  unfold headRest Entry.headerSize
  cases e.key.isSome <;> rfl

lemma foldFrom_joined {width : Width} {next : Piece} {need : UInt32}
    (asks : Asks (addCapped 0 width.bytes.toUInt32) need next) :
    foldFrom none (seq [code [.check width.bytes.toUInt32, .readInt width false r0, .store width r0 base off], next]) =
      seq [code [.check (max width.bytes.toUInt32 need), .readInt width false r0,
        .store width r0 base off], foldFrom (some (addCapped 0 width.bytes.toUInt32)) next] := by
  have same : addCapped (addCapped 0 width.bytes.toUInt32) 0 = addCapped 0 width.bytes.toUInt32 := by
    cases width <;> rfl
  funext start table
  simp only [foldFrom, seq, code, bind_assoc, pure_bind, append_nil]
  refine bind_congr_ok fun back last ok => ?_
  have need_ := asks _ _ _ _ ok
  rw [fold_append]
  have key : ∀ ahead : UInt32 → UInt32, fold ahead none ([.check width.bytes.toUInt32,
      .readInt width false r0, .store width r0 base off] : Code) =
      (0, [.check (max width.bytes.toUInt32 (ahead (addCapped (addCapped 0 width.bytes.toUInt32) 0))),
        .readInt width false r0, .store width r0 base off]) := fun _ => rfl
  have after : openAfter none ([.check width.bytes.toUInt32, .readInt width false r0, .store width r0 base off] : Code)
      = some (addCapped (addCapped 0 width.bytes.toUInt32) 0) := rfl
  rw [key, after, same, need_]

end Value

/-! Values of every type. -/

lemma always_recordType {holds : Code → Prop} {t : TypeDesc} {body : TypeDesc → Piece}
    (each : ∀ record, t.recordType known = .ok record → Always holds (body record)) :
    Always holds (withM (ofSchema (t.recordType known)) body) := by
  cases ok : t.recordType known with
  | error e =>
    intro _ _ _ _ made
    cases made
  | ok record => exact each record ok

section Types

variable (sound : known.Sound) (inner : EnclosedNested known nested) (t : TypeDesc)
  (has : known.Has t) (checked : Bool) (base : Reg) (off : UInt32)

include sound inner has

lemma shuts_decodeValue (notScalar : t.kind.isScalar = false) (run : Option UInt32) :
    Shuts run (decodeValue known nested t checked base off) := by
  induction t, has using sound.induction with
  | scalar t has isScalar => exact absurd (notScalar.symm.trans isScalar) nofun
  | blob t has kind =>
    rw [decodeValue_blob checked kind]
    exact shuts_decodeBlob
  | sequence t has elem is _ =>
    rw [decodeValue_sequence checked is]
    exact shuts_decodeContainer _
  | map t has key elem layout is _ _ =>
    rw [decodeValue_map checked is]
    exact shuts_withM fun _ => shuts_decodeContainer _
  | cramped t has key elem is =>
    rw [decodeValue_cramped checked is]
    intro _ _ _ _ made
    cases made
  | struct t has kind =>
    rw [decodeValue_struct checked kind, nestedRecord_eq (Registry.recordType_struct kind)]
    exact shuts_seq_last fun run => shuts_seq ((inner [] t has).shuts run) shuts_nil
  | pointer t has kind =>
    rw [decodeValue_pointer checked kind]
    refine always_recordType fun record ok => ?_
    exact shuts_seq_last fun run => shuts_seq ((inner [] record (sound.recordType has ok)).shuts run) shuts_nil

omit sound in
lemma hushed_decodeValue (isRecord : t.kind = .struct ∨ t.kind = .pointer) :
    Hushed (decodeValue known nested t checked base off) := by
  rcases isRecord with kind | kind
  · have enclosed := inner [] t has
    have still : Still (seekRecord base off) := by
      unfold seekRecord
      split
      · exact still_nil
      · exact .cons rfl still_nil
    rw [decodeValue_struct checked kind, nestedRecord_eq (Registry.recordType_struct kind)]
    exact hushed_code_seq still (hushed_seq enclosed.hushed enclosed.shuts)
  · rw [decodeValue_pointer checked kind]
    refine always_recordType fun record ok => hushed_seq (hushed_code ?_) fun run => shuts_code ?_
    · exact quiet_moves (n := 0) rfl (quiet_ends rfl)
    · cases run <;> rfl

lemma landsIn_decodeValue (run : Option UInt32) : LandsIn run (decodeValue known nested t checked base off) := by
  induction t, has using sound.induction generalizing nested checked base off run with
  | scalar t has isScalar =>
    rw [decodeValue_scalar checked isScalar]
    refine landsIn_withM fun _ => landsIn_code ?_
    cases checked <;> simp
  | blob t has kind =>
    rw [decodeValue_blob checked kind]
    exact landsIn_decodeBlob
  | sequence t has elem is ih =>
    rw [decodeValue_sequence checked is]
    exact landsIn_decodeContainer _ fun checked => ih (fun way => inner (0 :: way)) checked p1 0 none
  | map t has key elem layout is ihKey ihElem =>
    rw [decodeValue_map checked is]
    refine landsIn_withM fun e => landsIn_decodeContainer _ fun checked => ?_
    rw [parts_eq]
    refine landsIn_seq (ihKey (fun way => inner (0 :: way)) checked p1 0 none) fun _ _ _ _ _ =>
      landsIn_seq (landsIn_code ?_) fun _ _ _ _ _ =>
        landsIn_seq (ihElem (fun way => inner (1 :: way)) checked p1 _ _) fun _ _ _ _ _ => landsIn_nil
    unfold reload
    split
    · split <;> simp
    · simp
  | cramped t has key elem is =>
    rw [decodeValue_cramped checked is]
    intro _ _ _ _ made
    cases made
  | struct t has kind =>
    rw [decodeValue_struct checked kind, nestedRecord_eq (Registry.recordType_struct kind)]
    refine landsIn_seq (landsIn_code ?_) fun _ _ _ _ _ =>
      landsIn_seq ((inner [] t has).lands _) fun _ _ _ _ _ => landsIn_nil
    unfold seekRecord
    split <;> simp
  | pointer t has kind =>
    rw [decodeValue_pointer checked kind]
    cases ok : t.recordType known with
    | error e =>
      intro _ _ _ _ made
      cases made
    | ok record =>
      refine landsIn_seq (landsIn_code ?_) fun _ _ _ _ _ =>
        landsIn_seq ((inner [] record (sound.recordType has ok)).lands _) fun _ _ _ _ _ => landsIn_nil
      simp [allocateConst, allocate]

omit inner in
lemma asks_decodeValue (header : t.kind.hasHeader = true) (passed : UInt32) : Asks passed
    (max (addCapped passed t.kind.minWireSize) 0) (decodeValue known nested t checked base off) := by
  induction t, has using sound.induction with
  | scalar t has isScalar =>
    exact absurd isScalar (by rw [Kind.isScalar_of_hasHeader header]; exact nofun)
  | blob t has kind =>
    have size : t.kind.minWireSize = 4 := by rcases kind with kind | kind <;> rw [kind] <;> rfl
    rw [decodeValue_blob checked kind, size]
    exact asks_decodeBlob passed
  | sequence t has elem is _ =>
    have size : t.kind.minWireSize = (Entry.ofList elem).headerSize := by
      rcases is.kind with kind | kind <;> rw [kind] <;> rfl
    rw [decodeValue_sequence checked is, size]
    exact asks_decodeContainer passed _
  | map t has key elem layout is _ _ =>
    have size : t.kind.minWireSize = (Entry.mk (some key) elem layout.valueOffset layout.stride).headerSize := by
      rw [is.kind]
      rfl
    rw [decodeValue_map checked is, is.entry, withM_inReach, size]
    exact asks_decodeContainer passed _
  | cramped t has key elem is =>
    rw [decodeValue_cramped checked is]
    intro _ _ _ _ made
    cases made
  | struct t has kind | pointer t has kind =>
    rw [kind] at header
    cases header

end Types

lemma fixedSize_map (key elem : TypeDesc) (valueOffset stride : UInt32) :
    (Entry.mk (some key) elem valueOffset stride).fixedSize?.isSome = (key.kind.isScalar && elem.kind.isScalar) := by
  simp only [Entry.fixedSize?, Kind.isScalar]
  cases key.kind.scalarSize? <;> cases elem.kind.scalarSize? <;> rfl

/-- An entry of a map, told how its parts are handled in its loop: the check of its value joins
the one of a scalar key, or has nothing to do with it. -/
lemma parts_cases (sound : known.Sound) (inner : ∀ i, EnclosedNested known (nested.part i))
    {key elem : TypeDesc} (hasKey : known.Has key) (hasElem : known.Has elem)
    {valueOffset stride : UInt32} {flag : Bool}
    (fixed : flag = (Entry.mk (some key) elem valueOffset stride).fixedSize?.isSome) :
    (key.kind.isScalar = true ∧ elem.kind.hasHeader = true ∧ flag = false) ∨
      ((key.kind.isScalar && elem.kind.hasHeader) = false ∧ 
        (Shuts none (decodeValue known (nested.part 0) key flag p1 0) ∨
          Hushed (decodeValue known (nested.part 1) elem flag p1 valueOffset) ∧
          ∀ run, Shuts run (decodeValue known (nested.part 1) elem flag p1 valueOffset))) := by
  rw [fixedSize_map] at fixed
  cases isScalar : key.kind.isScalar with
  | false =>
    exact .inr ⟨rfl, .inl (shuts_decodeValue sound (inner 0) key hasKey flag p1 0 isScalar none)⟩
  | true =>
    rw [isScalar, Bool.true_and] at fixed
    rcases elem.kind.form with scalar | header | isRecord
    · have noHeader : elem.kind.hasHeader = false := by
        cases header : elem.kind.hasHeader with
        | false => rfl
        | true => exact absurd scalar (by rw [Kind.isScalar_of_hasHeader header]; exact nofun)
      rw [scalar] at fixed
      subst fixed
      rw [noHeader, decodeValue_scalar true isScalar]
      exact .inr ⟨rfl, .inl (shuts_withM fun _ => shuts_code rfl)⟩
    · rw [Kind.isScalar_of_hasHeader header] at fixed
      exact .inl ⟨rfl, header, fixed⟩
    · have noHeader : elem.kind.hasHeader = false ∧ elem.kind.isScalar = false := by
        rcases isRecord with kind | kind <;> rw [kind] <;> exact ⟨rfl, rfl⟩
      rw [noHeader.1]
      exact .inr ⟨rfl, .inr ⟨hushed_decodeValue (inner 1) elem hasElem flag p1 valueOffset isRecord,
        shuts_decodeValue sound (inner 1) elem hasElem flag p1 valueOffset noHeader.2⟩⟩

section Forms

variable {t elem key : TypeDesc} {layout : TypeDesc.EntryLayout} (checked : Bool) {base : Reg}
  {off : UInt32}

lemma foldFrom_scalar (isScalar : t.kind.isScalar = true) : foldFrom none (decodeValue known nested t checked base off)
    = decodeValue known nested t checked base off := by
  rw [decodeValue_scalar checked isScalar, foldFrom_withM]
  cases checked with
  | true => rfl
  | false =>
    congr 1
    funext width
    cases width <;> rfl

lemma foldFrom_blob (kind : t.kind = .string ∨ t.kind = .binary) :
    foldFrom run (decodeValue known nested t checked base off) = blobFrom run base off := by
  rw [decodeValue_blob checked kind, foldFrom_decodeBlob]

lemma foldFrom_sequence (is : known.IsSequence t elem) : foldFrom run (decodeValue known nested t checked base off) =
      containerFrom run (t.kind = .set) (.ofList elem) base off fun checked =>
        foldFrom none (decodeValue known (nested.part 0) elem checked p1 0) := by
  rw [decodeValue_sequence checked is, foldFrom_decodeContainer]

lemma foldFrom_map (is : known.IsMap t key elem layout) : foldFrom run (decodeValue known nested t checked base off) =
      withM (inReach (Entry.ofMap? key elem)) fun entry =>
        containerFrom run false entry base off fun checked =>
          foldFrom none (entry.parts (some (decodeValue known (nested.part 0) key checked p1 0))
            (decodeValue known (nested.part 1) elem checked p1 entry.valueOffset)) := by
  rw [decodeValue_map checked is, foldFrom_withM]
  simp only [foldFrom_decodeContainer]

lemma foldFrom_struct (kind : t.kind = .struct) : foldFrom none (decodeValue known nested t checked base off) = seq
    [code (seekRecord base off), nestedRecord known (fun way r => foldFrom none (nested way r)) t] := by
  have shut : openAfter none (seekRecord base off) = none := by
    unfold seekRecord
    split <;> rfl
  have alone : foldFrom none (code (seekRecord base off)) = code (seekRecord base off) := by
    unfold seekRecord
    split <;> rfl
  rw [decodeValue_struct checked kind, foldFrom_seq (.inl (shuts_code shut)) (apart_last _),
    map_singleton, alone, nestedRecord, foldFrom_withM, nestedRecord]

lemma foldFrom_pointer (kind : t.kind = .pointer) : foldFrom none (decodeValue known nested t checked base off) =
      withM (ofSchema (t.recordType known)) fun record =>
        seq [code (allocateConst p2 record.size ++ [.storePtr p2 base off, .seek p0 p2 0]),
          foldFrom none (nested [] record)] := by
  rw [decodeValue_pointer checked kind, foldFrom_withM]
  congr 1
  funext record
  have shut : openAfter none
      (allocateConst p2 record.size ++ [.storePtr p2 base off, .seek p0 p2 0] : Code) = none := rfl
  rw [foldFrom_seq (.inl (shuts_code shut)) (apart_last _), map_singleton]
  rfl

end Forms

/-! Fields and records. -/

lemma landsIn_decodeField (sound : known.Sound) (inner : EnclosedNested known nested) (has : known.Has field.type) :
    LandsIn none (decodeField known nested field) := by
  unfold decodeField
  split
  · refine landsIn_withM fun _ => landsIn_code ?_
    simp [allocateConst, allocate]
  · exact landsIn_decodeValue sound inner _ has false p0 field.offset none

lemma foldFrom_boxed : (foldFrom none <| withM (scalarWidth field.type) fun width => code
      (allocateConst p1 boxSize ++ [.storePtr p1 p0 field.offset, .check width.bytes.toUInt32,
        .readInt width false r0, .store width r0 p1 0])) = withM (scalarWidth field.type) fun width => code
        (allocateConst p1 boxSize ++ [.storePtr p1 p0 field.offset, .check width.bytes.toUInt32,
          .readInt width false r0, .store width r0 p1 0]) := by
  rw [foldFrom_withM]
  congr 1
  funext width
  cases width <;> rfl

section Record

variable {read : Nat → FieldDesc → Piece} {fields : List FieldDesc} {top unknown index start : Nat}
  {arms : List Nat} {body : Code} {table table' : TypeTable}

lemma openAfter_armCode (field : FieldDesc) (inner : Code) :
    openAfter run (armCode top unknown index field inner) = none := by
  rw [armCode, openAfter_append]
  rfl

lemma fold_armCode (field : FieldDesc) (inner : Code) : (fold nothing none (armCode top unknown index field inner)).2 =
    armCode top unknown index field (fold nothing none inner).2 := by
  have opening : openAfter none (ifNe r0 (Int32.ofNat field.type.kind.tag.toNat) (.place unknown) ::
      noteSeen index : Code) = none := rfl
  have jump : Quiet nothing ([.jump (.place top)] : Code) := quiet_ends rfl
  rw [armCode, fold_append_apart (.inr jump), fold_append_apart (.inl opening)]
  rfl

section

variable (ok : armsOf read top unknown index fields start table = .ok (arms, body) table')
include ok

lemma openAfter_armsOf : openAfter none body = none := by
  induction fields generalizing index start table arms body with
  | nil =>
    cases ok
    rfl
  | cons field rest ih =>
    obtain ⟨inner, mid, places, after, _, ok', _, rfl⟩ := armsOf_cons_eq_ok.mp ok
    rw [openAfter_append, openAfter_armCode, ih ok']

lemma armsOf_folded : armsOf (fun i field => foldFrom none (read i field)) top unknown index fields start table = .ok
    (arms, (fold nothing none body).2) table' := by
  induction fields generalizing index start table arms body with
  | nil =>
    cases ok
    rfl
  | cons field rest ih =>
    obtain ⟨inner, mid, places, after, ok₁, ok₂, rfl, rfl⟩ := armsOf_cons_eq_ok.mp ok
    refine armsOf_cons_eq_ok.mpr ⟨_, mid, places, _, foldFrom_eq_ok.mpr ⟨inner, ok₁, rfl⟩, ?_, rfl,
      (fold_append_apart (.inl (openAfter_armCode field inner))).trans (by rw [fold_armCode])⟩
    rw [length_armCode, length_fold, ← length_armCode top unknown index field]
    exact ih ok₂

end

lemma lands_armCode {inner : Code} (lands : Lands (fun _ => False) none (start + 6) inner) : Lands
    (fun place => place = top ∨ place = unknown) none start (armCode top unknown index field inner) := by
  refine Lands.append (Lands.append ?_ (lands.mono fun _ => False.elim)) ?_
  · intro i mem place target
    rcases List.mem_cons.mp mem with rfl | mem
    · obtain rfl : place = unknown := by simpa [ifNe] using target
      exact .inl (.inr rfl)
    · revert target
      simp only [noteSeen, mem_cons, not_mem_nil, or_false] at mem
      rcases mem with rfl | rfl | rfl | rfl | rfl <;> simp [ifNe]
  · intro i mem place target
    obtain rfl := List.mem_singleton.mp mem
    obtain rfl : place = top := by simpa using target
    exact .inl (.inl rfl)

lemma lands_armsOf (inner : ∀ i, ∀ field ∈ fields, LandsIn none (read i field))
    (ok : armsOf read top unknown index fields start table = .ok (arms, body) table') : Lands
    (fun place => place = top ∨ place = unknown) none start body ∧ ∀ place ∈ arms, ClosedAt none start body place := by
  induction fields generalizing index start table arms body with
  | nil =>
    cases ok
    exact ⟨lands_exits (by simp), by simp⟩
  | cons field rest ih =>
    obtain ⟨made, mid, places, after, ok₁, ok₂, rfl, rfl⟩ := armsOf_cons_eq_ok.mp ok
    obtain ⟨lands, closed⟩ := ih (fun i f mem => inner i f (mem_cons_of_mem _ mem)) ok₂
    refine ⟨Lands.append (lands_armCode (inner _ field mem_cons_self _ _ _ _ ok₁)) (by rwa [openAfter_armCode]), ?_⟩
    · refine List.forall_mem_cons.mpr ⟨closedAt_start _ _, fun place mem => .right ?_⟩
      rw [openAfter_armCode]
      exact closed place mem

variable {t : TypeDesc}

lemma still_storeDefaults (fields : List FieldDesc) : Always Still (storeDefaults fields) := by
  induction fields with
  | nil => exact always_code still_nil
  | cons field rest ih =>
    unfold storeDefaults
    split
    · exact ih
    · split
      · exact ih
      · refine always_seq (always_withM fun _ => always_code ?_)
          (always_seq ih (always_code still_nil) fun _ _ => .append) fun _ _ => .append
        exact .cons rfl (.cons rfl still_nil)

lemma prologue_cases : Always (fun made => ∃ front back, made = front ++ .enter :: back ∧ Still front ∧ Still back)
    (decodePrologue t) := by
  have opening : Still (openFrame (slotCount t.fields.length)) := by
    unfold openFrame
    refine .append (.cons rfl still_nil) ?_
    split
    · exact still_nil
    · refine .cons rfl fun i mem => ?_
      obtain ⟨k, _, rfl⟩ := List.mem_map.mp mem
      exact ⟨0, rfl⟩
  have clear : Still (if t.size = 0 then [] else [.zero p0 0 t.size]) := by
    split
    · exact still_nil
    · exact .cons rfl still_nil
  rw [decodePrologue_eq]
  intro start table made table' made_
  obtain ⟨second, ok, rfl⟩ := seq_between_eq_ok.mp made_
  exact ⟨_ ++ second, _, rfl, clear.append (still_storeDefaults _ _ _ _ _ ok), opening⟩

lemma openAfter_prologue {front back : Code} (still : Still back) : openAfter run (front ++ .enter :: back) = none := by
  rw [openAfter_append, openAfter_cons, openBehind_ends rfl]
  exact openAfter_unchecked still.unchecked

lemma unchecked_dispatch : ∀ i ∈ dispatch fields arms unknown, ∀ n, paceOf i ≠ .asks n := by
  unfold dispatch
  split
  · simp [paceOf, pace, runDelta?, isCursorNeutral]
  · split
    · simp [paceOf, pace, runDelta?, isCursorNeutral]
    · intro i mem n
      rcases List.mem_append.mp mem with mem | mem
      · obtain ⟨entry, _, rfl⟩ := List.mem_map.mp mem
        rintro ⟨⟩
      · obtain rfl := List.mem_singleton.mp mem
        rintro ⟨⟩

lemma openAfter_dispatch : openAfter run (dispatch fields arms unknown) = none := by
  unfold dispatch
  split
  · rfl
  · split
    · cases run <;> rfl
    · rw [openAfter_append]
      rfl

lemma unchecked_checkRequired : ∀ i ∈ checkRequired fields, ∀ n, paceOf i ≠ .asks n := by
  intro i mem n
  simp only [checkRequired, mem_flatMap] at mem
  obtain ⟨slot, _, mem⟩ := mem
  split at mem
  · cases mem
  · simp only [mem_cons, not_mem_nil, or_false] at mem
    rcases mem with rfl | rfl | rfl <;> rintro ⟨⟩

def readHead (stop : Nat) : Code :=
  [.loadFrame p0 0, .check 1, .readInt .w1 false r0, ifEq r0 0 (.place stop), .check 2, .readInt .w2 true r1]

lemma loopHead_eq (stop : Nat) : loopHead fields arms top unknown stop =
    readHead stop ++ dispatch fields arms unknown ++ [.call Builtin.skip [r0] [], .jump (.place top)] := rfl

lemma openAfter_loopHead (stop : Nat) : openAfter run (loopHead fields arms top unknown stop) = none := by
  rw [loopHead_eq, openAfter_append]
  rfl

lemma fold_loopHead (stop : Nat) : (fold nothing none (loopHead fields arms top unknown stop)).2 =
      loopHead fields arms top unknown stop := by
  have last : ∀ i ∈ ([.call Builtin.skip [r0] [], .jump (.place top)] : Code), ∀ n, paceOf i ≠ .asks n := by
    simp [paceOf, pace, runDelta?, isCursorNeutral]
  have head : (fold nothing none (readHead stop)).2 = readHead stop := rfl
  rw [loopHead_eq, fold_append_apart (.inr (quiet_unchecked last)),
    fold_append_apart (.inr (quiet_unchecked unchecked_dispatch)), head,
    fold_unchecked unchecked_dispatch, fold_unchecked last]

lemma unchecked_prologue {front back : Code} (still : Still front) (still' : Still back) :
    ∀ i ∈ front ++ .enter :: back, ∀ n, paceOf i ≠ .asks n := by
  intro i mem
  rcases List.mem_append.mp mem with mem | mem
  · exact still.unchecked i mem
  · rcases List.mem_cons.mp mem with rfl | mem
    · exact fun _ => nofun
    · exact still'.unchecked i mem

/-- Folding the code of a record folds the code of its fields. -/
lemma recordOf_folded {made : Code} (ok : foldFrom none (recordOf read t) start table = .ok made table') :
    recordOf (fun i field => foldFrom none (read i field)) t start table = .ok made table' := by
  obtain ⟨plain, okPlain, rfl⟩ := foldFrom_eq_ok.mp ok
  obtain ⟨prologue, mid, arms, body, okPrologue, okArms, rfl⟩ := recordOf_eq_ok.mp okPlain
  obtain ⟨front, back, same, still, still'⟩ := prologue_cases _ _ _ _ okPrologue
  have shut : openAfter none prologue = none := same ▸ openAfter_prologue still'
  have unchecked : ∀ i ∈ prologue, ∀ n, paceOf i ≠ .asks n := same ▸ unchecked_prologue still still'
  have leave : ∀ i ∈ ([.leave] : Code), ∀ n, paceOf i ≠ .asks n := by
    simp [paceOf, pace, runDelta?, isCursorNeutral]
  refine recordOf_eq_ok.mpr ⟨prologue, mid, arms, _, okPrologue, armsOf_folded okArms, ?_⟩
  have shutHead : ∀ stop, openAfter none (prologue ++ loopHead t.fields arms (start + prologue.length)
      (start + prologue.length + 6 + dispatchSize t.fields) stop) = none := fun stop => by
    rw [openAfter_append, openAfter_loopHead]
  rw [fold_append_apart (.inr (quiet_unchecked leave)),
    fold_append_apart (.inr (quiet_unchecked unchecked_checkRequired)),
    fold_append_apart (.inl (shutHead _)), fold_append_apart (.inl shut), fold_loopHead,
    fold_unchecked unchecked, fold_unchecked unchecked_checkRequired, fold_unchecked leave, length_fold]

lemma targets_of_still (still : Still instrs) : ∀ i ∈ instrs, ∀ place, Dest.place place ∉ i.targets := by
  intro i mem place
  obtain ⟨n, kind⟩ := still i mem
  cases i <;> first | exact not_mem_nil | cases kind

lemma targets_dispatch {i : Instr Dest} (mem : i ∈ dispatch fields arms unknown) {place : Nat}
    (target : Dest.place place ∈ i.targets) : place = unknown ∨ place ∈ arms := by
  have jump : i ∈ ([.jump (.place unknown)] : Code) → place = unknown := by
    intro mem
    obtain rfl := List.mem_singleton.mp mem
    simpa using target
  unfold dispatch at mem
  split at mem
  · exact .inl (jump mem)
  · split at mem
    · simp only [mem_cons, not_mem_nil, or_false] at mem
      rcases mem with rfl | rfl
      · cases target
      · simp only [Instr.targets, mem_append, mem_singleton, dispatchTable, mem_map, Dest.place.injEq] at target
        rcases target with ⟨k, _, same⟩ | same
        · split at same
          · rename_i entry found
            cases same
            have listed := List.mem_reverse.mp (mem_of_find?_eq_some found)
            exact .inr (of_mem_zip listed).2
          · cases same
            exact .inl rfl
        · exact .inl same
    · rcases List.mem_append.mp mem with mem | mem
      · obtain ⟨entry, listed, rfl⟩ := List.mem_map.mp mem
        obtain rfl : place = entry.2 := by simpa [ifEq] using target
        exact .inr (of_mem_zip listed).2
      · exact .inl (jump mem)

lemma lands_recordOf (inner : ∀ i, ∀ field ∈ t.fields, LandsIn none (read i field))
    (run : Option UInt32) : LandsIn run (recordOf read t) := by
  intro start table made table' ok
  obtain ⟨prologue, mid, arms, body, okPrologue, okArms, rfl⟩ := recordOf_eq_ok.mp ok
  obtain ⟨front, back, same, still, still'⟩ := prologue_cases _ _ _ _ okPrologue
  obtain ⟨landsArms, closedArms⟩ := lands_armsOf inner okArms
  have length := length_loopHead (length_armsOf okArms)
  have lengthDispatch := length_dispatch (length_armsOf okArms)
  have shut : openAfter run prologue = none := same ▸ openAfter_prologue still'
  generalize atTop : start + prologue.length = top at *
  generalize atUnknown : top + 6 + dispatchSize t.fields = unknown at *
  generalize atStop : unknown + 2 + body.length = stop at *
  have shutHead : openAfter run (prologue ++ loopHead t.fields arms top unknown stop) = none := by
    rw [openAfter_append, openAfter_loopHead]
  have atBody : start + (prologue ++ loopHead t.fields arms top unknown stop).length = unknown + 2 := by
    rw [length_append, length]
    omega
  have shutBody : openAfter run (prologue ++ loopHead t.fields arms top unknown stop ++ body) = none := by
    rw [openAfter_append, shutHead, openAfter_armsOf okArms]
  -- the places branches lead to from outside of the stretch they stand in
  have closedTop : ClosedAt run start (prologue ++ loopHead t.fields arms top unknown stop ++ body ++
      checkRequired t.fields ++ [.leave]) top :=
    ((((atTop ▸ closedAt_stop shut).left _).left _).left _).left _
  have closedUnknown : ClosedAt run start (prologue ++ loopHead t.fields arms top unknown stop ++
      body ++ checkRequired t.fields ++ [.leave]) unknown := by
    have head : ClosedAt none top (loopHead t.fields arms top unknown stop) unknown := by
      have shutDispatch : openAfter none (readHead stop ++ dispatch t.fields arms unknown) = none := by
        rw [openAfter_append, openAfter_dispatch]
      have here : top + (readHead stop ++ dispatch t.fields arms unknown).length = unknown := by
        rw [length_append, lengthDispatch, ← atUnknown]
        simp only [readHead, length_cons, length_nil]
        omega
      exact (here ▸ closedAt_stop shutDispatch).left _
    refine (((ClosedAt.right ?_).left _).left _).left _
    rwa [shut, atTop]
  have closedStop : ClosedAt run start (prologue ++ loopHead t.fields arms top unknown stop ++ body ++
      checkRequired t.fields ++ [.leave]) stop := by
    have here : start + (prologue ++ loopHead t.fields arms top unknown stop ++ body).length = stop := by
      rw [length_append, ← Nat.add_assoc, atBody, atStop]
    exact ((here ▸ closedAt_stop shutBody).left _).left _
  have closedBody : ∀ place, ClosedAt none (unknown + 2) body place → ClosedAt run start
      (prologue ++ loopHead t.fields arms top unknown stop ++ body ++ checkRequired t.fields ++ [.leave]) place := by
    intro place closed
    refine ((ClosedAt.right ?_).left _).left _
    rwa [shutHead, atBody]
  intro i mem place target
  refine .inr ?_
  simp only [mem_append] at mem
  rcases mem with (((mem | mem) | mem) | mem) | mem
  · rw [same] at mem
    rcases List.mem_append.mp mem with mem | mem
    · exact absurd target (targets_of_still still i mem place)
    · rcases List.mem_cons.mp mem with rfl | mem
      · cases target
      · exact absurd target (targets_of_still still' i mem place)
  · rw [loopHead_eq, mem_append, mem_append] at mem
    rcases mem with (mem | mem) | mem
    · simp only [readHead, mem_cons, not_mem_nil, or_false] at mem
      rcases mem with rfl | rfl | rfl | rfl | rfl | rfl <;>
        simp only [ifEq, Instr.targets, mem_singleton, not_mem_nil, Dest.place.injEq] at target
      rwa [target]
    · rcases targets_dispatch mem target with rfl | isArm
      · exact closedUnknown
      · exact closedBody place (closedArms place isArm)
    · simp only [mem_cons, not_mem_nil, or_false] at mem
      rcases mem with rfl | rfl <;> simp only [Instr.targets, mem_singleton, not_mem_nil, Dest.place.injEq] at target
      rwa [target]
  · rcases landsArms i mem place target with (rfl | rfl) | closed
    · exact closedTop
    · exact closedUnknown
    · exact closedBody place closed
  · simp only [checkRequired, mem_flatMap] at mem
    obtain ⟨slot, _, mem⟩ := mem
    split at mem
    · cases mem
    · simp only [mem_cons, not_mem_nil, or_false] at mem
      rcases mem with rfl | rfl | rfl <;> simp [ifNe] at target
  · obtain rfl := List.mem_singleton.mp mem
    cases target

lemma enclosed_recordOf (inner : ∀ i, ∀ field ∈ t.fields, LandsIn none (read i field)) : Enclosed (recordOf read t) := by
  refine ⟨fun run start table made table' ok => ?_, fun start table made table' ok => ?_, lands_recordOf inner⟩
  · obtain ⟨prologue, mid, arms, body, _, _, rfl⟩ := recordOf_eq_ok.mp ok
    rw [openAfter_append]
    rfl
  · obtain ⟨prologue, mid, arms, body, okPrologue, _, rfl⟩ := recordOf_eq_ok.mp ok
    obtain ⟨front, back, rfl, still, _⟩ := prologue_cases _ _ _ _ okPrologue
    simp only [append_assoc, cons_append]
    exact Quiet.append still (quiet_ends rfl)

end Record

end WireCodec.Lowering
