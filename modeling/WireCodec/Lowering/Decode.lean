import WireCodec.Lowering.Encode

/-! Code that reads a record: a loop over the fields on the wire. The field number selects the code
of the field; an unknown field or one with another tag is skipped. Slot 0 of the frame holds the
base, the other slots the set of fields met. -/
namespace WireCodec.Lowering

/-- Fields tracked in one frame slot, so that every mask is a positive immediate. -/
def bitsPerSlot : Nat := 31

def maxTracked : Nat := bitsPerSlot * 7

def seenSlot (index : Nat) : UInt8 := (1 + index / bitsPerSlot).toUInt8

def seenMask (index : Nat) : Int32 := Int32.ofNat (1 <<< (index % bitsPerSlot))

def slotCount (fields : Nat) : Nat := (fields + (bitsPerSlot - 1)) / bitsPerSlot

def allocate (size dst : Reg) : Instr Dest := .call Builtin.alloc [size] [dst]

def allocateConst (dst : Reg) (size : UInt32) : Code :=
  [.movImm r2 size.toUInt64, allocate r2 dst]

def decodeBlob (base : Reg) (off : UInt32) : Piece :=
  withM (lengthAt off) fun length => code
    [.check 4, .readInt .w4 true r2, ifNegative r2 (.exit .invalidLength), .checkReg r2,
     allocate r2 p2, .storePtr p2 base off, .store .w4 r2 base length, .readBytes p2 r2]

def decodeContainerHead (e : Entry) : Code :=
  [.check e.headerSize] ++ (if e.key.isSome then [.readInt .w1 false r2] else []) ++
    [.readInt .w1 false r3, .readInt .w4 true r1, ifNegative r1 (.exit .invalidLength)]

def decodeTags (e : Entry) : Code :=
  [ifNe r3 (Int32.ofNat e.elem.kind.tag.toNat) (.exit .invalidTag)] ++
    (match e.key with
    | some key => [ifNe r2 (Int32.ofNat key.kind.tag.toNat) (.exit .invalidTag)]
    | none => [])

def decodeRoom (e : Entry) (base : Reg) (off : UInt32) : Piece :=
  withM (lengthAt off) fun length => code
    [.imm .mul r2 r1 e.minSize.toInt32, .checkReg r2, .imm .mul r2 r1 e.stride.toInt32,
     allocate r2 p1, .storePtr p1 base off, .store .w4 r1 base length]

def decodeDistinct (elem : TypeDesc) : Piece :=
  withM (internType elem) fun index =>
    code [.movImm r2 index.toUInt64, .call Builtin.setCheck [r2, p3, r3] []]

def decodeEntries (isSet : Bool) (e : Entry) (entry : Bool → Piece) : Piece :=
  let loop : Piece :=
    if e.isSimple then
      seq [code (if isSet then [.seek p3 p1 0, .mov r3 r1] else []),
        e.registerLoop (entry e.fixedSize?.isSome)]
    else
      seq [code ([.enter, .storeFrame p1 0, .storeFrame r1 1] ++
          if isSet then [.storeFrame p1 2, .storeFrame r1 3] else []), e.frameLoop (entry false),
        code ((if isSet then [.loadFrame p3 2, .loadFrame r3 3] else []) ++ [.leave])]
  if isSet then seq [loop, decodeDistinct e.elem] else loop

def decodeContainer (isSet : Bool) (e : Entry) (base : Reg) (off : UInt32) (entry : Bool → Piece) : Piece :=
  seq [code (decodeContainerHead e), skipping (ifEq r1 0) (code (decodeTags e)),
    decodeRoom e base off, skipping (ifEq r1 0) (decodeEntries isSet e entry)]

/-- Code that reads a value into `base + off`; `checked` tells that its bytes are there. -/
def decodeValue (known : Registry) (nested : Spots (TypeDesc → Piece)) : TypeDesc → Bool → Reg → UInt32 → Piece
  | ⟨id, kind, name, size, align, key, elem, target, fields⟩, checked, base, off =>
    let t : TypeDesc := ⟨id, kind, name, size, align, key, elem, target, fields⟩
    match kind with
    | .string | .binary => decodeBlob base off
    | .list | .set =>
      match elem with
      | none => withM (ofSchema t.elem?) fun _ => code []
      | some e =>
        decodeContainer (kind = .set) (.ofList e) base off fun checked =>
          decodeValue known (nested.part 0) e checked p1 0
    | .map =>
      match elem, key with
      | some e, some k =>
        withM (inReach (Entry.ofMap? k e)) fun entry =>
          decodeContainer false entry base off fun checked =>
            entry.parts (some (decodeValue known (nested.part 0) k checked p1 0))
              (decodeValue known (nested.part 1) e checked p1 entry.valueOffset)
      | none, _ => withM (ofSchema t.elem?) fun _ => code []
      | _, none => withM (ofSchema t.key?) fun _ => code []
    | .struct => seq [code (seekRecord base off), nestedRecord known nested t]
    | .pointer =>
      withM (ofSchema (t.recordType known)) fun record =>
        seq [code (allocateConst p2 record.size ++ [.storePtr p2 base off, .seek p0 p2 0]), nested [] record]
    | _ =>
      withM (scalarWidth t) fun width => code
        ((if checked then [] else [.check width.bytes.toUInt32]) ++
          [.readInt width false r0, .store width r0 base off])

def decodeField (known : Registry) (nested : Spots (TypeDesc → Piece)) (field : FieldDesc) : Piece :=
  if field.isBoxed then
    withM (scalarWidth field.type) fun width => code
      (allocateConst p1 boxSize ++ [.storePtr p1 p0 field.offset, .check width.bytes.toUInt32,
        .readInt width false r0, .store width r0 p1 0])
  else decodeValue known nested field.type false p0 field.offset

def storeDefaults : List FieldDesc → Piece
  | [] => code []
  | field :: rest =>
    match field.default with
    | none => storeDefaults rest
    | some default =>
      if default.bits = 0 then storeDefaults rest
      else seq [withM (scalarWidth field.type) fun width => code
          [.movImm r0 default.bits, .store width r0 p0 field.offset], storeDefaults rest]

def decodePrologue (t : TypeDesc) : Piece :=
  let slots := slotCount t.fields.length
  let seen : Code := if slots = 0 then [] else
    .movImm r0 0 :: (List.range slots).map fun k => .storeFrame r0 (k + 1).toUInt8
  seq [code (if t.size = 0 then [] else [.zero p0 0 t.size]), storeDefaults t.fields,
    code ([.enter, .storeFrame p0 0] ++ seen)]

def idRange? : List FieldDesc → Option (Nat × Nat)
  | [] => none
  | field :: rest =>
    let id := field.id.toNat
    match idRange? rest with
    | none => some (id, id)
    | some (low, high) => some (min id low, max id high)

def isDense (count low high : Nat) : Bool := 4 ≤ count && high - low ≤ 4 * count + 8

def dispatchTable (fields : List FieldDesc) (arms : List Nat) (unknown low high : Nat) : List Dest :=
  let entries := (fields.zip arms).reverse
  (List.range (high - low + 1)).map fun k =>
    match entries.find? fun entry => entry.1.id.toNat = low + k with
    | some entry => .place entry.2
    | none => .place unknown

def dispatch (fields : List FieldDesc) (arms : List Nat) (unknown : Nat) : Code :=
  match idRange? fields with
  | none => [.jump (.place unknown)]
  | some (low, high) =>
    if isDense fields.length low high then
      [.imm .add r4 r1 (-(Int32.ofNat low)),
       .switch r4 (dispatchTable fields arms unknown low high) (.place unknown)]
    else
      (fields.zip arms).map (fun entry => ifEq r1 (Int32.ofNat entry.1.id.toNat) (.place entry.2))
        ++ [.jump (.place unknown)]

def dispatchSize (fields : List FieldDesc) : Nat :=
  match idRange? fields with
  | none => 1
  | some (low, high) => if isDense fields.length low high then 2 else fields.length + 1

def noteSeen (index : Nat) : Code :=
  let slot := seenSlot index
  let mask := seenMask index
  [.loadFrame r2 slot, .imm .and r3 r2 mask, ifNe r3 0 (.exit .duplicateField),
   .imm .or r2 r2 mask, .storeFrame r2 slot]

def decodeArms (known : Registry) (nested : Spots (TypeDesc → Piece)) (top unknown : Nat) :
    Nat → List FieldDesc → Nat → LowerM (List Nat × Code)
  | _, [], _ => pure ([], [])
  | index, field :: rest, start => do
    let tag := Int32.ofNat field.type.kind.tag.toNat
    let head : Code := ifNe r0 tag (.place unknown) :: noteSeen index
    let body ← decodeField known (nested.part index) field (start + head.length)
    let arm := head ++ body ++ [.jump (.place top)]
    let (places, code) ← decodeArms known nested top unknown (index + 1) rest (start + arm.length)
    return (start :: places, arm ++ code)

def requiredMask (fields : List FieldDesc) (slot : Nat) : Int32 :=
  fields.zipIdx.foldl (fun mask entry =>
    if entry.1.requiredness = .required && entry.2 / bitsPerSlot = slot then mask ||| seenMask entry.2
    else mask) 0

def checkRequired (fields : List FieldDesc) : Code :=
  (List.range (slotCount fields.length)).flatMap fun slot =>
    let mask := requiredMask fields slot
    if mask = 0 then []
    else [.loadFrame r2 (slot + 1).toUInt8, .imm .and r3 r2 mask, ifNe r3 mask (.exit .missingRequiredField)]

def decodeRecord (known : Registry) (nested : Spots (TypeDesc → Piece)) (t : TypeDesc) : Piece :=
  fun start => do
    if t.fields.length > maxTracked then
      throw (.cause (.unsupported (.tooManyFields t.name t.fields.length maxTracked)))
    let prologue ← decodePrologue t start
    let top := start + prologue.length
    let unknown := top + 6 + dispatchSize t.fields
    let (arms, body) ← decodeArms known nested top unknown 0 t.fields (unknown + 2)
    let finish := unknown + 2 + body.length
    let head : Code := [.loadFrame p0 0, .check 1, .readInt .w1 false r0,
      ifEq r0 0 (.place finish), .check 2, .readInt .w2 true r1]
    return prologue ++ head ++ dispatch t.fields arms unknown ++
      [.call Builtin.skip [r0] [], .jump (.place top)] ++ body ++ checkRequired t.fields ++ [.leave]

end WireCodec.Lowering
