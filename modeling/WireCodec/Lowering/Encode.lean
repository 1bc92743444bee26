import WireCodec.Lowering.Piece
import WireCodec.Wire.Tag

/-! Code that writes a record, and code that only counts the bytes it would write: the same walk
over the type with two kinds of output. Register `p0` holds the record; `p1` and `r1` are the cursor
and the count of a container. -/
namespace WireCodec.Lowering

inductive Output
  | count
  | write
  deriving DecidableEq

namespace Output

def reserve : Output → UInt32 → Code
  | count, _ => []
  | write, n => [.check n]

def reserveReg : Output → Reg → Code
  | count, _ => []
  | write, len => [.checkReg len]

def literal : Output → Width → UInt64 → Code
  | count, width, _ => [.advance width.bytes.toUInt32]
  | write, width, value => [.writeImm width value]

def int : Output → Width → Reg → Code
  | count, width, _ => [.advance width.bytes.toUInt32]
  | write, width, src => [.writeInt width src]

def bytes : Output → Reg → Reg → Code
  | count, _, len => [.advanceReg len]
  | write, src, len => [.writeBytes src len]

end Output

def fieldHeader (out : Output) (field : FieldDesc) : Code :=
  out.reserve 3 ++ out.literal .w1 field.type.kind.tag.toUInt64 ++
    out.literal .w2 field.id.toUInt64

def stopMark (out : Output) : Code := out.reserve 1 ++ out.literal .w1 Tag.stop.toUInt64

def encodeScalar (out : Output) (t : TypeDesc) (base : Reg) (off : UInt32) : Piece :=
  withM (scalarWidth t) fun width => code
    (out.reserve width.bytes.toUInt32 ++ [.load width false r0 base off] ++ out.int width r0)

def encodeReserved (out : Output) (t : TypeDesc) (base : Reg) (off : UInt32) : Piece :=
  withM (scalarWidth t) fun width => code ([.load width false r0 base off] ++ out.int width r0)

def encodeBlob (out : Output) (base : Reg) (off : UInt32) : Piece :=
  withM (lengthAt off) fun length => code
    ([.load .w4 false r0 base length] ++ out.reserve 4 ++ out.int .w4 r0 ++
      [.loadPtr p2 base off] ++ out.reserveReg r0 ++ out.bytes p2 r0)

def encodeContainerHead (out : Output) (kind : Kind) (e : Entry) (base : Reg) (off : UInt32) : Piece :=
  let keyTag := match e.key with
    | some key => out.literal .w1 key.kind.tag.toUInt64
    | none => []
  withM (lengthAt off) fun length =>
    let head : Code := [.load .w4 false r1 base length, .loadPtr p1 base off] ++
      out.reserve e.headerSize ++ keyTag ++ out.literal .w1 e.elem.kind.tag.toUInt64 ++
      out.int .w4 r1
    if kind = .set then
      withM (internType e.elem) fun index => code
        (head ++ [.movImm r2 index.toUInt64, .call Builtin.setCheck [r2, p1, r1] []])
    else code head

/-- Entries of one size are counted without a loop, and room for all of them is reserved at once.
`entry` is told whether its room is reserved. -/
def encodeEntries (out : Output) (e : Entry) (entry : Bool → Piece) : Piece :=
  let loop (reserved : Bool) : Piece :=
    if e.isSimple then e.registerLoop (entry reserved)
    else seq [code [.enter, .storeFrame p1 0, .storeFrame r1 1], e.frameLoop (entry false), code [.leave]]
  match e.fixedSize?, out with
  | some size, .count => code [.imm .mul r0 r1 size.toInt32, .advanceReg r0]
  | some size, .write =>
    seq [code [.imm .mul r0 r1 size.toInt32, .checkReg r0], loop true]
  | none, _ => loop false

def encodeContainer (out : Output) (kind : Kind) (e : Entry) (base : Reg) (off : UInt32)
    (entry : Bool → Piece) : Piece :=
  seq [encodeContainerHead out kind e base off, skipping (ifEq r1 0) (encodeEntries out e entry)]

def nestedRecord (known : Registry) (nested : Spots (TypeDesc → Piece)) (t : TypeDesc) : Piece :=
  withM (ofSchema (t.recordType known)) (nested [])

def seekRecord (base : Reg) (off : UInt32) : Code :=
  if base = p0 ∧ off = 0 then [] else [.seek p0 base off.toInt32]

def encodeValue (known : Registry) (nested : Spots (TypeDesc → Piece)) (out : Output) : TypeDesc → Bool → Reg → UInt32 → Piece
  | ⟨id, kind, name, size, align, key, elem, target, fields⟩, reserved, base, off =>
    let t : TypeDesc := ⟨id, kind, name, size, align, key, elem, target, fields⟩
    match kind with
    | .string | .binary => encodeBlob out base off
    | .list | .set =>
      match elem with
      | none => withM (ofSchema t.elem?) fun _ => code []
      | some e =>
        encodeContainer out kind (.ofList e) base off fun reserved =>
          encodeValue known (nested.part 0) out e reserved p1 0
    | .map =>
      match elem, key with
      | some e, some k =>
        withM (inReach (Entry.ofMap? k e)) fun entry =>
          encodeContainer out kind entry base off fun reserved =>
            entry.parts (some (encodeValue known (nested.part 0) out k reserved p1 0))
              (encodeValue known (nested.part 1) out e reserved p1 entry.valueOffset)
      | none, _ => withM (ofSchema t.elem?) fun _ => code []
      | _, none => withM (ofSchema t.key?) fun _ => code []
    | .struct => seq [code (seekRecord base off), nestedRecord known nested t]
    | .pointer =>
      seq [code [.loadPtr p0 base off],
        either (ifNe p0 0) (code (stopMark out)) (nestedRecord known nested t)]
    | _ => if reserved then encodeReserved out t base off else encodeScalar out t base off

def unlessDefault (default : Scalar) (body : Piece) : Piece :=
  if default.bits.toNat < 0x80000000 then
    skipping (ifEq r0 default.bits.toUInt32.toInt32) body
  else
    seq [code [.movImm r2 default.bits], skipping (.branchReg .eq r0 r2) body]

def encodeScalarField (out : Output) (field : FieldDesc) : Piece :=
  let body := seq [code (fieldHeader out field), encodeScalar out field.type p0 field.offset]
  match field.default with
  | none => body
  | some default =>
    withM (scalarWidth field.type) fun width =>
      seq [code [.load width false r0 p0 field.offset], unlessDefault default body]

/-- A pointer field. A nil one is left out, or written as an empty record if required. -/
def encodePointerField (known : Registry) (nested : Spots (TypeDesc → Piece)) (out : Output) (field : FieldDesc) : Piece :=
  let body := seq [code (fieldHeader out field ++ [.seek p0 p2 0]), nestedRecord known nested field.type]
  seq [code [.loadPtr p2 p0 field.offset], if field.requiredness = .required then
      either (ifNe p2 0) (code (fieldHeader out field ++ stopMark out)) body else skipping (ifEq p2 0) body]

/-- A field with a header in the record. A nil one is left out unless required. -/
def encodeHeaderField (known : Registry) (nested : Spots (TypeDesc → Piece)) (out : Output) (field : FieldDesc) : Piece :=
  let body := seq [code (fieldHeader out field),
    encodeValue known nested out field.type false p0 field.offset]
  if field.requiredness = .required then body
  else seq [code [.loadPtr p2 p0 field.offset], skipping (ifEq p2 0) body]

def encodeField (known : Registry) (nested : Spots (TypeDesc → Piece)) (out : Output) (field : FieldDesc) : Piece :=
  if field.isBoxed then
    seq [code [.loadPtr p2 p0 field.offset],
      skipping (ifEq p2 0) (seq [code (fieldHeader out field), encodeScalar out field.type p2 0])]
  else match field.type.kind with
    | .pointer => encodePointerField known nested out field
    | .struct =>
      seq [code (fieldHeader out field ++ [.seek p0 p0 field.offset.toInt32]),
        nestedRecord known nested field.type]
    | kind =>
      if kind.isScalar then encodeScalarField out field
      else encodeHeaderField known nested out field

/-- Fields in order. After one that may use any register the base is taken from the frame
again. -/
def encodeFields (known : Registry) (nested : Spots (TypeDesc → Piece)) (out : Output) : Bool → List FieldDesc → Piece
  | _, [] => code []
  | reload, field :: rest =>
    seq [code (if reload then [.loadFrame p0 0] else []), encodeField known (nested.part 0) out field,
      encodeFields known (nested.part 1) out (!isSimple field.type) rest]

def encodeRecord (known : Registry) (out : Output) (nested : Spots (TypeDesc → Piece)) (t : TypeDesc) : Piece :=
  let framed := t.fields.any fun field => !isSimple field.type
  seq [code (if framed then [.enter, .storeFrame p0 0] else []), encodeFields known nested out false t.fields,
    code (stopMark out ++ if framed then [.leave] else [])]

end WireCodec.Lowering
