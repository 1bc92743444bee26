import WireCodec.Lowering.Encode
import WireCodec.Proofs.Codec.Action
import WireCodec.Proofs.Schema.Forms

/-! What code for writing a record does, and code that only counts the bytes: a walk over the
type without registers and branches. `left` is the number of frames left, `base` the address
of a record or an element. -/
namespace WireCodec.Writing

open Lowering Act

/-- Asks for room, if bytes are written. -/
def room : Output → UInt64 → Act Unit
  | .count, _ => pure ()
  | .write, n => need .bufferTooSmall n

def literal : Output → Width → UInt64 → Act Unit
  | .count, width, _ => Act.move width.bytes.toUInt32.toUInt64
  | .write, width, value => Act.literal (beBytes width.bytes value)

def int : Output → Width → UInt64 → Act Unit
  | .count, width, _ => Act.move width.bytes.toUInt32.toUInt64
  | .write, width, value => Act.write .bufferTooSmall (beBytes width.bytes value)

def bytes : Output → UInt64 → UInt64 → Act Unit
  | .count, _, len => Act.move len
  | .write, src, len => copyOut .bufferTooSmall src len

def header (out : Output) (field : FieldDesc) : Act Unit := do
  room out 3
  literal out .w1 field.type.kind.tag.toUInt64
  literal out .w2 field.id.toUInt64

def stopMark (out : Output) : Act Unit := do
  room out 1
  literal out .w1 Tag.stop.toUInt64

def width (t : TypeDesc) : Width := (Width.ofBytes? t.size.toNat).getD .w1

lemma bytes_width {t : TypeDesc} (shaped : t.Shaped) (isScalar : t.kind.isScalar = true) :
    (width t).bytes = t.size.toNat := by
  obtain ⟨_, found, bytes, _⟩ := shaped.width isScalar
  rw [width, found]
  exact bytes

def scalar (out : Output) (reserved : Bool) (width : Width) (base : UInt64) (off : UInt32) : Act Unit := do
  if reserved then pure () else room out width.bytes.toUInt32.toUInt64
  let word ← fetch width base off
  int out width word

def blob (out : Output) (base : UInt64) (off : UInt32) : Act Unit := do
  let len ← fetch .w4 base (off + 4)
  room out 4
  int out .w4 len
  let data ← fetch .w4 base off
  room out len
  bytes out data len

def keyTag (out : Output) (e : Entry) : Act Unit :=
  match e.key with
  | some key => literal out .w1 key.kind.tag.toUInt64
  | none => pure ()

/-- Tags and count of a container. Answers the count and where the data is. -/
def containerHead (out : Output) (e : Entry) (base : UInt64) (off : UInt32) : Act (UInt64 × UInt64) := do
  let count ← fetch .w4 base (off + 4)
  let data ← fetch .w4 base off
  room out e.headerSize.toUInt64
  keyTag out e
  literal out .w1 e.elem.kind.tag.toUInt64
  int out .w4 count
  return (count, data)

def checkSet (known : Registry) (kind : Kind) (elem : TypeDesc) (count data : UInt64) : Act Unit :=
  if kind = .set then distinct known elem data count else pure ()

def entryLoop (e : Entry) (left : Nat) (count data : UInt64) (reserved : Bool)
    (entry : Bool → Nat → UInt64 → Act Unit) : Act Unit :=
  if e.isSimple then each (entry reserved left) e.stride count.toNat data
  else deeper left fun left => each (entry false left) e.stride count.toNat data

def entries (out : Output) (e : Entry) (left : Nat) (count data : UInt64)
    (entry : Bool → Nat → UInt64 → Act Unit) : Act Unit :=
  if count = 0 then pure ()
  else match e.fixedSize?, out with
    | some size, .count => Act.move (count * immWord size.toInt32)
    | some size, .write => do
      need .bufferTooSmall (count * immWord size.toInt32)
      entryLoop e left count data true entry
    | none, _ => entryLoop e left count data false entry

def container (known : Registry) (out : Output) (kind : Kind) (e : Entry) (left : Nat)
    (base : UInt64) (off : UInt32) (entry : Bool → Nat → UInt64 → Act Unit) : Act Unit := do
  let (count, data) ← containerHead out e base off
  checkSet known kind e.elem count data
  entries out e left count data entry

/-- A record inside another value, given its own type or a pointer to it. -/
def nestedRecord (known : Registry) (nested : Spots Visit) (t : TypeDesc) (left : Nat) (base : UInt64) : Act Unit :=
  match t.recordType known with
  | .ok record => nested [] left record base
  | .error _ => fail .internal

def value (known : Registry) (nested : Spots Visit) (out : Output) : TypeDesc → Bool → Nat → UInt64 → UInt32 → Act Unit
  | ⟨id, kind, name, size, align, key, elem, target, fields⟩, reserved, left, base, off =>
    let t : TypeDesc := ⟨id, kind, name, size, align, key, elem, target, fields⟩
    match kind with
    | .string | .binary => blob out base off
    | .list | .set =>
      match elem with
      | none => fail .internal
      | some e =>
        container known out kind (.ofList e) left base off fun reserved left base =>
          value known (nested.part 0) out e reserved left base 0
    | .map =>
      match elem, key with
      | some e, some k =>
        match Entry.ofMap? k e with
        | none => fail .internal
        | some entry =>
          container known out kind entry left base off fun reserved left base => do
            value known (nested.part 0) out k reserved left base 0
            value known (nested.part 1) out e reserved left base entry.valueOffset
      | _, _ => fail .internal
    | .struct => nestedRecord known nested t left (base + immWord off.toInt32)
    | .pointer => do
      let data ← fetch .w4 base off
      if data = 0 then stopMark out else nestedRecord known nested t left data
    | _ => scalar out reserved (width t) base off

section Forms

variable {known : Registry} {nested : Spots Visit} {out : Output}
  {t key elem : TypeDesc} {layout : TypeDesc.EntryLayout} (reserved : Bool) (left : Nat)
  (base : UInt64) (off : UInt32)

lemma value_scalar (isScalar : t.kind.isScalar = true) :
    value known nested out t reserved left base off = scalar out reserved (width t) base off := by
  obtain ⟨_, kind⟩ := t
  cases kind <;> first | rfl | cases isScalar

lemma value_blob (kind : t.kind = .string ∨ t.kind = .binary) :
    value known nested out t reserved left base off = blob out base off := by
  obtain ⟨_, kind⟩ := t
  rcases kind with rfl | rfl <;> rfl

lemma value_sequence (is : known.IsSequence t elem) : value known nested out t reserved left base off =
      container known out t.kind (.ofList elem) left base off fun reserved left base =>
        value known (nested.part 0) out elem reserved left base 0 := by
  obtain ⟨_, kind⟩ := t
  obtain ⟨kind, given, _⟩ := is
  cases given
  rcases kind with rfl | rfl <;> rfl

lemma value_map (is : known.IsMap t key elem layout) : value known nested out t reserved left base off =
      container known out t.kind ⟨some key, elem, layout.valueOffset, layout.stride⟩ left base off
        fun reserved left base => (do
          value known (nested.part 0) out key reserved left base 0
          value known (nested.part 1) out elem reserved left base layout.valueOffset) := by
  obtain ⟨_, kind⟩ := t
  have entry := is.entry
  obtain ⟨kind, givenKey, givenElem, _⟩ := is
  cases givenKey
  cases givenElem
  cases kind
  conv => lhs; rw [value.eq_def]
  simp only [entry]

lemma value_cramped (is : Registry.IsCramped t key elem) :
    value known nested out t reserved left base off = fail .internal := by
  obtain ⟨_, kind⟩ := t
  obtain ⟨kind, givenKey, givenElem, layout⟩ := is
  cases givenKey
  cases givenElem
  cases kind
  rw [value.eq_def]
  simp [Entry.ofMap?, layout]

lemma value_struct (kind : t.kind = .struct) : value known nested out t reserved left base off =
      nestedRecord known nested t left (base + immWord off.toInt32) := by
  obtain ⟨_, kind⟩ := t
  cases kind
  rfl

lemma value_pointer (kind : t.kind = .pointer) : value known nested out t reserved left base off = (do
      let data ← fetch .w4 base off
      if data = 0 then stopMark out else nestedRecord known nested t left data) := by
  obtain ⟨_, kind⟩ := t
  cases kind
  rfl

end Forms

/-- A scalar field in place; one that holds its default is left out. -/
def scalarField (out : Output) (field : FieldDesc) (base : UInt64) : Act Unit :=
  let body : Act Unit := do
    header out field
    scalar out false (width field.type) base field.offset
  match field.default with
  | none => body
  | some default => do
    let word ← fetch (width field.type) base field.offset
    if word = default.bits then pure () else body

def boxedField (out : Output) (field : FieldDesc) (base : UInt64) : Act Unit := do
  let cell ← fetch .w4 base field.offset
  if cell = 0 then pure ()
  else do
    header out field
    scalar out false (width field.type) cell 0

def pointerField (known : Registry) (nested : Spots Visit) (out : Output)
    (field : FieldDesc) (left : Nat) (base : UInt64) : Act Unit := do
  let data ← fetch .w4 base field.offset
  if data = 0 then
    if field.requiredness = .required then do
      header out field
      stopMark out
    else pure ()
  else do
    header out field
    nestedRecord known nested field.type left data

def headerField (known : Registry) (nested : Spots Visit) (out : Output)
    (field : FieldDesc) (left : Nat) (base : UInt64) : Act Unit :=
  let body : Act Unit := do
    header out field
    value known nested out field.type false left base field.offset
  if field.requiredness = .required then body
  else do
    let data ← fetch .w4 base field.offset
    if data = 0 then pure () else body

def field (known : Registry) (nested : Spots Visit) (out : Output)
    (field : FieldDesc) (left : Nat) (base : UInt64) : Act Unit :=
  if field.isBoxed then boxedField out field base
  else match field.type.kind with
    | .pointer => pointerField known nested out field left base
    | .struct => do
      header out field
      nestedRecord known nested field.type left (base + immWord field.offset.toInt32)
    | kind =>
      if kind.isScalar then scalarField out field base
      else headerField known nested out field left base

section Forms

variable {known : Registry} {nested : Spots Visit} {out : Output}
  {f : FieldDesc} (left : Nat) (base : UInt64)

lemma field_pointer (kind : f.type.kind = .pointer) :
    field known nested out f left base = pointerField known nested out f left base := by
  rw [field, if_neg (Field.not_isBoxed (by rw [kind]; rfl)), kind]

lemma field_struct (kind : f.type.kind = .struct) : field known nested out f left base = (do
      header out f
      nestedRecord known nested f.type left (base + immWord f.offset.toInt32)) := by
  rw [field, if_neg (Field.not_isBoxed (by rw [kind]; rfl)), kind]

lemma field_scalar (inPlace : ¬ f.isBoxed = true) (isScalar : f.type.kind.isScalar = true) :
    field known nested out f left base = scalarField out f base := by
  rw [field, if_neg inPlace]
  cases kind : f.type.kind <;> first | rfl | (rw [kind] at isScalar; cases isScalar)

lemma field_header (hasHeader : f.type.kind.hasHeader = true) :
    field known nested out f left base = headerField known nested out f left base := by
  have notScalar : f.type.kind.isScalar = false := by
    cases kind : f.type.kind <;> first | rfl | (rw [kind] at hasHeader; cases hasHeader)
  rw [field, if_neg (Field.not_isBoxed notScalar)]
  cases kind : f.type.kind <;> first | rfl | (rw [kind] at hasHeader; cases hasHeader)

end Forms

def fields (known : Registry) (nested : Spots Visit) (out : Output) (left : Nat) (base : UInt64) :
    List FieldDesc → Act Unit
  | [] => pure ()
  | first :: rest => do
    field known (nested.part 0) out first left base
    fields known (nested.part 1) out left base rest

/-- Records with a field that is no scalar, string or binary take a frame. -/
def isFramed (t : TypeDesc) : Bool := t.fields.any fun field => !isSimple field.type

def record (known : Registry) (nested : Spots Visit) (out : Output) (left : Nat) (t : TypeDesc)
    (base : UInt64) : Act Unit :=
  let body (left : Nat) : Act Unit := do
    fields known nested out left base t.fields
    stopMark out
  if isFramed t then deeper left body else body left

/-- A record with the records inside it. A record that holds others takes a frame, so that
`depth` never runs out while it is above the number of frames left. -/
def walk (known : Registry) (out : Output) : (depth : Nat) → Nat → TypeDesc → UInt64 → Act Unit
  | 0 => fun _ _ _ => pure ()
  | depth + 1 => record known (fun _ => walk known out depth) out

end WireCodec.Writing
