import WireCodec.Lowering.Decode
import WireCodec.Proofs.Codec.Writing

/-! What code for reading a record does: a loop over the fields on the wire, each into its
slot of the record at `base`. `left` is the number of frames left. -/
namespace WireCodec.Reading

open Lowering Act
open Writing (width)

abbrev eof : ErrorCode := .unexpectedEof

def isNegative (word : UInt64) : Bool := word.toInt64 < 0

def blob (base : UInt64) (off : UInt32) : Act Unit := do
  let len ← read eof .w4 true
  if isNegative len then fail .invalidLength
  else do
    need eof len
    let data ← alloc len
    storePtr data base off
    store .w4 len base (off + 4)
    copyIn eof data len

/-- What the head of a container says: the tags of its parts, and how many entries follow. -/
structure Head where
  keyTag : UInt64
  elemTag : UInt64
  count : UInt64

def keyTag (e : Entry) : Act UInt64 := if e.key.isSome then read eof .w1 false else pure 0

def containerHead (e : Entry) : Act Head := do
  need eof e.headerSize.toUInt64
  let keyTag ← keyTag e
  let elemTag ← read eof .w1 false
  let count ← read eof .w4 true
  if isNegative count then fail .invalidLength else return ⟨keyTag, elemTag, count⟩

def checkTags (e : Entry) (head : Head) : Act Unit :=
  if head.count = 0 then pure ()
  else if head.elemTag ≠ e.elem.kind.tag.toUInt64 then fail .invalidTag
  else match e.key with
    | some key => if head.keyTag ≠ key.kind.tag.toUInt64 then fail .invalidTag else pure ()
    | none => pure ()

/-- New memory for the entries, with a header for it. In an element of a container the header
goes to the start of the new memory: `loose` tells that this is one. -/
def makeRoom (e : Entry) (loose : Bool) (count base : UInt64) (off : UInt32) : Act UInt64 := do
  need eof (count * immWord e.minSize.toInt32)
  let data ← alloc (count * immWord e.stride.toInt32)
  let base := if loose then data else base
  storePtr data base off
  store .w4 count base (off + 4)
  return data

def entryLoop (e : Entry) (left : Nat) (count data : UInt64) (entry : Nat → UInt64 → Act Unit) : Act Unit :=
  if e.isSimple then each (entry left) e.stride count.toNat data
  else deeper left fun left => each (entry left) e.stride count.toNat data

def container (known : Registry) (isSet : Bool) (e : Entry) (loose : Bool) (left : Nat)
    (base : UInt64) (off : UInt32) (entry : Nat → UInt64 → Act Unit) : Act Unit := do
  let head ← containerHead e
  checkTags e head
  let data ← makeRoom e loose head.count base off
  if head.count = 0 then pure ()
  else do
    entryLoop e left head.count data entry
    if isSet then distinct known e.elem data head.count else pure ()

/-- In an entry of a map, the head of the value is asked for together with a scalar key. -/
def isJoined (key elem : TypeDesc) : Bool := key.kind.isScalar && elem.kind.hasHeader

def entryRoom (key elem : TypeDesc) : Act Unit :=
  if isJoined key elem then
    need eof ((width key).bytes.toUInt32 + elem.kind.minWireSize).toUInt64
  else pure ()

def value (known : Registry) (nested : Spots Visit) : TypeDesc → Bool → Nat → UInt64 → UInt32 → Act Unit
  | ⟨id, kind, name, size, align, key, elem, target, fields⟩, loose, left, base, off =>
    let t : TypeDesc := ⟨id, kind, name, size, align, key, elem, target, fields⟩
    match kind with
    | .string | .binary => blob base off
    | .list | .set =>
      match elem with
      | none => fail .internal
      | some e =>
        container known (kind = .set) (.ofList e) loose left base off fun left base =>
          value known (nested.part 0) e true left base 0
    | .map =>
      match elem, key with
      | some e, some k =>
        match Entry.ofMap? k e with
        | none => fail .internal
        | some entry =>
          container known false entry loose left base off fun left base => do
            entryRoom k e
            value known (nested.part 0) k true left base 0
            value known (nested.part 1) e true left base entry.valueOffset
      | _, _ => fail .internal
    | .struct => Writing.nestedRecord known nested t left (base + immWord off.toInt32)
    | .pointer =>
      match t.recordType known with
      | .error _ => fail .internal
      | .ok record => do
        let data ← alloc record.size.toUInt64
        storePtr data base off
        nested [] left record data
    | _ => do
      let word ← read eof (width t) false
      store (width t) word base off

section Forms

variable {known : Registry} {nested : Spots Visit}
  {t key elem record : TypeDesc} {layout : TypeDesc.EntryLayout} (loose : Bool) (left : Nat)
  (base : UInt64) (off : UInt32)

lemma value_scalar (isScalar : t.kind.isScalar = true) : value known nested t loose left base off = (do
      let word ← read eof (width t) false
      store (width t) word base off) := by
  obtain ⟨_, kind⟩ := t
  cases kind <;> first | rfl | cases isScalar

lemma value_blob (kind : t.kind = .string ∨ t.kind = .binary) :
    value known nested t loose left base off = blob base off := by
  obtain ⟨_, kind⟩ := t
  rcases kind with rfl | rfl <;> rfl

lemma value_sequence (is : known.IsSequence t elem) : value known nested t loose left base off =
      container known (t.kind = .set) (.ofList elem) loose left base off fun left base =>
        value known (nested.part 0) elem true left base 0 := by
  obtain ⟨_, kind⟩ := t
  obtain ⟨kind, given, _⟩ := is
  cases given
  rcases kind with rfl | rfl <;> rfl

lemma value_map (is : known.IsMap t key elem layout) : value known nested t loose left base off =
      container known false ⟨some key, elem, layout.valueOffset, layout.stride⟩ loose left base off fun left base => (do
          entryRoom key elem
          value known (nested.part 0) key true left base 0
          value known (nested.part 1) elem true left base layout.valueOffset) := by
  obtain ⟨_, kind⟩ := t
  have entry := is.entry
  obtain ⟨kind, givenKey, givenElem, _⟩ := is
  cases givenKey
  cases givenElem
  cases kind
  conv => lhs; rw [value.eq_def]
  simp only [entry]

lemma value_cramped (is : Registry.IsCramped t key elem) : value known nested t loose left base off = fail .internal := by
  obtain ⟨_, kind⟩ := t
  obtain ⟨kind, givenKey, givenElem, layout⟩ := is
  cases givenKey
  cases givenElem
  cases kind
  rw [value.eq_def]
  simp [Entry.ofMap?, layout]

lemma value_struct (kind : t.kind = .struct) : value known nested t loose left base off =
      Writing.nestedRecord known nested t left (base + immWord off.toInt32) := by
  obtain ⟨_, kind⟩ := t
  cases kind
  rfl

lemma value_pointer (kind : t.kind = .pointer) (ok : t.recordType known = .ok record) :
    value known nested t loose left base off = (do
      let data ← alloc record.size.toUInt64
      storePtr data base off
      nested [] left record data) := by
  obtain ⟨_, kind⟩ := t
  cases kind
  rw [value.eq_def]
  simp only [ok]

lemma value_untargeted {e : SchemaIssue} (kind : t.kind = .pointer) (failed : t.recordType known = .error e) :
    value known nested t loose left base off = fail .internal := by
  obtain ⟨_, kind⟩ := t
  cases kind
  rw [value.eq_def]
  simp only [failed]

end Forms

/-- A field of the record at `base`. A boxed one gets a cell of its own first. -/
def field (known : Registry) (nested : Spots Visit) (left : Nat) (base : UInt64) (field : FieldDesc) : Act Unit :=
  if field.isBoxed then do
    let cell ← alloc boxSize.toUInt64
    storePtr cell base field.offset
    let word ← read eof (width field.type) false
    store (width field.type) word cell 0
  else value known nested field.type false left base field.offset

def storeDefault (base : UInt64) (field : FieldDesc) : Act Unit :=
  match field.default with
  | none => pure ()
  | some default =>
    if default.bits = 0 then pure ()
    else store (width field.type) default.bits base field.offset

def storeDefaults (base : UInt64) : List FieldDesc → Act Unit
  | [] => pure ()
  | field :: rest => do
    storeDefault base field
    storeDefaults base rest

def clear (base : UInt64) (t : TypeDesc) : Act Unit :=
  if t.size = 0 then pure () else zero base 0 t.size

/-- The field that a number and a tag on the wire stand for, with its place. -/
def fieldFor? (fields : List FieldDesc) (id tag : UInt64) : Option (Nat × FieldDesc) := do
  let index ← fields.findIdx? fun field => field.id.toUInt64 = id
  let field ← fields[index]?
  if field.type.kind.tag.toUInt64 = tag then some (index, field) else none

def hasRequired (fields : List FieldDesc) (seen : List Nat) : Bool :=
  fields.zipIdx.all fun entry => entry.1.requiredness ≠ .required || seen.contains entry.2

/-- Fields up to the stop mark; `seen` lists those met so far. Every field takes a byte at
least, so that `count` runs out only where the wire has ended. -/
def occurrences (known : Registry) (nested : Spots Visit)
    (fields : List FieldDesc) (left : Nat) (base : UInt64) : (count : Nat) → List Nat → Act Unit
  | 0, _ => fail eof
  | count + 1, seen => do
    let tag ← read eof .w1 false
    if tag = 0 then
      if hasRequired fields seen then pure () else fail .missingRequiredField
    else do
      let id ← read eof .w2 true
      match fieldFor? fields id tag with
      | some (index, known') =>
        if seen.contains index then fail .duplicateField
        else do
          field known (nested.part index) left base known'
          occurrences known nested fields left base count (index :: seen)
      | none => do
        pass left tag
        occurrences known nested fields left base count seen

def record (known : Registry) (nested : Spots Visit) (left : Nat) (t : TypeDesc) (base : UInt64) : Act Unit := do
  clear base t
  storeDefaults base t.fields
  deeper left fun left => do
    let scene ← get
    occurrences known nested t.fields left base (scene.wire.size + 1) []

/-- A record with the records inside it, each of which takes a frame. -/
def walk (known : Registry) : (depth : Nat) → Nat → TypeDesc → UInt64 → Act Unit
  | 0 => fun _ _ _ => pure ()
  | depth + 1 => record known fun _ => walk known depth

end WireCodec.Reading
