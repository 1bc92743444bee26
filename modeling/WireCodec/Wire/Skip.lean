import WireCodec.Bytes
import WireCodec.ErrorCode
import WireCodec.Wire.Tag

/-! Skipping one value on the wire without knowing its type. The number of records and
containers that may be entered inside each other is bounded. -/
namespace WireCodec

namespace Skip

abbrev Result := Except CodecError

def advance (buf : Bytes) (pos n : Nat) : Result Nat :=
  if pos + n ≤ buf.size then .ok (pos + n) else .error ⟨.unexpectedEof, pos⟩

def byte (buf : Bytes) (pos : Nat) : Result UInt8 :=
  match buf[pos]? with
  | some b => .ok b
  | none => .error ⟨.unexpectedEof, pos⟩

def count (buf : Bytes) (pos : Nat) : Result Nat :=
  match slice? buf pos 4 with
  | none => .error ⟨.unexpectedEof, pos⟩
  | some data =>
    let n := (beWord data).toNat
    if n < 0x80000000 then .ok n else .error ⟨.invalidLength, pos⟩

abbrev Inner := Option (UInt8 → Nat → Result Nat)

/-- Each field takes at least three bytes, so no buffer holds more of them than `fuel`, its size. -/
def fields (buf : Bytes) (inner : UInt8 → Nat → Result Nat) : Nat → Nat → Result Nat
  | 0, pos => .error ⟨.unexpectedEof, pos⟩
  | fuel + 1, pos => do
    let tag ← byte buf pos
    if tag = Tag.stop then return pos + 1
    let start ← advance buf (pos + 1) 2
    let after ← inner tag start
    fields buf inner fuel after

def row (inner : UInt8 → Nat → Result Nat) : List UInt8 → Nat → Result Nat
  | [], pos => .ok pos
  | tag :: tags, pos => do row inner tags (← inner tag pos)

def rows (inner : UInt8 → Nat → Result Nat) (tags : List UInt8) : Nat → Nat → Result Nat
  | 0, pos => .ok pos
  | n + 1, pos => do rows inner tags n (← row inner tags pos)

def rowSize? (tags : List UInt8) : Option Nat :=
  tags.foldr (fun tag total => do return (← Tag.fixedSize? tag) + (← total)) (some 0)

/-- Tags count only if there are elements; elements of fixed size are bounded all at once. -/
def elements (buf : Bytes) (inner : UInt8 → Nat → Result Nat) (tags : List UInt8) (n pos : Nat) : Result Nat :=
  if n = 0 then .ok pos
  else if tags.all Tag.isValue then
    match rowSize? tags with
    | some size => advance buf pos (size * n)
    | none => rows inner tags n pos
  else .error ⟨.invalidTag, pos⟩

def value (buf : Bytes) (inner : Inner) (tag : UInt8) (pos : Nat) : Result Nat :=
  match Tag.fixedSize? tag with
  | some n => advance buf pos n
  | none =>
    if tag = Tag.string then do
      let n ← count buf pos
      advance buf (pos + 4) n
    else if tag = Tag.struct then
      nested fun inner => fields buf inner (buf.size + 1) pos
    else if tag = Tag.list || tag = Tag.set then
      nested fun inner => do
        let elem ← byte buf pos
        let n ← count buf (pos + 1)
        elements buf inner [elem] n (pos + 5)
    else if tag = Tag.map then
      nested fun inner => do
        let key ← byte buf pos
        let elem ← byte buf (pos + 1)
        let n ← count buf (pos + 2)
        elements buf inner [key, elem] n (pos + 6)
    else .error ⟨.invalidTag, pos - 1⟩
where
  nested (body : (UInt8 → Nat → Result Nat) → Result Nat) : Result Nat :=
    match inner with
    | some inner => body inner
    | none => .error ⟨.nestingOverflow, pos⟩

end Skip

def skip (buf : Bytes) : (depth : Nat) → (tag : UInt8) → (pos : Nat) → Except CodecError Nat
  | 0 => Skip.value buf none
  | depth + 1 => Skip.value buf (some (skip buf depth))

end WireCodec
