import WireCodec.Schema.Scalar

/-! Types: a kind, a size and an alignment, with the types they are made of. Every type has an
identity of its own. A weak reference names a type by its identity only, which is how a record
refers to itself. -/
namespace WireCodec

inductive Requiredness
  | default
  | required
  | optional
  deriving DecidableEq

def Requiredness.label : Requiredness → String
  | default => "Default"
  | required => "Required"
  | optional => "Optional"

inductive Ref (τ : Type) where
  | strong (target : τ)
  | weak (id : Nat)

structure Field (τ : Type) where
  id : UInt16
  name : String
  requiredness : Requiredness
  type : τ
  default : Option Scalar
  offset : UInt32

/-- `elem` is the element of a list or set and the value of a map. -/
structure TypeDesc where
  id : Nat
  kind : Kind
  name : String
  size : UInt32
  align : UInt32
  key : Option TypeDesc
  elem : Option TypeDesc
  target : Option (Ref TypeDesc)
  fields : List (Field TypeDesc)

abbrev FieldDesc := Field TypeDesc

def headerSize : UInt32 := 8
def pointerSize : UInt32 := 4
def boxSize : UInt32 := 8

/-- An optional scalar without a default is a pointer to a cell of its own, so that its absence
shows. -/
def Field.isBoxed (field : FieldDesc) : Bool :=
  field.requiredness = .optional && field.default.isNone && field.type.kind.isScalar

def Field.slotSize (field : FieldDesc) : UInt32 :=
  if field.isBoxed then pointerSize else field.type.size

def Field.slotAlign (field : FieldDesc) : UInt32 :=
  if field.isBoxed then pointerSize else field.type.align

namespace TypeDesc

def leaf (kind : Kind) (name : String) (size align : UInt32) (id : Nat) : TypeDesc :=
  ⟨id, kind, name, size, align, none, none, none, []⟩

def scalar (kind : Kind) (id : Nat) : TypeDesc :=
  let size := kind.scalarSize?.getD 0
  leaf kind kind.text size size id

def string (id : Nat) : TypeDesc := leaf .string "string" headerSize 4 id

def binary (id : Nat) : TypeDesc := leaf .binary "binary" headerSize 4 id

def list (elem : TypeDesc) (id : Nat) : TypeDesc :=
  ⟨id, .list, s!"list<{elem.name}>", headerSize, 4, none, some elem, none, []⟩

def set (elem : TypeDesc) (id : Nat) : TypeDesc :=
  ⟨id, .set, s!"set<{elem.name}>", headerSize, 4, none, some elem, none, []⟩

def map (key elem : TypeDesc) (id : Nat) : TypeDesc :=
  ⟨id, .map, s!"map<{key.name},{elem.name}>", headerSize, 4, some key, some elem, none, []⟩

def pointer (target : Ref TypeDesc) (id : Nat) : TypeDesc :=
  let name := match target with
    | .strong t => "*" ++ t.name
    | .weak _ => "*self"
  ⟨id, .pointer, name, pointerSize, pointerSize, none, none, some target, []⟩

def fieldById? (t : TypeDesc) (id : UInt16) : Option (Nat × FieldDesc) :=
  (t.fields.findIdx? (·.id = id)).bind fun i => t.fields[i]?.map fun f => (i, f)

end TypeDesc

end WireCodec
