import WireCodec.Schema.Layout
import WireCodec.Text.Quoted

/-! The types of a program, by identity. A record that refers to itself gets its
identity before its fields exist; until it is defined, a weak reference to it leads
nowhere. -/
namespace WireCodec

structure Registry where
  types : Array (Option TypeDesc)

namespace Registry

def empty : Registry := ⟨#[]⟩

def get? (known : Registry) (id : Nat) : Option TypeDesc := known.types[id]?.join

def add (known : Registry) (make : Nat → TypeDesc) : TypeDesc × Registry :=
  let t := make known.types.size
  (t, ⟨known.types.push (some t)⟩)

def reserve (known : Registry) : Nat × Registry :=
  (known.types.size, ⟨known.types.push none⟩)

def define (known : Registry) (t : TypeDesc) : Registry :=
  ⟨known.types.setIfInBounds t.id (some t)⟩

def resolve (known : Registry) : Ref TypeDesc → Except SchemaIssue TypeDesc
  | .strong t => .ok t
  | .weak id =>
    match known.get? id with
    | some t => .ok t
    | none => .error .danglingReference

end Registry

namespace TypeDesc

def pointee (known : Registry) (t : TypeDesc) : Except SchemaIssue TypeDesc :=
  match t.target with
  | some target => known.resolve target
  | none => .error (.notPointer t.name)

def recordType (known : Registry) (t : TypeDesc) : Except SchemaIssue TypeDesc :=
  match t.kind with
  | .struct => .ok t
  | .pointer => t.pointee known
  | _ => .error (.notStruct t.name)

def diagnostic (t : TypeDesc) : String :=
  "TypeDescriptor \x7b kind: " ++ t.kind.label ++ ", name: " ++ Text.quoted t.name ++
    s!", size: {t.size}, align: {t.align}, .. \x7d"

end TypeDesc

def Ref.diagnostic (known : Registry) : Ref TypeDesc → String
  | .strong t => t.name
  | .weak id =>
    match known.get? id with
    | some t => "weak " ++ t.name
    | none => "weak <dropped>"

end WireCodec
