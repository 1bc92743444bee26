import WireCodec.Schema.Type

/-! What can be wrong with a schema. A schema issue is the schema writer's to mend, so
it is reported and never stops a session. -/
namespace WireCodec

inductive SchemaIssue
  | danglingReference
  | noElement (type : String)
  | noKey (type : String)
  | notPointer (type : String)
  | notStruct (type : String)
  | duplicateField (owner : String) (id : UInt16)
  | fieldIdRange (owner : String) (id : UInt16)
  | defaultMisfit (owner field : String) (default : Scalar) (requiredness : Requiredness)
      (kind : Kind)
  | tooManyFields (type : String) (count limit : Nat)
  | noScalarWidth (type : String)
  | other (reason : String)
  deriving DecidableEq

def SchemaIssue.reason : SchemaIssue → String
  | danglingReference => "dangling type reference"
  | noElement type => s!"{type} has no element type"
  | noKey type => s!"{type} has no key type"
  | notPointer type => s!"{type} is not a pointer"
  | notStruct type => s!"{type} is not a struct"
  | duplicateField owner id => s!"{owner}: duplicate field id {id}"
  | fieldIdRange owner id => s!"{owner}: field id {id} out of range"
  | defaultMisfit owner field default requiredness kind =>
    s!"{owner}.{field}: default {default.text} does not fit " ++
      s!"a {requiredness.label} {kind.text} field"
  | tooManyFields type count limit => s!"{type} has {count} fields, at most {limit} are supported"
  | noScalarWidth type => s!"{type} has no scalar width"
  | other reason => reason

def SchemaIssue.message (issue : SchemaIssue) : String := "unsupported schema: " ++ issue.reason

inductive LayoutError
  | issue (issue : SchemaIssue)
  | overflow
  deriving DecidableEq

end WireCodec
