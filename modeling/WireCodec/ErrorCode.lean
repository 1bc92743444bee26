/-! Error codes a running codec reports, and the error with the wire offset at which
it was found. Code 0 stands for success. -/
namespace WireCodec

inductive ErrorCode
  | ok
  | unexpectedEof
  | invalidTag
  | duplicateField
  | missingRequiredField
  | duplicateSetElement
  | nestingOverflow
  | invalidLength
  | bufferTooSmall
  | internal
  deriving DecidableEq

namespace ErrorCode

def all : List ErrorCode :=
  [ok, unexpectedEof, invalidTag, duplicateField, missingRequiredField, duplicateSetElement,
   nestingOverflow, invalidLength, bufferTooSmall, internal]

def number : ErrorCode → UInt32
  | ok => 0
  | unexpectedEof => 1
  | invalidTag => 2
  | duplicateField => 3
  | missingRequiredField => 4
  | duplicateSetElement => 5
  | nestingOverflow => 6
  | invalidLength => 7
  | bufferTooSmall => 8
  | internal => 9

def name : ErrorCode → String
  | ok => "Ok"
  | unexpectedEof => "UnexpectedEof"
  | invalidTag => "InvalidTag"
  | duplicateField => "DuplicateField"
  | missingRequiredField => "MissingRequiredField"
  | duplicateSetElement => "DuplicateSetElement"
  | nestingOverflow => "NestingOverflow"
  | invalidLength => "InvalidLength"
  | bufferTooSmall => "BufferTooSmall"
  | internal => "Internal"

def message : ErrorCode → String
  | ok => "no error"
  | unexpectedEof => "unexpected end of input"
  | invalidTag => "invalid wire type tag"
  | duplicateField => "duplicate struct field id"
  | missingRequiredField => "missing required field"
  | duplicateSetElement => "duplicate set element"
  | nestingOverflow => "nesting depth exceeded"
  | invalidLength => "invalid length"
  | bufferTooSmall => "output buffer too small"
  | internal => "internal compiler failure"

def ofNumber? (n : UInt32) : Option ErrorCode := all.find? (·.number = n)

theorem ofNumber?_number (code : ErrorCode) : ofNumber? code.number = some code := by
  cases code <;> rfl

end ErrorCode

structure CodecError where
  code : ErrorCode
  offset : Nat
  deriving DecidableEq

def CodecError.message (e : CodecError) : String :=
  e.code.message ++ " at offset " ++ toString e.offset

end WireCodec
