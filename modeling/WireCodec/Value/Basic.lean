import WireCodec.Bytes
import WireCodec.Schema.Issue

/-! Values without their types. A record has one slot for each field of its type, in
order; an empty slot is an absent field. -/
namespace WireCodec

inductive Value where
  | scalar (s : Scalar)
  | string (s : String)
  | binary (data : List UInt8)
  | list (items : List Value)
  | set (items : List Value)
  | map (entries : List (Value × Value))
  | struct (slots : List (Option Value))

namespace Value

def kind : Value → Kind
  | scalar s => s.kind
  | string _ => .string
  | binary _ => .binary
  | list _ => .list
  | set _ => .set
  | map _ => .map
  | struct _ => .struct

def absent (count : Nat) : Value := .struct (List.replicate count none)

mutual
def beq : Value → Value → Bool
  | scalar a, scalar b => a = b
  | string a, string b => a = b
  | binary a, binary b => a = b
  | list a, list b => beqItems a b
  | set a, set b => beqItems a b
  | map a, map b => beqEntries a b
  | struct a, struct b => beqSlots a b
  | _, _ => false

def beqItems : List Value → List Value → Bool
  | [], [] => true
  | a :: as, b :: bs => beq a b && beqItems as bs
  | _, _ => false

def beqEntries : List (Value × Value) → List (Value × Value) → Bool
  | [], [] => true
  | (k, v) :: as, (l, w) :: bs => beq k l && beq v w && beqEntries as bs
  | _, _ => false

def beqSlots : List (Option Value) → List (Option Value) → Bool
  | [], [] => true
  | none :: as, none :: bs => beqSlots as bs
  | some a :: as, some b :: bs => beq a b && beqSlots as bs
  | _, _ => false
end

instance : BEq Value := ⟨beq⟩

end Value

/-- `outOfBounds` is an access outside the arena or past 32 bits; `endless` a chain of pointers that
never ends. -/
inductive ValueError
  | mismatch (expected found : Kind)
  | fieldCount (type : String) (expected found : Nat)
  | exhausted
  | schema (issue : SchemaIssue)
  | outOfBounds
  | endless
  deriving DecidableEq

def ValueError.message : ValueError → String
  | mismatch expected found => s!"expected a {expected.text} value, found {found.text}"
  | fieldCount type expected found =>
    s!"struct {type} has {expected} fields, value has {found}"
  | exhausted => "heap exhausted"
  | schema issue => issue.message
  | outOfBounds => "access outside the arena"
  | endless => "pointers without end"

end WireCodec
