import WireCodec.Schema.Type

/-! Types numbered for use by running programs. A type keeps the number it got first. -/
namespace WireCodec

structure TypeTable where
  types : Array TypeDesc

namespace TypeTable

def empty : TypeTable := ⟨#[]⟩

def intern (table : TypeTable) (t : TypeDesc) : Nat × TypeTable :=
  match table.types.findIdx? (·.id = t.id) with
  | some index => (index, table)
  | none => (table.types.size, ⟨table.types.push t⟩)

def get? (table : TypeTable) (index : Nat) : Option TypeDesc := table.types[index]?

end TypeTable

end WireCodec
