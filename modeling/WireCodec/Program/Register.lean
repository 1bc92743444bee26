/-! Registers of the machine: nine for integers and ten for arena offsets. -/
namespace WireCodec

instance nine : @NeZero Nat Zero.ofOfNat0 9 := ⟨by decide⟩
instance ten : @NeZero Nat Zero.ofOfNat0 10 := ⟨by decide⟩

inductive Reg
  | r (i : Fin 9)
  | p (i : Fin 10)
  deriving DecidableEq

namespace Reg

def count : Nat := 19

def isPtr : Reg → Bool
  | r _ => false
  | p _ => true

def index : Reg → Fin 19
  | r i => ⟨i, by omega⟩
  | p i => ⟨9 + i, by omega⟩

def generic? (n : Nat) : Option Reg := if h : n < 9 then some (r ⟨n, h⟩) else none

def pointer? (n : Nat) : Option Reg := if h : n < 10 then some (p ⟨n, h⟩) else none

def ofIndex? (n : Nat) : Option Reg := if n < 9 then generic? n else pointer? (n - 9)

def all : List Reg := (List.range count).filterMap ofIndex?

def text : Reg → String
  | r i => s!"r{i.val}"
  | p i => s!"p{i.val}"

def ofText? (name : String) : Option Reg := all.find? (·.text = name)

theorem ofIndex?_index (reg : Reg) : ofIndex? reg.index = some reg := by
  cases reg with
  | r i => simp [ofIndex?, index, generic?]
  | p i =>
    have high : ¬ 9 + i.val < 9 := by omega
    simp [ofIndex?, index, pointer?, high]

end Reg

end WireCodec
