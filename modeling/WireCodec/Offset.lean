/-! Offsets and sizes of 32 bits. Sums and multiples are taken exactly; a result that does
not fit is refused, never wrapped. -/
namespace WireCodec

def offset? (n : Nat) : Option UInt32 := if n < 0x100000000 then some n.toUInt32 else none

theorem offset?_of_lt {n : Nat} (low : n < 0x100000000) : offset? n = some n.toUInt32 := if_pos low

theorem toNat_of_offset? {n : Nat} {off : UInt32} (h : offset? n = some off) : off.toNat = n := by
  unfold offset? at h
  split at h
  · cases h
    simp only [Nat.toUInt32, UInt32.toNat_ofNat']
    exact Nat.mod_eq_of_lt (by assumption)
  · cases h

def alignUp (n align : Nat) : Nat :=
  let unit := max align 1
  (n + (unit - 1)) / unit * unit

theorem le_alignUp (n align : Nat) : n ≤ alignUp n align := by
  unfold alignUp
  have h := Nat.lt_div_mul_add (a := n + (max align 1 - 1)) (show 0 < max align 1 by omega)
  simp only
  omega

end WireCodec
