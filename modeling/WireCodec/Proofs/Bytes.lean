import Mathlib
import WireCodec.Bytes

/-! Words and the bytes that spell them. Both orders are read as numbers in base 256, so that
writing and reading back are facts about remainders. -/
namespace WireCodec

def beNat : List UInt8 → Nat
  | [] => 0
  | b :: rest => b.toNat * 256 ^ rest.length + beNat rest

def leNat : List UInt8 → Nat
  | [] => 0
  | b :: rest => b.toNat + 256 * leNat rest

lemma byte_lt (b : UInt8) : b.toNat < 256 := b.toNat_lt

lemma beNat_lt (data : List UInt8) : beNat data < 256 ^ data.length := by
  induction data with
  | nil => simp [beNat]
  | cons b rest ih =>
    have digit : b.toNat * 256 ^ rest.length ≤ 255 * 256 ^ rest.length :=
      Nat.mul_le_mul_right _ (Nat.le_of_lt_succ (byte_lt b))
    rw [beNat, List.length_cons, Nat.pow_succ]
    omega

lemma leNat_lt (data : List UInt8) : leNat data < 256 ^ data.length := by
  induction data with
  | nil => simp [leNat]
  | cons b rest ih =>
    have digit := byte_lt b
    rw [leNat, List.length_cons, Nat.pow_succ]
    omega

lemma beNat_inj {a b : List UInt8} (length : a.length = b.length) (same : beNat a = beNat b) : a = b := by
  induction a generalizing b with
  | nil => exact (List.length_eq_zero_iff.mp length.symm).symm
  | cons x xs ih =>
    cases b with
    | nil => cases length
    | cons y ys =>
      have tails : xs.length = ys.length := Nat.succ.inj length
      have low := beNat_lt xs
      have low' := beNat_lt ys
      rw [beNat, beNat, tails] at same
      rw [tails] at low
      have heads : x.toNat = y.toNat := by
        have pos : 0 < 256 ^ ys.length := Nat.pow_pos (by decide)
        have quotient := congrArg (· / 256 ^ ys.length) same
        simp only [Nat.mul_comm _ (256 ^ ys.length), Nat.mul_add_div pos, Nat.div_eq_of_lt low,
          Nat.div_eq_of_lt low', Nat.add_zero] at quotient
        exact quotient
      rw [heads] at same
      rw [UInt8.toNat_inj.mp heads, ih tails (by omega)]

lemma toNat_shift_or (word : UInt64) (b : UInt8) :
    ((word <<< 8) ||| b.toUInt64).toNat = (word.toNat * 256 + b.toNat) % 2 ^ 64 := by
  have low := byte_lt b
  have high := word.toNat_lt
  rw [UInt64.toNat_or, UInt64.toNat_shiftLeft, UInt8.toNat_toUInt64]
  have shifted : word.toNat <<< ((8 : UInt64).toNat % 64) % 2 ^ 64 = (word.toNat % 2 ^ 56) <<< 8 := by
    rw [show (8 : UInt64).toNat % 64 = 8 from rfl, Nat.shiftLeft_eq, Nat.shiftLeft_eq]
    omega
  rw [shifted, ← Nat.shiftLeft_add_eq_or_of_lt (show b.toNat < 2 ^ 8 from low), Nat.shiftLeft_eq]
  omega

lemma toNat_beFold (data : List UInt8) (word : UInt64) :
    (data.foldl (fun (word : UInt64) b => (word <<< 8) ||| b.toUInt64) word).toNat =
      (word.toNat * 256 ^ data.length + beNat data) % 2 ^ 64 := by
  induction data generalizing word with
  | nil => simp [beNat, Nat.mod_eq_of_lt word.toNat_lt]
  | cons b rest ih =>
    rw [List.foldl_cons, ih, toNat_shift_or, Nat.add_mod, Nat.mul_mod, Nat.mod_mod, ← Nat.mul_mod,
      ← Nat.add_mod, beNat, List.length_cons]
    congr 1
    ring

variable {data : List UInt8} {n : Nat}

lemma toNat_beWord (short : data.length ≤ 8) : (beWord data).toNat = beNat data := by
  have low := beNat_lt data
  have bound : 256 ^ data.length ≤ 256 ^ 8 := Nat.pow_le_pow_right (by decide) short
  rw [beWord, toNat_beFold, UInt64.toNat_zero, Nat.zero_mul, Nat.zero_add]
  exact Nat.mod_eq_of_lt (by omega)

lemma toNat_leWord (short : data.length ≤ 8) : (leWord data).toNat = leNat data := by
  induction data with
  | nil => rfl
  | cons b rest ih =>
    have low := leNat_lt (b :: rest)
    have bound : 256 ^ (b :: rest).length ≤ 256 ^ 8 := Nat.pow_le_pow_right (by decide) short
    have short' : rest.length ≤ 8 := Nat.le_of_succ_le short
    rw [leWord, UInt64.or_comm, toNat_shift_or, ih short', leNat]
    rw [leNat] at low
    omega

lemma toNat_shiftRight_byte (word : UInt64) {k : Nat} (small : k < 8) :
    (word >>> (8 * k).toUInt64).toUInt8.toNat = word.toNat / 256 ^ k % 256 := by
  have amount : (8 * k).toUInt64.toNat % 64 = 8 * k := by
    simp only [Nat.toUInt64, UInt64.toNat_ofNat']
    omega
  rw [UInt64.toNat_toUInt8, UInt64.toNat_shiftRight, amount, Nat.shiftRight_eq_div_pow, Nat.pow_mul]

lemma beNat_beBytes (small : n ≤ 8) (word : UInt64) : beNat (beBytes n word) = word.toNat % 256 ^ n := by
  induction n with
  | zero => simp [beBytes, beNat, Nat.mod_one]
  | succ n ih =>
    rw [beBytes, beNat, length_beBytes, ih (by omega), toNat_shiftRight_byte word (by omega),
      Nat.pow_succ, Nat.mod_mul, Nat.mul_comm, Nat.add_comm]

lemma leNat_leBytes (n : Nat) (word : UInt64) : leNat (leBytes n word) = word.toNat % 256 ^ n := by
  induction n generalizing word with
  | zero => simp [leBytes, leNat, Nat.mod_one]
  | succ n ih =>
    have shifted : (word >>> 8).toNat = word.toNat / 256 := by
      rw [UInt64.toNat_shiftRight, show (8 : UInt64).toNat % 64 = 8 from rfl, Nat.shiftRight_eq_div_pow]
    rw [leBytes, leNat, ih, shifted, UInt64.toNat_toUInt8, @Nat.pow_succ 256, Nat.mul_comm (256 ^ n), Nat.mod_mul]

lemma beBytes_beWord (short : data.length ≤ 8) : beBytes data.length (beWord data) = data := by
  apply beNat_inj (length_beBytes _ _)
  rw [beNat_beBytes short, toNat_beWord short, Nat.mod_eq_of_lt (beNat_lt data)]

lemma toNat_beWord_beBytes (small : n ≤ 8) (word : UInt64) :
    (beWord (beBytes n word)).toNat = word.toNat % 256 ^ n := by
  rw [toNat_beWord (by rwa [length_beBytes]), beNat_beBytes small]

lemma toNat_leWord_leBytes (small : n ≤ 8) (word : UInt64) :
    (leWord (leBytes n word)).toNat = word.toNat % 256 ^ n := by
  rw [toNat_leWord (by rwa [length_leBytes]), leNat_leBytes]

/-! Overwriting. -/

lemma patch_append (bytes : Bytes) (off : Nat) (a b : List UInt8) :
    patch bytes off (a ++ b) = patch (patch bytes off a) (off + a.length) b := by
  induction a generalizing bytes off with
  | nil => rfl
  | cons x xs ih =>
    rw [List.cons_append, patch, patch, ih, List.length_cons]
    congr 1
    omega

end WireCodec
