/-! Shortest decimal digits of a binary64 number `m * 2^q`. The reals that round to it form an
interval whose ends count when `m` is even. For one digit, two digits and so on the two neighbours
of the number on that decimal grid are tried; the first grid with one in the interval wins. -/
namespace WireCodec.Decimal

/-- A positive number. `edge` marks a power of two, whose lower neighbour is half as far away. -/
structure Binary where
  mantissa : Nat
  exponent : Int
  edge : Bool

def Binary.ofBits (bits : UInt64) : Binary :=
  let fraction : Nat := bits.toNat % 0x10000000000000
  let biased : Nat := bits.toNat / 0x10000000000000 % 0x800
  if biased = 0 then ⟨fraction, -1074, false⟩
  else ⟨0x10000000000000 + fraction, (biased : Int) - 1075, fraction == 0 && biased > 1⟩

/-- `a * 10^p ≤ b * 2^q` or `<`, as `strict` says. -/
def scaledLe (strict : Bool) (a : Nat) (p : Int) (b : Nat) (q : Int) : Bool :=
  let left := a * Nat.pow 10 p.toNat * Nat.pow 2 (-q).toNat
  let right := b * Nat.pow 2 q.toNat * Nat.pow 10 (-p).toNat
  if strict then left < right else left ≤ right

def scaledGe (strict : Bool) (a : Nat) (p : Int) (b : Nat) (q : Int) : Bool :=
  let left := a * Nat.pow 10 p.toNat * Nat.pow 2 (-q).toNat
  let right := b * Nat.pow 2 q.toNat * Nat.pow 10 (-p).toNat
  if strict then right < left else right ≤ left

def Binary.rounds (x : Binary) (digits : Nat) (power : Int) : Bool :=
  let open_ := x.mantissa % 2 = 1
  let low := 4 * x.mantissa - (if x.edge then 1 else 2)
  let high := 4 * x.mantissa + 2
  let unit := x.exponent - 2
  scaledGe open_ digits power low unit && scaledLe open_ digits power high unit

def Binary.quotient (x : Binary) (power : Int) : Nat :=
  x.mantissa * Nat.pow 2 x.exponent.toNat * Nat.pow 10 (-power).toNat /
    (Nat.pow 10 power.toNat * Nat.pow 2 (-x.exponent).toNat)

def Binary.upperNearer (x : Binary) (lower : Nat) (power : Int) : Bool :=
  scaledLe false (2 * lower + 1) power (2 * x.mantissa) x.exponent

def leadingPower (x : Binary) : Nat → Int → Int
  | 0, p => p
  | n + 1, p => if x.quotient (p + 1) = 0 then p else leadingPower x n (p + 1)

def shortestFrom (x : Binary) (top : Int) : Nat → Nat → Nat × Int
  | 0, count =>
    let power := top - (count : Int) + 1
    (x.quotient power, power)
  | n + 1, count =>
    let power := top - (count : Int) + 1
    let lower := x.quotient power
    match x.rounds lower power, x.rounds (lower + 1) power with
    | true, true => (if x.upperNearer lower power then lower + 1 else lower, power)
    | true, false => (lower, power)
    | false, true => (lower + 1, power)
    | false, false => shortestFrom x top n (count + 1)

def trimZeros (digits : List Char) : List Char :=
  (digits.reverse.dropWhile (· = '0')).reverse

def shortest (x : Binary) : List Char × Int :=
  let top := leadingPower x 700 (-350)
  let (value, power) := shortestFrom x top 17 1
  let digits := Nat.toDigits 10 value
  (trimZeros digits, power + (digits.length : Int) - 1)

structure Style where
  low : Int
  high : Int

def diagnostic : Style := ⟨-4, 16⟩

def plain (digits : List Char) (exponent : Int) : String :=
  if exponent < 0 then
    "0." ++ String.ofList (List.replicate ((-exponent).toNat - 1) '0' ++ digits)
  else
    let whole := exponent.toNat + 1
    let padded := digits ++ List.replicate (whole - digits.length) '0'
    let fraction := padded.drop whole
    String.ofList (padded.take whole) ++ "." ++
      (if fraction.isEmpty then "0" else String.ofList fraction)

def scientific (digits : List Char) (exponent : Int) : String :=
  let tail := digits.drop 1
  String.ofList (digits.take 1) ++ (if tail.isEmpty then "" else "." ++ String.ofList tail) ++
    "e" ++ toString exponent

def text (style : Style) (bits : UInt64) : String :=
  let negative := bits.toNat ≥ 0x8000000000000000
  let magnitude := bits.toNat % 0x8000000000000000
  let sign := if negative then "-" else ""
  if magnitude > 0x7ff0000000000000 then "NaN"
  else if magnitude = 0x7ff0000000000000 then sign ++ "inf"
  else if magnitude = 0 then sign ++ "0.0"
  else
    let (digits, exponent) := shortest (Binary.ofBits magnitude.toUInt64)
    sign ++ (if style.low ≤ exponent && exponent < style.high then plain digits exponent
      else scientific digits exponent)

end WireCodec.Decimal
