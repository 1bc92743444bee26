/-! Bytes and the words they spell: big-endian on the wire, little-endian in the arena. A run of
more than eight bytes keeps the low 64 bits. -/
namespace WireCodec

abbrev Bytes := Array UInt8

def maxBlock : Nat := 0x7fffffffffffffff

def beWord (bytes : List UInt8) : UInt64 :=
  bytes.foldl (fun word b => (word <<< 8) ||| b.toUInt64) 0

def beBytes : Nat → UInt64 → List UInt8
  | 0, _ => []
  | n + 1, word => (word >>> (8 * n).toUInt64).toUInt8 :: beBytes n word

def leWord : List UInt8 → UInt64
  | [] => 0
  | b :: rest => b.toUInt64 ||| (leWord rest <<< 8)

def leBytes : Nat → UInt64 → List UInt8
  | 0, _ => []
  | n + 1, word => word.toUInt8 :: leBytes n (word >>> 8)

def signExtend (n : Nat) (word : UInt64) : UInt64 :=
  if n < 8 then
    let unused := (64 - 8 * n).toUInt64
    ((word <<< unused).toInt64 >>> unused.toInt64).toUInt64
  else word

def slice? (bytes : Bytes) (off len : Nat) : Option (List UInt8) :=
  if off + len ≤ bytes.size then some (bytes.extract off (off + len)).toList else none

/-- Overwrites bytes from `off` on. Bytes past the end are dropped. -/
def patch (bytes : Bytes) (off : Nat) : List UInt8 → Bytes
  | [] => bytes
  | b :: rest => patch (bytes.setIfInBounds off b) (off + 1) rest

theorem size_patch (bytes : Bytes) (off : Nat) (data : List UInt8) : (patch bytes off data).size = bytes.size := by
  induction data generalizing bytes off with
  | nil => rfl
  | cons b rest ih => simp [patch, ih]

theorem length_beBytes (n : Nat) (word : UInt64) : (beBytes n word).length = n := by
  induction n with
  | zero => rfl
  | succ n ih => simp [beBytes, ih]

theorem length_leBytes (n : Nat) (word : UInt64) : (leBytes n word).length = n := by
  induction n generalizing word with
  | zero => rfl
  | succ n ih => simp [leBytes, ih]

end WireCodec
