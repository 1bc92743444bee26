/-! Bytes read as UTF-8 text. A byte run that starts like a character and breaks
off is replaced as a whole by one replacement character; every other byte that
fits nowhere is replaced on its own. -/
namespace WireCodec.Text

def replacement : Char := Char.ofNat 0xfffd

structure Lead where
  owed : Nat
  low : UInt8
  high : UInt8
  bits : Nat
  deriving DecidableEq

def lead? (b : UInt8) : Option Lead :=
  let n := b.toNat
  if b < 0x80 then some ⟨0, 0, 0, n⟩
  else if b < 0xc2 then none
  else if b < 0xe0 then some ⟨1, 0x80, 0xbf, n - 0xc0⟩
  else if b = 0xe0 then some ⟨2, 0xa0, 0xbf, 0⟩
  else if b = 0xed then some ⟨2, 0x80, 0x9f, 0xd⟩
  else if b < 0xf0 then some ⟨2, 0x80, 0xbf, n - 0xe0⟩
  else if b = 0xf0 then some ⟨3, 0x90, 0xbf, 0⟩
  else if b < 0xf4 then some ⟨3, 0x80, 0xbf, n - 0xf0⟩
  else if b = 0xf4 then some ⟨3, 0x80, 0x8f, 4⟩
  else none

/-- `bits` holds what was read of a character under way. An unexpected byte closes it and starts
afresh. -/
def lossyFrom : Option Lead → List UInt8 → List Char
  | none, [] => []
  | some _, [] => [replacement]
  | none, b :: rest =>
    match lead? b with
    | none => replacement :: lossyFrom none rest
    | some l =>
      if l.owed = 0 then Char.ofNat l.bits :: lossyFrom none rest else lossyFrom (some l) rest
  | some l, b :: rest =>
    if l.low ≤ b && b ≤ l.high then
      let bits := l.bits * 64 + (b.toNat - 0x80)
      if l.owed = 1 then Char.ofNat bits :: lossyFrom none rest
      else lossyFrom (some ⟨l.owed - 1, 0x80, 0xbf, bits⟩) rest
    else
      replacement ::
        match lead? b with
        | none => replacement :: lossyFrom none rest
        | some l' =>
          if l'.owed = 0 then Char.ofNat l'.bits :: lossyFrom none rest
          else lossyFrom (some l') rest

def lossy (bytes : List UInt8) : String := String.ofList (lossyFrom none bytes)

end WireCodec.Text
