import WireCodec.Bytes

/-! Bytes as hexadecimal text, two digits each. Reading is total: a character that is no
digit counts as zero, and a digit without a partner is dropped. Long bytes are told apart
by a digest of 64 bits. -/
namespace WireCodec.Text

def hexDigit (c : Char) : Nat :=
  if c.isDigit then c.toNat - '0'.toNat
  else if 'a' ≤ c ∧ c ≤ 'f' then c.toNat - 'a'.toNat + 10
  else if 'A' ≤ c ∧ c ≤ 'F' then c.toNat - 'A'.toNat + 10 else 0

def ofHexDigits : List Char → List UInt8
  | high :: low :: rest => (hexDigit high * 16 + hexDigit low).toUInt8 :: ofHexDigits rest
  | _ => []

def ofHex (text : String) : List UInt8 := ofHexDigits text.toList

def toHex (bytes : List UInt8) : String :=
  String.ofList (bytes.flatMap fun b => [Nat.digitChar (b.toNat / 16), Nat.digitChar (b.toNat % 16)])

def wordHex (word : UInt64) : String := toHex (beBytes 8 word)

def digest (bytes : List UInt8) : UInt64 :=
  bytes.foldl (fun h b => (h ^^^ b.toUInt64) * 0x100000001b3) 0xcbf29ce484222325

end WireCodec.Text
