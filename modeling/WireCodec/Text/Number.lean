/-! Number text used by listings and messages: lower-case hexadecimal without
leading zeros, and right-aligned columns. -/
namespace WireCodec.Text

def hex (n : Nat) : String := String.ofList (Nat.toDigits 16 n)

def hexMarked (n : Nat) : String := "0x" ++ hex n

def alignRight (width : Nat) (text : String) : String :=
  String.ofList (List.replicate (width - text.length) ' ') ++ text

def commaList (items : List String) : String := String.intercalate ", " items

end WireCodec.Text
