import WireCodec.Text.Hidden
import WireCodec.Text.Number

/-! Names inside diagnostic text are quoted: quotes and backslashes are escaped,
and characters that would not show on a line of text are written by number. -/
namespace WireCodec.Text

def escapeChar (c : Char) : String :=
  if c = '\x00' then "\\0"
  else if c = '\t' then "\\t"
  else if c = '\r' then "\\r"
  else if c = '\n' then "\\n"
  else if c = '"' then "\\\""
  else if c = '\\' then "\\\\"
  else if isHidden c then "\\u\x7b" ++ hex c.toNat ++ "\x7d"
  else String.singleton c

def quoted (s : String) : String :=
  "\"" ++ String.join (s.toList.map escapeChar) ++ "\""

end WireCodec.Text
