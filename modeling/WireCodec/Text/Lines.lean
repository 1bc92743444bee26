/-! Lines of a text. A line ends at a line feed, with a carriage return before it taken as
part of the ending; text behind the last ending is a line of its own unless it is empty. -/
namespace WireCodec.Text

def dropReturn (line : List Char) : List Char :=
  if line.getLast? = some '\r' then line.dropLast else line

def splitLines (line : List Char) : List Char → List (List Char)
  | [] => if line.isEmpty then [] else [line]
  | c :: rest =>
    if c = '\n' then dropReturn line :: splitLines [] rest else splitLines (line ++ [c]) rest

def lines (text : String) : List String := (splitLines [] text.toList).map String.ofList

end WireCodec.Text
