/-! Lines of a text. A line feed ends a line, together with one carriage return before it; the last
line need not be ended. -/
namespace ComplexSeries.Text

/-- `line` holds the characters of the present line, the last one first. -/
def linesFrom (line : List Char) : List Char → List (List Char)
  | [] => if line.isEmpty then [] else [line.reverse]
  | c :: cs =>
    if c = '\n' then
      let ended := if line.head? = some '\r' then line.drop 1 else line
      ended.reverse :: linesFrom [] cs
    else linesFrom (c :: line) cs

def lines (cs : List Char) : List (List Char) := linesFrom [] cs

def unlines (ls : List (List Char)) : List Char := ['\n'].intercalate ls

end ComplexSeries.Text
