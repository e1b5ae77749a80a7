/-! White space as the Unicode property of that name defines it. A text is trimmed by dropping
blanks at both ends. -/
namespace ComplexSeries.Text

/-- The property `White_Space`: twenty-five code points, six of them ASCII. -/
def isBlank (c : Char) : Bool :=
  (0x9 ≤ c.val && c.val ≤ 0xD) || c.val = 0x20 || c.val = 0x85 || c.val = 0xA0 || c.val = 0x1680 ||
  (0x2000 ≤ c.val && c.val ≤ 0x200A) || c.val = 0x2028 || c.val = 0x2029 || c.val = 0x202F ||
  c.val = 0x205F || c.val = 0x3000

/-- Blanks are dropped wherever they stand. -/
def withoutBlanks (cs : List Char) : List Char := cs.filter (!isBlank ·)

def trimStart (cs : List Char) : List Char := cs.dropWhile isBlank

def trim (cs : List Char) : List Char := (trimStart (trimStart cs).reverse).reverse

end ComplexSeries.Text
