import ArrowScript.Text.Ranges

/-!
White space: the 25 characters with the Unicode property White_Space. Tokens may be separated by
any of them, and the interactive shell trims its lines by them.
-/

namespace ArrowScript.Text

def blankRanges : Ranges :=
  [(0x9, 0xD), (0x20, 0x20), (0x85, 0x85), (0xA0, 0xA0), (0x1680, 0x1680), (0x2000, 0x200A),
   (0x2028, 0x2029), (0x202F, 0x202F), (0x205F, 0x205F), (0x3000, 0x3000)]

def isBlank (c : Char) : Bool := blankRanges.contains c

/-- The text without the blanks at its two ends. -/
def trim (cs : List Char) : List Char :=
  ((cs.dropWhile isBlank).reverse.dropWhile isBlank).reverse

example : blankRanges.ascending = true := by decide

end ArrowScript.Text
