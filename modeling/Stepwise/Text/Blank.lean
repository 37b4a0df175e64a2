import Stepwise.Text.Basic

/-!
# Blanks

The code points that count as white space: those of the Unicode property, with the information separators
U+001C to U+001F and without the byte order mark.
-/

namespace Stepwise.Text

def blankRanges : List (CodePoint × CodePoint) := [
  (0x9, 0xd), (0x1c, 0x20), (0x85, 0x85), (0xa0, 0xa0), (0x1680, 0x1680), (0x2000, 0x200a), (0x2028, 0x2029),
  (0x202f, 0x202f), (0x205f, 0x205f), (0x3000, 0x3000)]

def isBlank (c : CodePoint) : Bool := inRanges blankRanges c

def trimLeft (s : Text) : Text := s.dropWhile isBlank

def trim (s : Text) : Text := ((s.dropWhile isBlank).reverse.dropWhile isBlank).reverse

end Stepwise.Text
