import Stepwise.Text.Printable

/-!
# Quoted texts

Two ways to write a text between quotes. `shown` is for messages: single quotes where possible, and everything that
is not printable by its number. `quoted` is for data: double quotes, and only quotes, backslashes and control
characters escaped.
-/

namespace Stepwise.Text

/-- The escapes that have a letter of their own in data, beside the quote and the backslash. -/
def letterEscape? (c : CodePoint) : Option CodePoint :=
  if c = 8 then some 'b'.toNat
  else if c = 9 then some 't'.toNat
  else if c = 10 then some 'n'.toNat
  else if c = 12 then some 'f'.toNat
  else if c = 13 then some 'r'.toNat
  else none

def quotedCode (c : CodePoint) : Text :=
  if c = '"'.toNat ∨ c = '\\'.toNat then ['\\'.toNat, c]
  else if c < 32 then
    match letterEscape? c with
    | some e => ['\\'.toNat, e]
    | none => "\\u".codes ++ hexDigits 4 c
  else [c]

def quoted (s : Text) : Text := '"'.toNat :: s.flatMap quotedCode ++ ['"'.toNat]

def shownCode (q c : CodePoint) : Text :=
  if c = q ∨ c = '\\'.toNat then ['\\'.toNat, c]
  else if c = 9 then "\\t".codes
  else if c = 10 then "\\n".codes
  else if c = 13 then "\\r".codes
  else if isPrintable c then [c]
  else if c < 0x100 then "\\x".codes ++ hexDigits 2 c
  else if c < 0x10000 then "\\u".codes ++ hexDigits 4 c
  else "\\U".codes ++ hexDigits 8 c

/-- The text as a message shows it: in single quotes, or in double quotes when it holds a single quote and no
double one. -/
def shown (s : Text) : Text :=
  let q := if s.contains '\''.toNat && !s.contains '"'.toNat then '"'.toNat else '\''.toNat
  q :: s.flatMap (shownCode q) ++ [q]

end Stepwise.Text
