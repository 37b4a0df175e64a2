/-!
# Texts

A text is a sequence of code points. Surrogates are code points of their own and never join, so a text may hold a
lone one; lengths and positions count code points.
-/

namespace Stepwise

/-- A code point, surrogates included. -/
abbrev CodePoint := Nat

abbrev Text := List CodePoint

end Stepwise

def String.codes (s : String) : Stepwise.Text := s.toList.map Char.toNat

namespace Stepwise.Text

def inRanges (ranges : List (CodePoint × CodePoint)) (c : CodePoint) : Bool :=
  ranges.any fun r => r.1 ≤ c && c ≤ r.2

/-- A set of code points, as the lengths of the stretches outside and inside it, in turn. -/
abbrev Stretches := List Nat

def inStretches : Stretches → CodePoint → Bool
  | outside :: inside :: rest, c =>
    if c < outside + inside then outside ≤ c else inStretches rest (c - (outside + inside))
  | _, _ => false

def isAsciiDigit (c : CodePoint) : Bool := 48 ≤ c && c ≤ 57

def isAsciiLetter (c : CodePoint) : Bool := 65 ≤ c && c ≤ 90 || 97 ≤ c && c ≤ 122

/-- The value of a digit or letter in positional notation up to base 36. -/
def digitValue? (c : CodePoint) : Option Nat :=
  if isAsciiDigit c then some (c - 48)
  else if 97 ≤ c && c ≤ 122 then some (c - 87)
  else if 65 ≤ c && c ≤ 90 then some (c - 55)
  else none

def digitOf (d : Nat) : CodePoint := if d < 10 then d + 48 else d + 87

def hexValue? (c : CodePoint) : Option Nat := (digitValue? c).filter (· < 16)

def hexNumber? (s : Text) : Option Nat :=
  s.foldl (fun acc c => do return (← acc) * 16 + (← hexValue? c)) (some 0)

def ofNat (n : Nat) : Text := (Nat.toDigits 10 n).map Char.toNat

def ofInt (n : Int) : Text := if n < 0 then '-'.toNat :: ofNat n.natAbs else ofNat n.natAbs

def hexDigits (width n : Nat) : Text :=
  (List.range width).reverse.map fun i => digitOf (n / Nat.pow 16 i % 16)

def join (sep : Text) (pieces : List Text) : Text := sep.intercalate pieces

/-- Order by code points, a proper beginning first. -/
def le : Text → Text → Bool
  | [], _ => true
  | _ :: _, [] => false
  | a :: s, b :: t => a < b || (a == b && le s t)

/-- The text as a string; a lone surrogate shows as a question mark. -/
def toString (s : Text) : String :=
  String.ofList (s.map fun c => if c.isValidChar then Char.ofNat c else '?')

end Stepwise.Text
