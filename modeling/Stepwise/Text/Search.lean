import Stepwise.Text.Basic

/-!
# Looking for a part of a text

A part is looked for from left to right. At each place a hash of the code points there is compared with that of the part,
and the code points themselves only when the two agree. The hash at the next place is made from the one before it, so
that the length of the part does not matter for how long the search takes.
-/

namespace Stepwise.Text

def codePointCount : Nat := 1114112

def hashModulus : Nat := 2147483647

/-- The hash of a text: its code points as the digits of a number, modulo a prime. -/
def rollingHash (s : Text) : Nat := s.foldl (fun h c => (h * codePointCount + c) % hashModulus) 0

/-- The weight of the digit in front of a text, modulo the same prime. -/
def frontWeight (s : Text) : Nat := s.foldl (fun w _ => w * codePointCount % hashModulus) 1

/-- The hash of a text that loses the code point `first` at its front and gets `last` at its end, for `weight` the
weight of what it loses. -/
def rolled (weight h first last : Nat) : Nat :=
  (h * codePointCount + last + (hashModulus - first * weight % hashModulus)) % hashModulus

/-- The first place where `part` occurs in `s`, which begins at `pos`. `h` is the hash of as many code points of `s`
as `part` has, and `ahead` is what follows them. -/
def findFrom (part : Text) (target weight : Nat) : Nat → Nat → Text → Text → Option Nat
  | h, pos, s, [] => if h == target && part.isPrefixOf s then some pos else none
  | h, pos, s, c :: ahead =>
    if h == target && part.isPrefixOf s then some pos
    else findFrom part target weight (rolled weight h (s.headD 0) c) (pos + 1) s.tail ahead

def findFirst? (part s : Text) : Option Nat :=
  let size := part.length
  let window := s.take size
  if window.length < size then none
  else findFrom part (rollingHash part) (frontWeight part) (rollingHash window) 0 s (s.drop size)

def find? (part s : Text) (start : Nat) : Option Nat :=
  if s.length < start then none else (findFirst? part (s.drop start)).map (start + ·)

/-- Cutting at `sep`: `pieces` are the pieces so far, last one first. -/
def splitFrom (sep : Text) : Nat → List Text → Text → List Text
  | 0, pieces, s => (s :: pieces).reverse
  | fuel + 1, pieces, s =>
    match findFirst? sep s with
    | none => (s :: pieces).reverse
    | some i => splitFrom sep fuel (s.take i :: pieces) (s.drop (i + sep.length))

/-- The pieces between the occurrences of a non-empty separator, found from left to right without overlap. Each cut makes
the rest shorter, so that there are no more cuts than code points. -/
def splitOn (s sep : Text) : List Text := splitFrom sep s.length [] s

end Stepwise.Text
