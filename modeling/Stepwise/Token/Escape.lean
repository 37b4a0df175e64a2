import Stepwise.Text.Basic

/-!
# Escapes in string literals

A backslash gives the next code point a meaning: a control character, a code point by its number, or nothing at all
before a line feed. Any other code point after a backslash stands for itself.
-/

namespace Stepwise.Text

def controlOf? (c : CodePoint) : Option CodePoint :=
  if c = 'n'.toNat then some 10
  else if c = 't'.toNat then some 9
  else if c = 'r'.toNat then some 13
  else if c = 'b'.toNat then some 8
  else if c = 'f'.toNat then some 12
  else if c = 'v'.toNat then some 11
  else if c = '0'.toNat then some 0
  else none

/-- What the escape at the start of `s`, the text after a backslash, stands for, and how many code points it takes. -/
def escapeAt (s : Text) : Text × Nat :=
  match s with
  | [] => (['\\'.toNat], 0)
  | c :: rest =>
    let hex? (width : Nat) : Option Nat :=
      if (rest.take width).length = width then hexNumber? (rest.take width) else none
    match (if c = 'u'.toNat then hex? 4 else none), (if c = 'x'.toNat then hex? 2 else none) with
    | some n, _ => ([n], 5)
    | none, some n => ([n], 3)
    | none, none => if c = 10 then ([], 1) else ([(controlOf? c).getD c], 1)

/-- Decoding, where the next `skip` code points belong to an escape that has been dealt with. -/
def unescapeFrom : Text → (skip : Nat) → Text
  | [], _ => []
  | _ :: rest, skip + 1 => unescapeFrom rest skip
  | c :: rest, 0 =>
    if c = '\\'.toNat then (escapeAt rest).1 ++ unescapeFrom rest (escapeAt rest).2
    else c :: unescapeFrom rest 0

def unescape (body : Text) : Text := unescapeFrom body 0

end Stepwise.Text
