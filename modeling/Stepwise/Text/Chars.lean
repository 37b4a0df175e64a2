import Stepwise.Sequence.Basic
import Stepwise.Text.Blank
import Stepwise.Text.Case
import Stepwise.Text.Search

/-!
# Packed texts

The texts that a program computes with are kept as sequences, so that it can add to a long text, or take a part of one,
without going through all of it. Each operation does to the code points what the operation of the same name does to a
text.
-/

namespace Stepwise

abbrev Chars := Sequence CodePoint

def Text.packed (s : Text) : Chars := Sequence.ofList s

@[simp] theorem Text.toList_packed (s : Text) : s.packed.toList = s := Sequence.toList_ofList s

namespace Chars

abbrev toText (s : Chars) : Text := s.toList

def order (s t : Chars) : Ordering := s.compareWith compare t

def join (sep : Chars) : List Chars → Chars
  | [] => .empty
  | first :: rest => .concat (first :: rest.flatMap fun piece => [sep, piece])

/-! ### Looking for a part -/

def occursAt (part s : Chars) (i : Nat) : Bool := (s.slice i (i + part.size)).same part

/-- The first position at or after `start` where `part`, which begins with `first`, occurs. The places where `first`
stands are tried one by one; when `tries` of them have been in vain, the rest is searched as a text. -/
def findWithin (part s : Chars) (first : CodePoint) : (tries start : Nat) → Option Nat
  | 0, start => Text.find? part.toList s.toList start
  | tries + 1, start =>
    match s.findIdxFrom? (· == first) start with
    | none => none
    | some i => if occursAt part s i then some i else findWithin part s first tries (i + 1)

/-- The first position at or after `start` where `part` occurs. There are so few tries that even those that go through
all of `part` take no longer together than a search as a text. -/
def find? (part s : Chars) (start : Nat) : Option Nat :=
  if s.size < start then none
  else match part.get? 0 with
    | none => some start
    | some first => findWithin part s first (2 + (s.size - start) / (64 + part.size)) start

def holds (s part : Chars) : Bool := (find? part s 0).isSome

def replaceFirst (s old new : Chars) : Chars :=
  match find? old s 0 with
  | none => s
  | some i => s.replaceSlice i (i + old.size) new

def startsWith (s part : Chars) : Bool := (s.take part.size).same part

def endsWith (s part : Chars) : Bool := part.size ≤ s.size && (s.drop (s.size - part.size)).same part

/-! ### Blanks and case -/

def trim (s : Chars) : Chars :=
  let stop := s.stopOf fun c => !Text.isBlank c
  s.slice ((s.findIdxFrom? (fun c => !Text.isBlank c) 0).getD stop) stop

def isAscii (s : Chars) : Bool := !s.any (128 ≤ ·)

def toUpper (s : Chars) : Chars := if s.isAscii then s.map Text.asciiUpper else s.toText.toUpper.packed

def toLower (s : Chars) : Chars := if s.isAscii then s.map Text.asciiLower else s.toText.toLower.packed

end Chars

/-- A text that stands in a program, with its packed form at hand. -/
structure Literal where
  text : Text
  chars : Chars
  isPacked : chars = text.packed

def Literal.ofText (s : Text) : Literal := ⟨s, s.packed, rfl⟩

theorem Literal.ofText_text (l : Literal) : .ofText l.text = l := by
  obtain ⟨text, chars, rfl⟩ := l
  rfl

end Stepwise
