import Stepwise.Number.Basic
import Stepwise.Number.Positional
import Stepwise.Text.Blank
import Stepwise.Text.Digit

/-!
# Numerals

Reading numbers from texts. Decimal digits of every script count. Two readers share one grammar: the literals of
programs and settings, which may have blanks around them and single underscores between digits, and the conversion
of texts in the language, which knows `Infinity`, hexadecimal integers and the empty text. An integer literal has a
limited number of digits.
-/

namespace Stepwise

structure Numeral where
  negative : Bool
  digits : Nat
  exponent : Int

namespace Numeral

def natural? (s : Text) : Option Nat := (s.mapM Text.decimalValue?).map (Positional.value 10)

def splitSign : Text → Bool × Text
  | c :: rest => if c = '-'.toNat then (true, rest) else if c = '+'.toNat then (false, rest) else (false, c :: rest)
  | [] => (false, [])

def isExponentMark (c : CodePoint) : Bool := c == 'e'.toNat || c == 'E'.toNat

/-- The exponent that makes up the whole text, or zero for the empty text. -/
def exponent? : Text → Option Int
  | [] => some 0
  | c :: rest =>
    if isExponentMark c then
      let (negative, digits) := splitSign rest
      if digits.isEmpty then none
      else (natural? digits).map fun n => if negative then -(n : Int) else n
    else none

/-- Digits with an optional point and exponent, for the text after the sign. -/
def unsigned? (negative : Bool) (s : Text) : Option Numeral := do
  let whole := s.takeWhile Text.isDecimal
  let afterWhole := s.dropWhile Text.isDecimal
  let (fraction, tail) := match afterWhole with
    | c :: rest =>
      if c = '.'.toNat then (rest.takeWhile Text.isDecimal, rest.dropWhile Text.isDecimal) else ([], afterWhole)
    | [] => ([], [])
  if whole.isEmpty && fraction.isEmpty then none
  let digits ← natural? (whole ++ fraction)
  let exponent ← exponent? tail
  return ⟨negative, digits, exponent - fraction.length⟩

def parse? (s : Text) : Option Numeral := unsigned? (splitSign s).1 (splitSign s).2

def toFloat (n : Numeral) : Float := Double.ofDecimal n.negative n.digits n.exponent

/-- A blank that may stand around a literal: the information separators may not. -/
def isMargin (c : CodePoint) : Bool := Text.isBlank c && !(0x1c ≤ c && c ≤ 0x1f)

def stripMargin (s : Text) : Text := ((s.dropWhile isMargin).reverse.dropWhile isMargin).reverse

/-- The text without its underscores, each of which has to stand between two digits; `afterDigit` tells whether a
digit came just before. -/
def ungroup? (afterDigit : Bool) : Text → Option Text
  | [] => some []
  | c :: rest =>
    if c = '_'.toNat then
      if afterDigit && (rest.head?.any Text.isDecimal) then ungroup? false rest else none
    else (ungroup? (Text.isDecimal c) rest).map (c :: ·)

/-- Nothing, unless there are more digits than are read as an integer. -/
def checkDigits (count : Nat) : Except Breakdown Unit :=
  if digitLimit < count then throw (.tooManyDigits count) else return

def isGrouped (c : CodePoint) : Bool := Text.isDecimal c || c == '_'.toNat

/-- An integer literal. The digits are counted before what follows them is looked at. -/
def readInt (s : Text) : Except Breakdown Int := do
  let (negative, body) := splitSign (stripMargin s)
  match ungroup? false (body.takeWhile isGrouped) with
  | none => throw (.notInteger s)
  | some digits =>
    checkDigits digits.length
    if digits.isEmpty || body.any (!isGrouped ·) then throw (.notInteger s)
    let n := (natural? digits).getD 0
    return if negative then -n else n

def lowerAscii (s : Text) : Text := s.map fun c => if 65 ≤ c ∧ c ≤ 90 then c + 32 else c

def named? (negative : Bool) (name : Text) : Option Float :=
  let name := lowerAscii name
  if name = "inf".codes ∨ name = "infinity".codes then some (Double.infinity negative)
  else if name = "nan".codes then some Double.nan
  else none

/-- A double, by its name or its digits, that makes up the whole text. -/
def double? (s : Text) : Option Float :=
  let (negative, rest) := splitSign s
  match named? negative rest with
  | some x => some x
  | none => (unsigned? negative rest).map toFloat

def readFloat? (s : Text) : Option Float := do double? (← ungroup? false (stripMargin s))

/-- The value of a hexadecimal integer, without its mark. Decimal digits of every script count. -/
def hexadecimal? (s : Text) : Option Nat :=
  if s.isEmpty then none
  else (s.mapM fun c => (Text.hexValue? c).or (Text.decimalValue? c)).map (Positional.value 16)

end Numeral

namespace Num

/-- Whether the text is digits only, where one newline at the end does not count. -/
def isIntegerLiteral (s : Text) : Bool :=
  let body := if s.getLast? = some 10 then s.dropLast else s
  !body.isEmpty && body.all Text.isDecimal

/-- The value of a number literal: exact when it has digits only. -/
def ofLiteral (s : Text) : Except Breakdown Num :=
  if isIntegerLiteral s then return .int (← Numeral.readInt s)
  else
    match Numeral.readFloat? s with
    | some x => .ok (ofFloat x)
    | none => .error (.notNumber s)

def ofText (s : Text) : Num :=
  let body := s.trim
  if body.isEmpty then .int 0
  else if body = "Infinity".codes ∨ body = "+Infinity".codes then infinity false
  else if body = "-Infinity".codes then infinity true
  else
    let hexadecimal := body.take 2 = "0x".codes ∨ body.take 2 = "0X".codes
    if hexadecimal then
      match Numeral.hexadecimal? (body.drop 2) with
      | some n => .int n
      | none => nan
    else
      match Numeral.parse? body with
      | some n => ofFloat n.toFloat
      | none => nan

end Num

end Stepwise
