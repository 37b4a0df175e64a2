import Stepwise.Builtin.Basic
import Stepwise.Number.Format
import Stepwise.Number.Numeral
import Stepwise.Number.Root

/-!
# Functions of numbers

The mathematical functions, and the two functions that read a number at the start of a text.
-/

namespace Stepwise

namespace MathFunction

def exactly (f : Double.Parts → Int) (x : Float) : Num :=
  match Double.parts? x with
  | some p => .int (f p)
  | none => .float x

/-- The natural logarithm: negative infinity at zero, NaN below. -/
def ln (x : Float) : Float := if x == 0 then Double.infinity true else if x < 0 then Double.nan else x.log

def logarithm (base x : Float) : Float := if x > 0 then ln x / base else ln x

/-- The value of a function on doubles, neither normalised nor checked. -/
def onFloat (f : MathFunction) (x : Float) : Num :=
  match f with
  | .floor => exactly Double.Parts.floor x
  | .ceil => exactly Double.Parts.ceil x
  | .round => if x.isInf then .float x else exactly Double.Parts.floor (x + 0.5)
  | .trunc => exactly Double.Parts.truncate x
  | .abs => .float x.abs
  | .sqrt => .float (if x < 0 then Double.nan else x.sqrt)
  | .cbrt =>
    let root := x.abs.pow (1.0 / 3.0)
    .float (if Double.isNegative x then -root else root)
  | .sign => .int (if x > 0 then 1 else if x < 0 then -1 else 0)
  | .log => .float (ln x)
  | .log2 => .float (logarithm Namespace.ln2 x)
  | .log10 => .float (logarithm Namespace.ln10 x)
  | .exp =>
    let y := x.exp
    .float (if y.isInf && !x.isInf then Double.nan else y)
  | .sin => .float (if x.isInf then Double.nan else x.sin)
  | .cos => .float (if x.isInf then Double.nan else x.cos)
  | .tan => .float (if x.isInf then Double.nan else x.tan)

def onNum (f : MathFunction) (n : Num) (x : Float) : Num :=
  match f, n with
  | .floor, .int n | .ceil, .int n | .trunc, .int n => .int n
  | .abs, .int n => .int n.natAbs
  | f, _ => f.onFloat x

/-- The value of a function. A result that is out of range is NaN. -/
def apply (f : MathFunction) (n : Num) : Except Breakdown Num := do
  let x ← n.toFloat
  if x.isNaN then return .nan
  match (f.onNum n x).normalize with
  | .ok y => return y
  | .error _ => return .nan

end MathFunction

namespace Num

/-- The first of the greatest or least numbers, for `best` the one found so far. -/
def extremeFrom (greatest : Bool) (best : Num) : List Num → Num
  | [] => best
  | n :: rest =>
    let better := if greatest then best.lt n else n.lt best
    extremeFrom greatest (if better then n else best) rest

/-- Whether one of the numbers is NaN; they are looked at in order, up to the first that is. -/
def anyNaN : List Num → Except Breakdown Bool
  | [] => .ok false
  | n :: rest => do if ← n.isNaN then return true else anyNaN rest

/-- The greatest or the least of the numbers: NaN as soon as one is NaN. -/
def extreme (greatest : Bool) (numbers : List Num) : Except Breakdown Num := do
  if ← anyNaN numbers then return .nan
  match numbers with
  | [] => return infinity greatest
  | n :: rest => return extremeFrom greatest n rest

def hypot (numbers : List Num) : Except Breakdown Num := do
  if numbers.isEmpty then return .int 0
  normalize (.float (Double.hypot (← numbers.mapM toFloat)))

def atan2 (y x : Num) : Except Breakdown Num := do normalize (.float (Float.atan2 (← y.toFloat) (← x.toFloat)))

end Num

namespace Numeral

/-- Whether the base is a power of two. In such a base the digits of an integer are not limited. -/
def isBinaryBase (radix : Nat) : Bool := [2, 4, 8, 16, 32].contains radix

/-- The integer at the start of a text, in base `radix` from 2 to 36. Blanks and a sign may come first, and in base 16
also a mark. -/
def leadingInteger (radix : Nat) (s : Text) : Except Breakdown (Option Int) := do
  let (negative, body) := splitSign s.trimLeft
  let digits := body.takeWhile fun c => (Text.digitValue? c).isSome
  let marked := radix = 16 ∧ lowerAscii (digits.take 2) = "0x".codes
  let digits := if marked then digits.drop 2 else digits
  let values := (digits.filterMap Text.digitValue?).takeWhile (· < radix)
  if values.isEmpty then return none
  if !isBinaryBase radix then checkDigits values.length
  let n : Int := Positional.value radix values
  return some (if negative then -n else n)

/-- The exponent at the start of a text, as far as it makes one. -/
def leadingExponent (s : Text) : Text :=
  match s with
  | c :: rest =>
    if isExponentMark c then
      let sign := rest.take 1 |>.filter fun d => d = '+'.toNat ∨ d = '-'.toNat
      let digits := (rest.drop sign.length).takeWhile Text.isDecimal
      if digits.isEmpty then [] else c :: sign ++ digits
    else []
  | [] => []

/-- The digits at the start of a text, with a point and an exponent. -/
def leadingDecimal? (s : Text) : Option Text :=
  let whole := s.takeWhile Text.isDecimal
  let rest := s.dropWhile Text.isDecimal
  let point := rest.take 1 |>.filter (· = '.'.toNat)
  let fraction := if point.isEmpty then [] else (rest.drop 1).takeWhile Text.isDecimal
  if whole.isEmpty ∧ fraction.isEmpty then none
  else some (whole ++ point ++ fraction ++ leadingExponent (rest.drop (point.length + fraction.length)))

/-- The number at the start of a text. Blanks and a sign may come first. -/
def leadingNumber (s : Text) : Num :=
  let body := s.trimLeft
  let sign := body.take 1 |>.filter fun c => c = '+'.toNat ∨ c = '-'.toNat
  let rest := body.drop sign.length
  if "Infinity".codes.isPrefixOf rest then Num.ofText (sign ++ "Infinity".codes)
  else match leadingDecimal? rest with
    | some digits => Num.ofText (sign ++ digits)
    | none => .nan

end Numeral

end Stepwise
