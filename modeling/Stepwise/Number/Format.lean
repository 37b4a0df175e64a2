import Stepwise.Number.Basic
import Stepwise.Number.Shortest

/-!
# Numbers as text

Three ways to write a number: by its shortest digits, with a fixed number of places, and in another base. The shortest
digits are laid out in one way for the language, and in another one for messages about limits.
-/

namespace Stepwise

structure NumberLayout where
  /-- integral values with at most this many digits are written in full -/
  fullDigits : Int
  /-- other values below one are written positionally with at most this many zeros after the point -/
  leadingZeros : Int
  /-- what follows an integral value that is written in full -/
  wholeEnd : Text
  /-- the least number of digits of an exponent -/
  exponentDigits : Nat

/-- Integral values below `10 ^ 21` are written in full, and others positionally down to `10 ^ (-4)`. -/
def Num.layout : NumberLayout := ⟨21, 3, [], 1⟩

/-- Integral values below `10 ^ 16` are written in full with a zero after the point, and others positionally down to
`10 ^ (-4)`; an exponent has two digits or more. -/
def Num.messageLayout : NumberLayout := ⟨16, 3, ".0".codes, 2⟩

namespace Decimal

def withSign (negative : Bool) (s : Text) : Text := if negative then '-'.toNat :: s else s

def scientific (layout : NumberLayout) (digits : Text) (exponent : Int) : Text :=
  let mantissa := match digits with
    | d :: [] => [d]
    | d :: rest => d :: '.'.toNat :: rest
    | [] => []
  let power := Text.ofNat exponent.natAbs
  mantissa ++ (if exponent < 0 then "e-".codes else "e+".codes) ++
    List.replicate (layout.exponentDigits - power.length) '0'.toNat ++ power

def text (layout : NumberLayout) (d : Decimal) : Text :=
  let digits := Text.ofNat d.digits
  let point : Int := digits.length + d.exponent
  if 0 ≤ d.exponent then
    if point ≤ layout.fullDigits then digits ++ List.replicate d.exponent.toNat '0'.toNat ++ layout.wholeEnd
    else scientific layout digits (point - 1)
  else if 0 < point then digits.take point.toNat ++ '.'.toNat :: digits.drop point.toNat
  else if -point ≤ layout.leadingZeros then "0.".codes ++ List.replicate (-point).toNat '0'.toNat ++ digits
  else scientific layout digits (point - 1)

end Decimal

namespace Num

def formatFloat (x : Float) : Text :=
  match Double.parts? x with
  | none => if x.isNaN then "NaN".codes else Decimal.withSign (Double.isNegative x) "Infinity".codes
  | some p =>
    if p.mantissa = 0 then "0".codes
    else Decimal.withSign p.negative ((Decimal.shortest p.mantissa p.exponent).text layout)

/-- The text of a number in messages about limits: an integer in full. -/
def messageText : Num → Text
  | .int n => Text.ofInt n
  | .float x =>
    match Double.parts? x with
    | none => if x.isNaN then "nan".codes else Decimal.withSign (Double.isNegative x) "inf".codes
    | some p =>
      Decimal.withSign p.negative (if p.mantissa = 0 then "0.0".codes
        else (Decimal.shortest p.mantissa p.exponent).text messageLayout)

/-- The text of a number. From the safe limit on an integer is written as the double nearest to it, so one beyond the
range of doubles has no text. -/
def format : Num → Except Breakdown Text
  | .int n => if n.natAbs < safeLimit then .ok (Text.ofInt n) else return formatFloat (← (Num.int n).toFloat)
  | .float x => .ok (formatFloat x)

def placed (n places : Nat) : Text :=
  let digits := Text.ofNat n
  let digits := List.replicate (places + 1 - digits.length) '0'.toNat ++ digits
  let whole := digits.take (digits.length - places)
  if places = 0 then whole else whole ++ '.'.toNat :: digits.drop (digits.length - places)

/-- A finite double with the given number of places, rounded from its exact value with halves to the even digit. The
sign stays, also on a zero. -/
def Parts.fixed (p : Double.Parts) (places : Nat) : Text :=
  let scaled :=
    if 0 ≤ p.exponent then p.mantissa * pow2 p.exponent.toNat * pow10 places
    else roundDiv (p.mantissa * pow10 places) (pow2 (-p.exponent).toNat)
  Decimal.withSign p.negative (placed scaled places)

/-- The digits of `n` in base `radix`, in front of `digits`; `fuel` bounds their number. -/
def radixDigits (radix : Nat) : Nat → Nat → Text → Text
  | 0, _, digits => digits
  | fuel + 1, n, digits =>
    let digits := Text.digitOf (n % radix) :: digits
    if n / radix = 0 then digits else radixDigits radix fuel (n / radix) digits

def inRadix (radix : Nat) (n : Int) : Text :=
  Decimal.withSign (n < 0) (radixDigits radix (n.natAbs.log2 + 1) n.natAbs [])

end Num

end Stepwise
