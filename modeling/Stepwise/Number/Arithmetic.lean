import Stepwise.Number.Basic

/-!
# Arithmetic

The arithmetic operators on numbers. Two integers combine exactly; as soon as a double takes part, the integer is
rounded first. Results are normalised, the exact remainder of integers apart.
-/

namespace Stepwise.Num

/-- Combine exactly on integers and by the double operation otherwise, then normalise. -/
def combine (exact : Int → Int → Int) (rounded : Float → Float → Float) (a b : Num) : Except Breakdown Num :=
  match a, b with
  | .int m, .int n => normalize (.int (exact m n))
  | a, b => do normalize (.float (rounded (← a.toFloat) (← b.toFloat)))

def add (a b : Num) : Except Breakdown Num := combine (· + ·) (· + ·) a b

def sub (a b : Num) : Except Breakdown Num := combine (· - ·) (· - ·) a b

def mul (a b : Num) : Except Breakdown Num := combine (· * ·) (· * ·) a b

def neg : Num → Except Breakdown Num
  | .int n => normalize (.int (-n))
  | .float x => normalize (.float (-x))

def hasSign : Num → Bool
  | .int n => n < 0
  | .float x => Double.isNegative x

/-- The quotient. Two integers give the double nearest to their exact quotient; a zero divisor gives an infinity, or
NaN for a zero dividend. -/
def div (a b : Num) : Except Breakdown Num := do
  if (← a.isNaN) then return nan
  if (← b.isNaN) then return nan
  if b.isZero then
    return if a.isZero then nan else infinity (a.lt (.int 0) != b.hasSign)
  match a, b with
  | .int m, .int n =>
    match Double.ofRatio? ((m < 0) != (n < 0)) m.natAbs n.natAbs with
    | some x => normalize (.float x)
    | none => .error .integerTooLarge
  | a, b => normalize (.float ((← a.toFloat) / (← b.toFloat)))

/-- The remainder, with the sign of the dividend. An infinite divisor leaves the dividend as it is. -/
def rem (a b : Num) : Except Breakdown Num := do
  if (← a.isNaN) then return nan
  if (← b.isNaN) then return nan
  if b.isZero then return nan
  if (← a.isInfinite) then return nan
  if (← b.isInfinite) then return a
  match a, b with
  | .int m, .int n => return .int (m.tmod n)
  | a, b =>
    match Double.parts? (← a.toFloat), Double.parts? (← b.toFloat) with
    | some p, some q => normalize (.float (p.remainder q))
    | _, _ => return nan

/-- The power of doubles. A result out of range is positive infinity, also for a negative base, and so is zero to a
negative power; a negative base takes integral exponents only. -/
def powFloat (x y : Float) : Float :=
  if x.isNaN || y.isNaN then Double.nan
  else if x < 0 && !y.isInf && !Double.isIntegral y then Double.nan
  else if x == 0 && y < 0 && !y.isInf then Double.infinity false
  else
    let z := x.pow y
    if z.isInf && !x.isInf && !y.isInf then Double.infinity false else z

def pow (a b : Num) : Except Breakdown Num := do normalize (.float (powFloat (← a.toFloat) (← b.toFloat)))

end Stepwise.Num
