import Stepwise.Number.Basic

/-!
# Square roots of sums of squares

The length of a vector of doubles, rounded once: the sum of the squares is exact, and its square root is taken with so
many bits that one more bit, which tells whether the root is exact, decides the rounding.
-/

namespace Stepwise

/-- Steps of Newton's method for the square root of `n`, from `guess` down; `fuel` bounds their number. -/
def rootFrom (n : Nat) : Nat → Nat → Nat
  | 0, guess => guess
  | fuel + 1, guess =>
    let better := (guess + n / guess) / 2
    if better < guess then rootFrom n fuel better else guess

def squareRoot (n : Nat) : Nat := if n = 0 then 0 else rootFrom n (n.log2 + 2) (pow2 (n.log2 / 2 + 1))

namespace Double

/-- The double nearest to `n · 2 ^ exponent`, infinite beyond the range. -/
def ofScaled (n : Nat) (exponent : Int) : Float :=
  let x? := if 0 ≤ exponent then ofRatio? false (n * pow2 exponent.toNat) 1 else ofRatio? false n (pow2 (-exponent).toNat)
  x?.getD (infinity false)

def rootOfScaled (n : Nat) (exponent : Int) : Float :=
  let shift := 64 - n.log2 / 2
  let scaled := n * pow2 (2 * shift)
  let root := squareRoot scaled
  let tail := if root * root = scaled then 0 else 1
  ofScaled (2 * root + tail) (exponent - shift - 1)

/-- The length of the vector with the given components, all finite. -/
def lengthOfParts (components : List Parts) : Float :=
  let low := components.foldl (fun low p => min low p.exponent) 0
  let sum := components.foldl (fun sum p =>
    let n := p.mantissa * pow2 (p.exponent - low).toNat
    sum + n * n) 0
  rootOfScaled sum low

/-- The length of a vector. An infinite component makes it infinite, whatever the others are. -/
def hypot (components : List Float) : Float :=
  match components.mapM parts? with
  | some parts => lengthOfParts parts
  | none => if components.any Float.isInf then infinity false else nan

end Double

end Stepwise
