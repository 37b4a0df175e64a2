import Stepwise.Number.Power

/-!
# Doubles as exact quantities

A finite double is `mantissa · 2 ^ exponent` with integers on both sides. Everything that has to be exact
(comparison with integers, truncation, remainders, rounding of a quotient) is done on these integers.
-/

namespace Stepwise

/-- What a double, or an integer, stands for. -/
inductive Quantity
  | nan
  | infinite (negative : Bool)
  /-- `mantissa · 2 ^ exponent` -/
  | finite (mantissa exponent : Int)

/-- The order of `m · 2 ^ p` and `n · 2 ^ q`, read at the smaller exponent. -/
def compareScaled (m p n q : Int) : Ordering :=
  let low := min p q
  compare (m * pow2 (p - low).toNat) (n * pow2 (q - low).toNat)

def Quantity.compare? : Quantity → Quantity → Option Ordering
  | .nan, _ => none
  | _, .nan => none
  | .finite m p, .finite n q => some (compareScaled m p n q)
  | .infinite s, .infinite t => some (compare (if s then 0 else 1) (if t then 0 else 1))
  | .infinite s, .finite _ _ => some (if s then .lt else .gt)
  | .finite _ _, .infinite t => some (if t then .gt else .lt)

/-- `num / den` to the nearest integer, a half to the even neighbour. -/
def roundDiv (num den : Nat) : Nat :=
  let q := num / den
  let r := num % den
  if 2 * r < den then q else if den < 2 * r then q + 1 else q + q % 2

namespace Double

structure Parts where
  negative : Bool
  mantissa : Nat
  exponent : Int

def parts? (x : Float) : Option Parts :=
  let bits := x.toBits.toNat
  let field := bits / pow2 52 % 2048
  let fraction := bits % pow2 52
  if field = 2047 then none
  else some ⟨pow2 63 ≤ bits, if field = 0 then fraction else fraction + pow2 52, (max field 1 : Nat) - 1075⟩

def isNegative (x : Float) : Bool := pow2 63 ≤ x.toBits.toNat

def Parts.signed (p : Parts) : Int := if p.negative then -p.mantissa else p.mantissa

def quantity (x : Float) : Quantity :=
  match parts? x with
  | some p => .finite p.signed p.exponent
  | none => if x.isNaN then .nan else .infinite (isNegative x)

def Parts.isIntegral (p : Parts) : Bool := 0 ≤ p.exponent || p.mantissa % pow2 (-p.exponent).toNat = 0

def Parts.truncate (p : Parts) : Int :=
  let n : Nat := if 0 ≤ p.exponent then p.mantissa * pow2 p.exponent.toNat else p.mantissa / pow2 (-p.exponent).toNat
  if p.negative then -n else n

def Parts.floor (p : Parts) : Int :=
  if 0 ≤ p.exponent then p.signed * pow2 p.exponent.toNat else p.signed.fdiv (pow2 (-p.exponent).toNat)

def Parts.ceil (p : Parts) : Int :=
  if 0 ≤ p.exponent then p.signed * pow2 p.exponent.toNat else -((-p.signed).fdiv (pow2 (-p.exponent).toNat))

def isIntegral (x : Float) : Bool := (parts? x).any Parts.isIntegral

def atLeastPower (num den : Nat) (k : Int) : Bool :=
  if 0 ≤ k then den * pow2 k.toNat ≤ num else den ≤ num * pow2 (-k).toNat

/-- The bits of the double nearest to `num / den`, a tie to the even mantissa; none when it is out of range. -/
def nearestBits? (num den : Nat) : Option Nat :=
  if num = 0 then some 0 else
  let k : Int := (num.log2 : Int) - den.log2
  let top := if atLeastPower num den k then k else k - 1
  let e := max (top - 52) (-1074)
  let m := if 0 ≤ e then roundDiv num (den * pow2 e.toNat) else roundDiv (num * pow2 (-e).toNat) den
  let bits := (e + 1074).toNat * pow2 52 + m
  if bits < 2047 * pow2 52 then some bits else none

def ofSignedBits (negative : Bool) (bits : Nat) : Float :=
  Float.ofBits (UInt64.ofNat (if negative then bits + pow2 63 else bits))

/-- The double nearest to `± num / den`; none when it is out of range. -/
def ofRatio? (negative : Bool) (num den : Nat) : Option Float :=
  (nearestBits? num den).map (ofSignedBits negative)

def infinity (negative : Bool) : Float := ofSignedBits negative (2047 * pow2 52)

def nan : Float := Float.ofBits 0x7ff8000000000000

/-- The double nearest to an integer; none when it is out of range. -/
def ofInt? (n : Int) : Option Float := ofRatio? (n < 0) n.natAbs 1

/-- The double nearest to `± digits · 10 ^ exponent`, infinite beyond the range. An exponent far outside the range is
decided by the number of bits, without building the power. -/
def ofDecimal (negative : Bool) (digits : Nat) (exponent : Int) : Float :=
  let magnitude : Int := (digits.log2 : Int) * 30103 / 100000 + exponent
  if digits = 0 ∨ magnitude < -400 then ofSignedBits negative 0
  else if 400 < magnitude then infinity negative
  else
    let x? :=
      if 0 ≤ exponent then ofRatio? negative (digits * pow10 exponent.toNat) 1
      else ofRatio? negative digits (pow10 (-exponent).toNat)
    x?.getD (infinity negative)

/-- The remainder of `a` by `b ≠ 0`, exact and with the sign of `a`. -/
def Parts.remainder (a b : Parts) : Float :=
  let low := min a.exponent b.exponent
  let m := a.mantissa * pow2 (a.exponent - low).toNat
  let n := b.mantissa * pow2 (b.exponent - low).toNat
  let r := m % n
  let x? := if 0 ≤ low then ofRatio? a.negative (r * pow2 low.toNat) 1 else ofRatio? a.negative r (pow2 (-low).toNat)
  x?.getD nan

end Double

end Stepwise
