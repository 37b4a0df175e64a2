import Stepwise.Breakdown
import Stepwise.Number.Double

/-!
# Numbers

A number of the language is an exact integer of any size or a double. Integer literals stay exact; the results of
arithmetic are normalised, so that integers from `2 ^ 53` on become doubles and integral doubles below it become
integers. Comparison between the two kinds is exact.
-/

namespace Stepwise

inductive Num
  | int (n : Int)
  | float (x : Float)

namespace Num

/-- From here on integers are no longer all doubles. -/
def safeLimit : Nat := pow2 53

def nan : Num := .float Double.nan

def infinity (negative : Bool) : Num := .float (Double.infinity negative)

def quantity : Num → Quantity
  | .int n => .finite n 0
  | .float x => Double.quantity x

def compare? (a b : Num) : Option Ordering := a.quantity.compare? b.quantity

theorem compare?_int (a b : Int) : (Num.int a).compare? (.int b) = some (compare a b) := by
  simp [compare?, quantity, Quantity.compare?, compareScaled, pow2]

/-- Equality of numbers: by value across the two kinds, and never of NaN. -/
def eq (a b : Num) : Bool := a.compare? b == some .eq

def lt (a b : Num) : Bool := a.compare? b == some .lt

def le (a b : Num) : Bool := a.compare? b == some .lt || a.compare? b == some .eq

/-- The number as a double; an integer beyond the range breaks down. -/
def toFloat : Num → Except Breakdown Float
  | .int n => match Double.ofInt? n with
    | some x => .ok x
    | none => .error .integerTooLarge
  | .float x => .ok x

/-- Whether the number is NaN. The question is put to the double. -/
def isNaN (a : Num) : Except Breakdown Bool := return (← a.toFloat).isNaN

/-- Whether the number is infinite. The question is put to the double. -/
def isInfinite (a : Num) : Except Breakdown Bool := return (← a.toFloat).isInf

/-- Whether the number is an integer. The question is put to the double. -/
def isIntegral (a : Num) : Except Breakdown Bool := return Double.isIntegral (← a.toFloat)

/-- A double that is an integer of magnitude below the safe limit becomes that integer. -/
def ofFloat (x : Float) : Num :=
  match Double.parts? x with
  | some p => if p.isIntegral ∧ p.truncate.natAbs < safeLimit then .int p.truncate else .float x
  | none => .float x

/-- The form of an arithmetic result: an integer below the safe limit, a double otherwise. -/
def normalize : Num → Except Breakdown Num
  | .float x => .ok (ofFloat x)
  | .int n => if n.natAbs < safeLimit then .ok (.int n) else return .float (← (Num.int n).toFloat)

/-- The number cut toward zero; NaN and the infinities break down. -/
def truncate : Num → Except Breakdown Int
  | .int n => .ok n
  | .float x => match Double.parts? x with
    | some p => .ok p.truncate
    | none => .error (if x.isNaN then .nanAsInteger else .infinityAsInteger)

def isZero (a : Num) : Bool := a.eq (.int 0)

end Num

end Stepwise
