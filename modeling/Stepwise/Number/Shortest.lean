import Stepwise.Number.Double

/-!
# Shortest decimals

The decimal with the fewest digits that rounds to a given double, and of those the nearest one. The reals that round
to `m · 2 ^ q` form an interval around it, whose ends belong to it exactly when `m` is even. For each number of
digits the two neighbours of the value on that decimal grid are tried.
-/

namespace Stepwise

structure Decimal where
  digits : Nat
  exponent : Int

namespace Decimal

/-- Scale factors `s`, `t` such that `c · 10 ^ g` and `b · 2 ^ (q - 2)` compare as `c * s` and `b * t`. -/
def scales (q g : Int) : Nat × Nat :=
  (pow10 g.toNat * pow2 (2 - q).toNat, pow2 (q - 2).toNat * pow10 (-g).toNat)

/-- The point of the grid `10 ^ g` that rounds to `m · 2 ^ q` and is nearest to it, if there is one; of two equally
near points the even one. -/
def gridPoint? (m : Nat) (q g : Int) : Option Nat :=
  let (s, t) := scales q g
  let value := 4 * m * t
  let low := (4 * m - if m = pow2 52 ∧ -1074 < q then 1 else 2) * t
  let high := (4 * m + 2) * t
  let rounds (c : Nat) : Bool :=
    if m % 2 = 0 then low ≤ c * s && c * s ≤ high else low < c * s && c * s < high
  let below := value / s
  match rounds below, rounds (below + 1) with
  | true, true =>
    match compare (value - below * s) ((below + 1) * s - value) with
    | .lt => some below
    | .gt => some (below + 1)
    | .eq => some (below + below % 2)
  | true, false => some below
  | false, true => some (below + 1)
  | false, false => none

def belowPower (m : Nat) (q k : Int) : Bool :=
  m * pow2 q.toNat * pow10 (-k).toNat < pow10 k.toNat * pow2 (-q).toNat

/-- The number of digits before the decimal point of `m · 2 ^ q`: the least `k` with `m · 2 ^ q < 10 ^ k`. -/
def magnitude (m : Nat) (q : Int) : Int :=
  let guess := ((m.log2 : Int) + q) * 30103 / 100000
  if belowPower m q guess then guess
  else if belowPower m q (guess + 1) then guess + 1
  else if belowPower m q (guess + 2) then guess + 2
  else guess + 3

/-- The digits without the zeros at the end; `fuel` bounds their number. -/
def strip : Nat → Decimal → Decimal
  | 0, d => d
  | fuel + 1, d => if d.digits ≠ 0 ∧ d.digits % 10 = 0 then strip fuel ⟨d.digits / 10, d.exponent + 1⟩ else d

/-- The shortest decimal that rounds to `m · 2 ^ q`, for `0 < m`. Seventeen digits always suffice. -/
def shortest (m : Nat) (q : Int) : Decimal :=
  let k := magnitude m q
  let hit? := (List.range 17).findSome? fun (n : Nat) =>
    let g := k - (n + 1)
    (gridPoint? m q g).map fun c => (⟨c, g⟩ : Decimal)
  strip 20 (hit?.getD ⟨m, q⟩)

end Decimal

end Stepwise
