import Stepwise.Json.Basic
import Stepwise.Number.Sha512
import Stepwise.Text.Utf8

/-!
# Seeds

What a random source is seeded with. In the end that is an integer: a double is replaced by its residue modulo a prime,
and a text by its bytes followed by their digest. Other data cannot be a seed.
-/

namespace Stepwise

inductive Seed
  | int (n : Int)
  | double (x : Float)
  | text (s : Text)
  /-- data that cannot be a seed -/
  | other

namespace Seed

/-- The prime for residues. Modulo it, two to the power of 61 is one. -/
def modulus : Nat := pow2 61 - 1

/-- The residue that stands for a double, with its sign. The infinities have one of their own, and so has minus one. -/
def residue (x : Float) : Int :=
  let magnitude := match Double.parts? x with
    | some p => p.mantissa * pow2 (p.exponent % 61).toNat % modulus
    | none => 314159
  if Double.isNegative x then if magnitude = 1 then -2 else -magnitude else magnitude

/-- The integer in the end. A negative residue is taken modulo two to the power of 64. -/
def number : Seed → Except Breakdown Int
  | .int n => .ok n
  | .double x => .ok (residue x % pow2 64)
  | .text s => do
    let bytes ← s.utf8
    return Sha512.numberOf (bytes ++ Sha512.digest bytes)
  | .other => .error .seedType

def ofJson? : Json → Option Seed
  | .null => none
  | .num (.int n) => some (.int n)
  | .num (.float x) => some (.double x)
  | .bool b => some (.int (if b then 1 else 0))
  | .text s => some (.text s)
  | _ => some .other

end Seed

end Stepwise
