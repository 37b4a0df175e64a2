import Stepwise.Json.Basic
import Stepwise.Number.Format

/-!
# Limits

What a count is held against. A limit is a number, or a truth value, which counts as one or zero. It may also be given
as other data; then it does no harm until a count is compared with it.
-/

namespace Stepwise

inductive Limit
  | num (n : Num)
  | flag (b : Bool)
  /-- data of the named type, which has no order among numbers -/
  | other (type : Text)

namespace Limit

def int (n : Int) : Limit := .num (.int n)

def ofJson? : Json → Option Limit
  | .null => none
  | .num n => some (.num n)
  | .bool b => some (.flag b)
  | data => some (.other data.typeName)

def text : Limit → Text
  | .num n => n.messageText
  | .flag b => if b then "True".codes else "False".codes
  | .other type => type

def number (relation countType : Text) : Limit → Except Breakdown Num
  | .num n => .ok n
  | .flag b => .ok (.int (if b then 1 else 0))
  | .other type => .error (.unordered relation countType type)

def isPassed : Limit → (count : Nat) → Except Breakdown Bool
  | .num (.int n), count => .ok (n < count)
  | limit, count => return (← limit.number ">".codes "int".codes).lt (.int count)

def isReached : Limit → (count : Nat) → Except Breakdown Bool
  | .num (.int n), count => .ok (n ≤ count)
  | limit, count => return (← limit.number ">=".codes "int".codes).le (.int count)

def unreachable : Nat := pow2 62

def room : Limit → Nat
  | .num n => match n.truncate with
    | .ok k => k.toNat
    | .error _ => unreachable
  | .flag b => if b then 1 else 0
  | .other _ => 0

def reachedAt (limit : Limit) : Except Breakdown Nat := do
  let n ← limit.number ">=".codes "int".codes
  match n.truncate with
  | .ok k => return (if (Num.int k).lt n then k + 1 else k).toNat
  | .error _ => return if n.lt (.int 0) then 0 else unreachable

def integer? : Limit → Option Int
  | .num (.int n) => some n
  | .flag b => some (if b then 1 else 0)
  | _ => none

end Limit

end Stepwise
