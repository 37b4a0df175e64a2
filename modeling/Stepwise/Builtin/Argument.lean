import Stepwise.Machine.World

/-!
# Arguments

How built-in functions read their arguments. A missing argument is undefined; positions may be counted from the end.
-/

namespace Stepwise

/-- The way in which a built-in function calls a function that it was given. -/
abbrev Callback := Text → List Value → Exec Value

namespace Argument

def nth (args : List Value) (i : Nat) : Value := args.getD i .undefined

/-- The argument at an index as an integer: NaN counts as zero, and an infinity as the limit of safe integers. -/
def integer (args : List Value) (i : Nat) (absent : Int) : Exec Int := do
  match Argument.nth args i with
  | .undefined => return absent
  | v =>
    let n ← Exec.toNumber v
    if ← n.isNaN then return 0
    if ← n.isInfinite then return if n.lt (.int 0) then -Num.safeLimit else Num.safeLimit
    n.truncate

/-- A position in a sequence of the given length, where negative ones count from the end. -/
def position (index : Int) (length : Nat) : Nat :=
  if index < 0 then ((length : Int) + index).toNat else min index.toNat length

def function (v : Value) : Exec Text :=
  match v with
  | .function name => return name
  | v => do Exec.fail (.notFunction (← Exec.toText v))

end Argument

end Stepwise
