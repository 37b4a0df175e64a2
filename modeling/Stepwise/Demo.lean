import Stepwise.Session.Basic

/-!
# The demonstration

Steps through a program and shows the state before the first step and after each one.
-/

namespace Stepwise.Demo

def sample : Text := (
  "let arr = [3, 1, 2];\n" ++
  "for (let i = 0; i < arr.length; i++) \x7b\n" ++
  "  for (let j = 0; j < arr.length - i - 1; j++) \x7b\n" ++
  "    if (arr[j] > arr[j + 1]) \x7b\n" ++
  "      [arr[j], arr[j + 1]] = [arr[j + 1], arr[j]];\n" ++
  "    \x7d\n" ++
  "  \x7d\n" ++
  "\x7d\n" ++
  "console.log(arr);\n").codes

/-- The greatest number of steps that are shown when no other is given. -/
def standardLimit : Nat := 500

/-- The states after each of at most the given number of steps, and the session at the end. -/
def statesFrom (s : Session) : Nat → Except Breakdown (List State × Session)
  | 0 => .ok ([], s)
  | n + 1 => do
    match s.run Session.step with
    | (.error b, _) => throw b
    | (.ok false, s) => return ([s.published], s)
    | (.ok true, s) =>
      let (states, last) ← statesFrom s n
      return (s.published :: states, last)

/-- All states that are shown, and whether the last one has no error. -/
def shown (code : Text) (limit : Nat) : Except Breakdown (List State × Bool) := do
  let s ← Session.create .standard code
  let (states, last) ← statesFrom s limit
  return (s.published :: states, last.published.error.isNone)

end Stepwise.Demo
