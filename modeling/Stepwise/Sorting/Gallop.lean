import Stepwise.Sorting.Basic

/-!
# Galloping

The place of a key in sorted items, looked for from a hint: the distance from the hint doubles until the key is passed,
then the last stretch is searched by halving. `gallopLeft` finds the first place where the key can stand, `gallopRight`
the last.
-/

namespace Stepwise.Sorting

variable {α : Type}

/-- Double the distance from the hint while `passed` says that the key lies further on: gives the last distance that was
too short and the first that was not, at most `limit`. -/
def stride (limit : Nat) (further : Nat → Sorting α Bool) : Nat → Nat → Nat → Sorting α (Nat × Nat)
  | 0, short, long => return (short, min long limit)
  | fuel + 1, short, long => do
    if long < limit then
      if ← further long then stride limit further fuel long (2 * long + 1) else return (short, long)
    else return (short, limit)

/-- The place between `low` and `high` where `onRight` changes from true to false. -/
def halve (onRight : Nat → Sorting α Bool) : Nat → Nat → Nat → Sorting α Nat
  | 0, _, high => return high
  | fuel + 1, low, high => do
    if low < high then
      let middle := low + (high - low) / 2
      if ← onRight middle then halve onRight fuel (middle + 1) high else halve onRight fuel low middle
    else return high

/-- The place of a key: `onRight i` tells whether it stands to the right of item `i`. -/
def gallop (onRight : Nat → Sorting α Bool) (size hint : Nat) : Sorting α Nat := do
  if ← onRight hint then
    let (short, long) ← stride (size - hint) (fun d => onRight (hint + d)) (size + 1) 0 1
    halve onRight (size + 1) (hint + short + 1) (hint + long)
  else
    let (short, long) ← stride (hint + 1) (fun d => return !(← onRight (hint - d))) (size + 1) 0 1
    halve onRight (size + 1) (hint + 1 - long) (hint - short)

/-- The first place where the key can stand: after the items that come before it. -/
def gallopLeft (now : Unit → List α) (key : α) (items : Array α) (hint : Nat) : Sorting α Nat :=
  gallop (fun i => before now (items.getD i key) key) items.size hint

/-- The last place where the key can stand: after the items that it does not come before. -/
def gallopRight (now : Unit → List α) (key : α) (items : Array α) (hint : Nat) : Sorting α Nat :=
  gallop (fun i => return !(← before now key (items.getD i key))) items.size hint

end Stepwise.Sorting
