import Stepwise.Sorting.Basic

/-!
# Runs and binary insertion

The leading run of a list is its longest beginning that ascends, or that descends strictly. Further items are put into a
sorted beginning one by one, each after the items that it does not come before.
-/

namespace Stepwise.Sorting

variable {α : Type}

/-- The length of a run of which `n` items are known and `last` is the last of them: each comes before the one before it
exactly when the run is descending. -/
def runLength (now : Unit → List α) (descending : Bool) (n : Nat) (last : α) : List α → Sorting α Nat
  | [] => return n
  | x :: rest => do
    if (← before now x last) == descending then runLength now descending (n + 1) x rest else return n

def leadingRun (now : Unit → List α) : List α → Sorting α (Nat × Bool)
  | [] => return (0, false)
  | [_] => return (1, false)
  | x :: y :: rest => do
    let descending ← before now y x
    return (← runLength now descending 2 y rest, descending)

/-- The place of `pivot` in the sorted items between `low` and `high`; each question halves the distance. -/
def findPlace (now : Unit → List α) (pivot : α) (items : Array α) : Nat → Nat → Nat → Sorting α Nat
  | 0, low, _ => return low
  | fuel + 1, low, high => do
    if low < high then
      let middle := low + (high - low) / 2
      if ← before now pivot (items.getD middle pivot) then findPlace now pivot items fuel low middle
      else findPlace now pivot items fuel (middle + 1) high
    else return low

/-- Put the given items into the sorted ones, one after the other. The arrangement of all items is made from the two
lists by `place`. -/
def insertAll (place : List α → List α) (sorted : List α) : List α → Sorting α (List α)
  | [] => return sorted
  | pivot :: rest => do
    let now := fun _ => place (sorted ++ pivot :: rest)
    let i ← findPlace now pivot sorted.toArray (sorted.length + 1) 0 sorted.length
    insertAll place (sorted.take i ++ pivot :: sorted.drop i) rest

end Stepwise.Sorting
