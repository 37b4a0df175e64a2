import Stepwise.Sorting.Insertion
import Stepwise.Sorting.Merge

/-!
# Stable sorting by runs

The items are cut into runs; a run that is too short is filled up by insertion. Runs wait on a stack and are merged with
their neighbours by a power that tells how deep the border between two runs lies in a balanced binary division of the
whole. Fewer than 64 items make up a single run.
-/

namespace Stepwise.Sorting

variable {α : Type}

/-- The least length of a run for a number of items: the number itself below 64, and otherwise its six highest bits,
plus one when any other bit is set. `fuel` bounds the number of bits. -/
def leastRun : Nat → Nat → Nat → Nat
  | 0, n, rest => n + rest
  | fuel + 1, n, rest => if 64 ≤ n then leastRun fuel (n / 2) (max rest (n % 2)) else n + rest

/-- The first binary place at which `a / n` and `b / n` differ, for `a < b`. -/
def borderPlace : Nat → Nat → Nat → Nat → Nat
  | 0, _, _, _ => 0
  | fuel + 1, a, b, n =>
    if n ≤ a then 1 + borderPlace fuel (2 * (a - n)) (2 * (b - n)) n
    else if n ≤ b then 1
    else 1 + borderPlace fuel (2 * a) (2 * b) n

/-- The power of the border between the run of length `n1` at `start` and the next one of length `n2`, of `n` items. -/
def borderPower (start n1 n2 n : Nat) : Nat :=
  borderPlace (n.log2 + 3) (2 * start + n1) (2 * start + n1 + n1 + n2) n

structure Run (α : Type) where
  items : List α
  power : Nat

/-- The items of a stack of runs whose top comes first, in order. -/
def stacked (runs : List (Run α)) : List α := (runs.map (·.items)).reverse.flatten

def mergeTop (rest : List α) (patience : Nat) : List (Run α) → Sorting α (List (Run α) × Nat)
  | b :: a :: lower => do
    let m ← merge (fun middle => stacked lower ++ middle ++ rest) patience a.items b.items
    return (⟨m.items, a.power⟩ :: lower, m.patience)
  | runs => return (runs, patience)

/-- Merge the topmost runs while the border below them has a greater power. -/
def mergeWhile (rest : List α) (power : Nat) : Nat → Nat → List (Run α) → Sorting α (List (Run α) × Nat)
  | 0, patience, runs => return (runs, patience)
  | fuel + 1, patience, b :: a :: lower => do
    if power < a.power then
      let (runs, patience) ← mergeTop rest patience (b :: a :: lower)
      mergeWhile rest power fuel patience runs
    else return (b :: a :: lower, patience)
  | _ + 1, patience, runs => return (runs, patience)

/-- Make room for a run of length `n2` on the stack, out of `n` items: merge what lies deeper, and note the power of the
new border. -/
def settleBorder (rest : List α) (n2 n patience : Nat) (runs : List (Run α)) : Sorting α (List (Run α) × Nat) := do
  match runs with
  | [] => return ([], patience)
  | top :: lower =>
    let power := borderPower (stacked lower).length top.items.length n2 n
    let (runs, patience) ← mergeWhile rest power (runs.length + 1) patience runs
    match runs with
    | top :: lower => return (⟨top.items, power⟩ :: lower, patience)
    | [] => return ([], patience)

/-- Merge the runs that are left, of three neighbours the shorter outer one with the middle first. -/
def mergeAll : Nat → Nat → List (Run α) → Sorting α (List α)
  | 0, _, runs => return stacked runs
  | fuel + 1, patience, c :: b :: a :: lower => do
    if a.items.length < c.items.length then
      let m ← merge (fun middle => stacked lower ++ middle ++ c.items) patience a.items b.items
      mergeAll fuel m.patience (c :: ⟨m.items, a.power⟩ :: lower)
    else
      let (runs, patience) ← mergeTop [] patience (c :: b :: a :: lower)
      mergeAll fuel patience runs
  | fuel + 1, patience, b :: a :: [] => do
    let (runs, patience) ← mergeTop [] patience [b, a]
    mergeAll fuel patience runs
  | _ + 1, _, runs => return stacked runs

/-- The next run of the remaining items, at least `least` long if there are as many: the run and what remains. -/
def nextRun (place : List α → List α) (least : Nat) (items : List α) : Sorting α (List α × List α) := do
  let (n, descending) ← leadingRun (fun _ => place items) items
  let run := if descending then (items.take n).reverse else items.take n
  let rest := items.drop n
  let missing := least - n
  let tail := rest.drop missing
  let run ← insertAll (fun front => place (front ++ tail)) run (rest.take missing)
  return (run, tail)

def collect (least n : Nat) : Nat → Nat → List (Run α) → List α → Sorting α (List α)
  | 0, _, runs, items => return stacked runs ++ items
  | fuel + 1, patience, runs, items => do
    if items.isEmpty then mergeAll (runs.length + 1) patience runs
    else
      let (run, tail) ← nextRun (fun rest => stacked runs ++ rest) least items
      let (runs, patience) ← settleBorder (run ++ tail) run.length n patience runs
      collect least n fuel patience (⟨run, 0⟩ :: runs) tail

/-- Sort the items, equal ones in the order they had. -/
def sort (items : List α) : Sorting α (List α) :=
  if items.length < 2 then return items
  else collect (leastRun 64 items.length 0) items.length (items.length + 1) gallopSuccess [] items

end Stepwise.Sorting
