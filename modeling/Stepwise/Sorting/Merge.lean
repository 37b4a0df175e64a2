import Stepwise.Sorting.Gallop

/-!
# Merging runs

Two neighbouring runs are merged from the front when the left one is shorter, and from the back otherwise. When one side
wins often enough in a row, its next stretch is found by galloping; how often is often enough adapts to how well that
went.
-/

namespace Stepwise.Sorting

variable {α : Type}

/-- From this length on a stretch found by galloping counts as a success. -/
def gallopSuccess : Nat := 7

/-- What a merge leaves behind: the merged items, and how many wins in a row start the next gallop. -/
structure Merged (α : Type) where
  items : List α
  patience : Nat

/-- The two ways to go on with a merge: item by item, with the wins in a row of either side, or by galloping. -/
inductive Pace
  | single (leftWins rightWins : Nat)
  | galloping

def isSingle : List α → Bool
  | [_] => true
  | _ => false

def lessPatience (patience : Nat) : Nat := if 1 < patience then patience - 1 else patience

/-- Merging from the front: `out` holds the merged items, last first, and `left` and `right` what remains. -/
def mergeFront (place : List α → List α) :
    Nat → Pace → (patience : Nat) → (out left right : List α) → Sorting α (Merged α)
  | 0, _, patience, out, left, right => return ⟨out.reverse ++ left ++ right, patience⟩
  | fuel + 1, .single leftWins rightWins, patience, out, x :: left, y :: right => do
    let now := fun _ => place (out.reverse ++ x :: left ++ y :: right)
    if ← before now y x then
      if right.isEmpty then return ⟨(y :: out).reverse ++ x :: left, patience⟩
      if patience ≤ rightWins + 1 then
        mergeFront place fuel .galloping (patience + 1) (y :: out) (x :: left) right
      else mergeFront place fuel (.single 0 (rightWins + 1)) patience (y :: out) (x :: left) right
    else
      if isSingle left then return ⟨(x :: out).reverse ++ (y :: right) ++ left, patience⟩
      if patience ≤ leftWins + 1 then
        mergeFront place fuel .galloping (patience + 1) (x :: out) left (y :: right)
      else mergeFront place fuel (.single (leftWins + 1) 0) patience (x :: out) left (y :: right)
  | fuel + 1, .galloping, patience, out, left, y :: right => do
    let patience := lessPatience patience
    let now := fun _ => place (out.reverse ++ left ++ y :: right)
    let k ← gallopRight now y left.toArray 0
    let out := (left.take k).reverse ++ out
    let left := left.drop k
    if k ≠ 0 ∧ isSingle left then return ⟨out.reverse ++ (y :: right) ++ left, patience⟩
    if left.isEmpty then return ⟨out.reverse ++ y :: right, patience⟩
    let out := y :: out
    if right.isEmpty then return ⟨out.reverse ++ left, patience⟩
    match left with
    | [] => return ⟨out.reverse ++ right, patience⟩
    | x :: left =>
      let now := fun _ => place (out.reverse ++ x :: left ++ right)
      let j ← gallopLeft now x right.toArray 0
      let out := (right.take j).reverse ++ out
      let right := right.drop j
      if right.isEmpty then return ⟨out.reverse ++ x :: left, patience⟩
      let out := x :: out
      if isSingle left then return ⟨out.reverse ++ right ++ left, patience⟩
      if gallopSuccess ≤ k ∨ gallopSuccess ≤ j then mergeFront place fuel .galloping patience out left right
      else mergeFront place fuel (.single 0 0) (patience + 1) out left right
  | _ + 1, _, patience, out, left, right => return ⟨out.reverse ++ left ++ right, patience⟩

/-- Merging from the back: `left` and `right` hold what remains, last item first, and `out` the merged items. -/
def mergeBack (place : List α → List α) :
    Nat → Pace → (patience : Nat) → (left right out : List α) → Sorting α (Merged α)
  | 0, _, patience, left, right, out => return ⟨left.reverse ++ right.reverse ++ out, patience⟩
  | fuel + 1, .single leftWins rightWins, patience, x :: left, y :: right, out => do
    let now := fun _ => place ((x :: left).reverse ++ (y :: right).reverse ++ out)
    if ← before now y x then
      if left.isEmpty then return ⟨(y :: right).reverse ++ x :: out, patience⟩
      if patience ≤ leftWins + 1 then
        mergeBack place fuel .galloping (patience + 1) left (y :: right) (x :: out)
      else mergeBack place fuel (.single (leftWins + 1) 0) patience left (y :: right) (x :: out)
    else
      if isSingle right then return ⟨right ++ (x :: left).reverse ++ y :: out, patience⟩
      if patience ≤ rightWins + 1 then
        mergeBack place fuel .galloping (patience + 1) (x :: left) right (y :: out)
      else mergeBack place fuel (.single 0 (rightWins + 1)) patience (x :: left) right (y :: out)
  | fuel + 1, .galloping, patience, left, y :: right, out => do
    let patience := lessPatience patience
    let now := fun _ => place (left.reverse ++ (y :: right).reverse ++ out)
    let k := left.length - (← gallopRight now y left.reverse.toArray (left.length - 1))
    let out := (left.take k).reverse ++ out
    let left := left.drop k
    if left.isEmpty then return ⟨(y :: right).reverse ++ out, patience⟩
    let out := y :: out
    if isSingle right then return ⟨right ++ left.reverse ++ out, patience⟩
    match left with
    | [] => return ⟨right.reverse ++ out, patience⟩
    | x :: left =>
      let now := fun _ => place ((x :: left).reverse ++ right.reverse ++ out)
      let j := right.length - (← gallopLeft now x right.reverse.toArray (right.length - 1))
      let out := (right.take j).reverse ++ out
      let right := right.drop j
      if j ≠ 0 ∧ isSingle right then return ⟨right ++ (x :: left).reverse ++ out, patience⟩
      if right.isEmpty then return ⟨(x :: left).reverse ++ out, patience⟩
      let out := x :: out
      if left.isEmpty then return ⟨right.reverse ++ out, patience⟩
      if gallopSuccess ≤ k ∨ gallopSuccess ≤ j then mergeBack place fuel .galloping patience left right out
      else mergeBack place fuel (.single 0 0) (patience + 1) left right out
  | _ + 1, _, patience, left, right, out => return ⟨left.reverse ++ right.reverse ++ out, patience⟩

/-- Merge two neighbouring runs. What is in its place already, at the start of the left run and the end of the right
one, is left alone. -/
def merge (place : List α → List α) (patience : Nat) (left right : List α) : Sorting α (Merged α) := do
  match right with
  | [] => return ⟨left, patience⟩
  | first :: _ =>
    let k ← gallopRight (fun _ => place (left ++ right)) first left.toArray 0
    let head := left.take k
    let rest := left.drop k
    match rest.getLast? with
    | none => return ⟨left ++ right, patience⟩
    | some last =>
      let n ← gallopLeft (fun _ => place (left ++ right)) last right.toArray (right.length - 1)
      let tail := right.drop n
      let place := fun middle => place (head ++ middle ++ tail)
      let fuel := left.length + right.length + 1
      let m ← match rest, right.take n with
        | _, [] => pure ⟨rest, patience⟩
        | x :: more, y :: others =>
          if rest.length ≤ n then
            -- the first item of the right run goes to the front
            if others.isEmpty then pure ⟨y :: rest, patience⟩
            else if more.isEmpty then pure ⟨y :: others ++ [x], patience⟩
            else mergeFront place fuel (.single 0 0) patience [y] rest others
          else
            -- the last item of the left run goes to the back
            match rest.reverse, (y :: others).reverse with
            | z :: before, back =>
              if before.isEmpty then pure ⟨back.reverse ++ [z], patience⟩
              else if isSingle back then pure ⟨back ++ before.reverse ++ [z], patience⟩
              else mergeBack place fuel (.single 0 0) patience before back [z]
            | [], back => pure ⟨back.reverse, patience⟩
        | [], middle => pure ⟨middle, patience⟩
      return ⟨head ++ m.items ++ tail, m.patience⟩

end Stepwise.Sorting
