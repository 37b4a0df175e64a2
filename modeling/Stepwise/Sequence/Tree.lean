/-!
# Balanced trees of chunks

A tree holds its items from left to right in chunks at its leaves. Every node knows how many items are below it and how
high it is, so that an item is found by its index, and two trees are joined, in as many steps as the tree is high. The
two sides of a node never differ in height by more than one. What a tree holds is the list `items`; rebalancing does not
change it.
-/

namespace Stepwise

inductive ChunkTree (α : Type)
  | leaf (chunk : Array α)
  | node (size height : Nat) (left right : ChunkTree α)

namespace ChunkTree

variable {α β : Type}

/-- Neighbouring chunks are made one while they have no more items than this. -/
def chunkLimit : Nat := 64

def size : ChunkTree α → Nat
  | leaf chunk => chunk.size
  | node size _ _ _ => size

def height : ChunkTree α → Nat
  | leaf _ => 0
  | node _ height _ _ => height

def items : ChunkTree α → List α
  | leaf chunk => chunk.toList
  | node _ _ left right => left.items ++ right.items

def itemsOnto : ChunkTree α → List α → List α
  | leaf chunk, rest => chunk.toListAppend rest
  | node _ _ left right, rest => left.itemsOnto (right.itemsOnto rest)

def toArrayOnto : ChunkTree α → Array α → Array α
  | leaf chunk, front => if front.isEmpty then chunk else front ++ chunk
  | node _ _ left right, front => right.toArrayOnto (left.toArrayOnto front)

/-! ### Joining -/

def link (left right : ChunkTree α) : ChunkTree α :=
  node (left.size + right.size) (max left.height right.height + 1) left right

/-- A balanced tree from two trees of which the left one may be higher by two. -/
def linkHighLeft (left right : ChunkTree α) : ChunkTree α :=
  if left.height ≤ right.height + 1 then link left right
  else match left with
    | leaf _ => link left right
    | node _ _ outer inner =>
      if inner.height ≤ outer.height then link outer (link inner right)
      else match inner with
        | leaf _ => link left right
        | node _ _ a b => link (link outer a) (link b right)

/-- A balanced tree from two trees of which the right one may be higher by two. -/
def linkHighRight (left right : ChunkTree α) : ChunkTree α :=
  if right.height ≤ left.height + 1 then link left right
  else match right with
    | leaf _ => link left right
    | node _ _ inner outer =>
      if inner.height ≤ outer.height then link (link left inner) outer
      else match inner with
        | leaf _ => link left right
        | node _ _ a b => link (link left a) (link b outer)

def linkChunks (a b : Array α) : ChunkTree α :=
  if a.size + b.size ≤ chunkLimit then leaf (a ++ b) else link (leaf a) (leaf b)

/-- Put `right` behind a tree that is not lower: it goes down the right edge until the two are of like height. -/
def extend (right : ChunkTree α) : ChunkTree α → ChunkTree α
  | leaf a => match right with
    | leaf b => linkChunks a b
    | right => link (leaf a) right
  | node size height outer inner =>
    if right.height ≠ 0 ∧ height ≤ right.height + 1 then link (node size height outer inner) right
    else linkHighRight outer (extend right inner)

/-- Put `left` before a tree that is not lower: it goes down the left edge until the two are of like height. -/
def precede (left : ChunkTree α) : ChunkTree α → ChunkTree α
  | leaf b => match left with
    | leaf a => linkChunks a b
    | left => link left (leaf b)
  | node size height inner outer =>
    if left.height ≠ 0 ∧ height ≤ left.height + 1 then link left (node size height inner outer)
    else linkHighLeft (precede left inner) outer

def append (left right : ChunkTree α) : ChunkTree α :=
  if left.size = 0 then right
  else if right.size = 0 then left
  else if right.height ≤ left.height then extend right left
  else precede left right

/-! ### Items by index -/

def get? : ChunkTree α → Nat → Option α
  | leaf chunk, i => chunk[i]?
  | node _ _ left right, i => if i < left.size then left.get? i else right.get? (i - left.size)

/-- Replace the item at an index; nothing changes when there is none. -/
def set (a : α) : ChunkTree α → Nat → ChunkTree α
  | leaf chunk, i => leaf (chunk.setIfInBounds i a)
  | node _ _ left right, i =>
    if i < left.size then link (left.set a i) right else link left (right.set a (i - left.size))

def take (t : ChunkTree α) (n : Nat) : ChunkTree α :=
  match t with
  | leaf chunk => leaf (chunk.extract 0 n)
  | node size _ left right =>
    if size ≤ n then t else if n ≤ left.size then left.take n else append left (right.take (n - left.size))

def drop (t : ChunkTree α) (n : Nat) : ChunkTree α :=
  match t with
  | leaf chunk => leaf (chunk.extract n chunk.size)
  | node _ _ left right =>
    if n = 0 then t else if left.size ≤ n then right.drop (n - left.size) else append (left.drop n) right

@[specialize] def findIdx? (test : α → Bool) : ChunkTree α → Option Nat
  | leaf chunk => chunk.findIdx? test
  | node _ _ left right =>
    match left.findIdx? test with
    | some i => some i
    | none => (right.findIdx? test).map (left.size + ·)

/-- The index of the first item at or after `start` that passes a test. -/
@[specialize] def findIdxFrom? (test : α → Bool) : ChunkTree α → (start : Nat) → Option Nat
  | leaf chunk, start => ((chunk.extract start chunk.size).findIdx? test).map (start + ·)
  | node _ _ left right, start =>
    if left.size ≤ start then (right.findIdxFrom? test (start - left.size)).map (left.size + ·)
    else match left.findIdxFrom? test start with
      | some i => some i
      | none => (right.findIdx? test).map (left.size + ·)

/-- One more than the index of the last item that passes a test; zero if none does. -/
def stopOf (test : α → Bool) : ChunkTree α → Nat
  | leaf chunk => chunk.size - (chunk.reverse.findIdx? test).getD chunk.size
  | node _ _ left right =>
    let stop := right.stopOf test
    if stop = 0 then left.stopOf test else left.size + stop

/-! ### Comparing -/

@[specialize] def same [BEq α] : ChunkTree α → ChunkTree α → Bool
  | leaf a, t => a == t.toArrayOnto #[]
  | node _ _ left right, t => left.same (t.take left.size) && right.same (t.drop left.size)

/-- The order of two trees by their first difference, a proper beginning first. -/
@[specialize] def compareWith [BEq α] (cmp : α → α → Ordering) : ChunkTree α → ChunkTree α → Ordering
  | leaf a, t =>
    let b := (t.take a.size).toArrayOnto #[]
    if a == b then if a.size = t.size then .eq else .lt
    else List.compareLex cmp a.toList b.toList
  | node _ _ left right, t =>
    (left.compareWith cmp (t.take left.size)).then (right.compareWith cmp (t.drop left.size))

/-! ### Whole trees -/

@[specialize] def map (f : α → β) : ChunkTree α → ChunkTree β
  | leaf chunk => leaf (chunk.map f)
  | node _ _ left right => link (left.map f) (right.map f)

def reverse : ChunkTree α → ChunkTree α
  | leaf chunk => leaf chunk.reverse
  | node _ _ left right => link right.reverse left.reverse

@[specialize] def any (test : α → Bool) : ChunkTree α → Bool
  | leaf chunk => chunk.any test
  | node _ _ left right => left.any test || right.any test

/-- The tree of `size` items of an array from `start` on, halved as often as `depth` allows. -/
def ofSlice (items : Array α) : (depth start size : Nat) → ChunkTree α
  | 0, start, size => leaf (items.extract start (start + size))
  | depth + 1, start, size =>
    if size ≤ chunkLimit then leaf (items.extract start (start + size))
    else link (ofSlice items depth start (size / 2)) (ofSlice items depth (start + size / 2) (size - size / 2))

end ChunkTree

end Stepwise
