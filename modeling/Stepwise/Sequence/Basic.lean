import Stepwise.Sequence.TreeLemmas

/-!
# Sequences

A sequence is a list that is quick to change in the middle: joining, cutting, and reading or replacing an item take a
number of steps that grows with the logarithm of its length. A changed sequence leaves the one it was made from as it
was. `toList` is what a sequence holds, and every operation is described by what it does to that list.
-/

namespace Stepwise

open List

structure Sequence (α : Type) where
  tree : ChunkTree α
  sized : tree.Sized

namespace Sequence

variable {α β : Type}

def toList (s : Sequence α) : List α := s.tree.itemsOnto []

theorem toList_eq (s : Sequence α) : s.toList = s.tree.items := by simp [toList, ChunkTree.itemsOnto_eq]

def size (s : Sequence α) : Nat := s.tree.size

@[simp] theorem size_eq (s : Sequence α) : s.size = s.toList.length := by rw [toList_eq]; exact s.sized.size_eq

def isEmpty (s : Sequence α) : Bool := s.size == 0

/-! ### Making sequences -/

def ofArray (items : Array α) : Sequence α :=
  ⟨.ofSlice items items.size.log2 0 items.size, ChunkTree.sized_ofSlice ..⟩

@[simp] theorem toList_ofArray (items : Array α) : (ofArray items).toList = items.toList := by
  rw [toList_eq, ofArray, ChunkTree.items_ofSlice, drop_zero, ← Array.length_toList, take_length]

def ofList (items : List α) : Sequence α := ofArray items.toArray

@[simp] theorem toList_ofList (items : List α) : (ofList items).toList = items := by simp [ofList]

def empty : Sequence α := ⟨.leaf #[], trivial⟩

@[simp] theorem toList_empty : (empty : Sequence α).toList = [] := rfl

instance : Inhabited (Sequence α) := ⟨empty⟩

def singleton (a : α) : Sequence α := ⟨.leaf #[a], trivial⟩

@[simp] theorem toList_singleton (a : α) : (singleton a).toList = [a] := rfl

/-! ### Joining and cutting -/

def append (s t : Sequence α) : Sequence α := ⟨s.tree.append t.tree, s.sized.append t.sized⟩

instance : Append (Sequence α) := ⟨append⟩

@[simp] theorem toList_append (s t : Sequence α) : (s ++ t).toList = s.toList ++ t.toList := by
  rw [toList_eq, toList_eq, toList_eq]
  exact s.sized.items_append t.sized

def push (s : Sequence α) (a : α) : Sequence α := s ++ singleton a

@[simp] theorem toList_push (s : Sequence α) (a : α) : (s.push a).toList = s.toList ++ [a] := by simp [push]

def take (s : Sequence α) (n : Nat) : Sequence α := ⟨s.tree.take n, s.sized.take n⟩

@[simp] theorem toList_take (s : Sequence α) (n : Nat) : (s.take n).toList = s.toList.take n := by
  rw [toList_eq, toList_eq]
  exact s.sized.items_take n

def drop (s : Sequence α) (n : Nat) : Sequence α := ⟨s.tree.drop n, s.sized.drop n⟩

@[simp] theorem toList_drop (s : Sequence α) (n : Nat) : (s.drop n).toList = s.toList.drop n := by
  rw [toList_eq, toList_eq]
  exact s.sized.items_drop n

def slice (s : Sequence α) (start stop : Nat) : Sequence α := (s.take stop).drop start

@[simp] theorem toList_slice (s : Sequence α) (start stop : Nat) :
    (s.slice start stop).toList = (s.toList.take stop).drop start := by
  simp [slice]

/-- Put other items in the place of those from `start` up to `stop`. -/
def replaceSlice (s : Sequence α) (start stop : Nat) (items : Sequence α) : Sequence α :=
  s.take start ++ items ++ s.drop stop

@[simp] theorem toList_replaceSlice (s : Sequence α) (start stop : Nat) (items : Sequence α) :
    (s.replaceSlice start stop items).toList = s.toList.take start ++ items.toList ++ s.toList.drop stop := by
  simp [replaceSlice]

/-- The sequence `n` times, where `n` becomes at most one when it is halved `depth` times. -/
def timesWithin (s : Sequence α) : (depth n : Nat) → Sequence α
  | 0, n => if n = 0 then empty else s
  | depth + 1, n =>
    let half := timesWithin s depth (n / 2)
    if n % 2 = 0 then half ++ half else half ++ half ++ s

def times (s : Sequence α) (n : Nat) : Sequence α := s.timesWithin n.log2 n

theorem toList_timesWithin (s : Sequence α) (depth n : Nat) (h : n.log2 ≤ depth) :
    (s.timesWithin depth n).toList = (List.replicate n s.toList).flatten := by
  induction depth generalizing n with
  | zero =>
    rw [Nat.log2_def] at h
    match n, h with
    | 0, _ => simp [timesWithin]
    | 1, _ => simp [timesWithin]
    | n + 2, h => simp at h
  | succ depth ih =>
    have shallow : (n / 2).log2 ≤ depth := by
      rw [Nat.log2_def] at h
      split at h
      · omega
      · have none : n / 2 = 0 := by omega
        rw [none]
        exact Nat.zero_le _
    have half := ih (n / 2) shallow
    simp only [timesWithin]
    split
    · have even : n / 2 + n / 2 = n := by omega
      rw [toList_append, half, ← flatten_append, replicate_append_replicate, even]
    · have odd : n = n / 2 + n / 2 + 1 := by omega
      rw [toList_append, toList_append, half, ← flatten_append, replicate_append_replicate]
      conv => rhs; rw [odd, replicate_succ', flatten_append, flatten_singleton]

@[simp] theorem toList_times (s : Sequence α) (n : Nat) : (s.times n).toList = (List.replicate n s.toList).flatten :=
  toList_timesWithin s n.log2 n (Nat.le_refl _)

def replicate (n : Nat) (a : α) : Sequence α := (singleton a).times n

@[simp] theorem toList_replicate (n : Nat) (a : α) : (replicate n a).toList = List.replicate n a := by
  simp [replicate, flatten_replicate_singleton]

/-- The pieces one behind the other. Long pieces are joined as they are; short ones are packed anew. -/
def concat (pieces : List (Sequence α)) : Sequence α :=
  if pieces.foldl (fun n s => n + s.size) 0 ≤ pieces.length * ChunkTree.chunkLimit
  then ofArray (pieces.foldl (fun acc s => s.tree.toArrayOnto acc) #[])
  else pieces.foldl (· ++ ·) empty

theorem toList_foldl_toArrayOnto (pieces : List (Sequence α)) (acc : Array α) :
    (pieces.foldl (fun acc s => s.tree.toArrayOnto acc) acc).toList = acc.toList ++ (pieces.map toList).flatten := by
  induction pieces generalizing acc with
  | nil => simp
  | cons s rest ih => simp [ih, ChunkTree.toArrayOnto_eq, toList_eq]

theorem toList_foldl_append (pieces : List (Sequence α)) (acc : Sequence α) :
    (pieces.foldl (· ++ ·) acc).toList = acc.toList ++ (pieces.map toList).flatten := by
  induction pieces generalizing acc with
  | nil => simp
  | cons s rest ih => simp [ih]

@[simp] theorem toList_concat (pieces : List (Sequence α)) : (concat pieces).toList = (pieces.map toList).flatten := by
  unfold concat
  split
  · simp [toList_foldl_toArrayOnto]
  · simp [toList_foldl_append]

/-! ### Items by index -/

def get? (s : Sequence α) (i : Nat) : Option α := s.tree.get? i

@[simp] theorem get?_eq (s : Sequence α) (i : Nat) : s.get? i = s.toList[i]? := by
  rw [toList_eq]
  exact s.sized.get?_eq i

/-- Replace the item at an index; nothing changes when there is none. -/
def set (s : Sequence α) (i : Nat) (a : α) : Sequence α := ⟨s.tree.set a i, s.sized.set a i⟩

@[simp] theorem toList_set (s : Sequence α) (i : Nat) (a : α) : (s.set i a).toList = s.toList.set i a := by
  rw [toList_eq, toList_eq]
  exact s.sized.items_set a i

/-- The index of the first item at or after `start` that passes a test. -/
@[inline] def findIdxFrom? (test : α → Bool) (s : Sequence α) (start : Nat) : Option Nat :=
  s.tree.findIdxFrom? test start

/-- One more than the index of the last item that passes a test; zero if none does. -/
def stopOf (test : α → Bool) (s : Sequence α) : Nat := s.tree.stopOf test

/-! ### Whole sequences -/

@[inline] def map (f : α → β) (s : Sequence α) : Sequence β := ⟨s.tree.map f, ChunkTree.sized_map f s.tree⟩

@[simp] theorem toList_map (f : α → β) (s : Sequence α) : (s.map f).toList = s.toList.map f := by
  rw [toList_eq, toList_eq]
  exact ChunkTree.items_map f s.tree

def reverse (s : Sequence α) : Sequence α := ⟨s.tree.reverse, ChunkTree.sized_reverse s.tree⟩

@[simp] theorem toList_reverse (s : Sequence α) : s.reverse.toList = s.toList.reverse := by
  rw [toList_eq, toList_eq]
  exact ChunkTree.items_reverse s.tree

@[inline] def any (s : Sequence α) (test : α → Bool) : Bool := s.tree.any test

@[simp] theorem any_eq (s : Sequence α) (test : α → Bool) : s.any test = s.toList.any test := by
  rw [toList_eq]
  exact ChunkTree.any_eq test s.tree

/-! ### Comparing -/

/-- Whether two sequences hold the same items, looked at chunk by chunk. -/
@[inline] def sameItems [BEq α] (s t : Sequence α) : Bool := s.size == t.size && s.tree.same t.tree

theorem sameItems_iff [BEq α] [LawfulBEq α] (s t : Sequence α) : s.sameItems t = true ↔ s.toList = t.toList := by
  rw [sameItems, Bool.and_eq_true, beq_iff_eq, toList_eq, toList_eq]
  constructor
  · rintro ⟨sizes, all⟩
    exact (s.sized.same_iff t.sized sizes).mp all
  · intro all
    have sizes : s.size = t.size := by rw [size_eq, size_eq, toList_eq, toList_eq, all]
    exact ⟨sizes, (s.sized.same_iff t.sized sizes).mpr all⟩

/-- Whether two sequences hold the same items. A sequence is known to be the same as itself without looking at it. -/
@[inline] def same [BEq α] [LawfulBEq α] (s t : Sequence α) : Bool :=
  withPtrEq s t (fun _ => s.sameItems t) fun h => (sameItems_iff s t).mpr (congrArg toList h)

theorem same_iff [BEq α] [LawfulBEq α] (s t : Sequence α) : s.same t = true ↔ s.toList = t.toList :=
  sameItems_iff s t

/-- The order of two sequences by their first difference, a proper beginning first. -/
@[inline] def compareWith [BEq α] (cmp : α → α → Ordering) (s t : Sequence α) : Ordering :=
  s.tree.compareWith cmp t.tree

end Sequence

end Stepwise
