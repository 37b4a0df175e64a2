import Stepwise.Sequence.Tree

/-!
# What the operations on trees do to the items

A tree is `Sized` when every node knows the number of items below it. Every operation keeps this, and does to the list
of items what its name says.
-/

namespace Stepwise.ChunkTree

open List

variable {α β : Type} {t left right : ChunkTree α}

def Sized : ChunkTree α → Prop
  | leaf _ => True
  | node size _ left right => size = left.size + right.size ∧ left.Sized ∧ right.Sized

theorem Sized.size_eq (h : t.Sized) : t.size = t.items.length := by
  induction t with
  | leaf chunk => simp [size, items]
  | node size height left right ihl ihr =>
    obtain ⟨rfl, hl, hr⟩ := h
    rw [items, length_append, ← ihl hl, ← ihr hr, ChunkTree.size]

theorem itemsOnto_eq (t : ChunkTree α) (rest : List α) : t.itemsOnto rest = t.items ++ rest := by
  induction t generalizing rest with
  | leaf chunk => simp [itemsOnto, items]
  | node _ _ left right ihl ihr => simp [itemsOnto, items, ihl, ihr]

theorem toArrayOnto_eq (t : ChunkTree α) (front : Array α) :
    (t.toArrayOnto front).toList = front.toList ++ t.items := by
  induction t generalizing front with
  | leaf chunk =>
    rw [toArrayOnto, items]
    split
    · rename_i none
      simp [Array.isEmpty_iff.mp none]
    · simp
  | node _ _ left right ihl ihr => simp [toArrayOnto, items, ihl, ihr]

/-! ### Joining -/

@[simp] theorem items_link (left right : ChunkTree α) : (link left right).items = left.items ++ right.items := rfl

theorem Sized.link (hl : left.Sized) (hr : right.Sized) : (link left right).Sized :=
  ⟨rfl, hl, hr⟩

@[simp] theorem items_linkHighLeft (left right : ChunkTree α) :
    (linkHighLeft left right).items = left.items ++ right.items := by
  unfold linkHighLeft
  repeat' split
  all_goals simp [items]

@[simp] theorem items_linkHighRight (left right : ChunkTree α) :
    (linkHighRight left right).items = left.items ++ right.items := by
  unfold linkHighRight
  repeat' split
  all_goals simp [items]

theorem Sized.linkHighLeft (hl : left.Sized) (hr : right.Sized) : (linkHighLeft left right).Sized := by
  unfold ChunkTree.linkHighLeft
  repeat' split
  all_goals simp_all [Sized, ChunkTree.link]

theorem Sized.linkHighRight (hl : left.Sized) (hr : right.Sized) : (linkHighRight left right).Sized := by
  unfold ChunkTree.linkHighRight
  repeat' split
  all_goals simp_all [Sized, ChunkTree.link]

@[simp] theorem items_linkChunks (a b : Array α) : (linkChunks a b).items = a.toList ++ b.toList := by
  unfold linkChunks
  split <;> simp [items]

theorem sized_linkChunks (a b : Array α) : (linkChunks a b).Sized := by
  unfold linkChunks
  split <;> simp [Sized, link]

@[simp] theorem items_extend (right t : ChunkTree α) : (extend right t).items = t.items ++ right.items := by
  induction t with
  | leaf a => cases right <;> simp [extend, items]
  | node _ _ outer inner _ ih =>
    unfold extend
    split <;> simp [items, ih]

theorem Sized.extend (hr : right.Sized) (ht : t.Sized) : (extend right t).Sized := by
  induction t with
  | leaf a => cases right with
    | leaf b => exact sized_linkChunks a b
    | node _ _ _ _ => exact Sized.link ht hr
  | node _ _ outer inner _ ih =>
    unfold ChunkTree.extend
    split
    · exact Sized.link ht hr
    · exact Sized.linkHighRight ht.2.1 (ih ht.2.2)

@[simp] theorem items_precede (left t : ChunkTree α) : (precede left t).items = left.items ++ t.items := by
  induction t with
  | leaf b => cases left <;> simp [precede, items]
  | node _ _ inner outer ih _ =>
    unfold precede
    split <;> simp [items, ih]

theorem Sized.precede (hl : left.Sized) (ht : t.Sized) : (precede left t).Sized := by
  induction t with
  | leaf b => cases left with
    | leaf a => exact sized_linkChunks a b
    | node _ _ _ _ => exact Sized.link hl ht
  | node _ _ inner outer ih _ =>
    unfold ChunkTree.precede
    split
    · exact Sized.link hl ht
    · exact Sized.linkHighLeft (ih ht.2.1) ht.2.2

theorem Sized.append (hl : left.Sized) (hr : right.Sized) : (append left right).Sized := by
  unfold ChunkTree.append
  repeat' split
  · exact hr
  · exact hl
  · exact hr.extend hl
  · exact hl.precede hr

theorem Sized.items_append (hl : left.Sized) (hr : right.Sized) :
    (ChunkTree.append left right).items = left.items ++ right.items := by
  unfold ChunkTree.append
  split
  · rename_i none
    rw [hl.size_eq, length_eq_zero_iff] at none
    simp [none]
  · split
    · rename_i none
      rw [hr.size_eq, length_eq_zero_iff] at none
      simp [none]
    · split <;> simp

/-! ### Items by index -/

theorem Sized.get?_eq (h : t.Sized) (i : Nat) : t.get? i = t.items[i]? := by
  induction t generalizing i with
  | leaf chunk => simp [get?, items]
  | node _ _ left right ihl ihr =>
    obtain ⟨_, hl, hr⟩ := h
    simp only [get?, items, hl.size_eq, ihl hl, ihr hr]
    split
    · rename_i inLeft
      exact (getElem?_append_left inLeft).symm
    · exact (getElem?_append_right (by omega)).symm

theorem Sized.set (h : t.Sized) (a : α) (i : Nat) : (t.set a i).Sized := by
  induction t generalizing i with
  | leaf chunk => trivial
  | node _ _ left right ihl ihr =>
    obtain ⟨_, hl, hr⟩ := h
    unfold ChunkTree.set
    split
    · exact (ihl hl i).link hr
    · exact hl.link (ihr hr _)

theorem Sized.items_set (h : t.Sized) (a : α) (i : Nat) : (t.set a i).items = t.items.set i a := by
  induction t generalizing i with
  | leaf chunk => simp [ChunkTree.set, items]
  | node _ _ left right ihl ihr =>
    obtain ⟨_, hl, hr⟩ := h
    unfold ChunkTree.set
    rw [hl.size_eq]
    split
    · rename_i inLeft
      simp [items, ihl hl, set_append_left _ _ inLeft]
    · rename_i inRight
      simp [items, ihr hr, set_append_right _ _ (Nat.not_lt.mp inRight)]

theorem Sized.take (h : t.Sized) (n : Nat) : (t.take n).Sized := by
  induction t generalizing n with
  | leaf chunk => trivial
  | node _ _ left right ihl ihr =>
    unfold ChunkTree.take
    split
    · exact h
    · split
      · exact ihl h.2.1 n
      · exact h.2.1.append (ihr h.2.2 _)

theorem Sized.items_take (h : t.Sized) (n : Nat) : (t.take n).items = t.items.take n := by
  induction t generalizing n with
  | leaf chunk => simp [ChunkTree.take, items]
  | node size _ left right ihl ihr =>
    have whole : size = _ := h.size_eq
    obtain ⟨_, hl, hr⟩ := h
    unfold ChunkTree.take
    rw [hl.size_eq]
    split
    · exact (take_of_length_le (by omega)).symm
    · split
      · rename_i inLeft
        simp [items, ihl hl, take_append_of_le_length inLeft]
      · rename_i beyond
        rw [hl.items_append (hr.take _), ihr hr, items, take_append,
          take_of_length_le (Nat.le_of_not_le beyond)]

theorem Sized.drop (h : t.Sized) (n : Nat) : (t.drop n).Sized := by
  induction t generalizing n with
  | leaf chunk => trivial
  | node _ _ left right ihl ihr =>
    unfold ChunkTree.drop
    split
    · exact h
    · split
      · exact ihr h.2.2 _
      · exact (ihl h.2.1 n).append h.2.2

theorem Sized.items_drop (h : t.Sized) (n : Nat) : (t.drop n).items = t.items.drop n := by
  induction t generalizing n with
  | leaf chunk =>
    simp only [ChunkTree.drop, items, Array.toList_extract, extract_eq_take_drop]
    exact take_of_length_le (by simp)
  | node _ _ left right ihl ihr =>
    obtain ⟨_, hl, hr⟩ := h
    unfold ChunkTree.drop
    rw [hl.size_eq]
    split
    · rename_i none
      rw [none, drop_zero]
    · split
      · rename_i beyond
        rw [ihr hr, items, drop_append, drop_of_length_le beyond, nil_append]
      · rename_i inLeft
        rw [(hl.drop n).items_append hr, ihl hl, items, drop_append_of_le_length (by omega)]

/-! ### Comparing -/

theorem Sized.same_iff [BEq α] [LawfulBEq α] {s : ChunkTree α} (hs : s.Sized) (ht : t.Sized)
    (sizes : s.size = t.size) : s.same t = true ↔ s.items = t.items := by
  induction s generalizing t with
  | leaf a => simp [same, items, ← Array.toList_inj, toArrayOnto_eq]
  | node _ _ left right ihl ihr =>
    obtain ⟨whole, hl, hr⟩ := hs
    have length : left.size + right.size = t.items.length := by rw [← ht.size_eq, ← sizes, ← whole]; rfl
    simp only [same, Bool.and_eq_true]
    rw [ihl hl (ht.take _) (by rw [(ht.take _).size_eq, ht.items_take, length_take]; omega),
      ihr hr (ht.drop _) (by rw [(ht.drop _).size_eq, ht.items_drop, length_drop]; omega),
      ht.items_take, ht.items_drop, items]
    constructor
    · rintro ⟨front, back⟩
      rw [front, back, take_append_drop]
    · intro all
      rw [← all, hl.size_eq, take_left, drop_left]
      exact ⟨rfl, rfl⟩

/-! ### Whole trees -/

theorem sized_map (f : α → β) (t : ChunkTree α) : (t.map f).Sized := by
  induction t with
  | leaf chunk => trivial
  | node _ _ left right ihl ihr => exact ihl.link ihr

theorem items_map (f : α → β) (t : ChunkTree α) : (t.map f).items = t.items.map f := by
  induction t with
  | leaf chunk => simp [map, items]
  | node _ _ left right ihl ihr => simp [map, items, ihl, ihr]

theorem sized_reverse (t : ChunkTree α) : t.reverse.Sized := by
  induction t with
  | leaf chunk => trivial
  | node _ _ left right ihl ihr => exact ihr.link ihl

theorem items_reverse (t : ChunkTree α) : t.reverse.items = t.items.reverse := by
  induction t with
  | leaf chunk => simp [reverse, items]
  | node _ _ left right ihl ihr => simp [reverse, items, ihl, ihr]

theorem any_eq (test : α → Bool) (t : ChunkTree α) : t.any test = t.items.any test := by
  induction t with
  | leaf chunk => simp [any, items]
  | node _ _ left right ihl ihr => simp [any, items, ihl, ihr]

theorem sized_ofSlice (items : Array α) (depth start size : Nat) : (ofSlice items depth start size).Sized := by
  induction depth generalizing start size with
  | zero => trivial
  | succ depth ih =>
    unfold ofSlice
    split
    · trivial
    · exact (ih _ _).link (ih _ _)

theorem items_ofSlice (items : Array α) (depth start size : Nat) :
    (ofSlice items depth start size).items = (items.toList.drop start).take size := by
  induction depth generalizing start size with
  | zero => simp [ofSlice, ChunkTree.items]
  | succ depth ih =>
    unfold ofSlice
    split
    · simp [ChunkTree.items]
    · rw [items_link, ih, ih, ← drop_drop, ← take_add]
      congr 1
      omega

end Stepwise.ChunkTree
