import Stepwise.Proofs.Arrangement

/-!
# Merging by keys

When the answers to the questions of a sort are given by the keys of the items, galloping finds the end of a stretch, and
a merge of two sorted runs is what `List.merge` makes of them (`answered_merge`). Merging from the back is merging from
the front with all keys negated, the right run first.
-/

namespace Stepwise.Sorting

open List

variable {α β γ : Type} {key : α → Int} {lt : α → α → Bool} {l left right : List α} {fuel : Nat}

/-- The order of items by their keys. -/
def byKey (key : α → Int) (x y : α) : Bool := decide (key x < key y)

/-- The items are in the order of their keys. -/
def Ascends (key : α → Int) (l : List α) : Prop := l.Pairwise fun x y => key x ≤ key y

/-! ### Answered questions -/

@[simp] theorem answered_pure (b : β) : (pure b : Sorting α β).answered lt = b := rfl

@[simp] theorem answered_bind (s : Sorting α β) (f : β → Sorting α γ) :
    (s >>= f).answered lt = (f (s.answered lt)).answered lt := by
  induction s with
  | done b => rfl
  | ask x y now next ih => exact ih (lt x y)

@[simp] theorem answered_before (now : Unit → List α) (x y : α) : (before now x y).answered lt = lt x y := rfl

@[simp] theorem answered_ite (c : Prop) [Decidable c] (s t : Sorting α β) :
    (if c then s else t).answered lt = if c then s.answered lt else t.answered lt := apply_ite _ c s t

/-! ### Galloping -/

section Gallop

variable {onRight : Nat → Sorting α Bool} {p : Nat → Bool} {k : Nat}

theorem answered_halve (hp : ∀ i, (onRight i).answered lt = p i) {low high : Nat} (hlow : low ≤ k) (hhigh : k ≤ high)
    (hcut : ∀ i < high, p i = decide (i < k)) (hfuel : high - low ≤ fuel) :
    (halve onRight fuel low high).answered lt = k := by
  induction fuel generalizing low high with
  | zero =>
    rw [halve, answered_pure]
    omega
  | succ fuel ih =>
    simp only [halve, answered_ite, answered_bind, hp, answered_pure]
    split
    case isTrue hlt =>
      rw [hcut _ (by omega)]
      split
      case isTrue hmiddle =>
        rw [decide_eq_true_eq] at hmiddle
        exact ih (by omega) hhigh hcut (by omega)
      case isFalse hmiddle =>
        rw [decide_eq_true_eq] at hmiddle
        exact ih hlow (by omega) (fun i hi => hcut i (by omega)) (by omega)
    case isFalse => omega

theorem answered_stride (hp : ∀ d, (onRight d).answered lt = p d) (limit fuel short long : Nat)
    (hcut : ∀ d < limit, p d = decide (d < k)) (hk : k ≤ limit) (hshort : short < k) (hfuel : limit ≤ long + fuel) :
    ((stride limit onRight fuel short long).answered lt).1 < k ∧ k ≤ ((stride limit onRight fuel short long).answered lt).2 ∧
      ((stride limit onRight fuel short long).answered lt).2 ≤ limit := by
  induction fuel generalizing short long with
  | zero =>
    simp only [stride, answered_pure]
    omega
  | succ fuel ih =>
    simp only [stride, answered_ite, answered_bind, hp, answered_pure]
    split
    case isTrue hlong =>
      rw [hcut _ hlong]
      split
      case isTrue hfurther =>
        rw [decide_eq_true_eq] at hfurther
        exact ih _ _ hfurther (by omega)
      case isFalse hfurther =>
        rw [decide_eq_true_eq] at hfurther
        exact ⟨hshort, Nat.not_lt.mp hfurther, Nat.le_of_lt hlong⟩
    case isFalse => exact ⟨hshort, hk, Nat.le_refl _⟩

/-- From any hint, galloping finds the place where the answers change. -/
theorem answered_gallop (hp : ∀ i, (onRight i).answered lt = p i) {size hint : Nat} (hk : k ≤ size)
    (hcut : ∀ i < size, p i = decide (i < k)) (hhint : hint < size) : (gallop onRight size hint).answered lt = k := by
  simp only [gallop, answered_ite, answered_bind, hp]
  rw [hcut _ hhint]
  split
  case isTrue hright =>
    rw [decide_eq_true_eq] at hright
    have hahead : ∀ d < size - hint, p (hint + d) = decide (d < k - hint) := by
      intro d hd
      rw [hcut _ (by omega), decide_eq_decide]
      omega
    obtain ⟨hshort, hlong, hlimit⟩ :=
      answered_stride (fun d => hp (hint + d)) _ (size + 1) 0 1 hahead (by omega) (by omega) (by omega)
    exact answered_halve hp (by omega) (by omega) (fun i hi => hcut i (by omega)) (by omega)
  case isFalse hright =>
    rw [decide_eq_true_eq] at hright
    have hnot (d : Nat) : (do return !(← onRight (hint - d)) : Sorting α Bool).answered lt = !p (hint - d) := by simp [hp]
    have hback : ∀ d < hint + 1, (!p (hint - d)) = decide (d < hint + 1 - k) := by
      intro d hd
      rw [hcut _ (by omega), ← decide_not, decide_eq_decide]
      omega
    obtain ⟨hshort, hlong, hlimit⟩ := answered_stride hnot _ (size + 1) 0 1 hback (by omega) (by omega) (by omega)
    exact answered_halve hp (by omega) (by omega) (fun i hi => hcut i (by omega)) (by omega)

end Gallop

/-! ### Stretches of sorted items -/

section Stretch

variable {l : List α} {q : α → Bool} {hint : Nat}

theorem take_length_takeWhile (q : α → Bool) (l : List α) : l.take (l.takeWhile q).length = l.takeWhile q := by
  conv => lhs; arg 2; rw [← takeWhile_append_dropWhile (p := q) (l := l)]
  exact take_left

theorem drop_length_takeWhile (q : α → Bool) (l : List α) : l.drop (l.takeWhile q).length = l.dropWhile q := by
  conv => lhs; arg 2; rw [← takeWhile_append_dropWhile (p := q) (l := l)]
  exact drop_left

theorem Ascends.dropWhile (hl : Ascends key l) (q : α → Bool) :
    Ascends key (l.dropWhile q) ∧ (l.dropWhile q).length ≤ l.length ∧ (∀ x ∈ l.dropWhile q, x ∈ l) ∧
      ∀ x ∈ (l.dropWhile q).head?, q x = false := by
  have hsub := dropWhile_sublist (l := l) q
  refine ⟨hl.sublist hsub, hsub.length_le, fun x hx => hsub.mem hx, fun x hx => ?_⟩
  have hfirst := head?_dropWhile_not q l
  rw [hx] at hfirst
  simpa using hfirst

/-- No item has the property after the first one without it. -/
def Heads (q : α → Bool) (l : List α) : Prop := ∀ x ∈ l.dropWhile q, q x = false

theorem Ascends.heads (hl : Ascends key l) (hq : ∀ x y, key x ≤ key y → q y → q x) : Heads q l := by
  induction l with
  | nil => exact forall_mem_nil _
  | cons x l ih =>
    obtain ⟨hfirst, hrest⟩ := pairwise_cons.mp hl
    rw [Heads, dropWhile_cons]
    split
    case isTrue => exact ih hrest
    case isFalse hx =>
      rw [forall_mem_cons]
      refine ⟨Bool.eq_false_iff.mpr hx, fun y hy => Bool.eq_false_iff.mpr fun hqy => hx ?_⟩
      exact hq x y (hfirst y hy) hqy

theorem Ascends.heads_lt (hl : Ascends key l) (x : α) : Heads (fun y => decide (key y < key x)) l := by
  refine hl.heads fun y z hyz hz => ?_
  simp only [decide_eq_true_eq] at hz ⊢
  omega

theorem Ascends.heads_le (hl : Ascends key l) (x : α) : Heads (fun y => decide (key y ≤ key x)) l := by
  refine hl.heads fun y z hyz hz => ?_
  simp only [decide_eq_true_eq] at hz ⊢
  omega

theorem Heads.getD (hl : Heads q l) (d : α) {i : Nat} (hi : i < l.length) :
    q (l.toArray.getD i d) = decide (i < (l.takeWhile q).length) := by
  induction l generalizing i with
  | nil => cases hi
  | cons x l ih =>
    rw [Heads, dropWhile_cons] at hl
    rw [takeWhile_cons]
    split
    case isTrue hx =>
      rw [if_pos hx] at hl
      cases i with
      | zero => simpa using hx
      | succ i => simpa using ih hl (Nat.lt_of_succ_lt_succ hi)
    case isFalse hx =>
      rw [if_neg hx] at hl
      simpa [getElem?_eq_getElem hi] using hl _ (getElem_mem hi)

theorem length_takeWhile_le (q : α → Bool) (l : List α) : (l.takeWhile q).length ≤ l.length :=
  ( takeWhile_prefix q).length_le

/-- From the back of a list the items without the property come first. -/
theorem Heads.takeWhile_reverse (hl : Heads q l) : l.reverse.takeWhile (fun x => !q x) = (l.dropWhile q).reverse := by
  have hparts : l.reverse = (l.dropWhile q).reverse ++ (l.takeWhile q).reverse := by
    rw [← reverse_append, takeWhile_append_dropWhile]
  rw [hparts, takeWhile_append_of_pos fun x hx => ?_]
  · cases hlast : (l.takeWhile q).reverse with
    | nil => rw [takeWhile_nil, append_nil]
    | cons x rest =>
      have hx : x ∈ l.takeWhile q := by rw [← mem_reverse, hlast]; exact mem_cons_self
      have hqx := all_eq_true.mp all_takeWhile x hx
      rw [takeWhile_cons_of_neg (by simp [hqx]), append_nil]
  · rw [hl x (mem_reverse.mp hx)]
    rfl

theorem Heads.length_takeWhile_reverse (hl : Heads q l) :
    (l.reverse.takeWhile fun x => !q x).length = l.length - (l.takeWhile q).length := by
  have hlength := congrArg List.length (takeWhile_append_dropWhile (p := q) (l := l))
  rw [length_append] at hlength
  rw [hl.takeWhile_reverse, length_reverse]
  omega

theorem answered_gallopLeft (now : Unit → List α) (x : α) (hl : Ascends key l) (hhint : hint < l.length) :
    (gallopLeft now x l.toArray hint).answered (byKey key) = (l.takeWhile fun y => key y < key x).length := by
  exact answered_gallop (fun i => rfl) (length_takeWhile_le _ l) (fun i hi => (hl.heads_lt x).getD x hi) hhint

theorem answered_gallopRight (now : Unit → List α) (x : α) (hl : Ascends key l) (hhint : hint < l.length) :
    (gallopRight now x l.toArray hint).answered (byKey key) = (l.takeWhile fun y => key y ≤ key x).length := by
  refine answered_gallop (p := fun i => decide (key (l.toArray.getD i x) ≤ key x)) (fun i => ?_) (length_takeWhile_le _ l)
    (fun i hi => (hl.heads_le x).getD x hi) hhint
  simp only [answered_bind, answered_before, answered_pure, byKey, ← decide_not, Int.not_lt]

end Stretch

/-! ### The merge of two lists -/

section Merged

/-- The stable merge of two lists by keys. -/
def merged (key : α → Int) (xs ys : List α) : List α := xs.merge ys fun x y => decide (key x ≤ key y)

variable {x y z : α} {xs ys zs : List α}

@[simp] theorem merged_nil_left : merged key [] ys = ys := nil_merge ys

@[simp] theorem merged_nil_right : merged key xs [] = xs := merge_right xs

theorem merged_cons_of_le (h : key x ≤ key y) : merged key (x :: xs) (y :: ys) = x :: merged key xs (y :: ys) := by
  rw [merged, cons_merge_cons, if_pos (decide_eq_true h)]
  rfl

theorem merged_cons_of_lt (h : key y < key x) : merged key (x :: xs) (y :: ys) = y :: merged key (x :: xs) ys := by
  rw [merged, cons_merge_cons, if_neg (by simpa using h)]
  rfl

/-- The items of the first list that do not come after the first one of the second list go first. -/
theorem merged_takeWhile_left (xs ys : List α) (y : α) :
    merged key xs (y :: ys) =
      (xs.takeWhile fun x => key x ≤ key y) ++ merged key (xs.dropWhile fun x => key x ≤ key y) (y :: ys) := by
  induction xs with
  | nil => rfl
  | cons x xs ih =>
    by_cases hx : key x ≤ key y
    · rw [merged_cons_of_le hx, ih, takeWhile_cons_of_pos (by simpa using hx),
        dropWhile_cons_of_pos (by simpa using hx), cons_append]
    · rw [takeWhile_cons_of_neg (by simpa using hx), dropWhile_cons_of_neg (by simpa using hx), nil_append]

/-- The items of the second list that come before the first one of the first list go first. -/
theorem merged_takeWhile_right (xs ys : List α) (x : α) :
    merged key (x :: xs) ys =
      (ys.takeWhile fun y => key y < key x) ++ merged key (x :: xs) (ys.dropWhile fun y => key y < key x) := by
  induction ys with
  | nil => rfl
  | cons y ys ih =>
    by_cases hy : key y < key x
    · rw [merged_cons_of_lt hy, ih, takeWhile_cons_of_pos (by simpa using hy),
        dropWhile_cons_of_pos (by simpa using hy), cons_append]
    · rw [takeWhile_cons_of_neg (by simpa using hy), dropWhile_cons_of_neg (by simpa using hy), nil_append]

theorem merged_singleton (h : ∀ y ∈ ys, key y < key z) : merged key [z] ys = ys ++ [z] := by
  induction ys with
  | nil => exact merged_nil_right
  | cons y ys ih =>
    obtain ⟨hy, hys⟩ := forall_mem_cons.mp h
    rw [merged_cons_of_lt hy, ih hys, cons_append]

theorem merged_of_le (h : ∀ x ∈ xs, ∀ y ∈ ys, key x ≤ key y) : merged key xs ys = xs ++ ys :=
  merge_of_le fun x y hx hy => decide_eq_true (h x hx y hy)

/-- What no item of the first list comes after stays at the end. -/
theorem merged_append_right (h : ∀ x ∈ xs, ∀ z ∈ zs, key x ≤ key z) :
    merged key xs (ys ++ zs) = merged key xs ys ++ zs := by
  induction xs generalizing ys with
  | nil => simp
  | cons x xs ih =>
    obtain ⟨-, hxs⟩ := forall_mem_cons.mp h
    induction ys with
    | nil => rw [nil_append, merged_nil_right, merged_of_le h]
    | cons y ys ihys =>
      rw [cons_append]
      by_cases hle : key x ≤ key y
      · rw [merged_cons_of_le hle, merged_cons_of_le hle, ← cons_append, ih hxs, cons_append]
      · rw [merged_cons_of_lt (Int.not_le.mp hle), merged_cons_of_lt (Int.not_le.mp hle), ihys, cons_append]

/-- What all items of the second list come before stays at the end. -/
theorem merged_append_left (h : ∀ y ∈ ys, ∀ z ∈ zs, key y < key z) :
    merged key (xs ++ zs) ys = merged key xs ys ++ zs := by
  induction ys generalizing xs with
  | nil => simp
  | cons y ys ih =>
    obtain ⟨hy, hys⟩ := forall_mem_cons.mp h
    induction xs with
    | nil =>
      rw [nil_append, merged_nil_left]
      cases zs with
      | nil => exact merged_nil_left.trans (append_nil _).symm
      | cons z zs =>
        have hrest : merged key ([] ++ z :: zs) ys = merged key [] ys ++ z :: zs := ih hys
        rw [nil_append, merged_nil_left] at hrest
        rw [merged_cons_of_lt (hy z mem_cons_self), hrest, cons_append]
    | cons x xs ihxs =>
      rw [cons_append]
      by_cases hle : key x ≤ key y
      · rw [merged_cons_of_le hle, merged_cons_of_le hle, ihxs, cons_append]
      · rw [merged_cons_of_lt (Int.not_le.mp hle), merged_cons_of_lt (Int.not_le.mp hle), ← cons_append, ih hys,
          cons_append]

theorem Ascends.merged (hxs : Ascends key xs) (hys : Ascends key ys) : Ascends key (merged key xs ys) := by
  have htrans (x y z : α) (hxy : decide (key x ≤ key y)) (hyz : decide (key y ≤ key z)) : decide (key x ≤ key z) := by
    simp only [decide_eq_true_eq] at hxy hyz ⊢
    omega
  have htotal (x y : α) : decide (key x ≤ key y) || decide (key y ≤ key x) := by
    simp only [Bool.or_eq_true, decide_eq_true_eq]
    omega
  have hmerge := pairwise_merge htrans htotal xs ys
  simp only [decide_eq_true_eq] at hmerge
  exact hmerge hxs hys

/-- The keys of the opposite order. -/
def opposite (key : α → Int) (x : α) : Int := -key x

theorem opposite_le : opposite key x ≤ opposite key y ↔ key y ≤ key x := Int.neg_le_neg_iff

theorem opposite_lt : opposite key x < opposite key y ↔ key y < key x := Int.neg_lt_neg_iff

theorem ascends_reverse : Ascends key xs.reverse ↔ Ascends (opposite key) xs := by
  simp only [Ascends, pairwise_reverse, opposite_le]

theorem ascends_reverse_opposite : Ascends (opposite key) xs.reverse ↔ Ascends key xs := by
  simp only [Ascends, pairwise_reverse, opposite_le]

/-- From the back, a merge is one in the opposite order, the second list first. -/
theorem merged_reverse (hxs : Ascends (opposite key) xs) (hys : Ascends (opposite key) ys) :
    merged key xs.reverse ys.reverse = (merged (opposite key) ys xs).reverse := by
  induction ys generalizing xs with
  | nil => simp
  | cons y ys ih =>
    obtain ⟨hy, hys'⟩ := pairwise_cons.mp hys
    induction xs with
    | nil => simp
    | cons x xs ihxs =>
      obtain ⟨hx, hxs'⟩ := pairwise_cons.mp hxs
      by_cases hle : key x ≤ key y
      · have hlast : (y :: ys).reverse = ys.reverse ++ [y] := reverse_cons
        rw [merged_cons_of_le (opposite_le.mpr hle), hlast, merged_append_right, ih hxs hys', reverse_cons]
        intro x' hx' z hz
        rw [mem_singleton.mp hz]
        rcases mem_cons.mp (mem_reverse.mp hx') with rfl | hmem
        · exact hle
        · exact Int.le_trans (opposite_le.mp (hx x' hmem)) hle
      · have hlt : key y < key x := Int.not_le.mp hle
        have hlast : (x :: xs).reverse = xs.reverse ++ [x] := reverse_cons
        rw [merged_cons_of_lt (opposite_lt.mpr hlt), hlast, merged_append_left, ihxs hxs', reverse_cons]
        intro y' hy' z hz
        rw [mem_singleton.mp hz]
        rcases mem_cons.mp (mem_reverse.mp hy') with rfl | hmem
        · exact hlt
        · exact Int.lt_of_le_of_lt (opposite_le.mp (hy y' hmem)) hlt

end Merged

/-! ### Merging runs -/

theorem exists_of_isSingle (h : isSingle l) : ∃ x, l = [x] := by
  unfold isSingle at h
  split at h
  · exact ⟨_, rfl⟩
  · cases h

theorem reverse_of_isSingle (h : isSingle l) : l.reverse = l := by
  obtain ⟨x, rfl⟩ := exists_of_isSingle h
  rfl

section Tops

variable {x y : α} {xs ys : List α}

/-- All items of the second list come before the last one of the first. -/
def Tops (key : α → Int) (xs ys : List α) : Prop := ∃ z, xs.getLast? = some z ∧ ∀ y ∈ ys, key y < key z

namespace Tops

theorem ne_nil (h : Tops key xs ys) : xs ≠ [] := by
  rintro rfl
  obtain ⟨z, hz, -⟩ := h
  cases hz

theorem mono {ys' : List α} (h : Tops key xs ys) (hsub : ∀ y ∈ ys', y ∈ ys) : Tops key xs ys' := by
  obtain ⟨z, hz, hall⟩ := h
  exact ⟨z, hz, fun y hy => hall y (hsub y hy)⟩

theorem tail (h : Tops key (x :: xs) ys) (hy : y ∈ ys) (hle : key x ≤ key y) : Tops key xs ys := by
  obtain ⟨z, hz, hall⟩ := h
  cases xs with
  | nil =>
    obtain rfl : x = z := by simpa using hz
    exact absurd (hall y hy) (Int.not_lt.mpr hle)
  | cons x' xs => exact ⟨z, by simpa using hz, hall⟩

theorem dropWhile (h : Tops key xs ys) (hy : y ∈ ys) : Tops key (xs.dropWhile fun x => key x ≤ key y) ys := by
  induction xs with
  | nil => exact h
  | cons x xs ih =>
    rw [dropWhile_cons]
    split
    case isTrue hle => exact ih (h.tail hy (by simpa using hle))
    case isFalse => exact h

theorem merged_of_isSingle (h : Tops key xs ys) (hsingle : isSingle xs) : merged key xs ys = ys ++ xs := by
  obtain ⟨z, hz, hall⟩ := h
  obtain ⟨x, rfl⟩ := exists_of_isSingle hsingle
  obtain rfl := Option.some.inj hz
  exact merged_singleton hall

end Tops

end Tops

section Back

variable {l : List α}

theorem answered_gallopRight_reverse (now : Unit → List α) (x : α) (hl : Ascends (opposite key) l) :
    l.length - (gallopRight now x l.reverse.toArray (l.length - 1)).answered (byKey key) =
      (l.takeWhile fun y => opposite key y < opposite key x).length := by
  rcases Nat.eq_zero_or_pos l.length with hzero | hpos
  · rw [length_eq_zero_iff.mp hzero]
    exact Nat.zero_sub _
  have hlength := (hl.heads_lt x).length_takeWhile_reverse
  simp only [← decide_not, Int.not_lt, opposite_le] at hlength
  rw [answered_gallopRight _ _ (ascends_reverse.mpr hl) (by rw [length_reverse]; omega), hlength]
  have hle := length_takeWhile_le (fun y => decide (opposite key y < opposite key x)) l
  omega

theorem answered_gallopLeft_reverse (now : Unit → List α) (x : α) (hl : Ascends (opposite key) l) :
    l.length - (gallopLeft now x l.reverse.toArray (l.length - 1)).answered (byKey key) =
      (l.takeWhile fun y => opposite key y ≤ opposite key x).length := by
  rcases Nat.eq_zero_or_pos l.length with hzero | hpos
  · rw [length_eq_zero_iff.mp hzero]
    exact Nat.zero_sub _
  have hlength := (hl.heads_le x).length_takeWhile_reverse
  simp only [← decide_not, Int.not_le, opposite_lt] at hlength
  rw [answered_gallopLeft _ _ (ascends_reverse.mpr hl) (by rw [length_reverse]; omega), hlength]
  have hle := length_takeWhile_le (fun y => decide (opposite key y ≤ opposite key x)) l
  omega

end Back

theorem answered_mergeFront (place : List α → List α) (pace : Pace) (patience : Nat)
    (out : List α) (hleft : Ascends key left) (hright : Ascends key right) (htops : Tops key left right)
    (hfuel : left.length + right.length < fuel) :
    ((mergeFront place fuel pace patience out left right).answered (byKey key)).items =
      out.reverse ++ merged key left right := by
  induction fuel generalizing pace patience out left right with
  | zero => cases hfuel
  | succ fuel ih =>
    rcases right with _ | ⟨y, right⟩
    · rcases pace with ⟨leftWins, rightWins⟩ | _ <;> simp [mergeFront]
    have hright' : Ascends key right := (pairwise_cons.mp hright).2
    have htops' : Tops key left right := htops.mono fun z hz => mem_cons_of_mem y hz
    rcases pace with ⟨leftWins, rightWins⟩ | _
    · rcases left with _ | ⟨x, left⟩
      · simp [mergeFront]
      simp only [length_cons] at hfuel
      simp only [mergeFront, answered_bind, answered_before, answered_ite, answered_pure, byKey, decide_eq_true_eq]
      split
      case isTrue hlt =>
        rw [merged_cons_of_lt hlt]
        split
        case isTrue hempty => simp [isEmpty_iff.mp hempty]
        case isFalse => split <;> simp [ih _ _ _ hleft hright' htops' (by simp; omega)]
      case isFalse hle =>
        have hle : key x ≤ key y := Int.not_lt.mp hle
        have hleft' : Ascends key left := (pairwise_cons.mp hleft).2
        have hrest := htops.tail mem_cons_self hle
        rw [merged_cons_of_le hle]
        split
        case isTrue hsingle => simp [hrest.merged_of_isSingle hsingle]
        case isFalse => split <;> simp [ih _ _ _ hleft' hright hrest (by simp; omega)]
    · have hpos : 0 < left.length := length_pos_iff.mpr htops.ne_nil
      simp only [mergeFront, answered_bind, answered_ite, answered_pure, answered_gallopRight _ _ hleft hpos,
        take_length_takeWhile, drop_length_takeWhile]
      have hrest := htops.dropWhile mem_cons_self
      obtain ⟨hsorted, hlength, -, hlater⟩ := hleft.dropWhile fun x => key x ≤ key y
      rw [merged_takeWhile_left]
      generalize (left.dropWhile fun x => key x ≤ key y) = rest at hrest hsorted hlength hlater ⊢
      split
      case isTrue hsingle => simp [hrest.merged_of_isSingle hsingle.2]
      rcases rest with _ | ⟨x, rest⟩
      · exact absurd rfl hrest.ne_nil
      rw [if_neg (by simp), merged_cons_of_lt (by simpa using hlater x rfl)]
      split
      case isTrue hempty => simp [isEmpty_iff.mp hempty]
      case isFalse hempty =>
        have hpos' : 0 < right.length := length_pos_iff.mpr fun h => hempty (isEmpty_iff.mpr h)
        simp only [answered_bind, answered_ite, answered_pure, answered_gallopLeft _ _ hright' hpos',
          take_length_takeWhile, drop_length_takeWhile]
        obtain ⟨hsorted', hlength', hsub, hlater'⟩ := hright'.dropWhile fun z => key z < key x
        rw [merged_takeWhile_right]
        generalize (right.dropWhile fun z => key z < key x) = others at hsub hsorted' hlength' hlater' ⊢
        rcases others with _ | ⟨z, others⟩
        · simp
        have hle : key x ≤ key z := by simpa using hlater' z rfl
        have hrest' : Tops key rest (z :: others) :=
          (hrest.mono fun y' hy' => mem_cons_of_mem y (hsub y' hy')).tail mem_cons_self hle
        rw [if_neg (by simp), merged_cons_of_le hle]
        split
        case isTrue hsingle => simp [hrest'.merged_of_isSingle hsingle]
        case isFalse =>
          simp only [length_cons] at hfuel hlength hlength'
          split <;> simp [ih _ _ _ (pairwise_cons.mp hsorted).2 hsorted' hrest' (by simp; omega)]

/-- A merge from the back is one in the opposite order: what was galloped through on the left is galloped through on
the right, and the other way round. -/
theorem answered_mergeBack (place : List α → List α) (pace : Pace) (patience : Nat)
    (out : List α) (hleft : Ascends (opposite key) left) (hright : Ascends (opposite key) right)
    (htops : Tops (opposite key) right left) (hfuel : left.length + right.length < fuel) :
    ((mergeBack place fuel pace patience left right out).answered (byKey key)).items =
      (merged (opposite key) right left).reverse ++ out := by
  induction fuel generalizing pace patience out left right with
  | zero => cases hfuel
  | succ fuel ih =>
    rcases right with _ | ⟨y, right⟩
    · exact absurd rfl htops.ne_nil
    have hright' : Ascends (opposite key) right := (pairwise_cons.mp hright).2
    rcases pace with ⟨leftWins, rightWins⟩ | _
    · rcases left with _ | ⟨x, left⟩
      · simp [mergeBack]
      have hleft' : Ascends (opposite key) left := (pairwise_cons.mp hleft).2
      simp only [length_cons] at hfuel
      simp only [mergeBack, answered_bind, answered_before, answered_ite, answered_pure, byKey, decide_eq_true_eq]
      split
      case isTrue hlt =>
        have htops' := htops.mono fun z hz => mem_cons_of_mem x hz
        rw [merged_cons_of_lt (opposite_lt.mpr hlt)]
        split
        case isTrue hempty => simp [isEmpty_iff.mp hempty]
        case isFalse => split <;> simp [ih _ _ _ hleft' hright htops' (by simp; omega)]
      case isFalse hle =>
        have hle : opposite key y ≤ opposite key x := opposite_le.mpr (Int.not_lt.mp hle)
        have hrest := htops.tail mem_cons_self hle
        rw [merged_cons_of_le hle]
        split
        case isTrue hsingle => simp [hrest.merged_of_isSingle hsingle, reverse_of_isSingle hsingle]
        case isFalse => split <;> simp [ih _ _ _ hleft hright' hrest (by simp; omega)]
    · simp only [mergeBack, answered_bind, answered_ite, answered_pure, answered_gallopRight_reverse _ _ hleft,
        take_length_takeWhile, drop_length_takeWhile]
      obtain ⟨hsorted, hlength, hsub, hlater⟩ := hleft.dropWhile fun x => opposite key x < opposite key y
      rw [merged_takeWhile_right]
      generalize (left.dropWhile fun x => opposite key x < opposite key y) = others at hsorted hlength hsub hlater ⊢
      rcases others with _ | ⟨x, others⟩
      · simp
      have hle : opposite key y ≤ opposite key x := by simpa using hlater x rfl
      have hrest := (htops.mono hsub).tail mem_cons_self hle
      rw [if_neg (by simp), merged_cons_of_le hle]
      split
      case isTrue hsingle => simp [hrest.merged_of_isSingle hsingle, reverse_of_isSingle hsingle]
      case isFalse =>
        simp only [answered_bind, answered_ite, answered_pure, answered_gallopLeft_reverse _ _ hright',
          take_length_takeWhile, drop_length_takeWhile]
        have hrest' := hrest.dropWhile mem_cons_self
        obtain ⟨hsorted', hlength', -, hlater'⟩ := hright'.dropWhile fun z => opposite key z ≤ opposite key x
        rw [merged_takeWhile_left]
        generalize (right.dropWhile fun z => opposite key z ≤ opposite key x) = rest at hrest' hsorted' hlength' hlater' ⊢
        split
        case isTrue hsingle =>
          simp [hrest'.merged_of_isSingle hsingle.2, reverse_of_isSingle hsingle.2]
        rcases rest with _ | ⟨z, rest⟩
        · exact absurd rfl hrest'.ne_nil
        rw [if_neg (by simp), merged_cons_of_lt (by simpa using hlater' z rfl)]
        split
        case isTrue hempty => simp [isEmpty_iff.mp hempty]
        case isFalse =>
          have htops' := hrest'.mono fun z hz => mem_cons_of_mem x hz
          simp only [length_cons] at hfuel hlength hlength'
          split <;> simp [ih _ _ _ (pairwise_cons.mp hsorted).2 hsorted' htops' (by simp; omega)]

/-- The last item of the first list divides the second one: what does not come before it is in its place. -/
theorem merged_last {init front tail : List α} {last : α} (hleft : Ascends key (init ++ [last]))
    (hfront : ∀ y ∈ front, key y < key last) (htail : ∀ z ∈ tail, key last ≤ key z) :
    merged key (init ++ [last]) (front ++ tail) = merged key init front ++ [last] ++ tail := by
  have hends : ∀ x ∈ init ++ [last], ∀ z ∈ tail, key x ≤ key z := by
    intro x hx z hz
    refine Int.le_trans ?_ (htail z hz)
    rcases mem_append.mp hx with hx | hx
    · exact (pairwise_append.mp hleft).2.2 x hx last mem_cons_self
    · exact Int.le_of_eq (congrArg key (mem_singleton.mp hx))
  rw [merged_append_right hends, merged_append_left (by simpa using hfront)]

theorem answered_merge (place : List α → List α) (patience : Nat) (hleft : Ascends key left)
    (hright : Ascends key right) :
    ((merge place patience left right).answered (byKey key)).items = merged key left right := by
  rcases right with _ | ⟨y, right⟩
  · simp [merge]
  rcases Nat.eq_zero_or_pos left.length with hzero | hpos
  · simp [merge, length_eq_zero_iff.mp hzero]
  simp only [merge, answered_bind, answered_gallopRight _ _ hleft hpos, take_length_takeWhile, drop_length_takeWhile]
  have hhead : left = left.takeWhile (fun x => key x ≤ key y) ++ left.dropWhile fun x => key x ≤ key y :=
    takeWhile_append_dropWhile.symm
  have hlater : ∀ x ∈ left.dropWhile fun x => key x ≤ key y, key y < key x :=
    fun x hx => Int.not_le.mp (of_decide_eq_false (hleft.heads_le y x hx))
  obtain ⟨hsorted, hlength, -, -⟩ := hleft.dropWhile fun x => key x ≤ key y
  rw [merged_takeWhile_left]
  generalize (left.takeWhile fun x => key x ≤ key y) = head at hhead ⊢
  generalize (left.dropWhile fun x => key x ≤ key y) = rest at hhead hlater hsorted hlength ⊢
  split
  case h_1 hnone =>
    obtain rfl := getLast?_eq_none_iff.mp hnone
    simp [hhead]
  case h_2 last hlast =>
    simp only [answered_bind, answered_gallopLeft _ _ hright (Nat.sub_one_lt (Nat.succ_ne_zero _)), take_length_takeWhile,
      drop_length_takeWhile]
    obtain ⟨init, rfl⟩ := getLast?_eq_some_iff.mp hlast
    have hfront : ∀ z ∈ (y :: right).takeWhile fun z => key z < key last, key z < key last :=
      fun z hz => of_decide_eq_true (all_eq_true.mp all_takeWhile z hz)
    have htail : ∀ z ∈ (y :: right).dropWhile fun z => key z < key last, key last ≤ key z :=
      fun z hz => Int.not_lt.mp (of_decide_eq_false (hright.heads_lt last z hz))
    have hsub := takeWhile_sublist (l := y :: right) fun z => key z < key last
    have hmiddle := merged_last hsorted hfront htail
    rw [takeWhile_append_dropWhile] at hmiddle
    have hcons : (y :: right).takeWhile (fun z => key z < key last) = y :: right.takeWhile fun z => key z < key last :=
      takeWhile_cons_of_pos (decide_eq_true (hlater last (mem_of_getLast? hlast)))
    rw [hmiddle, hcons]
    rw [hcons] at hfront hsub
    generalize (right.takeWhile fun z => key z < key last) = others at hfront hsub ⊢
    generalize (y :: right).dropWhile (fun z => key z < key last) = tail
    have hlengths := hsub.length_le
    have hascends : Ascends key (y :: others) := hright.sublist hsub
    have finish {s : Sorting α (Merged α)} (hs : (s.answered (byKey key)).items = merged key init (y :: others) ++ [last]) :
        ((s >>= fun m => (pure (Merged.mk (head ++ m.items ++ tail) m.patience) : Sorting α (Merged α))).answered
          (byKey key)).items = head ++ (merged key init (y :: others) ++ [last] ++ tail) := by
      simp only [answered_bind, answered_pure, hs, append_assoc]
    rcases init with _ | ⟨x, more⟩
    · rcases others with _ | ⟨y', others⟩ <;> simp
    have hyx : key y < key x := hlater x mem_cons_self
    have hothers : ∀ z ∈ others, key z < key last := (forall_mem_cons.mp hfront).2
    simp only [cons_append, length_cons] at hsorted hlength hlengths hlast ⊢
    split
    case isTrue =>
      split
      case isTrue hempty => exact finish (by simp [isEmpty_iff.mp hempty, merged_cons_of_lt hyx])
      case isFalse =>
        rw [if_neg (by simp)]
        refine finish ?_
        rw [answered_mergeFront _ _ _ _ hsorted (pairwise_cons.mp hascends).2 ⟨last, hlast, hothers⟩
          (by rw [length_cons]; omega), merged_cons_of_lt hyx, ← cons_append,
          merged_append_left (by simpa using hothers)]
        rfl
    case isFalse =>
      rw [← cons_append, reverse_append, reverse_singleton, singleton_append]
      simp only [isEmpty_reverse]
      rw [if_neg (by simp)]
      split
      case isTrue hsingle =>
        obtain ⟨y', hy'⟩ := exists_of_isSingle hsingle
        obtain ⟨rfl, rfl⟩ := cons.inj (reverse_eq_iff.mp hy')
        exact finish (by simp [merged_cons_of_lt hyx])
      case isFalse =>
        have hinit : Ascends key (x :: more) := List.Pairwise.sublist (by simp) hsorted
        have htops : Tops (opposite key) (y :: others).reverse (x :: more).reverse := by
          refine ⟨y, by simp, fun z hz => opposite_lt.mpr (hlater z ?_)⟩
          exact mem_append_left _ (mem_reverse.mp hz)
        have hlengths' : (x :: more).reverse.length + (y :: others).reverse.length < left.length + (right.length + 1) + 1 := by
          simp only [length_reverse, length_cons, length_append] at hlength ⊢
          omega
        refine finish ?_
        rw [answered_mergeBack _ _ _ _ (ascends_reverse_opposite.mpr hinit) (ascends_reverse_opposite.mpr hascends) htops hlengths',
          ← merged_reverse (ascends_reverse_opposite.mpr hinit) (ascends_reverse_opposite.mpr hascends), reverse_reverse,
          reverse_reverse]

end Stepwise.Sorting
