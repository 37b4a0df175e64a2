import Stepwise.Sorting.Runs

/-!
# Sorting moves items about

Whatever the answers are, a sort does nothing but move items about: it asks about the items that it was given, and the
arrangements that go with its questions, and its result, are permutations of them (`arranges_sort`). To say so, the items
with some property are counted: `Conserves p n` says that there are `n` of them in every arrangement. So a property of
all items is carried through the sort.
-/

namespace Stepwise.Sorting

open List

variable {α β γ : Type} {p : α → Bool} {n c : Nat} {l l' items : List α} {Q : β → Prop} {R : γ → Prop}
  {runs : List (Run α)} {rest : List α} {s : Sorting α β}

/-- Whatever the answers are, the items that are asked about are among `n` items with the property if they have it, every
arrangement has these `n` items, and the result is as described. -/
def Conserves (p : α → Bool) (n : Nat) (Q : β → Prop) : Sorting α β → Prop
  | .done b => Q b
  | .ask x y now next =>
    ([x].countP p ≤ n ∧ [y].countP p ≤ n ∧ (now ()).countP p = n) ∧ ∀ answer, (next answer).Conserves p n Q

namespace Conserves

variable {s t : Sorting α β}

theorem done {b : β} (h : Q b) : Conserves p n Q (pure b : Sorting α β) := h

theorem bind {f : β → Sorting α γ} (hs : Conserves p n Q s) (hf : ∀ b, Q b → Conserves p n R (f b)) :
    Conserves p n R (s >>= f) := by
  induction s with
  | done b => exact hf b hs
  | ask x y now next ih => exact ⟨hs.1, fun answer => ih answer (hs.2 answer)⟩

theorem ite {cond : Prop} [Decidable cond] (hs : Conserves p n Q s) (ht : Conserves p n Q t) :
    Conserves p n Q (if cond then s else t) := by
  split
  · exact hs
  · exact ht

theorem iteEmpty (hs : l.countP p = 0 → Conserves p n Q s) (ht : Conserves p n Q t) :
    Conserves p n Q (if l.isEmpty then s else t) := by
  split
  case isTrue hempty => exact hs (by rw [isEmpty_iff.mp hempty, countP_nil])
  case isFalse => exact ht

theorem before {now : Unit → List α} {x y : α} (hnow : (now ()).countP p = n) (hx : [x].countP p ≤ n)
    (hy : [y].countP p ≤ n) : Conserves p n (fun _ => True) (before now x y) := ⟨⟨hx, hy, hnow⟩, fun _ => trivial⟩

end Conserves

theorem countP_take_add_drop (p : α → Bool) (l : List α) (k : Nat) :
    (l.take k).countP p + (l.drop k).countP p = l.countP p := by
  rw [← countP_append, take_append_drop]

theorem countP_getD_le {xs : Array α} {d : α} (hxs : xs.toList.countP p ≤ n) (hd : [d].countP p ≤ n) (i : Nat) :
    [xs.getD i d].countP p ≤ n := by
  unfold Array.getD
  split
  · exact Nat.le_trans (Sublist.countP_le (singleton_sublist.mpr (Array.getElem_mem_toList _))) hxs
  · exact hd

/-! ### Runs and insertion -/

section Questions

variable {now : Unit → List α} (hnow : (now ()).countP p = n)

include hnow

theorem conserves_runLength (descending : Bool) (length : Nat) {last : α} (hlast : [last].countP p ≤ n)
    (hrest : rest.countP p ≤ n) : Conserves p n (fun _ => True) (runLength now descending length last rest) := by
  induction rest generalizing length last with
  | nil => exact .done trivial
  | cons x rest ih =>
    refine .bind (.before hnow ?_ hlast) fun _ _ => .ite (ih _ ?_ ?_) (.done trivial)
    all_goals
      simp only [countP_cons, countP_nil] at hrest ⊢
      omega

theorem conserves_leadingRun (hl : l.countP p ≤ n) : Conserves p n (fun _ => True) (leadingRun now l) := by
  rcases l with _ | ⟨x, _ | ⟨y, rest⟩⟩
  · exact .done trivial
  · exact .done trivial
  · refine .bind (.before hnow ?_ ?_) fun _ _ => .bind (conserves_runLength hnow _ _ ?_ ?_) fun _ _ => .done trivial
    all_goals
      simp only [countP_cons, countP_nil] at hl ⊢
      omega

theorem conserves_findPlace {pivot : α} {xs : Array α} (hpivot : [pivot].countP p ≤ n) (hxs : xs.toList.countP p ≤ n)
    (fuel low high : Nat) : Conserves p n (fun _ => True) (findPlace now pivot xs fuel low high) := by
  induction fuel generalizing low high with
  | zero => exact .done trivial
  | succ fuel ih =>
    exact .ite (.bind (.before hnow hpivot (countP_getD_le hxs hpivot _)) fun _ _ => .ite (ih _ _) (ih _ _)) (.done trivial)

end Questions

section Gallop

variable {onRight : Nat → Sorting α Bool} (hright : ∀ i, Conserves p n (fun _ => True) (onRight i))

include hright

theorem conserves_stride (limit fuel short long : Nat) :
    Conserves p n (fun _ => True) (stride limit onRight fuel short long) := by
  induction fuel generalizing short long with
  | zero => exact .done trivial
  | succ fuel ih => exact .ite (.bind (hright _) fun _ _ => .ite (ih _ _) (.done trivial)) (.done trivial)

theorem conserves_halve (fuel low high : Nat) : Conserves p n (fun _ => True) (halve onRight fuel low high) := by
  induction fuel generalizing low high with
  | zero => exact .done trivial
  | succ fuel ih => exact .ite (.bind (hright _) fun _ _ => .ite (ih _ _) (ih _ _)) (.done trivial)

theorem conserves_gallop (size hint : Nat) : Conserves p n (fun _ => True) (gallop onRight size hint) := by
  refine .bind (hright hint) fun _ _ => .ite ?_ ?_
  · exact .bind (conserves_stride (fun d => hright (hint + d)) _ _ _ _) fun _ _ => conserves_halve hright _ _ _
  · exact .bind (conserves_stride (fun d => .bind (hright (hint - d)) fun _ _ => .done trivial) _ _ _ _) fun _ _ =>
      conserves_halve hright _ _ _

end Gallop

section Questions

variable {now : Unit → List α} {key : α} {xs : Array α} (hnow : (now ()).countP p = n) (hkey : [key].countP p ≤ n)
  (hxs : xs.toList.countP p ≤ n)

include hnow hkey hxs

theorem conserves_gallopLeft (hint : Nat) : Conserves p n (fun _ => True) (gallopLeft now key xs hint) :=
  conserves_gallop (fun i => .before hnow (countP_getD_le hxs hkey i) hkey) _ _

theorem conserves_gallopRight (hint : Nat) : Conserves p n (fun _ => True) (gallopRight now key xs hint) :=
  conserves_gallop (fun i => .bind (.before hnow hkey (countP_getD_le hxs hkey i)) fun _ _ => .done trivial) _ _

end Questions

/-! ### Merging

Where items are being moved, the rest of the arrangement has `c` items with the property.
-/

section Merge

variable {place : List α → List α} (hplace : ∀ l, (place l).countP p = c + l.countP p) {fuel : Nat}
  {out left right : List α}

include hplace

theorem conserves_insertAll {sorted : List α} (hn : c + (sorted.countP p + rest.countP p) = n) :
    Conserves p n (fun l => c + l.countP p = n) (insertAll place sorted rest) := by
  induction rest generalizing sorted with
  | nil => exact .done hn
  | cons pivot rest ih =>
    refine .bind (conserves_findPlace ?_ ?_ ?_ _ _ _) fun i _ => ih ?_
    case refine_4 =>
      have hparts := countP_take_add_drop p sorted i
      simp only [countP_append, countP_cons] at hn ⊢
      omega
    all_goals
      simp only [hplace, countP_append, countP_cons, countP_nil] at hn ⊢
      omega

theorem conserves_mergeFront (pace : Pace) (patience : Nat)
    (hn : c + (out.countP p + left.countP p + right.countP p) = n) :
    Conserves p n (fun m => c + m.items.countP p = n) (mergeFront place fuel pace patience out left right) := by
  induction fuel generalizing pace patience out left right with
  | zero => exact .done (by simpa only [countP_append, countP_reverse] using hn)
  | succ fuel ih =>
    rcases pace with ⟨leftWins, rightWins⟩ | _
    · rcases left with _ | ⟨x, left⟩
      · exact .done (by simpa only [countP_append, countP_reverse] using hn)
      rcases right with _ | ⟨y, right⟩
      · exact .done (by simpa only [countP_append, countP_reverse] using hn)
      refine .bind (.before ?_ ?_ ?_) fun _ _ => .ite
        (.iteEmpty (fun hempty => .done ?_) (.ite (ih _ _ ?_) (ih _ _ ?_))) (.ite (.done ?_) (.ite (ih _ _ ?_) (ih _ _ ?_)))
      all_goals
        simp only [hplace, countP_append, countP_cons, countP_nil, countP_reverse] at hn ⊢
        omega
    · rcases right with _ | ⟨y, right⟩
      · exact .done (by simpa only [countP_append, countP_reverse] using hn)
      have hy : (place (out.reverse ++ left ++ y :: right)).countP p = n ∧ [y].countP p ≤ n := by
        simp only [hplace, countP_append, countP_cons, countP_nil, countP_reverse] at hn ⊢
        omega
      refine .bind (conserves_gallopRight hy.1 hy.2 (by dsimp only; omega) _) fun k _ => ?_
      have hleft := countP_take_add_drop p left k
      generalize left.take k = front at hleft ⊢
      generalize left.drop k = rest at hleft ⊢
      rcases rest with _ | ⟨x, rest⟩
      · refine .ite (.done ?_) (.iteEmpty (fun _ => .done ?_) (.iteEmpty (fun _ => .done ?_) (.done ?_)))
        all_goals
          simp only [countP_append, countP_cons, countP_nil, countP_reverse] at hn hleft ⊢
          omega
      have hx : (place ((y :: (front.reverse ++ out)).reverse ++ x :: rest ++ right)).countP p = n ∧ [x].countP p ≤ n := by
        simp only [hplace, countP_append, countP_cons, countP_nil, countP_reverse] at hn hleft ⊢
        omega
      refine .ite (.done ?_) (.iteEmpty (fun hnone => .done ?_) (.iteEmpty (fun hempty => .done ?_)
        (.bind (conserves_gallopLeft hx.1 hx.2 ?_ _) fun j _ => ?_)))
      case refine_2 =>
        simp only [countP_append, countP_cons, countP_reverse] at hn hleft hnone ⊢
        omega
      case refine_5 =>
        have hright := countP_take_add_drop p right j
        refine .iteEmpty (fun hempty => .done ?_) (.ite (.done ?_) (.ite (ih _ _ ?_) (ih _ _ ?_)))
        all_goals
          simp only [countP_append, countP_cons, countP_reverse] at hn hleft ⊢
          omega
      all_goals
        simp only [countP_append, countP_cons, countP_reverse] at hn hleft ⊢
        omega

theorem conserves_mergeBack (pace : Pace) (patience : Nat)
    (hn : c + (left.countP p + right.countP p + out.countP p) = n) :
    Conserves p n (fun m => c + m.items.countP p = n) (mergeBack place fuel pace patience left right out) := by
  induction fuel generalizing pace patience left right out with
  | zero => exact .done (by simpa only [countP_append, countP_reverse] using hn)
  | succ fuel ih =>
    rcases pace with ⟨leftWins, rightWins⟩ | _
    · rcases left with _ | ⟨x, left⟩
      · exact .done (by simpa only [countP_append, countP_reverse] using hn)
      rcases right with _ | ⟨y, right⟩
      · exact .done (by simpa only [countP_append, countP_reverse] using hn)
      refine .bind (.before ?_ ?_ ?_) fun _ _ => .ite
        (.iteEmpty (fun hempty => .done ?_) (.ite (ih _ _ ?_) (ih _ _ ?_))) (.ite (.done ?_) (.ite (ih _ _ ?_) (ih _ _ ?_)))
      all_goals
        simp only [hplace, countP_append, countP_cons, countP_nil, countP_reverse] at hn ⊢
        omega
    · rcases right with _ | ⟨y, right⟩
      · exact .done (by simpa only [countP_append, countP_reverse] using hn)
      have hy : (place (left.reverse ++ (y :: right).reverse ++ out)).countP p = n ∧ [y].countP p ≤ n := by
        simp only [hplace, countP_append, countP_cons, countP_nil, countP_reverse] at hn ⊢
        omega
      refine .bind (conserves_gallopRight hy.1 hy.2 (by dsimp only; rw [countP_reverse]; omega) _) fun k _ => ?_
      have hleft := countP_take_add_drop p left (left.length - k)
      dsimp only
      generalize left.take (left.length - k) = front at hleft ⊢
      generalize left.drop (left.length - k) = rest at hleft ⊢
      rcases rest with _ | ⟨x, rest⟩
      · refine .iteEmpty (fun _ => .done ?_) (.ite (.done ?_) (.done ?_))
        all_goals
          simp only [countP_append, countP_cons, countP_nil, countP_reverse] at hn hleft ⊢
          omega
      have hx : (place ((x :: rest).reverse ++ right.reverse ++ y :: (front.reverse ++ out))).countP p = n ∧
          [x].countP p ≤ n := by
        simp only [hplace, countP_append, countP_cons, countP_nil, countP_reverse] at hn hleft ⊢
        omega
      refine .iteEmpty (fun hnone => .done ?_) (.ite (.done ?_)
        (.bind (conserves_gallopLeft hx.1 hx.2 ?_ _) fun j _ => ?_))
      case refine_1 =>
        simp only [countP_append, countP_cons, countP_reverse] at hn hleft hnone ⊢
        omega
      case refine_4 =>
        have hright := countP_take_add_drop p right (right.length - j)
        refine .ite (.done ?_) (.iteEmpty (fun hempty => .done ?_) (.iteEmpty (fun hempty => .done ?_)
          (.ite (ih _ _ ?_) (ih _ _ ?_))))
        all_goals
          simp only [countP_append, countP_cons, countP_reverse] at hn hleft ⊢
          omega
      all_goals
        simp only [countP_append, countP_cons, countP_reverse] at hn hleft ⊢
        omega

theorem conserves_merge (patience : Nat) (hn : c + (left.countP p + right.countP p) = n) :
    Conserves p n (fun m => c + m.items.countP p = n) (merge place patience left right) := by
  rcases right with _ | ⟨first, others⟩
  · exact .done hn
  have hright : [first].countP p ≤ (first :: others).countP p := Sublist.countP_le (by simp)
  have hnow : (place (left ++ first :: others)).countP p = n := by rw [hplace, countP_append, hn]
  refine .bind (conserves_gallopRight hnow (by omega) (by dsimp only; omega) _) fun k _ => ?_
  have hleft := countP_take_add_drop p left k
  dsimp only
  generalize left.take k = head at hleft ⊢
  generalize left.drop k = rest at hleft ⊢
  cases hlast : rest.getLast? with
  | none => exact .done (by rwa [countP_append])
  | some last =>
    have hrest := Sublist.countP_le (p := p) (singleton_sublist.mpr (mem_of_getLast? hlast))
    refine .bind (conserves_gallopLeft hnow (by omega) (by dsimp only; omega) _) fun cut _ => ?_
    have hcut := countP_take_add_drop p (first :: others) cut
    generalize (first :: others).take cut = middle at hcut ⊢
    generalize (first :: others).drop cut = tail at hcut ⊢
    -- what is between the head and the tail is merged by itself
    have hplace' (l : List α) : (place (head ++ l ++ tail)).countP p = c + head.countP p + tail.countP p + l.countP p := by
      rw [hplace, countP_append, countP_append]
      omega
    have finish {s : Sorting α (Merged α)}
        (hs : Conserves p n (fun m => c + head.countP p + tail.countP p + m.items.countP p = n) s) :
        Conserves p n (fun m : Merged α => c + m.items.countP p = n)
          (s >>= fun m => pure ⟨head ++ m.items ++ tail, m.patience⟩) := by
      refine .bind hs fun m hm => .done ?_
      simp only [countP_append]
      omega
    split
    · exact finish (.done (by simp only [countP_nil] at hcut ⊢; omega))
    · refine .ite (.iteEmpty (fun hempty => finish (.done ?_)) (.iteEmpty (fun hempty => finish (.done ?_))
        (finish (conserves_mergeFront hplace' _ _ ?_)))) ?_
      case refine_4 =>
        split
        case h_1 z before hreverse =>
          have hcount := congrArg (countP p) hreverse
          refine .iteEmpty (fun hempty => finish (.done ?_)) (.ite (finish (.done ?_))
            (finish (conserves_mergeBack hplace' _ _ ?_)))
          all_goals
            simp only [countP_append, countP_cons, countP_nil, countP_reverse] at hn hcut hleft hcount ⊢
            omega
        case h_2 hreverse => simp at hreverse
      all_goals
        simp only [countP_append, countP_cons, countP_nil] at hn hcut hleft ⊢
        omega
    · exact finish (.done (by simp only [countP_nil] at hleft ⊢; omega))

end Merge

/-! ### Stacks of runs -/

@[simp] theorem stacked_cons (r : Run α) (runs : List (Run α)) : stacked (r :: runs) = stacked runs ++ r.items := by
  simp [stacked]

theorem conserves_mergeTop (rest : List α) (patience : Nat) (hn : (stacked runs).countP p + rest.countP p = n) :
    Conserves p n (fun r => (stacked r.1).countP p + rest.countP p = n) (mergeTop rest patience runs) := by
  unfold mergeTop
  split
  · rename_i b a lower
    have hplace (l : List α) :
        (stacked lower ++ l ++ rest).countP p = (stacked lower).countP p + rest.countP p + l.countP p := by
      rw [countP_append, countP_append]
      omega
    refine .bind (conserves_merge hplace _ ?_) fun m hm => .done ?_
    all_goals
      simp only [stacked_cons, countP_append] at hn ⊢
      omega
  · exact .done hn

theorem conserves_mergeWhile (power fuel patience : Nat) (hn : (stacked runs).countP p + rest.countP p = n) :
    Conserves p n (fun r => (stacked r.1).countP p + rest.countP p = n) (mergeWhile rest power fuel patience runs) := by
  induction fuel generalizing patience runs with
  | zero => exact .done hn
  | succ fuel ih =>
    rcases runs with _ | ⟨b, _ | ⟨a, lower⟩⟩
    · exact .done hn
    · exact .done hn
    · exact .ite (.bind (conserves_mergeTop rest _ hn) fun r hr => ih _ hr) (.done hn)

theorem conserves_settleBorder (n2 size patience : Nat) (hn : (stacked runs).countP p + rest.countP p = n) :
    Conserves p n (fun r => (stacked r.1).countP p + rest.countP p = n) (settleBorder rest n2 size patience runs) := by
  rcases runs with _ | ⟨top, lower⟩
  · exact .done hn
  refine .bind (conserves_mergeWhile _ _ _ hn) fun r hr => ?_
  obtain ⟨_ | ⟨top', lower'⟩, patience'⟩ := r
  · exact .done hr
  · exact .done (by simpa only [stacked_cons] using hr)

theorem conserves_mergeAll (fuel patience : Nat) (hn : (stacked runs).countP p = n) :
    Conserves p n (fun l => l.countP p = n) (mergeAll fuel patience runs) := by
  induction fuel generalizing patience runs with
  | zero => exact .done hn
  | succ fuel ih =>
    rcases runs with _ | ⟨c, _ | ⟨b, _ | ⟨a, lower⟩⟩⟩
    · exact .done hn
    · exact .done hn
    · exact .bind (conserves_mergeTop [] _ hn) fun r hr => ih _ hr
    · refine .ite (.bind (conserves_merge (c := (stacked lower).countP p + c.items.countP p) (fun l => ?_) _ ?_)
        fun m hm => ih _ ?_) (.bind (conserves_mergeTop [] _ hn) fun r hr => ih _ hr)
      all_goals
        simp only [stacked_cons, countP_append] at hn ⊢
        omega

theorem conserves_nextRun {place : List α → List α} (hplace : ∀ l, (place l).countP p = c + l.countP p) (least : Nat)
    (hn : c + items.countP p = n) :
    Conserves p n (fun r => c + (r.1.countP p + r.2.countP p) = n) (nextRun place least items) := by
  refine .bind (conserves_leadingRun (by rw [hplace, hn]) (by omega)) fun r _ => ?_
  have hitems := countP_take_add_drop p items r.1
  have hrest := countP_take_add_drop p (items.drop r.1) (least - r.1)
  have hrun : (if r.2 then (items.take r.1).reverse else items.take r.1).countP p = (items.take r.1).countP p := by
    split
    · exact countP_reverse
    · rfl
  refine .bind (conserves_insertAll (c := c + ((items.drop r.1).drop (least - r.1)).countP p) (fun l => ?_) ?_)
    fun run hrun => .done ?_
  · rw [hplace, countP_append]
    omega
  · rw [hrun]
    omega
  · dsimp only
    omega

theorem conserves_collect (least size fuel patience : Nat) (hn : (stacked runs).countP p + items.countP p = n) :
    Conserves p n (fun l => l.countP p = n) (collect least size fuel patience runs items) := by
  induction fuel generalizing patience runs items with
  | zero => exact .done (by rw [countP_append, hn])
  | succ fuel ih =>
    refine .iteEmpty (fun hempty => conserves_mergeAll _ _ (by omega)) ?_
    refine .bind (conserves_nextRun (fun l => countP_append) least hn) fun r hr => ?_
    refine .bind (conserves_settleBorder _ _ _ (by rw [countP_append, hr])) fun r' hr' => ih _ ?_
    simp only [stacked_cons, countP_append] at hr' ⊢
    omega

theorem conserves_sort (p : α → Bool) (items : List α) :
    Conserves p (items.countP p) (fun l => l.countP p = items.countP p) (sort items) :=
  .ite (.done rfl) (conserves_collect _ _ _ _ (Nat.zero_add _))

/-! ### Arrangements -/

/-- Whatever the answers are, the questions are about the given items, in arrangements of them, and the result is as
described. -/
def Arranges (items : List α) (Q : β → Prop) : Sorting α β → Prop
  | .done b => Q b
  | .ask x y now next => (x ∈ items ∧ y ∈ items ∧ now () ~ items) ∧ ∀ answer, (next answer).Arranges items Q

theorem perm_of_countP (h : ∀ p : α → Bool, l.countP p = l'.countP p) : l ~ l' := by
  classical
  exact perm_iff_count.mpr fun x => h (· == x)

theorem mem_of_countP {x : α} (h : ∀ p : α → Bool, [x].countP p ≤ l.countP p) : x ∈ l := by
  classical
  have hpos := h (· == x)
  rw [countP_singleton, if_pos (beq_self_eq_true x)] at hpos
  exact count_pos_iff.mp hpos

theorem arranges_of_conserves {Q : (α → Bool) → β → Prop}
    (h : ∀ p, Conserves p (items.countP p) (Q p) s) : Arranges items (fun b => ∀ p, Q p b) s := by
  induction s with
  | done b => exact h
  | ask x y now next ih =>
    refine ⟨⟨mem_of_countP fun p => (h p).1.1, mem_of_countP fun p => (h p).1.2.1, perm_of_countP fun p => (h p).1.2.2⟩, ?_⟩
    exact fun answer => ih answer fun p => (h p).2 answer

theorem Arranges.imp {R : β → Prop} (h : Arranges items Q s) (himp : ∀ b, Q b → R b) : Arranges items R s := by
  induction s with
  | done b => exact himp b h
  | ask x y now next ih => exact ⟨h.1, fun answer => ih answer (h.2 answer)⟩

/-- Whatever the answers are, a sort asks about its items in arrangements of them, and results in one. -/
theorem arranges_sort (items : List α) : Arranges items (· ~ items) (sort items) :=
  (arranges_of_conserves fun p => conserves_sort p items).imp fun _ => perm_of_countP

end Stepwise.Sorting
