import Mathlib.Data.List.Count
import Stepwise.Proofs.Merging

/-!
# Sorting by keys is stable

When the answers to the questions of a sort are given by the keys of the items, the result ascends, and items with the
same key are in the order they had (`answered_sort`). Each step of the sort puts runs in order and keeps items with the
same key `Aligned` with the items it was given.
-/

namespace Stepwise.Sorting

open List

variable {α : Type} {key : α → Int} {xs ys zs : List α} {descending : Bool}

/-- Items with the same key are in the same order in both lists. -/
def Aligned (key : α → Int) (xs ys : List α) : Prop := ∀ k, xs.filter (key · = k) = ys.filter (key · = k)

namespace Aligned

theorem refl (xs : List α) : Aligned key xs xs := fun _ => rfl

theorem trans (hxy : Aligned key xs ys) (hyz : Aligned key ys zs) : Aligned key xs zs := fun k => (hxy k).trans (hyz k)

theorem append {xs' ys' : List α} (h : Aligned key xs ys) (h' : Aligned key xs' ys') :
    Aligned key (xs ++ xs') (ys ++ ys') := fun k => by rw [filter_append, filter_append, h k, h' k]

end Aligned

/-- A merge puts what is equal in the first list before what is equal in the second. -/
theorem aligned_merged (hxs : Ascends key xs) : Aligned key (merged key xs ys) (xs ++ ys) := by
  induction xs generalizing ys with
  | nil => simpa using Aligned.refl ys
  | cons x xs ih =>
    obtain ⟨hx, hxs'⟩ := pairwise_cons.mp hxs
    induction ys with
    | nil => simpa using Aligned.refl (x :: xs)
    | cons y ys ihys =>
      intro k
      by_cases hle : key x ≤ key y
      · rw [merged_cons_of_le hle, cons_append, filter_cons, filter_cons, ih hxs' k]
      · rw [merged_cons_of_lt (Int.not_le.mp hle), filter_cons, ihys k, filter_append, filter_append, filter_cons (x := y)]
        split
        case isTrue hk =>
          have hnone : (x :: xs).filter (key · = k) = [] := by
            rw [filter_eq_nil_iff, forall_mem_cons]
            simp only [decide_eq_true_eq] at hk ⊢
            refine ⟨by omega, fun z hz => ?_⟩
            have := hx z hz
            omega
          rw [hnone, nil_append, nil_append]
        case isFalse => rfl

/-! ### Runs -/

/-- The keys of two neighbours in a run. -/
def Steps (key : α → Int) (descending : Bool) (x y : α) : Prop := decide (key y < key x) = descending

theorem Steps.trans {x y z : α} (hxy : Steps key descending x y) (hyz : Steps key descending y z) :
    Steps key descending x z := by
  cases descending <;> simp only [Steps, decide_eq_true_eq, decide_eq_false_iff_not] at hxy hyz ⊢ <;> omega

variable (key) in
theorem answered_runLength (now : Unit → List α) (descending : Bool) (n : Nat) (last : α) (rest : List α) :
    ∃ m, (runLength now descending n last rest).answered (byKey key) = n + m ∧
      (last :: rest.take m).Pairwise (Steps key descending) := by
  induction rest generalizing n last with
  | nil => exact ⟨0, rfl, pairwise_singleton _ _⟩
  | cons x rest ih =>
    rw [runLength, answered_bind, answered_before, answered_ite]
    split
    case isTrue hstep =>
      have hstep : Steps key descending last x := beq_iff_eq.mp hstep
      obtain ⟨m, hm, hsteps⟩ := ih (n + 1) x
      refine ⟨m + 1, by omega, ?_⟩
      rw [take_succ_cons, pairwise_cons, forall_mem_cons]
      exact ⟨⟨hstep, fun y hy => hstep.trans (rel_of_pairwise_cons hsteps hy)⟩, hsteps⟩
    case isFalse => exact ⟨0, rfl, pairwise_singleton _ _⟩

variable (key) in
theorem answered_leadingRun (now : Unit → List α) (items : List α) :
    (items.take ((leadingRun now items).answered (byKey key)).1).Pairwise
        (Steps key ((leadingRun now items).answered (byKey key)).2) ∧
      (items ≠ [] → 0 < ((leadingRun now items).answered (byKey key)).1) := by
  rcases items with _ | ⟨x, _ | ⟨y, rest⟩⟩
  · exact ⟨Pairwise.nil, fun h => absurd rfl h⟩
  · exact ⟨pairwise_singleton _ _, fun _ => Nat.one_pos⟩
  · simp only [leadingRun, answered_bind, answered_before, answered_pure]
    obtain ⟨m, hm, hsteps⟩ := answered_runLength key now (byKey key y x) 2 y rest
    rw [hm, Nat.add_comm 2 m]
    refine ⟨?_, fun _ => by omega⟩
    have hstep : Steps key (byKey key y x) x y := rfl
    rw [take_succ_cons, take_succ_cons, pairwise_cons, forall_mem_cons]
    exact ⟨⟨hstep, fun z hz => hstep.trans (rel_of_pairwise_cons hsteps hz)⟩, hsteps⟩

theorem aligned_reverse (h : xs.Pairwise (Steps key true)) : Aligned key xs.reverse xs := by
  intro k
  induction xs with
  | nil => rfl
  | cons x xs ih =>
    obtain ⟨hx, hxs⟩ := pairwise_cons.mp h
    rw [reverse_cons, filter_append, ih hxs, filter_cons, filter_cons]
    split
    case isTrue hk =>
      have hnone : xs.filter (key · = k) = [] := by
        rw [filter_eq_nil_iff]
        intro y hy
        have hlt := hx y hy
        simp only [Steps, decide_eq_true_eq] at hlt hk ⊢
        omega
      rw [hnone]
      rfl
    case isFalse => exact append_nil _

theorem Steps.ascends (h : xs.Pairwise (Steps key descending)) :
    Ascends key (if descending then xs.reverse else xs) ∧ Aligned key (if descending then xs.reverse else xs) xs := by
  cases descending with
  | true =>
    refine ⟨?_, aligned_reverse h⟩
    rw [if_pos rfl, Ascends, pairwise_reverse]
    exact h.imp fun hlt => Int.le_of_lt (of_decide_eq_true hlt)
  | false => exact ⟨h.imp fun hle => Int.not_lt.mp (of_decide_eq_false hle), .refl xs⟩

/-! ### Insertion -/

theorem answered_findPlace (now : Unit → List α) (pivot : α) (hxs : Ascends key xs) {fuel low high : Nat}
    (hlow : low ≤ (xs.takeWhile fun x => key x ≤ key pivot).length)
    (hhigh : (xs.takeWhile fun x => key x ≤ key pivot).length ≤ high) (hsize : high ≤ xs.length) (hfuel : high - low < fuel) :
    (findPlace now pivot xs.toArray fuel low high).answered (byKey key) =
      (xs.takeWhile fun x => key x ≤ key pivot).length := by
  induction fuel generalizing low high with
  | zero => cases hfuel
  | succ fuel ih =>
    simp only [findPlace, answered_bind, answered_before, answered_ite, answered_pure]
    split
    case isTrue hlt =>
      have hmiddle := (hxs.heads_le pivot).getD pivot (i := low + (high - low) / 2) (by omega)
      rw [decide_eq_decide] at hmiddle
      simp only [byKey, decide_eq_true_eq]
      split
      case isTrue => exact ih hlow (by omega) (by omega) (by omega)
      case isFalse => exact ih (by omega) hhigh hsize (by omega)
    case isFalse => omega

theorem answered_insertAll (place : List α → List α) (hxs : Ascends key xs) (ys : List α) :
    Ascends key ((insertAll place xs ys).answered (byKey key)) ∧
      Aligned key ((insertAll place xs ys).answered (byKey key)) (xs ++ ys) := by
  induction ys generalizing xs with
  | nil => exact ⟨hxs, by rw [append_nil]; exact .refl xs⟩
  | cons y ys ih =>
    simp only [insertAll, answered_bind]
    rw [answered_findPlace _ _ hxs (Nat.zero_le _) (length_takeWhile_le _ _) (Nat.le_refl _) (by omega),
      take_length_takeWhile, drop_length_takeWhile]
    have hinserted : (xs.takeWhile fun x => key x ≤ key y) ++ y :: (xs.dropWhile fun x => key x ≤ key y) =
        merged key xs [y] := by
      obtain ⟨-, -, -, hlater⟩ := hxs.dropWhile fun x => key x ≤ key y
      rw [merged_takeWhile_left]
      generalize (xs.dropWhile fun x => key x ≤ key y) = rest at hlater ⊢
      cases rest with
      | nil => rw [merged_nil_left]
      | cons x rest => rw [merged_cons_of_lt (by simpa using hlater x rfl), merged_nil_right]
    rw [hinserted]
    obtain ⟨hsorted, haligned⟩ := ih (hxs.merged (pairwise_singleton _ y))
    have hparts : Aligned key (merged key xs [y] ++ ys) (xs ++ [y] ++ ys) := (aligned_merged hxs).append (.refl ys)
    rw [append_assoc, singleton_append] at hparts
    exact ⟨hsorted, haligned.trans hparts⟩

variable (key) in
theorem answered_nextRun (place : List α → List α) (least : Nat) {items : List α} (hitems : items ≠ []) :
    Ascends key ((nextRun place least items).answered (byKey key)).1 ∧
      Aligned key (((nextRun place least items).answered (byKey key)).1 ++
        ((nextRun place least items).answered (byKey key)).2) items ∧
      ((nextRun place least items).answered (byKey key)).2.length < items.length := by
  obtain ⟨hsteps, hpos⟩ := answered_leadingRun key (fun _ => place items) items
  simp only [nextRun, answered_bind, answered_pure]
  generalize (leadingRun (fun _ => place items) items).answered (byKey key) = r at hsteps hpos ⊢
  obtain ⟨hrun, hleading⟩ := Steps.ascends hsteps
  obtain ⟨hsorted, haligned⟩ :=
    answered_insertAll (fun front => place (front ++ (items.drop r.1).drop (least - r.1))) hrun
      ((items.drop r.1).take (least - r.1))
  refine ⟨hsorted, ?_, ?_⟩
  · have hparts := (haligned.trans (hleading.append (.refl _))).append (.refl ((items.drop r.1).drop (least - r.1)))
    rwa [append_assoc, take_append_drop, take_append_drop] at hparts
  · have := length_pos_iff.mpr hitems
    simp only [length_drop]
    have := hpos hitems
    omega

/-! ### Stacks of runs -/

/-- The runs are in order, and together aligned with the items. -/
def Stacks (key : α → Int) (runs : List (Run α)) (items : List α) : Prop :=
  (∀ r ∈ runs, Ascends key r.items) ∧ Aligned key (stacked runs) items

section Stacks

variable {runs upper lower : List (Run α)} {a b : Run α} {items : List α}

theorem stacked_append (upper lower : List (Run α)) : stacked (upper ++ lower) = stacked lower ++ stacked upper := by
  simp [stacked]

variable (upper) in
theorem Stacks.merge (hruns : Stacks key (upper ++ b :: a :: lower) items) {place : List α → List α} {patience power : Nat} :
    Stacks key (upper ++ ⟨((merge place patience a.items b.items).answered (byKey key)).items, power⟩ :: lower) items := by
  obtain ⟨hascends, haligned⟩ := hruns
  simp only [forall_mem_append, forall_mem_cons] at hascends
  obtain ⟨hupper, hb, ha, hlower⟩ := hascends
  rw [answered_merge _ _ ha hb]
  refine ⟨?_, Aligned.trans ?_ haligned⟩
  · simp only [forall_mem_append, forall_mem_cons]
    exact ⟨hupper, ha.merged hb, hlower⟩
  · simp only [stacked_append, stacked_cons, append_assoc]
    rw [← append_assoc a.items]
    exact (Aligned.refl _).append ((aligned_merged ha).append (.refl _))

theorem answered_mergeTop (rest : List α) (patience : Nat) (hruns : Stacks key (b :: a :: lower) items) :
    Stacks key ((mergeTop rest patience (b :: a :: lower)).answered (byKey key)).1 items ∧
      ((mergeTop rest patience (b :: a :: lower)).answered (byKey key)).1.length = lower.length + 1 := by
  simp only [mergeTop, answered_bind, answered_pure]
  exact ⟨hruns.merge [], rfl⟩

theorem answered_mergeWhile (rest : List α) (power fuel patience : Nat) (hruns : Stacks key runs items) :
    Stacks key ((mergeWhile rest power fuel patience runs).answered (byKey key)).1 items := by
  induction fuel generalizing patience runs with
  | zero => exact hruns
  | succ fuel ih =>
    rcases runs with _ | ⟨b, _ | ⟨a, lower⟩⟩
    · exact hruns
    · exact hruns
    · rw [mergeWhile, answered_ite]
      split
      · rw [answered_bind]
        exact ih _ (answered_mergeTop rest patience hruns).1
      · exact hruns

theorem answered_settleBorder (rest : List α) (n2 n patience : Nat) (hruns : Stacks key runs items) :
    Stacks key ((settleBorder rest n2 n patience runs).answered (byKey key)).1 items := by
  rcases runs with _ | ⟨top, lower⟩
  · exact hruns
  have hmerged := answered_mergeWhile rest (borderPower (stacked lower).length top.items.length n2 n)
    ((top :: lower).length + 1) patience hruns
  rw [settleBorder, answered_bind]
  generalize (mergeWhile rest _ _ patience (top :: lower)).answered (byKey key) = r at hmerged ⊢
  obtain ⟨_ | ⟨top', lower'⟩, patience'⟩ := r
  · exact hmerged
  · obtain ⟨hascends, haligned⟩ := hmerged
    rw [stacked_cons] at haligned
    exact ⟨forall_mem_cons.mpr (forall_mem_cons.mp hascends), by rwa [answered_pure, stacked_cons]⟩

theorem Stacks.whole (hruns : Stacks key runs items) (h : runs.length ≤ 1) :
    Ascends key (stacked runs) ∧ Aligned key (stacked runs) items := by
  refine ⟨?_, hruns.2⟩
  rcases runs with _ | ⟨r, _ | ⟨r', runs⟩⟩
  · exact Pairwise.nil
  · simpa [stacked] using hruns.1 r mem_cons_self
  · simp at h

theorem answered_mergeAll {fuel : Nat} (patience : Nat) (hruns : Stacks key runs items) (hfuel : runs.length ≤ fuel + 1) :
    Ascends key ((mergeAll fuel patience runs).answered (byKey key)) ∧
      Aligned key ((mergeAll fuel patience runs).answered (byKey key)) items := by
  induction fuel generalizing patience runs with
  | zero => exact hruns.whole hfuel
  | succ fuel ih =>
    have top {b a : Run α} {lower : List (Run α)} (hruns : Stacks key (b :: a :: lower) items) (hfuel : lower.length ≤ fuel) :
        Ascends key ((mergeTop [] patience (b :: a :: lower) >>= fun r => mergeAll fuel r.2 r.1).answered (byKey key)) ∧
          Aligned key ((mergeTop [] patience (b :: a :: lower) >>= fun r => mergeAll fuel r.2 r.1).answered (byKey key))
            items := by
      obtain ⟨hmerged, hlength⟩ := answered_mergeTop [] patience hruns
      rw [answered_bind]
      exact ih _ hmerged (by omega)
    rcases runs with _ | ⟨c, _ | ⟨b, _ | ⟨a, lower⟩⟩⟩
    · exact hruns.whole (Nat.zero_le _)
    · exact hruns.whole (Nat.le_refl _)
    · exact top hruns (Nat.zero_le _)
    · simp only [length_cons] at hfuel
      rw [mergeAll, answered_ite]
      split
      · rw [answered_bind]
        exact ih _ (hruns.merge [c]) (by simp only [length_cons]; omega)
      · exact top hruns (by rw [length_cons]; omega)

theorem answered_collect (least n : Nat) {fuel : Nat} (patience : Nat) {taken rest : List α} (hruns : Stacks key runs taken)
    (hfuel : rest.length < fuel) :
    Ascends key ((collect least n fuel patience runs rest).answered (byKey key)) ∧
      Aligned key ((collect least n fuel patience runs rest).answered (byKey key)) (taken ++ rest) := by
  induction fuel generalizing patience runs taken rest with
  | zero => cases hfuel
  | succ fuel ih =>
    rw [collect, answered_ite]
    split
    case isTrue hempty =>
      rw [isEmpty_iff.mp hempty, append_nil]
      exact answered_mergeAll patience hruns (by omega)
    case isFalse hempty =>
      obtain ⟨hrun, haligned, hlength⟩ :=
        answered_nextRun key (fun rest => stacked runs ++ rest) least fun h => hempty (isEmpty_iff.mpr h)
      rw [answered_bind]
      generalize (nextRun _ least rest).answered (byKey key) = r at hrun haligned hlength ⊢
      have hsettled := answered_settleBorder (r.1 ++ r.2) r.1.length n patience hruns
      obtain ⟨run, tail⟩ := r
      rw [answered_bind]
      generalize (settleBorder _ _ n patience runs).answered (byKey key) = r' at hsettled ⊢
      obtain ⟨runs', patience'⟩ := r'
      have hpushed : Stacks key (⟨run, 0⟩ :: runs') (taken ++ run) := by
        refine ⟨forall_mem_cons.mpr ⟨hrun, hsettled.1⟩, ?_⟩
        rw [stacked_cons]
        exact hsettled.2.append (.refl run)
      obtain ⟨hsorted, hwhole⟩ := ih patience' hpushed (Nat.lt_of_lt_of_le hlength (Nat.le_of_lt_succ hfuel))
      rw [append_assoc] at hwhole
      exact ⟨hsorted, hwhole.trans ((Aligned.refl taken).append haligned)⟩

end Stacks

variable (key) in
/-- A sort by keys puts the items in order, and leaves those with the same key in the order they had. -/
theorem answered_sort (items : List α) : Ascends key ((sort items).answered (byKey key)) ∧
    Aligned key ((sort items).answered (byKey key)) items := by
  rw [sort, answered_ite]
  split
  case isTrue hlength =>
    refine ⟨?_, .refl items⟩
    rcases items with _ | ⟨x, _ | ⟨y, items⟩⟩
    · exact Pairwise.nil
    · exact pairwise_singleton _ x
    · rw [length_cons, length_cons] at hlength
      omega
  case isFalse => exact answered_collect _ _ _ ⟨forall_mem_nil _, .refl []⟩ (Nat.lt_succ_self _)

/-! ### Sorting by a preorder -/

section Preorder

variable {items : List α} {sign : α → α → Int} {β : Type} {Q : β → Prop} {s : Sorting α β}

/-- The signs are those of a total preorder of the items. -/
structure Preordered (items : List α) (sign : α → α → Int) : Prop where
  symm : ∀ x ∈ items, ∀ y ∈ items, sign y x = -sign x y
  trans : ∀ x ∈ items, ∀ y ∈ items, ∀ z ∈ items, sign x y ≤ 0 → sign y z ≤ 0 → sign x z ≤ 0

/-- How many items come before the given one. -/
def rankIn (items : List α) (sign : α → α → Int) (x : α) : Int := items.countP fun y => sign y x < 0

namespace Preordered

variable {x y z : α} (h : Preordered items sign) (hx : x ∈ items) (hy : y ∈ items)

include h hx hy

theorem lt_of_lt_of_le (hz : z ∈ items) (hxy : sign x y < 0) (hyz : sign y z ≤ 0) : sign x z < 0 := by
  have hyx := h.symm x hx y hy
  have hzx := h.symm x hx z hz
  have hback := h.trans y hy z hz x hx hyz
  omega

theorem rank_le (hle : sign x y ≤ 0) : rankIn items sign x ≤ rankIn items sign y := by
  refine Int.ofNat_le.mpr (countP_mono_left fun z hz hzx => ?_)
  simp only [decide_eq_true_eq] at hzx ⊢
  exact h.lt_of_lt_of_le hz hx hy hzx hle

theorem rank_lt : rankIn items sign x < rankIn items sign y ↔ sign x y < 0 := by
  have hyx := h.symm x hx y hy
  refine ⟨fun hlt => ?_, fun hlt => Int.ofNat_lt.mpr ?_⟩
  · have hback := h.rank_le hy hx
    omega
  · -- what comes before the first item is among what comes before the second, and so is the first item itself
    have hmono : items.countP (sign · x < 0) ≤ (items.filter (sign · y < 0)).countP (sign · x < 0) := by
      rw [countP_filter]
      refine countP_mono_left fun z hz hzx => ?_
      simp only [Bool.and_eq_true, decide_eq_true_eq] at hzx ⊢
      exact ⟨hzx, h.lt_of_lt_of_le hz hx hy hzx (Int.le_of_lt hlt)⟩
    have hself := h.symm x hx x hx
    have hstrict : (items.filter (sign · y < 0)).countP (sign · x < 0) < (items.filter (sign · y < 0)).length :=
      countP_lt_length_iff.mpr ⟨x, mem_filter.mpr ⟨hx, decide_eq_true hlt⟩, decide_eq_false (by omega)⟩
    rw [← countP_eq_length_filter] at hstrict
    exact Nat.lt_of_le_of_lt hmono hstrict

theorem rank_eq : rankIn items sign x = rankIn items sign y ↔ sign y x = 0 := by
  have hxy := h.rank_lt hx hy
  have hyx := h.rank_lt hy hx
  have := h.symm x hx y hy
  omega

end Preordered

theorem answered_congr {lt lt' : α → α → Bool} (hs : Arranges items Q s)
    (h : ∀ x ∈ items, ∀ y ∈ items, lt x y = lt' x y) : s.answered lt = s.answered lt' := by
  induction s with
  | done b => rfl
  | ask x y now next ih =>
    obtain ⟨⟨hx, hy, -⟩, hnext⟩ := hs
    rw [answered, answered, h x hx y hy]
    exact ih _ (hnext _)

theorem Arranges.answered (hs : Arranges items Q s) (lt : α → α → Bool) : Q (s.answered lt) := by
  induction s with
  | done b => exact hs
  | ask x y now next ih => exact ih _ (hs.2 _)

/-- By a total preorder a sort leaves no item behind one that it comes before, and equal items in the order they had. -/
theorem answered_sort_of_preorder (h : Preordered items sign) :
    ((sort items).answered fun x y => sign x y < 0).Pairwise (fun x y => ¬ sign y x < 0) ∧
      ∀ z ∈ items, ((sort items).answered fun x y => sign x y < 0).filter (sign z · = 0) = items.filter (sign z · = 0) := by
  have hkeyed : (sort items).answered (fun x y => sign x y < 0) = (sort items).answered (byKey (rankIn items sign)) :=
    answered_congr (arranges_sort items) fun x hx y hy => decide_eq_decide.mpr (h.rank_lt hx hy).symm
  have hperm := (arranges_sort items).answered (byKey (rankIn items sign))
  obtain ⟨hascends, haligned⟩ := answered_sort (rankIn items sign) items
  rw [hkeyed]
  refine ⟨hascends.imp_of_mem fun hx hy hle hlt => ?_, fun z hz => ?_⟩
  · have := (h.rank_lt (hperm.mem_iff.mp hy) (hperm.mem_iff.mp hx)).mpr hlt
    omega
  · have hsame (x : α) (hx : x ∈ items) : decide (sign z x = 0) = decide (rankIn items sign x = rankIn items sign z) :=
      decide_eq_decide.mpr (h.rank_eq hx hz).symm
    rw [filter_congr fun x hx => hsame x (hperm.mem_iff.mp hx), haligned, filter_congr fun x hx => (hsame x hx).symm]

end Preorder

end Stepwise.Sorting
