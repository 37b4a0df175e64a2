import Mathlib
import Stepwise.Proofs.ArrayLengths
import Stepwise.Proofs.Stability

/-!
# Sorting an array

`sort` calls back to compare two items, and looks at the sign of the number that the answer is converted to. Whatever the
comparison does, short of touching the array that is being sorted, the array has the same items afterwards, also when
the comparison faults half-way. An order that the signs give is the order of the result, and equal items stay in the
order they had. Without a comparison the items are sorted by their texts. There is one exception: an integer beyond the
range of doubles has no sign and no text, so the sort ends with a breakdown when it meets one
(`ArrayMethod.sort_sorts_unless_out_of_range`).
-/

namespace Stepwise

open Exec Sorting List

/-! ### Comparisons -/

/-- The sign of a number, where NaN counts as zero. The question is put to the double. -/
def Num.sign (n : Num) : Except Breakdown Int := do
  if ← n.isNaN then return 0
  return if n.lt (.int 0) then -1 else if (Num.int 0).lt n then 1 else 0

namespace ArrayMethod

variable {invoke : Callback} {f : Text} {items : List Value} {a g : Nat} {I : World → Prop} {w : World} {x y : Value}
  {xs : Sequence Value}

/-- The sign of the answer to a comparison. -/
def compared (invoke : Callback) (f : Text) (x y : Value) : Exec Int := do
  let answer ← Exec.toNumber (← invoke f [x, y])
  answer.sign

theorem comesBefore_eq (invoke : Callback) (f : Text) (x y : Value) :
    comesBefore invoke f x y = (do return (← compared invoke f x y) < 0) := by
  unfold comesBefore compared
  simp only [bind_assoc]
  refine bind_congr fun v => bind_congr fun n => ?_
  unfold Num.sign
  rcases n.isNaN with why | _ | _
  · rfl
  · refine congrArg (pure : Bool → Exec Bool) ?_
    cases n.lt (.int 0) <;> cases (Num.int 0).lt n <;> rfl
  · rfl

/-- A condition on the world under which the array is empty and has not grown. Comparing items keeps it, also when the
comparison faults. -/
structure Undisturbed (invoke : Callback) (f : Text) (items : List Value) (a g : Nat) (I : World → Prop) : Prop where
  emptied {w : World} : I w → w.store.heap.cell? a = some (.array .empty g)
  kept {w : World} {x y : Value} : I w → x ∈ items → y ∈ items → I ((invoke f [x, y]).outcome w).2

/-- The fault is that of a comparison of two items. -/
def Refused (invoke : Callback) (f : Text) (items : List Value) (I : World → Prop) (e : Fault) : Prop :=
  ∃ w, I w ∧ ∃ x ∈ items, ∃ y ∈ items, ((compared invoke f x y).outcome w).1 = .error e

/-- Comparisons of items that end well have the given signs. -/
def Signs (invoke : Callback) (f : Text) (items : List Value) (I : World → Prop) (sign : Value → Value → Int) : Prop :=
  ∀ w, I w → ∀ x ∈ items, ∀ y ∈ items, ∀ n, ((compared invoke f x y).outcome w).1 = .ok n → n = sign x y

theorem Undisturbed.compared (h : Undisturbed invoke f items a g I) (hw : I w) (hx : x ∈ items) (hy : y ∈ items) :
    I ((compared invoke f x y).outcome w).2 := by
  have hkept := h.kept hw hx hy
  rw [ArrayMethod.compared, outcome_bind]
  generalize (invoke f [x, y]).outcome w = r at hkept ⊢
  rcases r with ⟨e | v, w'⟩
  · exact hkept
  · have hreads : Reads (do let n ← Exec.toNumber v; n.sign : Exec Int) := .seq (.toNumber v) fun _ => .liftBreakdown _
    show I ((do let n ← Exec.toNumber v; n.sign : Exec Int).outcome w').2
    rw [hreads.still]
    exact hkept

theorem cell?_setItems {h : Heap} (hcell : h.cell? a = some (.array xs g)) (ys : Sequence Value) :
    (h.setItems a ys false).cell? a = some (.array ys g) := by
  rw [Heap.setItems, Heap.cell?_modifyItems, if_pos rfl, hcell]
  rfl

/-- The questions of a sort are all answered, or a comparison faults, and the array is left as it is arranged then. -/
theorem outcome_answerAll (h : Undisturbed invoke f items a g I) {s : Sorting Value (List Value)}
    (hs : Arranges items (· ~ items) s) (hw : I w) :
    (∃ l w', (answerAll invoke f a s).outcome w = (.ok l, w') ∧ I w' ∧ l ~ items ∧
        ∀ sign, Signs invoke f items I sign → l = s.answered fun x y => sign x y < 0) ∨
      ∃ e w' l, (answerAll invoke f a s).outcome w = (.error e, w') ∧ Refused invoke f items I e ∧ l ~ items ∧
        w'.store.heap.cell? a = some (.array (.ofList l) g) := by
  induction s generalizing w with
  | done l => exact .inl ⟨l, w, rfl, hw, hs, fun _ _ => rfl⟩
  | ask x y now next ih =>
    obtain ⟨⟨hx, hy, hnow⟩, hnext⟩ := hs
    have hkept := h.compared hw hx hy
    rw [answerAll, comesBefore_eq, outcome_bind, outcome_tryCatch, outcome_bind]
    rcases hr : (ArrayMethod.compared invoke f x y).outcome w with ⟨e | n, w'⟩
    · refine .inr ⟨e, _, now (), rfl, ⟨w, hw, x, hx, y, hy, by rw [hr]⟩, hnow, ?_⟩
      rw [hr] at hkept
      exact cell?_setItems (h.emptied hkept) _
    · rw [hr] at hkept
      refine (ih (n < 0) (hnext _) hkept).imp_left ?_
      rintro ⟨l, w'', hout, hI, hperm, hsigns⟩
      refine ⟨l, w'', hout, hI, hperm, fun sign hsign => ?_⟩
      have hn : n = sign x y := hsign w hw x hx y hy n (by rw [hr])
      rw [Sorting.answered, ← hn]
      exact hsigns sign hsign

/-- The world while an array is being sorted by a comparison. -/
def emptying (a : Nat) (w : World) : World := { w with store.heap := w.store.heap.setItems a .empty false }

theorem outcome_sortByAnswers (hcell : w.store.heap.cell? a = some (.array xs g))
    (h : Undisturbed invoke f xs.toList a g I) (hw : I (emptying a w)) :
    ∃ (r : Except Fault Unit) (w' : World) (ys : Sequence Value), (sortByAnswers invoke f a).outcome w = (r, w') ∧
      w'.store.heap.cell? a = some (.array ys g) ∧ ys.toList ~ xs.toList ∧
      (r = .ok () ∧ (∀ sign, Signs invoke f xs.toList I sign →
          ys.toList = (Sorting.sort xs.toList).answered fun x y => sign x y < 0) ∨
        ∃ e, r = .error e ∧ Refused invoke f xs.toList I e) := by
  have hgrowths : w.store.heap.growths a = g := by rw [Heap.growths, hcell]
  rw [sortByAnswers, outcome_bind_ok (outcome_items hcell), outcome_bind_ok (outcome_heap w), hgrowths]
  have hset : (setItems a .empty false).outcome w = (.ok (), emptying a w) := rfl
  rw [outcome_bind_ok hset]
  rcases outcome_answerAll h (arranges_sort xs.toList) hw with ⟨l, w', hout, hI, hperm, hsigns⟩ | ⟨e, w', l, hout, he, hperm, hl⟩
  · have hcell' := h.emptied hI
    have hkept : w'.store.heap.growths a = g := by rw [Heap.growths, hcell']
    rw [outcome_bind_ok hout, outcome_bind_ok (outcome_heap w'), hkept, bne_self_eq_false]
    refine ⟨.ok (), _, .ofList l, rfl, cell?_setItems hcell' _, ?_, .inl ⟨rfl, ?_⟩⟩
    · rwa [Sequence.toList_ofList]
    · rwa [Sequence.toList_ofList]
  · refine ⟨.error e, w', .ofList l, outcome_bind_error hout, hl, ?_, .inr ⟨e, rfl, he⟩⟩
    rwa [Sequence.toList_ofList]

end ArrayMethod

/-! ### Texts -/

theorem Text.le_iff_before_or_eq {s t : Text} : s.le t ↔ s < t ∨ s = t := by
  induction s generalizing t with
  | nil => cases t <;> simp [Text.le]
  | cons c s ih =>
    cases t with
    | nil => simp [Text.le]
    | cons d t =>
      simp only [Text.le, Bool.or_eq_true, decide_eq_true_eq, Bool.and_eq_true, beq_iff_eq, ih, List.cons_lt_cons_iff,
        cons.injEq, and_or_left, or_assoc]

theorem Text.le_iff {s t : Text} : s.le t ↔ s ≤ t := Text.le_iff_before_or_eq.trans le_iff_lt_or_eq.symm

/-- Texts come in the order of their code points, and what has no text comes last. -/
def Text.lastLe : Option Text → Option Text → Prop
  | _, none => True
  | none, some _ => False
  | some s, some t => s ≤ t

/-- The text that a value is sorted by; undefined has none. -/
def Heap.sortText (h : Heap) : Value → Option Text
  | .undefined => none
  | v => (h.toText v).toOption

namespace ArrayMethod

variable {h : Heap} {k k' : Option Text}

/-- The key that stands for a text, or for none. -/
def keyOf : Option Text → Bool × Text
  | none => (true, [])
  | some s => (false, s)

theorem keyLe_keyOf (x y : Value) : keyLe (keyOf k, x) (keyOf k', y) ↔ Text.lastLe k k' := by
  rcases k with _ | s <;> rcases k' with _ | t <;> simp [keyLe, keyOf, Text.lastLe, Text.le_iff]

/-- The order of values by their texts. -/
def textLe (h : Heap) (x y : Value) : Bool := keyLe (keyOf (h.sortText x), x) (keyOf (h.sortText y), y)

theorem lastLe_trans {k'' : Option Text} (hle : Text.lastLe k k') (hle' : Text.lastLe k' k'') : Text.lastLe k k'' := by
  rcases k with _ | s <;> rcases k' with _ | t <;> rcases k'' with _ | u <;> simp only [Text.lastLe] at *
  exact hle.trans hle'

theorem textLe_trans (x y z : Value) (hxy : textLe h x y) (hyz : textLe h y z) : textLe h x z :=
  (keyLe_keyOf x z).mpr (lastLe_trans ((keyLe_keyOf x y).mp hxy) ((keyLe_keyOf y z).mp hyz))

theorem textLe_total (x y : Value) : textLe h x y || textLe h y x := by
  rw [Bool.or_eq_true, textLe, textLe, keyLe_keyOf, keyLe_keyOf]
  rcases h.sortText x with _ | s <;> rcases h.sortText y with _ | t <;> simp only [Text.lastLe, or_true, true_or, or_self]
  exact le_total s t

/-- The value is undefined or has a text. -/
def Shown (h : Heap) (v : Value) : Prop := v = .undefined ∨ (h.sortText v).isSome

theorem outcome_toText (v : Value) (w : World) :
    (Exec.toText v).outcome w = (liftM (w.store.heap.toText v) : Exec Text).outcome w := rfl

theorem sortKey_cases (w : World) (v : Value) :
    (Shown w.store.heap v ∧ (sortKey v).outcome w = (.ok (keyOf (w.store.heap.sortText v)), w)) ∨
      (¬ Shown w.store.heap v ∧ (sortKey v).outcome w = (.error (.breakdown .integerTooLarge), w)) := by
  cases v with
  | undefined => exact .inl ⟨.inl rfl, rfl⟩
  | _ =>
    simp only [Shown, sortKey, Heap.sortText, outcome_bind, outcome_toText, outcome_liftBreakdown]
    rcases htext : w.store.heap.toText _ with why | s
    · rw [w.store.heap.ranged_toText _ why htext]
      refine .inr ⟨?_, rfl⟩
      rintro (h | h) <;> cases h
    · exact .inl ⟨.inr rfl, rfl⟩

theorem keyed_cases (items : List Value) (w : World) :
    ((∀ v ∈ items, Shown w.store.heap v) ∧ (items.mapM fun v => do return (← sortKey v, v)).outcome w =
      (.ok (items.map fun v => (keyOf (w.store.heap.sortText v), v)), w)) ∨
    ((∃ v ∈ items, ¬ Shown w.store.heap v) ∧ (items.mapM fun v => do return (← sortKey v, v)).outcome w =
      (.error (.breakdown .integerTooLarge), w)) := by
  induction items with
  | nil => exact .inl ⟨nofun, rfl⟩
  | cons v items ih =>
    rw [mapM_cons, forall_mem_cons]
    rcases sortKey_cases w v with ⟨hv, hkey⟩ | ⟨hv, hkey⟩
    · have hfirst : (do return (← sortKey v, v) : Exec _).outcome w = (.ok (keyOf (w.store.heap.sortText v), v), w) := by
        rw [outcome_bind_ok hkey]
        rfl
      rw [outcome_bind_ok hfirst]
      rcases ih with ⟨hitems, hkeys⟩ | ⟨hitems, hkeys⟩
      · rw [outcome_bind_ok hkeys]
        exact .inl ⟨⟨hv, hitems⟩, rfl⟩
      · obtain ⟨u, hu, hshown⟩ := hitems
        rw [outcome_bind_error hkeys]
        exact .inr ⟨⟨u, mem_cons_of_mem v hu, hshown⟩, rfl⟩
    · have hfirst : (do return (← sortKey v, v) : Exec _).outcome w = (.error (.breakdown .integerTooLarge), w) :=
        outcome_bind_error hkey
      rw [outcome_bind_error hfirst]
      exact .inr ⟨⟨v, mem_cons_self, hv⟩, rfl⟩

theorem outcome_sortByText {xs : Sequence Value} {w : World} {a g : Nat}
    (hcell : w.store.heap.cell? a = some (.array xs g)) :
    ((∀ v ∈ xs.toList, Shown w.store.heap v) ∧ (sortByText a).outcome w = (.ok (),
      { w with store.heap := w.store.heap.setItems a (.ofList (xs.toList.mergeSort (textLe w.store.heap))) false })) ∨
    ((∃ v ∈ xs.toList, ¬ Shown w.store.heap v) ∧ (sortByText a).outcome w = (.error (.breakdown .integerTooLarge), w)) := by
  rw [sortByText, outcome_bind_ok (outcome_items hcell)]
  rcases keyed_cases xs.toList w with ⟨hitems, hkeys⟩ | ⟨hitems, hkeys⟩
  · refine .inl ⟨hitems, ?_⟩
    have hsorted := map_mergeSort (r := textLe w.store.heap) (s := keyLe) (f := fun v => (keyOf (w.store.heap.sortText v), v))
      (l := xs.toList) fun _ _ _ _ => rfl
    rw [outcome_bind_ok hkeys, ← hsorted, map_map, map_id'']
    · rfl
    · exact fun _ => rfl
  · exact .inr ⟨hitems, outcome_bind_error hkeys⟩

theorem textLe_of_eq {x y : Value} (heq : h.sortText x = h.sortText y) : textLe h x y := by
  rw [textLe, keyLe_keyOf, heq]
  cases h.sortText y with
  | none => exact trivial
  | some s => exact le_refl s

/-- Values with one text are left in the order they had. -/
theorem filter_mergeSort (h : Heap) (items : List Value) (k : Option Text) :
    (items.mergeSort (textLe h)).filter (h.sortText · = k) = items.filter (h.sortText · = k) := by
  have hequal : (items.filter (h.sortText · = k)).Pairwise (textLe h · ·) := by
    refine pairwise_of_forall_mem_list fun x hx y hy => textLe_of_eq ?_
    rw [of_decide_eq_true (mem_filter.mp hx).2, of_decide_eq_true (mem_filter.mp hy).2]
  have hsub := (sublist_mergeSort textLe_trans textLe_total hequal filter_sublist).filter (h.sortText · = k)
  rw [filter_filter] at hsub
  simp only [Bool.and_self] at hsub
  refine (hsub.eq_of_length ?_).symm
  rw [← countP_eq_length_filter, ← countP_eq_length_filter]
  exact ((mergeSort_perm items _).countP_eq _).symm

/-- With a comparison that does not touch the array, sorting moves the items about, also when a comparison faults; signs
that are those of a total preorder put them in order, and leave equal items in the order they had. Without a comparison
the order is that of the texts, with undefined at the end. But an integer beyond the range of doubles has neither a sign
nor a text: a sort that meets one ends with a breakdown. -/
theorem sort_sorts_unless_out_of_range (invoke : Callback) (args : List Value) {w : World} {a g : Nat} {xs : Sequence Value}
    (hcell : w.store.heap.cell? a = some (.array xs g)) :
    (∀ f I, Argument.nth args 0 = .function f → Undisturbed invoke f xs.toList a g I → I (emptying a w) →
      ∃ (r : Except Fault Value) (w' : World) (ys : Sequence Value), (ArrayMethod.sort.run invoke a args).outcome w = (r, w') ∧
        w'.store.heap.cell? a = some (.array ys g) ∧ ys.toList ~ xs.toList ∧
        (r = .ok (.ref a) ∧
            (∀ sign, Signs invoke f xs.toList I sign → Preordered xs.toList sign →
              ys.toList.Pairwise (fun x y => ¬ sign y x < 0) ∧
                ∀ z ∈ xs.toList, ys.toList.filter (sign z · = 0) = xs.toList.filter (sign z · = 0)) ∨
          ∃ e, r = .error e ∧ Refused invoke f xs.toList I e)) ∧
    (Argument.nth args 0 = .undefined → (∀ v ∈ xs.toList, Shown w.store.heap v) →
      ∃ ys : Sequence Value, (ArrayMethod.sort.run invoke a args).outcome w =
          (.ok (.ref a), { w with store.heap := w.store.heap.setItems a ys false }) ∧
        ys.toList ~ xs.toList ∧ (ys.toList.map w.store.heap.sortText).Pairwise Text.lastLe ∧
        ∀ k, ys.toList.filter (w.store.heap.sortText · = k) = xs.toList.filter (w.store.heap.sortText · = k)) ∧
    (Argument.nth args 0 = .undefined → (∃ v ∈ xs.toList, ¬ Shown w.store.heap v) →
      (ArrayMethod.sort.run invoke a args).outcome w = (.error (.breakdown .integerTooLarge), w)) := by
  refine ⟨fun f I hf hI hw => ?_, fun hnone hshown => ?_, fun hnone hhidden => ?_⟩
  · obtain ⟨r, w', ys, hout, hcell', hperm, hresult⟩ := outcome_sortByAnswers hcell hI hw
    have hrun : (ArrayMethod.sort.run invoke a args).outcome w =
        (do sortByAnswers invoke f a; return .ref a : Exec Value).outcome w := by
      rw [ArrayMethod.run, runSort, hf]
      rfl
    rw [hrun]
    rcases hresult with ⟨rfl, hsigns⟩ | ⟨e, rfl, he⟩
    · refine ⟨.ok (.ref a), w', ys, outcome_bind_ok hout, hcell', hperm, .inl ⟨rfl, fun sign hsign hpre => ?_⟩⟩
      rw [hsigns sign hsign]
      exact answered_sort_of_preorder hpre
    · exact ⟨.error e, w', ys, outcome_bind_error hout, hcell', hperm, .inr ⟨e, rfl, he⟩⟩
  all_goals
    have hrun : (ArrayMethod.sort.run invoke a args).outcome w = (do sortByText a; return .ref a : Exec Value).outcome w := by
      rw [ArrayMethod.run, runSort, hnone]
    rw [hrun]
    rcases outcome_sortByText hcell with ⟨hitems, hout⟩ | ⟨⟨v, hv, hitems⟩, hout⟩
  · refine ⟨.ofList (xs.toList.mergeSort (textLe w.store.heap)), outcome_bind_ok hout, ?_, ?_, fun k => ?_⟩
    all_goals rw [Sequence.toList_ofList]
    · exact mergeSort_perm _ _
    · refine pairwise_map.mpr ((pairwise_mergeSort textLe_trans textLe_total _).imp fun hle => ?_)
      exact (keyLe_keyOf _ _).mp hle
    · exact filter_mergeSort _ _ k
  · exact absurd (hshown v hv) hitems
  · obtain ⟨v, hv, hhidden⟩ := hhidden
    exact absurd (hitems v hv) hhidden
  · exact outcome_bind_error hout

/-- A comparison of integers by their difference. -/
def difference : Callback
  | _, [.num (.int m), .num (.int n)] => return .int (m - n)
  | _, _ => return .undefined

def intSign : Value → Value → Int
  | .num (.int m), .num (.int n) => (m - n).sign
  | _, _ => 0

open Building in
theorem sort_sorts_three_integers :
    ∃ (w' : World) (ys : Sequence Value),
      (ArrayMethod.sort.run difference 0 [.function []]).outcome (alone (.ofList [.int 3, .int 1, .int 2])) =
        (.ok (.ref 0), w') ∧
      w'.store.heap.cell? 0 = some (.array ys 0) ∧ ys.toList ~ [.int 3, .int 1, .int 2] ∧
      ys.toList.Pairwise (fun x y => ¬ intSign y x < 0) := by
  have hnumber (n : Num) (w : World) : (Exec.toNumber (.num n)).outcome w = (.ok n, w) := by
    show (liftM (w.store.heap.read (.num n)).toNumber : Exec Num).outcome w = _
    rw [Heap.read]
    cases w.store.heap.next <;> rfl
  have hcompared : ∀ w : World, ∀ x ∈ [Value.int 3, .int 1, .int 2], ∀ y ∈ [Value.int 3, .int 1, .int 2],
      (compared difference [] x y).outcome w = (.ok (intSign x y), w) := by
    intro w
    simp only [forall_mem_cons, compared]
    and_intros
    all_goals first | exact forall_mem_nil _ | exact (outcome_bind_ok rfl).trans (outcome_bind_ok (hnumber _ w))
  have hI : Undisturbed difference [] [.int 3, .int 1, .int 2] 0 0
      fun w => w.store.heap.cell? 0 = some (.array .empty 0) := by
    refine ⟨id, fun {w} x y hw hx hy => ?_⟩
    have hstill : ∀ x ∈ [Value.int 3, .int 1, .int 2], ∀ y ∈ [Value.int 3, .int 1, .int 2],
        ((difference [] [x, y]).outcome w).2 = w := by
      simp only [forall_mem_cons]
      and_intros
      all_goals first | rfl | exact forall_mem_nil _
    rw [hstill x hx y hy]
    exact hw
  have hcell := cell?_alone (.ofList [.int 3, .int 1, .int 2]) 0
  obtain ⟨r, w', ys, hout, hys, hperm, hresult⟩ :=
    (sort_sorts_unless_out_of_range difference [.function []] hcell).1 [] _ rfl
      (by rw [Sequence.toList_ofList]; exact hI) (cell?_setItems hcell _)
  rw [Sequence.toList_ofList] at hperm hresult
  rcases hresult with ⟨rfl, hsorted⟩ | ⟨e, rfl, w, -, x, hx, y, hy, he⟩
  · refine ⟨w', ys, hout, hys, hperm, (hsorted intSign ?_ ⟨by decide, by decide⟩).1⟩
    intro w _ x hx y hy n hn
    rw [hcompared w x hx y hy] at hn
    exact (Except.ok.inj hn).symm
  · rw [hcompared w x hx y hy] at he
    cases he

open Building in
/-- There is no text to sort a large integer by, although undefined is only to be put behind it. -/
theorem sort_breaks_down_on_large_integer :
    (ArrayMethod.sort.run difference 0 []).outcome (alone (.ofList [.undefined, .num (.int (pow10 309))])) =
      (.error (.breakdown .integerTooLarge), alone (.ofList [.undefined, .num (.int (pow10 309))])) := by
  rcases outcome_sortByText (cell?_alone (.ofList [.undefined, .num (.int (pow10 309))]) 0) with ⟨hitems, -⟩ | ⟨-, hout⟩
  · have hhidden : ¬ Shown (alone (.ofList [.undefined, .num (.int (pow10 309))])).store.heap (.num (.int (pow10 309))) := by
      rintro (h | h)
      · cases h
      · exact absurd h (by decide +kernel)
    rw [Sequence.toList_ofList] at hitems
    exact absurd (hitems _ (mem_cons_of_mem _ mem_cons_self)) hhidden
  · exact outcome_bind_error hout

end ArrayMethod

end Stepwise
