import Stepwise.Proofs.ShortArrays

/-!
# How arrays grow

What methods and stores do to the arrays that they are given. `slice`, `map` and `filter` never make an array too long,
and neither does a store of the length; `push`, `unshift`, `splice`, `concat` and a store of an item may. For each of
these, whether arrays stay short is decided by a number of items.
-/

namespace Stepwise

open Exec List

variable {α : Type} {E : Nat → Prop}

/-! ### Methods that never make an array too long -/

section Methods

variable {a : Nat} {args : List Value} {m : ArrayMethod} {w w' : World}

theorem Exec.Yields.runSlice (ha : ¬ E a) : Exec.Yields E (ArrayMethod.runSlice a args) (Value.Apart E) := by
  refine .seq (.items ha) fun xs hxs => .seq (.reads (.range _ _ _)) fun bounds _ => ?_
  have hpart : ∀ v ∈ (xs.slice bounds.1 bounds.2).toList, v.Apart E := by
    intro v hv
    rw [Sequence.toList_slice] at hv
    exact hxs.apart v (mem_of_mem_take (mem_of_mem_drop hv))
  refine .seq (.copyTogether hpart) fun ys hys => .newArray (hxs.of_length_le hys.1 ?_)
  rw [hys.2, Sequence.toList_slice, length_drop, length_take]
  omega

/-- What `map` and `filter` make of the answer for an item. -/
def ArrayMethod.made (m : ArrayMethod) (p : Value × Nat) (answer : Value) : Exec (List Value) :=
  if m = .filter then ArrayMethod.kept p.1 answer else Exec.single answer

theorem length_of_made {p : Value × Nat} {u : Value} {us : List Value}
    (hrun : (m.made p u).outcome w = (.ok us, w')) : 0 ≤ us.length ∧ us.length ≤ 1 := by
  unfold ArrayMethod.made at hrun
  split at hrun
  · exact length_of_kept hrun
  · exact ⟨Nat.zero_le _, (length_of_single hrun).2⟩

theorem runVisit_eq (hm : m = .map ∨ m = .filter) (invoke : Callback) :
    ArrayMethod.runVisit invoke m a args = (do
      let f ← Argument.function (Argument.nth args 0)
      let xs ← ArrayMethod.items a
      Exec.newArray (.ofList
        (← Exec.gather (fun p => invoke f [p.1, .int p.2, .ref a]) (ArrayMethod.made m) xs.toList.zipIdx))) := by
  refine bind_congr fun f => bind_congr fun xs => ?_
  rcases hm with rfl | rfl
  · rw [mapM_eq_gather]
    rfl
  · rw [filtered_eq_gather]
    rfl

theorem kept_runVisit {invoke : Callback} {v : Value} {n : Nat} {xs : Sequence Value}
    (hm : m = .map ∨ m = .filter) (hw : w.store.heap.Short E) (ha : ¬ E a)
    (hcell : w.store.heap.cell? a = some (.array xs n)) (hcalm : ∀ f, Argument.nth args 0 = .function f →
      Exec.Calm E (fun p => invoke f [p.1, .int p.2, .ref a]) (ArrayMethod.made m) xs.toList.zipIdx w)
    (hrun : (ArrayMethod.runVisit invoke m a args).outcome w = (.ok v, w')) :
    Heap.Kept E w.store.heap w'.store.heap := by
  rw [runVisit_eq hm] at hrun
  obtain ⟨f, w₁, hfunction, hrest⟩ := bind_eq_ok hrun
  obtain ⟨hf, rfl⟩ := function_eq_ok hfunction
  rw [outcome_bind_ok (outcome_items hcell)] at hrest
  obtain ⟨ys, w₂, hgather, hnew⟩ := bind_eq_ok hrest
  have hxs := hw.items ha hcell
  have hmade : ∀ p ∈ xs.toList.zipIdx, ∀ u, u.Apart E → Exec.Yields E (m.made p u) fun us => ∀ u ∈ us, u.Apart E := by
    intro p hp u hu
    exact .ite _ (.kept (hxs.apart p.1 (fst_mem_of_mem_zipIdx hp))) (.single hu)
  obtain ⟨hkept, hys⟩ := gather_eq_ok hmade hw (hcalm f hf) hgather
  have hle := (length_gather (fun p u _ us _ => length_of_made) hgather).2
  refine hkept.trans (Exec.Yields.newArray ?_ w₂ v w' hkept.short hnew).1
  rw [Sequence.toList_ofList]
  exact hxs.of_length_le hys (Nat.le_trans hle (Nat.le_of_eq length_zipIdx))

end Methods

/-! ### Lengthening an array -/

namespace Heap

/-- The heap after a copy of a value was added to an array. -/
def pushCopy (a : Addr) (h : Heap) (v : Value) : Heap := (h.copy v).2.modifyItems a (·.push (h.copy v).1) true

variable {h : Heap} {a n : Nat} {xs : Sequence Value} {v : Value} {args : List Value}

theorem next_pushCopy : h.next ≤ (h.pushCopy a v).next := (h.extends_copy v).1.next

theorem cell?_pushCopy (hcell : h.cell? a = some (.array xs n)) (hlt : a < h.next) :
    (h.pushCopy a v).cell? a = some (.array (xs.push (h.copy v).1) (n + 1)) := by
  rw [pushCopy, cell?_modifyItems, if_pos rfl, (h.extends_copy v).1.same a (.inl hlt), hcell]
  rfl

theorem Short.pushCopy (hh : h.Short E) (ha : ¬ E a) (hv : v.Apart E) (hcell : h.cell? a = some (.array xs n))
    (hlt : a < h.next) (hlength : xs.toList.length + 1 < maxArrayLength) : Kept E h (h.pushCopy a v) := by
  obtain ⟨hcopied, hnew⟩ := hh.copy hv
  refine hcopied.trans (hcopied.short.modifyItems ha true fun xs' n' hcell' => ?_)
  rw [(h.extends_copy v).1.same a (.inl hlt), hcell] at hcell'
  cases hcell'
  rw [Sequence.toList_push]
  refine ⟨forall_mem_append.mpr ⟨(hh.items ha hcell).apart, forall_mem_singleton.mpr hnew⟩, ?_⟩
  rwa [length_append]

theorem cell?_foldl_pushCopy (hcell : h.cell? a = some (.array xs n)) (hlt : a < h.next) (args : List Value) :
    ∃ xs' n', (args.foldl (pushCopy a) h).cell? a = some (.array xs' n') ∧
      xs'.toList.length = xs.toList.length + args.length := by
  induction args generalizing h xs n with
  | nil => exact ⟨xs, n, hcell, rfl⟩
  | cons v args ih =>
    obtain ⟨xs', n', hlast, hlength⟩ := ih (cell?_pushCopy (v := v) hcell hlt) (Nat.lt_of_lt_of_le hlt next_pushCopy)
    refine ⟨xs', n', hlast, ?_⟩
    simp only [Sequence.toList_push, length_append, length_cons, length_nil] at hlength ⊢
    omega

theorem Short.foldl_pushCopy (hh : h.Short E) (ha : ¬ E a) (hargs : ∀ v ∈ args, v.Apart E)
    (hcell : h.cell? a = some (.array xs n)) (hlt : a < h.next)
    (hlength : xs.toList.length + args.length < maxArrayLength) : Kept E h (args.foldl (Heap.pushCopy a) h) := by
  induction args generalizing h xs n with
  | nil => exact hh.kept
  | cons v args ih =>
    obtain ⟨hv, hrest⟩ := forall_mem_cons.mp hargs
    rw [length_cons] at hlength
    have hkept := hh.pushCopy ha hv hcell hlt (by omega)
    refine hkept.trans (ih hkept.short hrest (cell?_pushCopy hcell hlt) (Nat.lt_of_lt_of_le hlt next_pushCopy) ?_)
    simp only [Sequence.toList_push, length_append, length_cons, length_nil]
    omega

theorem Kept.length {h' : Heap} (hkept : Kept E h h') (ha : ¬ E a) (hcell : h'.cell? a = some (.array xs n)) :
    xs.toList.length < maxArrayLength := (hkept.short.items ha hcell).length

end Heap

section Lengthening

variable {w w' : World} {a n : Nat} {xs : Sequence Value} {args : List Value} {v : Value}

theorem outcome_pushEach (a : Nat) (args : List Value) (w : World) : (ArrayMethod.pushEach a args).outcome w =
    (.ok (), { w with store.heap := args.foldl (Heap.pushCopy a) w.store.heap }) := by
  induction args generalizing w with
  | nil => rfl
  | cons v args ih => exact ih { w with store.heap := w.store.heap.pushCopy a v }

theorem kept_runPush_iff (hw : w.store.heap.Short E) (ha : ¬ E a) (hargs : ∀ v ∈ args, v.Apart E)
    (hcell : w.store.heap.cell? a = some (.array xs n)) (hlt : a < w.store.heap.next)
    (hrun : (ArrayMethod.runPush a args).outcome w = (.ok v, w')) :
    Heap.Kept E w.store.heap w'.store.heap ↔ xs.toList.length + args.length < Heap.maxArrayLength := by
  obtain ⟨_, w₁, hgrow, hrest⟩ := bind_eq_ok hrun
  obtain ⟨_, w₂, hpush, hrest⟩ := bind_eq_ok hrest
  cases hgrow
  rw [outcome_pushEach] at hpush
  cases hpush
  cases hrest
  -- that the array has grown is noted before any item is added
  have hgrown : (w.store.heap.modifyItems a id true).cell? a = some (.array xs (n + 1)) := by
    rw [Heap.cell?_modifyItems, if_pos rfl, hcell]
    rfl
  have hkept := hw.modifyItems ha true (f := id) fun xs' n' hcell' => hw.items ha hcell'
  constructor
  · intro hlast
    obtain ⟨xs', n', hcell', hlength⟩ := Heap.cell?_foldl_pushCopy hgrown hlt args
    rw [← hlength]
    exact hlast.length ha hcell'
  · exact fun hlength => hkept.trans (hkept.short.foldl_pushCopy ha hargs hgrown hlt hlength)

/-- The heap after a range of items was replaced by copies. -/
def Heap.replaceRange (h : Heap) (a : Addr) (xs : Sequence Value) (start stop : Nat) (values : List Value) : Heap :=
  let new := xs.replaceSlice start stop (.ofList (h.copyEach values).1)
  (h.copyEach values).2.setItems a new (xs.size < new.size)

theorem outcome_replaceRange (hcell : w.store.heap.cell? a = some (.array xs n)) (hlt : a < w.store.heap.next)
    (start stop : Nat) (values : List Value) : (ArrayMethod.replaceRange a start stop values).outcome w =
      (.ok (), { w with store.heap := w.store.heap.replaceRange a xs start stop values }) := by
  have hcopied : (Exec.withHeap (·.copyEach values)).outcome w =
      (.ok (w.store.heap.copyEach values).1, { w with store.heap := (w.store.heap.copyEach values).2 }) := rfl
  have hcell' : (w.store.heap.copyEach values).2.cell? a = some (.array xs n) := by
    rw [(w.store.heap.extends_copyEach values).1.same a (.inl hlt), hcell]
  rw [ArrayMethod.replaceRange, outcome_bind_ok hcopied]
  rw [outcome_bind_ok (outcome_items (w := { w with store.heap := (w.store.heap.copyEach values).2 }) hcell')]
  rfl

section ReplaceRange

variable {h : Heap} {start stop : Nat} {values : List Value} (hstart : start ≤ stop) (hstop : stop ≤ xs.toList.length)

include hstart hstop

theorem length_replaceSlice : (xs.replaceSlice start stop (.ofList (h.copyEach values).1)).toList.length =
    xs.toList.length - (stop - start) + values.length := by
  rw [Sequence.toList_replaceSlice, Sequence.toList_ofList, length_append, length_append, length_take,
    length_drop, Heap.length_copyEach]
  omega

variable (hcell : h.cell? a = some (.array xs n)) (hlt : a < h.next)

include hcell hlt

theorem Heap.cell?_replaceRange (values : List Value) :
    ∃ ys n', (h.replaceRange a xs start stop values).cell? a = some (.array ys n') ∧
      ys.toList.length = xs.toList.length - (stop - start) + values.length := by
  let new := xs.replaceSlice start stop (.ofList (h.copyEach values).1)
  refine ⟨new, if decide (xs.size < new.size) then n + 1 else n, ?_, length_replaceSlice hstart hstop⟩
  rw [Heap.replaceRange, Heap.setItems, Heap.cell?_modifyItems, if_pos rfl,
    (h.extends_copyEach values).1.same a (.inl hlt), hcell]
  rfl

omit hlt in
theorem kept_replaceRange (hh : h.Short E) (ha : ¬ E a) (hvalues : ∀ v ∈ values, v.Apart E)
    (hlength : xs.toList.length - (stop - start) + values.length < Heap.maxArrayLength) :
    Heap.Kept E h (h.replaceRange a xs start stop values) := by
  obtain ⟨hcopied, hcopies⟩ := hh.copyEach hvalues
  refine hcopied.trans (hcopied.short.modifyItems ha _ fun _ _ _ => ⟨?_, ?_⟩)
  · have hxs := (hh.items ha hcell).apart
    rw [Sequence.toList_replaceSlice, Sequence.toList_ofList]
    refine forall_mem_append.mpr ⟨forall_mem_append.mpr ⟨?_, hcopies⟩, ?_⟩
    · exact fun v hv => hxs v (mem_of_mem_take hv)
    · exact fun v hv => hxs v (mem_of_mem_drop hv)
  · rw [length_replaceSlice hstart hstop]
    exact hlength

end ReplaceRange

theorem kept_runUnshift_iff (hw : w.store.heap.Short E) (ha : ¬ E a) (hargs : ∀ v ∈ args, v.Apart E)
    (hcell : w.store.heap.cell? a = some (.array xs n)) (hlt : a < w.store.heap.next)
    (hrun : (ArrayMethod.runUnshift a args).outcome w = (.ok v, w')) :
    Heap.Kept E w.store.heap w'.store.heap ↔ xs.toList.length + args.length < Heap.maxArrayLength := by
  obtain ⟨_, w₁, hreplace, hrest⟩ := bind_eq_ok hrun
  rw [outcome_replaceRange hcell hlt] at hreplace
  cases hreplace
  cases hrest
  constructor
  · intro hlast
    obtain ⟨ys, n', hcell', hlength⟩ := Heap.cell?_replaceRange (Nat.le_refl 0) (Nat.zero_le _) hcell hlt args
    have hshort := hlast.length ha hcell'
    rwa [hlength] at hshort
  · exact kept_replaceRange (Nat.le_refl 0) (Nat.zero_le _) hcell hw ha hargs

/-- How many items `splice` takes away from an array of the given length, and from where. -/
def ArrayMethod.spliced (args : List Value) (length : Nat) : Exec (Nat × Nat) := do
  let start := Argument.position (← Argument.integer args 0 0) length
  let count ← if args.length < 2 then pure (length - start)
    else pure (min (← Argument.integer args 1 0).toNat (length - start))
  return (start, count)

theorem Exec.Reads.spliced (args : List Value) (length : Nat) : Exec.Reads (ArrayMethod.spliced args length) := by
  refine .seq (.integer _ _ _) fun _ => ?_
  split
  · exact .done _
  · exact .seq (.integer _ _ _) fun _ => .done _

theorem position_le (index : Int) (length : Nat) : Argument.position index length ≤ length := by
  unfold Argument.position
  split <;> omega

theorem runSplice_eq (a : Addr) (args : List Value) : ArrayMethod.runSplice a args = (do
    let xs ← ArrayMethod.items a
    let r ← ArrayMethod.spliced args xs.size
    ArrayMethod.replaceRange a r.1 (r.1 + r.2) (args.drop 2)
    Exec.newArray (xs.slice r.1 (r.1 + r.2))) := by
  unfold ArrayMethod.runSplice ArrayMethod.spliced
  refine bind_congr fun xs => ?_
  rw [bind_assoc]
  split
  · simp only [pure_bind]
  · simp only [bind_assoc, pure_bind]

theorem le_of_spliced {length : Nat} {r : Nat × Nat} (hrun : (ArrayMethod.spliced args length).outcome w = (.ok r, w')) :
    r.1 + r.2 ≤ length := by
  obtain ⟨index, w₁, -, hrest⟩ := bind_eq_ok hrun
  have hle := position_le index length
  split at hrest
  · cases hrest
    omega
  · obtain ⟨count, w₂, -, hrest⟩ := bind_eq_ok hrest
    cases hrest
    omega

theorem kept_runSplice_iff (hw : w.store.heap.Short E) (ha : ¬ E a) (hargs : ∀ v ∈ args, v.Apart E)
    (hcell : w.store.heap.cell? a = some (.array xs n)) (hlt : a < w.store.heap.next)
    (hrun : (ArrayMethod.runSplice a args).outcome w = (.ok v, w')) :
    ∃ r : Nat × Nat, (ArrayMethod.spliced args xs.size).outcome w = (.ok r, w) ∧
      (Heap.Kept E w.store.heap w'.store.heap ↔
        xs.toList.length - r.2 + (args.drop 2).length < Heap.maxArrayLength) := by
  rw [runSplice_eq, outcome_bind_ok (outcome_items hcell)] at hrun
  obtain ⟨r, w₁, hspliced, hrest⟩ := bind_eq_ok hrun
  obtain rfl : w₁ = w := by rw [← (Exec.Reads.spliced args xs.size).still w, hspliced]
  have hle := le_of_spliced hspliced
  rw [Sequence.size_eq] at hle
  refine ⟨r, hspliced, ?_⟩
  rw [outcome_bind_ok (outcome_replaceRange hcell hlt _ _ _)] at hrest
  have hpart : ShortItems E (xs.slice r.1 (r.1 + r.2)).toList := by
    have hxs := hw.items ha hcell
    rw [Sequence.toList_slice]
    refine hxs.of_length_le (fun v hv => hxs.apart v (mem_of_mem_take (mem_of_mem_drop hv))) ?_
    rw [length_drop, length_take]
    omega
  constructor
  · -- the array itself is as it was before the items taken away were put into a new one
    intro hlast
    obtain ⟨ys, n', hcell', hlength⟩ :=
      Heap.cell?_replaceRange (Nat.le_add_right r.1 r.2) hle hcell hlt (args.drop 2)
    have hnext := (w₁.store.heap.extends_copyEach (args.drop 2)).1.next
    cases hrest
    have hshort := hlast.length ha ((Heap.cell?_alloc _ _ a).trans ((if_neg ?_).trans hcell'))
    · rwa [hlength, Nat.add_sub_cancel_left] at hshort
    · exact Nat.ne_of_lt (Nat.lt_of_lt_of_le hlt hnext)
  · intro hlength
    rw [← Nat.add_sub_cancel_left (n := r.1) (m := r.2)] at hlength
    have hreplaced := kept_replaceRange (Nat.le_add_right r.1 r.2) hle hcell hw ha
      (fun v hv => hargs v (mem_of_mem_drop hv)) hlength
    exact hreplaced.trans (Exec.Yields.newArray hpart _ _ _ hreplaced.short hrest).1

end Lengthening

/-! ### Joining arrays -/

/-- The number of items that a value adds when it is joined to an array. -/
def Heap.partLength (h : Heap) (v : Value) : Nat := ((h.array? v).map fun found => found.2.toList.length).getD 1

/-- The number of items that values add together. -/
def Heap.joinedLength (h : Heap) : List Value → Nat
  | [] => 0
  | v :: rest => h.partLength v + h.joinedLength rest

/-- The items that a value adds when it is joined to an array. -/
def ArrayMethod.part (v : Value) : Exec (Sequence Value) := do
  match (← Exec.heap).array? v with
  | some (_, ys) => Exec.withHeap (·.copyTogether ys)
  | none => return .singleton (← Exec.copy v)

theorem runConcat_eq (a : Addr) (args : List Value) : ArrayMethod.runConcat a args = (do
    let xs ← ArrayMethod.items a
    let front ← Exec.withHeap (·.copyTogether xs)
    let parts ← args.mapM ArrayMethod.part
    Exec.newArray (front ++ .concat parts)) := rfl

theorem Heap.Extends.array?_eq {h h' : Heap} (hext : h.Extends h') {v : Value} (hv : ∀ a, v = .ref a → a < h.next) :
    h'.array? v = h.array? v := by
  cases v with
  | ref a => simp only [Heap.array?, hext.same a (.inl (hv a rfl))]
  | _ => rfl

section Joining

variable {h : Heap} {w w' : World} {v : Value} {args : List Value} {a : Nat} {xs : Sequence Value}

theorem outcome_part_of_array (h : w.store.heap.array? v = some (a, xs)) :
    (ArrayMethod.part v).outcome w = (Exec.withHeap (·.copyTogether xs)).outcome w := by
  rw [ArrayMethod.part, outcome_bind_ok (outcome_heap w), h]

theorem outcome_part_of_none (h : w.store.heap.array? v = none) :
    (ArrayMethod.part v).outcome w = (do return .singleton (← Exec.copy v) : Exec (Sequence Value)).outcome w := by
  rw [ArrayMethod.part, outcome_bind_ok (outcome_heap w), h]

theorem part_eq_ok {ys : Sequence Value} (hext : h.Extends w.store.heap) (hw : w.store.heap.Short E) (hv : v.Apart E)
    (hknown : ∀ a, v = .ref a → a < h.next) (hrun : (ArrayMethod.part v).outcome w = (.ok ys, w')) :
    h.Extends w'.store.heap ∧ Heap.Kept E w.store.heap w'.store.heap ∧ (∀ u ∈ ys.toList, u.Apart E) ∧
      ys.toList.length = h.partLength v := by
  -- parts are looked up one after the other, but copies made meanwhile leave the old cells alone
  have hsame := hext.array?_eq hknown
  unfold Heap.partLength
  cases harray : h.array? v with
  | some found =>
    obtain ⟨a, xs⟩ := found
    rw [outcome_part_of_array (hsame.trans harray), outcome_withHeap] at hrun
    cases hrun
    obtain ⟨rfl, n, hcell⟩ := Heap.array?_eq_some harray
    have hxs := hw.items (hv a rfl) ((hext.same a (.inl (hknown a rfl))).trans hcell)
    obtain ⟨hkept, hnew, hlength⟩ := hw.copyTogether hxs.apart
    exact ⟨hext.trans (w.store.heap.extends_copyTogether xs).1, hkept, hnew, hlength⟩
  | none =>
    rw [outcome_part_of_none (hsame.trans harray), Exec.copy, outcome_bind_ok (outcome_withHeap _ _)] at hrun
    cases hrun
    obtain ⟨hkept, hnew⟩ := hw.copy hv
    exact ⟨hext.trans (w.store.heap.extends_copy v).1, hkept, forall_mem_singleton.mpr hnew, rfl⟩

theorem parts_eq_ok {parts : List (Sequence Value)} (hext : h.Extends w.store.heap) (hw : w.store.heap.Short E)
    (hargs : ∀ v ∈ args, v.Apart E) (hknown : ∀ v ∈ args, ∀ a, v = .ref a → a < h.next)
    (hrun : (args.mapM ArrayMethod.part).outcome w = (.ok parts, w')) :
    Heap.Kept E w.store.heap w'.store.heap ∧ (∀ u ∈ (Sequence.concat parts).toList, u.Apart E) ∧
      (Sequence.concat parts).toList.length = h.joinedLength args := by
  rw [Sequence.toList_concat]
  induction args generalizing w parts with
  | nil =>
    cases hrun
    exact ⟨hw.kept, forall_mem_nil _, rfl⟩
  | cons v args ih =>
    obtain ⟨hv, hargs'⟩ := forall_mem_cons.mp hargs
    obtain ⟨hknownv, hknown'⟩ := forall_mem_cons.mp hknown
    rw [mapM_cons] at hrun
    obtain ⟨ys, w₁, hpart, hrest⟩ := bind_eq_ok hrun
    obtain ⟨parts', w₂, hparts, hrest⟩ := bind_eq_ok hrest
    cases hrest
    obtain ⟨hext', hkept, hys, hlength⟩ := part_eq_ok hext hw hv hknownv hpart
    obtain ⟨hkept', hrest, hlengths⟩ := ih hext' hkept.short hargs' hknown' hparts
    refine ⟨hkept.trans hkept', ?_, ?_⟩
    · exact forall_mem_append.mpr ⟨hys, hrest⟩
    · rw [map_cons, flatten_cons, length_append, hlength, hlengths, Heap.joinedLength]

theorem kept_runConcat_iff {n : Nat} (hw : w.store.heap.Short E) (ha : ¬ E a)
    (hargs : ∀ v ∈ args, v.Apart E) (hknown : ∀ v ∈ args, ∀ a, v = .ref a → a < w.store.heap.next)
    (hcell : w.store.heap.cell? a = some (.array xs n))
    (hrun : (ArrayMethod.runConcat a args).outcome w = (.ok v, w')) :
    Heap.Kept E w.store.heap w'.store.heap ↔
      xs.toList.length + w.store.heap.joinedLength args < Heap.maxArrayLength := by
  rw [runConcat_eq, outcome_bind_ok (outcome_items hcell)] at hrun
  rw [outcome_bind_ok (outcome_withHeap _ _)] at hrun
  obtain ⟨parts, w₁, hparts, hnewArray⟩ := bind_eq_ok hrun
  obtain ⟨hkept, hnew, hlength⟩ := hw.copyTogether (hw.items ha hcell).apart
  obtain ⟨hkept', hmore, hlengths⟩ :=
    parts_eq_ok (w.store.heap.extends_copyTogether xs).1 hkept.short hargs hknown hparts
  rw [← hlength, ← hlengths, ← length_append, ← Sequence.toList_append]
  refine kept_newArray_iff (hkept.trans hkept') ?_ hnewArray
  rw [Sequence.toList_append]
  exact forall_mem_append.mpr ⟨hnew, hmore⟩

end Joining

/-! ### Stores -/

section Stores

variable {h h' : Heap} {a n : Nat} {xs : Sequence Value} {v object : Value} {key : Text} {length : Nat}

theorem Heap.toList_filledUp (xs : Sequence Value) (length : Nat) :
    (filledUp xs length).toList = xs.toList ++ List.replicate (length - xs.toList.length) .undefined := by
  rw [filledUp, Sequence.toList_append, Sequence.toList_replicate, Sequence.size_eq]

theorem Heap.length_filledUp (xs : Sequence Value) (length : Nat) :
    (filledUp xs length).toList.length = max xs.toList.length length := by
  rw [toList_filledUp, length_append, length_replicate]
  omega

theorem Heap.apart_filledUp (hxs : ∀ v ∈ xs.toList, v.Apart E) (length : Nat) :
    ∀ v ∈ (filledUp xs length).toList, v.Apart E := by
  rw [toList_filledUp]
  refine forall_mem_append.mpr ⟨hxs, fun v hv => ?_⟩
  rw [eq_of_mem_replicate hv]
  rintro _ ⟨⟩

theorem eq_ok_of_check {c : Prop} [Decidable c] {f : Fault} {rest : PUnit → Except Fault α} {b : α}
    (h : (if c then (throw f : Except Fault PUnit) >>= rest else rest ⟨⟩) = .ok b) : ¬ c ∧ rest ⟨⟩ = .ok b := by
  split at h
  · cases h
  · exact ⟨‹_›, h⟩

theorem Heap.lengthOf_lt (hlength : h.lengthOf v = .ok length) : length < maxArrayLength := by
  obtain ⟨number, -, hlength⟩ := eq_ok_of_bind hlength
  obtain ⟨nan, -, hlength⟩ := eq_ok_of_bind hlength
  obtain ⟨-, hlength⟩ := eq_ok_of_check hlength
  obtain ⟨-, hlength⟩ := eq_ok_of_check hlength
  obtain ⟨cut, -, hlength⟩ := eq_ok_of_bind hlength
  obtain ⟨hbound, hlength⟩ := eq_ok_of_check hlength
  cases hlength
  have hpositive := maxArrayLength_pos
  simp only [Bool.or_eq_true, decide_eq_true_iff, not_or] at hbound
  omega

theorem Heap.Short.setLength (hh : h.Short E) (ha : ¬ E a) (hxs : ShortItems E xs.toList)
    (hlength : length < maxArrayLength) : Kept E h (h.setLength a xs length) := by
  unfold Heap.setLength
  split
  · refine hh.modifyItems ha _ fun _ _ _ => ?_
    rw [Sequence.toList_take]
    refine hxs.of_length_le (fun v hv => hxs.apart v (mem_of_mem_take hv)) ?_
    rw [length_take]
    omega
  · refine hh.modifyItems ha _ fun _ _ _ => ⟨apart_filledUp hxs.apart _, ?_⟩
    have := hxs.length
    rw [length_filledUp]
    omega

/-- The heap when a copy of a value is stored as an item. -/
def Heap.withItem (h : Heap) (a : Addr) (i : Nat) (v : Value) : Heap :=
  (h.copy v).2.modifyItems a (·.set i (h.copy v).1) false

theorem Heap.cell?_withItem (hcell : h.cell? a = some (.array xs n)) (hlt : a < h.next) (i : Nat) (v : Value) :
    (h.withItem a i v).cell? a = some (.array (xs.set i (h.copy v).1) n) := by
  rw [withItem, cell?_modifyItems, if_pos rfl, (h.extends_copy v).1.same a (.inl hlt), hcell]
  rfl

theorem Heap.Short.withItem (hh : h.Short E) (ha : ¬ E a) (hv : v.Apart E) (i : Nat) : Kept E h (h.withItem a i v) := by
  obtain ⟨hcopied, hnew⟩ := hh.copy hv
  refine hcopied.trans (hcopied.short.modifyItems ha false fun ys n hcell => ?_)
  have hys := hcopied.short.items ha hcell
  rw [Sequence.toList_set]
  refine hys.of_length_le (fun u hu => ?_) (Nat.le_of_eq length_set)
  rcases mem_or_eq_of_mem_set hu with hu | rfl
  · exact hys.apart u hu
  · exact hnew

theorem Heap.kept_storeItem_iff {i : Nat} (hh : h.Short E) (ha : ¬ E a) (hv : v.Apart E)
    (hcell : h.cell? a = some (.array xs n)) (hlt : a < h.next) (hstore : h.storeItem a xs i v = .ok h') :
    Kept E h h' ↔ (if i < xs.size then 0 else i + 1) < maxArrayLength := by
  unfold storeItem at hstore
  obtain ⟨-, hstore⟩ := eq_ok_of_check hstore
  replace hstore : (if i < xs.size then h else h.setItems a (filledUp xs (i + 1)) true).withItem a i v = h' :=
    Except.ok.inj hstore
  by_cases hi : i < xs.size
  · rw [if_pos hi] at hstore ⊢
    subst hstore
    exact iff_of_true (hh.withItem ha hv i) maxArrayLength_pos
  · rw [if_neg hi] at hstore ⊢
    subst hstore
    rw [Sequence.size_eq] at hi
    have hxs := hh.items ha hcell
    have hfilled : (h.setItems a (filledUp xs (i + 1)) true).cell? a = some (.array (filledUp xs (i + 1)) (n + 1)) := by
      rw [setItems, cell?_modifyItems, if_pos rfl, hcell]
      rfl
    have hlength : (filledUp xs (i + 1)).toList.length = i + 1 := by
      rw [length_filledUp]
      omega
    -- the array is filled up first, and the item is stored into it then
    constructor
    · intro hlast
      have hshort := hlast.length ha (cell?_withItem hfilled hlt i v)
      rwa [Sequence.toList_set, length_set, hlength] at hshort
    · intro hshort
      have hkept : Kept E h (h.setItems a (filledUp xs (i + 1)) true) :=
        hh.modifyItems ha true fun _ _ _ => ⟨apart_filledUp hxs.apart _, by rw [hlength]; exact hshort⟩
      exact hkept.trans (hkept.short.withItem ha hv i)

/-- How many items an array has to hold at least when a property is stored. -/
def Heap.storeDemand (h : Heap) (object : Value) (key : Text) : Except Breakdown Nat :=
  match h.array? object with
  | some (_, xs) => if key.isDigits then (indexOf key).map fun i => if i < xs.size then 0 else i + 1 else .ok 0
  | none => .ok 0

theorem Heap.kept_storeProperty_iff (hh : h.Short E) (hobject : ∀ a, object = .ref a → ¬ E a ∧ a < h.next)
    (hv : v.Apart E) (hstore : h.storeProperty object key v = .ok h') :
    ∃ m, h.storeDemand object key = .ok m ∧ (Kept E h h' ↔ m < maxArrayLength) := by
  have keeps (hkept : Kept E h h') : Kept E h h' ↔ 0 < maxArrayLength := iff_of_true hkept maxArrayLength_pos
  unfold storeProperty at hstore
  split at hstore
  · cases hstore
  · unfold storeDemand
    cases harray : h.array? object with
    | some found =>
      obtain ⟨a, xs⟩ := found
      obtain ⟨rfl, n, hcell⟩ := array?_eq_some harray
      obtain ⟨ha, hlt⟩ := hobject a rfl
      rw [harray] at hstore
      dsimp only at hstore ⊢
      split at hstore
      · rename_i hdigits
        obtain ⟨i, hi, hitem⟩ := eq_ok_of_bind hstore
        have hindex : indexOf key = .ok i := by
          cases hread : indexOf key with
          | ok j =>
            rw [hread] at hi
            cases hi
            rfl
          | error why =>
            rw [hread] at hi
            cases hi
        rw [if_pos hdigits, hindex]
        exact ⟨_, rfl, kept_storeItem_iff hh ha hv hcell hlt hitem⟩
      · rename_i hdigits
        rw [if_neg hdigits]
        refine ⟨0, rfl, keeps ?_⟩
        split at hstore
        · obtain ⟨length, hlength, hset⟩ := eq_ok_of_bind hstore
          cases hset
          exact hh.setLength ha (hh.items ha hcell) (lengthOf_lt hlength)
        · cases hstore
          exact hh.kept
    | none =>
      rw [harray] at hstore
      refine ⟨0, rfl, keeps ?_⟩
      cases hfound : h.object? object with
      | some found =>
        obtain ⟨a, entries⟩ := found
        obtain ⟨rfl, hcell⟩ := object?_eq_some hfound
        obtain ⟨ha, -⟩ := hobject a rfl
        rw [hfound] at hstore
        cases hstore
        obtain ⟨hcopied, hnew⟩ := hh.copy hv
        refine hcopied.trans (hcopied.short.set ha (c := .object _) fun u hu => ?_)
        rcases OrderedMap.mem_values_put hu with rfl | hu
        · exact hnew
        · exact (hh.cell a _ ha hcell).apart u hu
      | none =>
        rw [hfound] at hstore
        cases hstore
        exact hh.kept

end Stores

end Stepwise
