import Stepwise.Proofs.Revision

/-!
# Short arrays

An array is short if it has fewer than `Heap.maxArrayLength` items. Operations see and change nothing but what their
operands lead to, so arrays elsewhere on the heap may have any length: they are the cells of a set `E` that the operands
do not reach. `Heap.Kept` says that an operation left the cells of `E` as they were and all other arrays short. Copies
keep arrays short (`Heap.Short.copy`), and so do the items that are gathered by running other code, if that code does
(`gather_eq_ok`). A new array is short exactly if it has few items (`kept_newArray_iff`).
-/

namespace Stepwise

open Exec List

variable {α β : Type} {E : Nat → Prop}

/-! ### Short arrays -/

/-- The value does not refer to a cell of the set. -/
def Value.Apart (E : Nat → Prop) (v : Value) : Prop := ∀ a, v = .ref a → ¬ E a

/-- The items can be those of an array: they do not refer to cells of the set, and they are not too many. -/
structure ShortItems (E : Nat → Prop) (items : List Value) : Prop where
  apart : ∀ v ∈ items, v.Apart E
  length : items.length < Heap.maxArrayLength

/-- The cell is no array that is too long, and it does not refer to cells of the set. -/
def Cell.Short (E : Nat → Prop) : Cell → Prop
  | .array items _ => ShortItems E items.toList
  | .object entries => ∀ v ∈ entries.values, v.Apart E

theorem Cell.Short.apart {c : Cell} (h : c.Short E) : ∀ v ∈ c.values, v.Apart E := by
  cases c with
  | array items n => exact ShortItems.apart h
  | object entries => exact h

namespace Heap

variable {h h' h'' : Heap} {a : Nat} {c : Cell} {v : Value}

/-- All cells but those of the set are short. -/
structure Short (E : Nat → Prop) (h : Heap) : Prop where
  old : ∀ a, E a → a < h.next
  cell : ∀ a c, ¬ E a → h.cell? a = some c → c.Short E

/-- The cells of the set are as they were, and all others are short. -/
structure Kept (E : Nat → Prop) (h h' : Heap) : Prop where
  short : h'.Short E
  same : ∀ a, E a → h'.cell? a = h.cell? a

theorem Short.kept (hh : h.Short E) : Kept E h h := ⟨hh, fun _ _ => rfl⟩

theorem Kept.trans (h₁ : Kept E h h') (h₂ : Kept E h' h'') : Kept E h h'' :=
  ⟨h₂.short, fun a ha => (h₂.same a ha).trans (h₁.same a ha)⟩

theorem Short.items (hh : h.Short E) (ha : ¬ E a) {xs : Sequence Value} {n : Nat} (hcell : h.cell? a = some (.array xs n)) :
    ShortItems E xs.toList := hh.cell a _ ha hcell

theorem Short.alloc (hh : h.Short E) (hc : c.Short E) : Kept E h (h.alloc c).2 ∧ (h.alloc c).1.Apart E := by
  have hnext : ¬ E h.next := fun hnext => Nat.lt_irrefl _ (hh.old _ hnext)
  refine ⟨⟨⟨fun a ha => Nat.lt_succ_of_lt (hh.old a ha), fun a c' ha hcell => ?_⟩, fun a ha => ?_⟩, ?_⟩
  · rw [cell?_alloc] at hcell
    split at hcell
    · cases hcell
      exact hc
    · exact hh.cell a c' ha hcell
  · rw [cell?_alloc, if_neg]
    rintro rfl
    exact hnext ha
  · rintro _ ⟨⟩
    exact hnext

theorem Short.modifyItems (hh : h.Short E) (ha : ¬ E a) {f : Sequence Value → Sequence Value} (grown : Bool)
    (hf : ∀ xs n, h.cell? a = some (.array xs n) → ShortItems E (f xs).toList) : Kept E h (h.modifyItems a f grown) := by
  refine ⟨⟨hh.old, fun b c hb hcell => ?_⟩, fun b hb => ?_⟩
  · rw [cell?_modifyItems] at hcell
    split at hcell
    · obtain ⟨c', hc', rfl⟩ := Option.map_eq_some_iff.mp hcell
      cases c' with
      | array xs n => exact hf xs n hc'
      | object entries => exact hh.cell a _ ha hc'
    · exact hh.cell b c hb hcell
  · rw [cell?_modifyItems, if_neg]
    rintro rfl
    exact ha hb

theorem Short.set (hh : h.Short E) (ha : ¬ E a) (hc : c.Short E) : Kept E h (h.set a c) := by
  refine ⟨⟨hh.old, fun b c' hb hcell => ?_⟩, fun b hb => ?_⟩
  · rw [cell?_set] at hcell
    split at hcell
    · cases hcell
      exact hc
    · exact hh.cell b c' hb hcell
  · rw [cell?_set, if_neg]
    rintro rfl
    exact ha hb

end Heap

/-! ### Copies -/

namespace Copying

variable {c : Option Cell} {c' : Cell} {vs vs' : List Value}

/-- A copy under way that has met and made short cells only. -/
structure Short (E : Nat → Prop) (s : Copying) : Prop where
  heap : s.heap.Short E
  copied : ∀ a b : Nat, s.copied[a]? = some b → ¬ E b

theorem Refills.apart (hc : Refills c vs vs' c') (hshort : ∀ x ∈ c, x.Short E) : ∀ v ∈ vs, v.Apart E := by
  cases hc with
  | array => exact (hshort _ rfl).apart
  | object => exact (hshort _ rfl).apart
  | none => exact forall_mem_nil _

theorem Refills.short (hc : Refills c vs vs' c')
    (hshort : ∀ x ∈ c, x.Short E) (hvs : ∀ v ∈ vs', v.Apart E) (hlength : vs'.length = vs.length) : c'.Short E := by
  cases hc with
  | array => exact ⟨hvs, hlength ▸ (hshort _ rfl : ShortItems E _).length⟩
  | object => exact hvs
  | none => exact forall_mem_nil _

theorem Run.short {depth : Nat} {s s' : Copying} (hrun : Run depth s vs vs' s') (hs : s.Short E)
    (hvs : ∀ v ∈ vs, v.Apart E) : s'.Short E ∧ ∀ v ∈ vs', v.Apart E := by
  induction hrun with
  | nil => exact ⟨hs, hvs⟩
  | plain _ _ ih =>
    obtain ⟨hv, hrest⟩ := forall_mem_cons.mp hvs
    exact (ih hs hrest).imp_right fun hnew => forall_mem_cons.mpr ⟨hv, hnew⟩
  | cut _ ih =>
    exact (ih hs (forall_mem_cons.mp hvs).2).imp_right fun hnew => forall_mem_cons.mpr ⟨nofun, hnew⟩
  | @known depth s s' a b vs vs' hb _ ih =>
    refine (ih hs (forall_mem_cons.mp hvs).2).imp_right fun hnew => forall_mem_cons.mpr ⟨?_, hnew⟩
    rintro _ ⟨⟩
    exact hs.copied a b hb
  | @new depth s s₁ s' a c vs vs' ws ws' parts hc _ ihparts ih =>
    obtain ⟨hv, hrest⟩ := forall_mem_cons.mp hvs
    have hcell : ∀ c ∈ s.heap.cell? a, c.Short E := fun c hc => hs.heap.cell a c (hv a rfl) hc
    obtain ⟨hs₁, hws'⟩ := ihparts hs (hc.apart hcell)
    obtain ⟨hkept, hnew⟩ := hs₁.heap.alloc (hc.short hcell hws' parts.length_eq)
    refine (ih ⟨hkept.short, ?_⟩ hrest).imp_right fun hrest' => forall_mem_cons.mpr ⟨hnew, hrest'⟩
    exact forall_copied_insert hs₁.copied (hnew _ rfl)

theorem short_start {h : Heap} (hh : h.Short E) : Short E ⟨h, {}⟩ := ⟨hh, fun a b hb => by simp at hb⟩

end Copying

namespace Heap

open Copying

variable {h : Heap} {v : Value}

theorem Extends.kept {h' : Heap} (hext : h.Extends h') (hh : h.Short E) (hh' : h'.Short E) : Kept E h h' :=
  ⟨hh', fun a ha => hext.same a (.inl (hh.old a ha))⟩

theorem Short.copy (hh : h.Short E) (hv : v.Apart E) : Kept E h (h.copy v).2 ∧ (h.copy v).1.Apart E := by
  obtain ⟨hs, hnew⟩ := (run_value h.next v _).short (short_start hh) (forall_mem_singleton.mpr hv)
  exact ⟨(h.extends_copy v).1.kept hh hs.heap, forall_mem_singleton.mp hnew⟩

theorem Short.copyTogether {vs : Sequence Value} (hh : h.Short E) (hvs : ∀ v ∈ vs.toList, v.Apart E) :
    Kept E h (h.copyTogether vs).2 ∧ (∀ v ∈ (h.copyTogether vs).1.toList, v.Apart E) ∧
      (h.copyTogether vs).1.toList.length = vs.toList.length := by
  have hrun := run_items (run_value h.next) vs ⟨h, {}⟩
  obtain ⟨hs, hnew⟩ := hrun.short (short_start hh) hvs
  exact ⟨(h.extends_copyTogether vs).1.kept hh hs.heap, hnew, hrun.length_eq⟩

theorem Short.copyEach {vs : List Value} (hh : h.Short E) (hvs : ∀ v ∈ vs, v.Apart E) :
    Kept E h (h.copyEach vs).2 ∧ ∀ v ∈ (h.copyEach vs).1, v.Apart E := by
  induction vs generalizing h with
  | nil => exact ⟨hh.kept, forall_mem_nil _⟩
  | cons v vs ih =>
    obtain ⟨hv, hrest⟩ := forall_mem_cons.mp hvs
    obtain ⟨hone, hnew⟩ := hh.copy hv
    obtain ⟨hmore, hnews⟩ := ih hone.short hrest
    exact ⟨hone.trans hmore, forall_mem_cons.mpr ⟨hnew, hnews⟩⟩

theorem length_copyEach (h : Heap) (vs : List Value) : (h.copyEach vs).1.length = vs.length := by
  induction vs generalizing h with
  | nil => rfl
  | cons v vs ih => exact congrArg Nat.succ (ih (h.copy v).2)

end Heap

/-! ### Computations -/

theorem Exec.outcome_heap (w : World) : Exec.heap.outcome w = (.ok w.store.heap, w) := rfl

theorem Exec.outcome_withHeap (f : Heap → α × Heap) (w : World) :
    (Exec.withHeap f).outcome w = (.ok (f w.store.heap).1, { w with store.heap := (f w.store.heap).2 }) := rfl

/-- When the computation ends well, it keeps the heap short, and its result is good. -/
def Exec.Yields (E : Nat → Prop) (x : Exec α) (good : α → Prop) : Prop :=
  ∀ w a w', w.store.heap.Short E → x.outcome w = (.ok a, w') → Heap.Kept E w.store.heap w'.store.heap ∧ good a

namespace Exec.Yields

variable {x : Exec α} {good : α → Prop} {good' : β → Prop}

theorem done {a : α} (h : good a) : Yields E (pure a : Exec α) good := by
  rintro w _ _ hw ⟨⟩
  exact ⟨hw.kept, h⟩

theorem fail (c : Cause) : Yields E (Exec.fail c : Exec α) good := by
  rintro w _ _ _ ⟨⟩

theorem reads (h : Reads x) : Yields E x fun _ => True := by
  intro w a w' hw hrun
  obtain rfl : w' = w := by rw [← h.still w, hrun]
  exact ⟨hw.kept, trivial⟩

theorem seq {f : α → Exec β} (hx : Yields E x good) (hf : ∀ a, good a → Yields E (f a) good') :
    Yields E (x >>= f) good' := by
  intro w b w'' hw hrun
  obtain ⟨a, w', hfirst, hrest⟩ := bind_eq_ok hrun
  obtain ⟨hkept, ha⟩ := hx w a w' hw hfirst
  obtain ⟨hkept', hb⟩ := hf a ha w' b w'' hkept.short hrest
  exact ⟨hkept.trans hkept', hb⟩

theorem ite (c : Prop) [Decidable c] {y : Exec α} (yes : Yields E x good) (no : Yields E y good) :
    Yields E (if c then x else y) good := by
  split
  · exact yes
  · exact no

theorem heap : Yields E Exec.heap (Heap.Short E) := by
  rintro w _ _ hw ⟨⟩
  exact ⟨hw.kept, hw⟩

theorem withHeap {f : Heap → α × Heap} (h : ∀ h, h.Short E → Heap.Kept E h (f h).2 ∧ good (f h).1) :
    Yields E (Exec.withHeap f) good := by
  rintro w _ _ hw ⟨⟩
  exact h _ hw

theorem copy {v : Value} (hv : v.Apart E) : Yields E (Exec.copy v) (Value.Apart E) := .withHeap fun _ hh => hh.copy hv

theorem copyTogether {vs : Sequence Value} (hvs : ∀ v ∈ vs.toList, v.Apart E) :
    Yields E (Exec.withHeap (·.copyTogether vs)) fun vs' =>
      (∀ v ∈ vs'.toList, v.Apart E) ∧ vs'.toList.length = vs.toList.length := .withHeap fun _ hh => hh.copyTogether hvs

theorem newArray {xs : Sequence Value} (hxs : ShortItems E xs.toList) : Yields E (Exec.newArray xs) (Value.Apart E) :=
  .withHeap fun _ hh => hh.alloc hxs

end Exec.Yields

namespace Exec.Reads

theorem toText (v : Value) : Reads (Exec.toText v) := .seq heap fun _ => .liftBreakdown _

theorem integer (args : List Value) (i : Nat) (absent : Int) : Reads (Argument.integer args i absent) := by
  unfold Argument.integer
  split
  · exact .done _
  · exact .seq (.toNumber _) fun n => .seq (.liftBreakdown _) fun _ => .ite _ (.done _) <|
      .seq (.liftBreakdown _) fun _ => .ite _ (.done _) (.liftBreakdown _)

theorem range (args : List Value) (first length : Nat) : Reads (ArrayMethod.range args first length) :=
  .seq (.integer _ _ _) fun _ => .seq (.integer _ _ _) fun _ => .done _

end Exec.Reads

theorem function_eq_ok {v : Value} {f : Text} {w w' : World} (hrun : (Argument.function v).outcome w = (.ok f, w')) :
    v = .function f ∧ w' = w := by
  cases v with
  | function g =>
    cases hrun
    exact ⟨rfl, rfl⟩
  | _ =>
    obtain ⟨s, w₁, -, hfail⟩ := bind_eq_ok hrun
    cases hfail

theorem maxArrayLength_pos : 0 < Heap.maxArrayLength := by decide

theorem shortItems_nil : ShortItems E [] := ⟨forall_mem_nil _, maxArrayLength_pos⟩

/-- Part of the items of an array, with its items replaced one by one or not. -/
theorem ShortItems.of_length_le {xs ys : List Value} (h : ShortItems E xs) (hys : ∀ v ∈ ys, v.Apart E)
    (hle : ys.length ≤ xs.length) : ShortItems E ys := ⟨hys, Nat.lt_of_le_of_lt hle h.length⟩

/-! ### Items that are gathered

Array literals, `map`, `filter` and `Array.from` run other code for each item. Arrays stay short if that code keeps them
short, in the worlds in which it is run.
-/

/-- Items gathered one after the other: those that are made of a value, which is found first. -/
def Exec.gather (find : α → Exec Value) (make : α → Value → Exec (List Value)) : List α → Exec (List Value)
  | [] => return []
  | a :: rest => do
    let v ← find a
    let vs ← make a v
    return vs ++ (← gather find make rest)

/-- Whenever a value is found while items are gathered, arrays stay short, and the value is apart from the set. -/
def Exec.Calm (E : Nat → Prop) (find : α → Exec Value) (make : α → Value → Exec (List Value)) : List α → World → Prop
  | [], _ => True
  | a :: rest, w => ∀ v w₁, (find a).outcome w = (.ok v, w₁) →
      (Heap.Kept E w.store.heap w₁.store.heap ∧ v.Apart E) ∧
        ∀ vs w₂, (make a v).outcome w₁ = (.ok vs, w₂) → Calm E find make rest w₂

section Gathering

variable {find : α → Exec Value} {make : α → Value → Exec (List Value)} {l : List α} {w w' : World} {vs : List Value}
  {v item answer : Value}

theorem gather_eq_ok (hmake : ∀ a ∈ l, ∀ v, v.Apart E → Exec.Yields E (make a v) fun vs => ∀ u ∈ vs, u.Apart E)
    (hw : w.store.heap.Short E) (hcalm : Exec.Calm E find make l w)
    (hrun : (Exec.gather find make l).outcome w = (.ok vs, w')) :
    Heap.Kept E w.store.heap w'.store.heap ∧ ∀ u ∈ vs, u.Apart E := by
  induction l generalizing w vs with
  | nil =>
    cases hrun
    exact ⟨hw.kept, forall_mem_nil _⟩
  | cons a l ih =>
    obtain ⟨hfirst, hrest⟩ := forall_mem_cons.mp hmake
    obtain ⟨v, w₁, hfind, hrun⟩ := bind_eq_ok hrun
    obtain ⟨us, w₂, hus, hrun⟩ := bind_eq_ok hrun
    obtain ⟨more, w₃, hmore, hrun⟩ := bind_eq_ok hrun
    cases hrun
    -- the condition moves along with the world: the code for the next item starts where this one has ended
    obtain ⟨⟨hkept, hv⟩, hcalm⟩ := hcalm v w₁ hfind
    obtain ⟨hkept₁, hapart⟩ := hfirst v hv w₁ us w₂ hkept.short hus
    obtain ⟨hkept₂, hapart'⟩ := ih hrest hkept₁.short (hcalm us w₂ hus) hmore
    exact ⟨hkept.trans (hkept₁.trans hkept₂), forall_mem_append.mpr ⟨hapart, hapart'⟩⟩

/-- When one item at most is made of each value, and at least `n`. -/
theorem length_gather {n : Nat}
    (hmake : ∀ a v w us w', (make a v).outcome w = (.ok us, w') → n ≤ us.length ∧ us.length ≤ 1)
    (hrun : (Exec.gather find make l).outcome w = (.ok vs, w')) : n * l.length ≤ vs.length ∧ vs.length ≤ l.length := by
  induction l generalizing w vs with
  | nil =>
    cases hrun
    exact ⟨Nat.le_refl _, Nat.le_refl _⟩
  | cons a l ih =>
    obtain ⟨v, w₁, -, hrun⟩ := bind_eq_ok hrun
    obtain ⟨us, w₂, hus, hrun⟩ := bind_eq_ok hrun
    obtain ⟨more, w₃, hmore, hrun⟩ := bind_eq_ok hrun
    cases hrun
    obtain ⟨hleast, hmost⟩ := hmake a v w₁ us w₂ hus
    obtain ⟨hleast', hmost'⟩ := ih hmore
    rw [length_append, length_cons, Nat.mul_succ]
    omega

/-- A value is an item as it is. -/
def Exec.single (v : Value) : Exec (List Value) := return [v]

theorem Exec.Yields.single (hv : v.Apart E) : Exec.Yields E (Exec.single v) fun vs => ∀ u ∈ vs, u.Apart E :=
  .done (forall_mem_singleton.mpr hv)

theorem length_of_single (hrun : (Exec.single v).outcome w = (.ok vs, w')) : 1 ≤ vs.length ∧ vs.length ≤ 1 := by
  cases hrun
  exact ⟨Nat.le_refl _, Nat.le_refl _⟩

theorem mapM_eq_gather (find : α → Exec Value) (l : List α) : l.mapM find = Exec.gather find (fun _ => Exec.single) l := by
  induction l with
  | nil => rfl
  | cons a l ih =>
    rw [mapM_cons, ih]
    rfl

/-- A copy of the item, if the answer counts as true. -/
def ArrayMethod.kept (item answer : Value) : Exec (List Value) := do
  if ← answer.truthy then return [← Exec.copy item] else return []

theorem filtered_eq_gather (visit : Value → Nat → Exec Value) (l : List (Value × Nat)) :
    ArrayMethod.filtered visit l = Exec.gather (fun p => visit p.1 p.2) (fun p => ArrayMethod.kept p.1) l := by
  induction l with
  | nil => rfl
  | cons p l ih =>
    rw [ArrayMethod.filtered, ih]
    refine bind_congr fun answer => ?_
    unfold ArrayMethod.kept
    rw [bind_assoc]
    refine bind_congr fun truthy => ?_
    split
    · rw [bind_assoc]
      rfl
    · rw [pure_bind]
      exact (bind_pure _).symm

theorem Exec.Yields.kept (hitem : item.Apart E) :
    Exec.Yields E (ArrayMethod.kept item answer) fun vs => ∀ u ∈ vs, u.Apart E :=
  .seq (.reads (.liftBreakdown _)) fun _ _ => .ite _
    (.seq (.copy hitem) fun _ hv => .done (forall_mem_singleton.mpr hv)) (.done (forall_mem_nil _))

theorem length_of_kept (hrun : (ArrayMethod.kept item answer).outcome w = (.ok vs, w')) :
    0 ≤ vs.length ∧ vs.length ≤ 1 := by
  obtain ⟨truthy, w₁, -, hrun⟩ := bind_eq_ok hrun
  refine ⟨Nat.zero_le _, ?_⟩
  split at hrun
  · obtain ⟨copied, w₂, -, hrun⟩ := bind_eq_ok hrun
    cases hrun
    exact Nat.le_refl _
  · cases hrun
    exact Nat.zero_le _

end Gathering

/-! ### New arrays -/

section NewArrays

variable {h : Heap} {w w' : World} {v : Value} {xs : Sequence Value} {a : Nat}

theorem kept_newArray_iff (hkept : Heap.Kept E h w.store.heap) (hxs : ∀ v ∈ xs.toList, v.Apart E)
    (hrun : (Exec.newArray xs).outcome w = (.ok v, w')) :
    Heap.Kept E h w'.store.heap ↔ xs.toList.length < Heap.maxArrayLength := by
  cases hrun
  constructor
  · intro hnew
    have hnext : ¬ E w.store.heap.next := fun hnext => Nat.lt_irrefl _ (hkept.short.old _ hnext)
    refine (hnew.short.items hnext (n := 0) ?_).length
    exact (Heap.cell?_alloc _ _ _).trans (if_pos rfl)
  · exact fun hlength => hkept.trans (hkept.short.alloc (c := .array xs 0) ⟨hxs, hlength⟩).1

theorem Exec.Yields.items (ha : ¬ E a) : Exec.Yields E (ArrayMethod.items a) fun xs => ShortItems E xs.toList := by
  refine .seq .heap fun h hh => .done ?_
  cases harray : h.array? (.ref a) with
  | none => exact shortItems_nil
  | some found =>
    obtain ⟨b, xs⟩ := found
    obtain ⟨hb, n, hcell⟩ := Heap.array?_eq_some harray
    cases hb
    exact hh.items ha hcell

theorem outcome_items {n : Nat} (hcell : w.store.heap.cell? a = some (.array xs n)) :
    (ArrayMethod.items a).outcome w = (.ok xs, w) := by
  have harray : w.store.heap.array? (.ref a) = some (a, xs) := by rw [Heap.array?, hcell]
  have hread : (ArrayMethod.items a).outcome w =
      (.ok (((w.store.heap.array? (.ref a)).map (·.2)).getD .empty), w) := rfl
  rw [hread, harray]
  rfl

theorem apart_characters (s : Chars) : ∀ v ∈ (Collection.characters s).toList, v.Apart E := by
  intro v hv
  rw [Collection.characters, Sequence.toList_map] at hv
  obtain ⟨c, -, rfl⟩ := mem_map.mp hv
  rintro _ ⟨⟩

theorem length_characters (s : Chars) : (Collection.characters s).toList.length = s.size := by
  rw [Collection.characters, Sequence.toList_map, length_map, Sequence.size_eq]

end NewArrays

end Stepwise
