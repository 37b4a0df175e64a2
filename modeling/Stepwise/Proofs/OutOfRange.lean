import Stepwise.Proofs.Copies
import Stepwise.Proofs.Mishaps
import Stepwise.Proofs.Rounding

/-!
# Data that cannot be written

An integer from the safe limit on is written as the nearest double, so one beyond the range of doubles has no text. A
datum has no text when it is such an integer, or an array that leads to one through arrays; it has no form in JSON when
it leads to one through arrays and objects. Nothing else keeps a datum from being written.
-/

namespace Stepwise

/-- The computation breaks down exactly under the given condition, and then on an integer that is too large. -/
def BreaksIff {α : Type} (P : Prop) (e : Except Breakdown α) : Prop :=
  ∀ why, e = .error why ↔ why = .integerTooLarge ∧ P

namespace BreaksIff

variable {α β : Type} {P Q : Prop} {e : Except Breakdown α} {f : α → Except Breakdown β}

theorem congr (h : BreaksIff P e) (hPQ : P ↔ Q) : BreaksIff Q e := propext hPQ ▸ h

theorem ok (a : α) : BreaksIff False (.ok a : Except Breakdown α) := fun why => by simp

theorem error (h : P) : BreaksIff P (.error .integerTooLarge : Except Breakdown α) := fun why => by simp [h, eq_comm]

theorem exists_ok (h : BreaksIff P e) (hP : ¬ P) : ∃ a, e = .ok a := by
  cases e with
  | ok a => exact ⟨a, rfl⟩
  | error why => exact absurd ((h why).1 rfl).2 hP

theorem not_of_ok (h : BreaksIff P e) {a : α} (ha : e = .ok a) : ¬ P := by
  intro hP
  cases ha.symm.trans ((h .integerTooLarge).2 ⟨rfl, hP⟩)

theorem bind (he : BreaksIff P e) (hf : ∀ a, e = .ok a → BreaksIff Q (f a)) : BreaksIff (P ∨ Q) (e >>= f) := by
  intro why
  cases e with
  | ok a =>
    refine (hf a rfl why).trans ?_
    rw [or_iff_right (he.not_of_ok rfl)]
  | error why' =>
    obtain ⟨rfl, hP⟩ := (he why').1 rfl
    rw [and_iff_left (.inl hP)]
    exact ⟨fun h => by cases h; rfl, fun h => h ▸ rfl⟩

theorem map (he : BreaksIff P e) (f : α → β) : BreaksIff P (do return f (← e)) :=
  (he.bind fun _ _ => ok _).congr (or_iff_left id)

theorem ite {c : Prop} [Decidable c] {e' : Except Breakdown α} (hP : c → BreaksIff P e) (hQ : ¬ c → BreaksIff P e') :
    BreaksIff P (if c then e else e') := by
  split
  case isTrue h => exact hP h
  case isFalse h => exact hQ h

theorem mapM {P : α → Prop} {l : List α} (h : ∀ a ∈ l, BreaksIff (P a) (f a)) :
    BreaksIff (∃ a ∈ l, P a) (l.mapM f) := by
  induction l with
  | nil => exact (ok []).congr (by simp)
  | cons a l ih =>
    rw [List.forall_mem_cons] at h
    rw [List.mapM_cons, List.exists_mem_cons_iff]
    exact h.1.bind fun _ _ => (ih h.2).map _

end BreaksIff

namespace Num

/-- An integer that is rounded to no double. -/
def Overflows : Num → Prop
  | .int n => pow2 1024 - pow2 970 ≤ n.natAbs
  | .float _ => False

theorem breaksIff_toFloat (n : Num) : BreaksIff n.Overflows n.toFloat := by
  intro why
  cases n with
  | float x => simp [toFloat, Overflows]
  | int n =>
    rw [Overflows, ← Double.ofInt?_eq_none_iff, toFloat]
    cases Double.ofInt? n with
    | none => simp [eq_comm]
    | some x => simp

theorem breaksIff_format (n : Num) : BreaksIff n.Overflows n.format := by
  cases n with
  | float x => exact .ok _
  | int n =>
    refine .ite (fun hsmall => ?_) fun _ => (breaksIff_toFloat (.int n)).map _
    obtain ⟨x, hx, -⟩ := Double.exists_ofInt?_of_lt hsmall
    have hfloat : (Num.int n).toFloat = .ok x := by rw [toFloat, hx]
    exact (BreaksIff.ok _).congr (iff_of_false id ((breaksIff_toFloat (.int n)).not_of_ok hfloat))

end Num

namespace Datum

/-- The datum is an integer out of range, or leads to one through arrays and, where `inObjects` is set, objects. -/
inductive Overflows (inObjects : Bool) : Datum → Prop
  | num {n : Num} (h : n.Overflows) : Overflows inObjects (.num n)
  | item {items : List Datum} {d : Datum} (hd : d ∈ items) (h : Overflows inObjects d) :
      Overflows inObjects (.array items)
  | entry {entries : List (Text × Datum)} {e : Text × Datum} (hobjects : inObjects = true) (he : e ∈ entries)
      (h : Overflows inObjects e.2) : Overflows inObjects (.object entries)

section

variable {inObjects : Bool} {d : Datum} {n : Num} {items : List Datum} {entries : List (Text × Datum)}

theorem overflows_num : (num n).Overflows inObjects ↔ n.Overflows :=
  ⟨fun h => by cases h; assumption, .num⟩

theorem overflows_array : (array items).Overflows inObjects ↔ ∃ d ∈ items, d.Overflows inObjects :=
  ⟨fun h => by cases h with | item hd h => exact ⟨_, hd, h⟩, by rintro ⟨d, hd, h⟩; exact .item hd h⟩

theorem overflows_object :
    (object entries).Overflows inObjects ↔ inObjects = true ∧ ∃ e ∈ entries, e.2.Overflows inObjects :=
  ⟨fun h => by cases h with | entry ho he h => exact ⟨ho, _, he, h⟩, by rintro ⟨ho, e, he, h⟩; exact .entry ho he h⟩

theorem not_overflows_of_isNullish (h : d.isNullish = true) : ¬ d.Overflows inObjects := by
  rintro (_ | _ | _) <;> cases h

end

mutual

/-- Only an integer out of range, by itself or inside arrays, keeps a datum from having a text. -/
theorem breaksIff_toText : (d : Datum) → BreaksIff (d.Overflows false) d.toText
  | .undefined | .null | .bool _ | .text _ | .function _ => (BreaksIff.ok _).congr ⟨False.elim, fun h => by cases h⟩
  | .object _ => (BreaksIff.ok _).congr (by simp [overflows_object])
  | .num n => n.breaksIff_format.congr overflows_num.symm
  | .array items => ((breaksIff_itemTexts items).map _).congr overflows_array.symm

theorem breaksIff_itemTexts :
    (items : List Datum) → BreaksIff (∃ d ∈ items, d.Overflows false) (itemTexts items)
  | [] => (BreaksIff.ok _).congr (by simp)
  | d :: rest => by
    have next (s : Text) : BreaksIff (∃ d ∈ rest, d.Overflows false) (do return s :: (← itemTexts rest)) :=
      (breaksIff_itemTexts rest).map _
    rw [List.exists_mem_cons_iff]
    refine .ite (fun hn => ?_) fun _ => (breaksIff_toText d).bind fun s _ => next s
    exact ((BreaksIff.ok _).bind fun s _ => next s).congr (or_congr_left (iff_of_false id (not_overflows_of_isNullish hn)))

end

mutual

/-- Only an integer out of range, by itself or inside arrays and objects, keeps a datum from being written in JSON. -/
theorem breaksIff_stringify : (d : Datum) → BreaksIff (d.Overflows true) d.stringify
  | .undefined | .null | .bool _ | .text _ | .function _ => (BreaksIff.ok _).congr ⟨False.elim, fun h => by cases h⟩
  | .num (.int n) => ((Num.int n).breaksIff_format.map _).congr overflows_num.symm
  | .num (.float x) => (BreaksIff.ok _).congr (overflows_num (n := .float x)).symm
  | .array items => ((breaksIff_stringifyItems items).map _).congr overflows_array.symm
  | .object entries => ((breaksIff_stringifyEntries entries).map _).congr (by simp [overflows_object])

theorem breaksIff_stringifyItems :
    (items : List Datum) → BreaksIff (∃ d ∈ items, d.Overflows true) (stringifyItems items)
  | [] => (BreaksIff.ok _).congr (by simp)
  | d :: rest => ((breaksIff_stringify d).bind fun _ _ => (breaksIff_stringifyItems rest).map _).congr (by simp)

theorem breaksIff_stringifyEntries :
    (entries : List (Text × Datum)) → BreaksIff (∃ e ∈ entries, e.2.Overflows true) (stringifyEntries entries)
  | [] => (BreaksIff.ok _).congr (by simp)
  | (_, d) :: rest => ((breaksIff_stringify d).bind fun _ _ => (breaksIff_stringifyEntries rest).map _).congr (by simp)

end

theorem breaksIff_displayText (d : Datum) : BreaksIff (d.Overflows true) d.displayText := by
  cases d with
  | array items => exact (breaksIff_stringify _).map _
  | object entries => exact (breaksIff_stringify _).map _
  | num n => exact (breaksIff_toText (.num n)).congr (overflows_num.trans overflows_num.symm)
  | undefined | null | bool | text | function => exact (BreaksIff.ok _).congr ⟨False.elim, fun h => by cases h⟩

end Datum

theorem Value.eq_ref_of_isRef {v : Value} (hv : v.isRef) : ∃ a, v = .ref a := by
  cases v with
  | ref a => exact ⟨a, rfl⟩
  | _ => cases hv

namespace Heap

variable {h : Heap} {v : Value}

theorem not_overflows_of_object? {a : Addr} {entries : OrderedMap Value} (hv : h.object? v = some (a, entries))
    (depth : Nat) : ¬ (h.readTo depth v).Overflows false := by
  obtain ⟨rfl, hcell⟩ := object?_eq_some hv
  cases depth with
  | zero => exact Datum.not_overflows_of_isNullish rfl
  | succ depth => simp [readTo, hcell, Datum.overflows_object]

theorem breaksIff_toChars (h : Heap) (v : Value) : BreaksIff ((h.read v).Overflows false) (h.toChars v) := by
  rw [toChars.eq_def]
  split
  case h_1 =>
    refine (BreaksIff.ok _).congr (iff_of_false id ?_)
    rw [read, readTo]
    rintro ⟨⟩
  case h_2 hv => exact (BreaksIff.ok _).congr (iff_of_false id (not_overflows_of_object? hv _))
  case h_3 => exact (Datum.breaksIff_toText _).map _

end Heap

end Stepwise
