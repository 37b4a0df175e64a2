import Stepwise.Proofs.OutOfRange

/-!
# Equality with conversion

Loose equality converts one operand at a time until the two can be compared as they are. `Heap.Loosely` gives the rules
of this cascade; `loosely_iff` says that following them is what `Heap.looseEqual` does. The main result
`looseEqual_symmetric_unless_out_of_range` says that the order of the operands does not matter, and exactly when there
is no answer: when an array that leads to an integer beyond the range of doubles has to become a text.
-/

namespace Stepwise

/-! ### Symmetry of the comparisons that the cascade ends in -/

theorem compareScaled_swap (m p n q : Int) : (compareScaled m p n q).swap = compareScaled n q m p := by
  simp only [compareScaled, min_comm q p]
  exact Std.OrientedCmp.eq_swap.symm

theorem Quantity.compare?_swap (a b : Quantity) : (a.compare? b).map Ordering.swap = b.compare? a := by
  cases a with
  | nan => cases b <;> rfl
  | infinite s =>
    cases b with
    | nan => rfl
    | infinite t => cases s <;> cases t <;> rfl
    | finite n q => cases s <;> rfl
  | finite m p =>
    cases b with
    | nan => rfl
    | infinite t => cases t <;> rfl
    | finite n q => exact congrArg some (compareScaled_swap m p n q)

theorem Num.eq_symm (a b : Num) : a.eq b = b.eq a := by
  rw [Bool.eq_iff_iff, Num.eq, Num.eq, beq_iff_eq, beq_iff_eq, Num.compare?, Num.compare?, ← Quantity.compare?_swap]
  cases b.quantity.compare? a.quantity with
  | none => rfl
  | some o => cases o <;> decide

theorem Sequence.same_symm {α : Type} [BEq α] [LawfulBEq α] (s t : Sequence α) : s.same t = t.same s := by
  rw [Bool.eq_iff_iff, same_iff, same_iff, eq_comm]

namespace Value

variable {v : Value}

theorem strictEqual_symm (a b : Value) : a.strictEqual b = b.strictEqual a := by
  cases a with
  | num m => cases b with
    | num n => exact m.eq_symm n
    | _ => rfl
  | text s => cases b with
    | text t => exact Sequence.same_symm s t
    | _ => rfl
  | bool p => cases b with
    | bool q => exact Bool.beq_comm
    | _ => rfl
  | function f => cases b with
    | function g => exact BEq.comm
    | _ => rfl
  | ref i => cases b with
    | ref j => exact BEq.comm
    | _ => rfl
  | _ => cases b <;> rfl

/-- A number, a text or a function: what is left when truth values, arrays and objects have been converted. -/
def isBasic : Value → Bool
  | .num _ | .text _ | .function _ => true
  | _ => false

/-- A value that an array or object is compared with by way of its text. -/
def isScalar : Value → Bool
  | .bool _ | .num _ | .text _ | .function _ => true
  | _ => false

theorem isScalar_of_isBasic (hv : v.isBasic) : v.isScalar := by
  cases v with
  | num | text | function => rfl
  | _ => cases hv

theorem typeName_ne_of_isScalar (hv : v.isScalar) : v.typeName ≠ "object".codes := by
  cases v with
  | bool | num | text | function => rw [typeName]; decide
  | _ => cases hv

theorem not_isScalar_of_isNullish (hv : v.isNullish) : ¬ v.isScalar ∧ ¬ v.isRef := by
  cases v with
  | undefined | null => exact ⟨Bool.false_ne_true, Bool.false_ne_true⟩
  | _ => cases hv

theorem kinds (v : Value) : v.isNullish ∨ (∃ p, v = .bool p) ∨ v.isBasic ∨ v.isRef := by
  cases v with
  | undefined | null => exact .inl rfl
  | bool p => exact .inr (.inl ⟨p, rfl⟩)
  | num | text | function => exact .inr (.inr (.inl rfl))
  | ref => exact .inr (.inr (.inr rfl))

end Value

/-! ### The cascade -/

namespace Heap

/-- The rules of equality with conversion, with the breakdown for an answer where a conversion breaks down. -/
inductive Loosely (h : Heap) : Value → Value → Except Breakdown Bool → Prop
  | alike {a b : Value} (ht : a.typeName = b.typeName) : Loosely h a b (.ok (a.strictEqual b))
  | nullish {a b : Value} (ht : a.typeName ≠ b.typeName) (hn : a.isNullish ∨ b.isNullish) :
      Loosely h a b (.ok (a.isNullish && b.isNullish))
  | boolLeft {p : Bool} {b : Value} {r : Except Breakdown Bool} (hb : b.isBasic ∨ b.isRef)
      (hr : Loosely h (.int (if p then 1 else 0)) b r) : Loosely h (.bool p) b r
  | boolRight {a : Value} {q : Bool} {r : Except Breakdown Bool} (ha : a.isBasic ∨ a.isRef)
      (hr : Loosely h a (.int (if q then 1 else 0)) r) : Loosely h a (.bool q) r
  | numText (m : Num) (s : Chars) : Loosely h (.num m) (.text s) (.ok (m.eq (Num.ofText s.toText)))
  | textNum (s : Chars) (m : Num) : Loosely h (.text s) (.num m) (.ok ((Num.ofText s.toText).eq m))
  | refLeft {i : Addr} {b : Value} {s : Chars} {r : Except Breakdown Bool} (hb : b.isBasic)
      (hs : h.toChars (.ref i) = .ok s) (hr : Loosely h (.text s) b r) : Loosely h (.ref i) b r
  | refRight {a : Value} {j : Addr} {s : Chars} {r : Except Breakdown Bool} (ha : a.isBasic)
      (hs : h.toChars (.ref j) = .ok s) (hr : Loosely h a (.text s) r) : Loosely h a (.ref j) r
  | refLeftBreaks {i : Addr} {b : Value} {why : Breakdown} (hb : b.isBasic)
      (hs : h.toChars (.ref i) = .error why) : Loosely h (.ref i) b (.error why)
  | refRightBreaks {a : Value} {j : Addr} {why : Breakdown} (ha : a.isBasic)
      (hs : h.toChars (.ref j) = .error why) : Loosely h a (.ref j) (.error why)
  /-- a function is equal to nothing of another type -/
  | functionLeft {name : Text} {b : Value} (ht : "function".codes ≠ b.typeName) (hb : b.isBasic) :
      Loosely h (.function name) b (.ok false)
  | functionRight {a : Value} {name : Text} (ht : a.typeName ≠ "function".codes) (ha : a.isBasic) :
      Loosely h a (.function name) (.ok false)

variable {h : Heap} {a b : Value} {r : Except Breakdown Bool} {name : Text}

theorem looseEqual_alike (ht : a.typeName = b.typeName) : h.looseEqual a b = .ok (a.strictEqual b) := if_pos ht

theorem looseEqual_nullish (ht : a.typeName ≠ b.typeName) (hn : a.isNullish ∨ b.isNullish) :
    h.looseEqual a b = .ok (a.isNullish && b.isNullish) := by
  rw [looseEqual, if_neg ht, if_pos (by simpa using hn)]

theorem looseEqual_bool_left (p : Bool) (hb : b.isBasic ∨ b.isRef) :
    h.looseEqual (.bool p) b = h.looseEqual (.int (if p then 1 else 0)) b := by
  cases b with
  | num | text | function | ref => rfl
  | _ => simp [Value.isBasic, Value.isRef] at hb

theorem looseEqual_bool_right (q : Bool) (ha : a.isBasic ∨ a.isRef) :
    h.looseEqual a (.bool q) = h.looseEqual a (.int (if q then 1 else 0)) := by
  cases a with
  | num | text | function | ref => rfl
  | _ => simp [Value.isBasic, Value.isRef] at ha

theorem looseEqual_ref_left (i : Addr) (hb : b.isBasic) :
    h.looseEqual (.ref i) b = h.toChars (.ref i) >>= fun s => h.looseEqual (.text s) b := by
  cases b with
  | num | text | function => exact bind_assoc ..
  | _ => cases hb

theorem looseEqual_ref_right (j : Addr) (ha : a.isBasic) :
    h.looseEqual a (.ref j) = h.toChars (.ref j) >>= fun s => h.looseEqual a (.text s) := by
  cases a with
  | num | text | function => exact bind_assoc (m := Except Breakdown) (h.toChars (.ref j)) _ _
  | _ => cases ha

theorem looseEqual_function_left (ht : "function".codes ≠ b.typeName) (hb : b.isBasic) :
    h.looseEqual (.function name) b = .ok false := by
  cases b with
  | num | text => rfl
  | function => exact absurd rfl ht
  | _ => cases hb

theorem looseEqual_function_right (ht : a.typeName ≠ "function".codes) (ha : a.isBasic) :
    h.looseEqual a (.function name) = .ok false := by
  cases a with
  | num | text => rfl
  | function => exact absurd rfl ht
  | _ => cases ha

theorem Loosely.eq (hr : h.Loosely a b r) : h.looseEqual a b = r := by
  induction hr with
  | alike ht => exact looseEqual_alike ht
  | nullish ht hn => exact looseEqual_nullish ht hn
  | boolLeft hb _ ih => rw [looseEqual_bool_left _ hb, ih]
  | boolRight ha _ ih => rw [looseEqual_bool_right _ ha, ih]
  | numText m s => rfl
  | textNum s m => rfl
  | refLeft hb hs _ ih => rw [looseEqual_ref_left _ hb, hs, ← ih]; rfl
  | refRight ha hs _ ih => rw [looseEqual_ref_right _ ha, hs, ← ih]; rfl
  | refLeftBreaks hb hs => rw [looseEqual_ref_left _ hb, hs]; rfl
  | refRightBreaks ha hs => rw [looseEqual_ref_right _ ha, hs]; rfl
  | functionLeft ht hb => exact looseEqual_function_left ht hb
  | functionRight ht ha => exact looseEqual_function_right ht ha

/-- The rules give an answer to numbers, texts and functions without converting anything but texts to numbers. -/
theorem exists_loosely_basic (ha : a.isBasic) (hb : b.isBasic) : ∃ r, h.Loosely a b r := by
  by_cases ht : a.typeName = b.typeName
  · exact ⟨_, .alike ht⟩
  cases a with
  | function name => exact ⟨_, .functionLeft ht hb⟩
  | num m =>
    cases b with
    | num n => exact absurd rfl ht
    | text s => exact ⟨_, .numText m s⟩
    | function name => exact ⟨_, .functionRight ht ha⟩
    | _ => cases hb
  | text s =>
    cases b with
    | num m => exact ⟨_, .textNum s m⟩
    | text t => exact absurd rfl ht
    | function name => exact ⟨_, .functionRight ht ha⟩
    | _ => cases hb
  | _ => cases ha

theorem exists_loosely_ref (j : Addr) (ha : a.isBasic) : ∃ r, h.Loosely a (.ref j) r := by
  cases hs : h.toChars (.ref j) with
  | error why => exact ⟨_, .refRightBreaks ha hs⟩
  | ok s =>
    obtain ⟨r, hr⟩ := exists_loosely_basic (h := h) (b := .text s) ha rfl
    exact ⟨r, .refRight ha hs hr⟩

theorem Loosely.symm (hr : h.Loosely a b r) : h.Loosely b a r := by
  induction hr with
  | @alike a b ht => rw [a.strictEqual_symm b]; exact .alike ht.symm
  | @nullish a b ht hn => rw [Bool.and_comm]; exact .nullish ht.symm hn.symm
  | boolLeft hb _ ih => exact .boolRight hb ih
  | boolRight ha _ ih => exact .boolLeft ha ih
  | numText m s => rw [m.eq_symm]; exact .textNum s m
  | textNum s m => rw [Num.eq_symm]; exact .numText m s
  | refLeft hb hs _ ih => exact .refRight hb hs ih
  | refRight ha hs _ ih => exact .refLeft ha hs ih
  | refLeftBreaks hb hs => exact .refRightBreaks hb hs
  | refRightBreaks ha hs => exact .refLeftBreaks ha hs
  | functionLeft ht hb => exact .functionRight ht.symm hb
  | functionRight ht ha => exact .functionLeft ht.symm ha

theorem exists_loosely_converted (ha : a.isBasic ∨ a.isRef) (hb : b.isBasic ∨ b.isRef) : ∃ r, h.Loosely a b r := by
  rcases ha with ha | ha
  · rcases hb with hb | hb
    · exact exists_loosely_basic ha hb
    · obtain ⟨j, rfl⟩ := Value.eq_ref_of_isRef hb
      exact exists_loosely_ref j ha
  · obtain ⟨i, rfl⟩ := Value.eq_ref_of_isRef ha
    rcases hb with hb | hb
    · obtain ⟨r, hr⟩ := exists_loosely_ref (h := h) i hb
      exact ⟨r, hr.symm⟩
    · obtain ⟨j, rfl⟩ := Value.eq_ref_of_isRef hb
      exact ⟨_, .alike rfl⟩

theorem exists_loosely (h : Heap) (a b : Value) : ∃ r, h.Loosely a b r := by
  by_cases ht : a.typeName = b.typeName
  · exact ⟨_, .alike ht⟩
  rcases a.kinds with ha | ⟨p, rfl⟩ | ha
  · exact ⟨_, .nullish ht (.inl ha)⟩
  all_goals rcases b.kinds with hb | ⟨q, rfl⟩ | hb
  · exact ⟨_, .nullish ht (.inr hb)⟩
  · exact absurd rfl ht
  · obtain ⟨r, hr⟩ := exists_loosely_converted (h := h) (a := .int (if p then 1 else 0)) (.inl rfl) hb
    exact ⟨r, .boolLeft hb hr⟩
  · exact ⟨_, .nullish ht (.inr hb)⟩
  · obtain ⟨r, hr⟩ := exists_loosely_converted (h := h) (b := .int (if q then 1 else 0)) ha (.inl rfl)
    exact ⟨r, .boolRight ha hr⟩
  · exact exists_loosely_converted ha hb

/-- The rules leave no pair of values open, and never allow two answers. -/
theorem loosely_iff : h.Loosely a b r ↔ h.looseEqual a b = r := by
  refine ⟨Loosely.eq, ?_⟩
  rintro rfl
  obtain ⟨r, hr⟩ := exists_loosely h a b
  rwa [hr.eq]

/-! ### Pairs without an answer -/

/-- An array that leads, through arrays, to an integer beyond the range of doubles. -/
def Unwritable (h : Heap) (v : Value) : Prop := v.isRef ∧ (h.read v).Overflows false

/-- One operand has no text, and the other one is to be compared with that text. -/
def Unanswerable (h : Heap) (a b : Value) : Prop := h.Unwritable a ∧ b.isScalar ∨ a.isScalar ∧ h.Unwritable b

theorem not_unwritable_of_isScalar (ha : a.isScalar) : ¬ h.Unwritable a := by
  rintro ⟨href, -⟩
  obtain ⟨i, rfl⟩ := Value.eq_ref_of_isRef href
  cases ha

theorem unanswerable_of_isScalar_left (ha : a.isScalar) : h.Unanswerable a b ↔ h.Unwritable b := by
  rw [Unanswerable, and_iff_right ha, or_iff_right]
  exact fun hab => not_unwritable_of_isScalar ha hab.1

theorem unanswerable_symm : h.Unanswerable a b ↔ h.Unanswerable b a := by
  rw [Unanswerable, Unanswerable, or_comm, and_comm, and_comm (a := h.Unwritable a)]

theorem unanswerable_of_isScalar_right (hb : b.isScalar) : h.Unanswerable a b ↔ h.Unwritable a :=
  unanswerable_symm.trans (unanswerable_of_isScalar_left hb)

theorem unwritable_ref_iff {i : Addr} : h.Unwritable (.ref i) ↔ (h.read (.ref i)).Overflows false := and_iff_right rfl

theorem Unwritable.typeName_eq (ha : h.Unwritable a) : a.typeName = "object".codes := by
  obtain ⟨i, rfl⟩ := Value.eq_ref_of_isRef ha.1
  rfl

theorem Unanswerable.typeName_ne (hab : h.Unanswerable a b) : a.typeName ≠ b.typeName := by
  rcases hab with ⟨ha, hb⟩ | ⟨ha, hb⟩
  · rw [ha.typeName_eq]
    exact (Value.typeName_ne_of_isScalar hb).symm
  · rw [hb.typeName_eq]
    exact Value.typeName_ne_of_isScalar ha

theorem Unanswerable.not_isNullish (hab : h.Unanswerable a b) : ¬ (a.isNullish ∨ b.isNullish) := by
  rintro (hn | hn)
  all_goals obtain ⟨hscalar, href⟩ := Value.not_isScalar_of_isNullish hn
  · exact hab.elim (fun hab => href hab.1.1) fun hab => hscalar hab.1
  · exact hab.elim (fun hab => hscalar hab.2) fun hab => href hab.2.1

theorem Loosely.breaksIff (hr : h.Loosely a b r) : BreaksIff (h.Unanswerable a b) r := by
  have unbroken {a b : Value} {answer : Bool} (hnot : ¬ h.Unanswerable a b) :
      BreaksIff (h.Unanswerable a b) (.ok answer) := (BreaksIff.ok answer).congr (iff_of_false id hnot)
  have basic {a b : Value} (ha : a.isBasic) (hb : b.isBasic) : ¬ h.Unanswerable a b := by
    rw [unanswerable_of_isScalar_left (Value.isScalar_of_isBasic ha)]
    exact not_unwritable_of_isScalar (Value.isScalar_of_isBasic hb)
  induction hr with
  | alike ht => exact unbroken fun hab => hab.typeName_ne ht
  | nullish ht hn => exact unbroken fun hab => hab.not_isNullish hn
  | boolLeft hb _ ih =>
    exact ih.congr ((unanswerable_of_isScalar_left rfl).trans (unanswerable_of_isScalar_left rfl).symm)
  | boolRight ha _ ih =>
    exact ih.congr ((unanswerable_of_isScalar_right rfl).trans (unanswerable_of_isScalar_right rfl).symm)
  | numText m s => exact unbroken (basic rfl rfl)
  | textNum s m => exact unbroken (basic rfl rfl)
  | refLeft hb hs _ ih =>
    refine ih.congr (iff_of_false (basic rfl hb) ?_)
    rw [unanswerable_of_isScalar_right (Value.isScalar_of_isBasic hb), unwritable_ref_iff]
    exact (h.breaksIff_toChars _).not_of_ok hs
  | refRight ha hs _ ih =>
    refine ih.congr (iff_of_false (basic ha rfl) ?_)
    rw [unanswerable_of_isScalar_left (Value.isScalar_of_isBasic ha), unwritable_ref_iff]
    exact (h.breaksIff_toChars _).not_of_ok hs
  | refLeftBreaks hb hs =>
    obtain ⟨rfl, hover⟩ := (h.breaksIff_toChars _ _).1 hs
    exact .error ((unanswerable_of_isScalar_right (Value.isScalar_of_isBasic hb)).2 (unwritable_ref_iff.2 hover))
  | refRightBreaks ha hs =>
    obtain ⟨rfl, hover⟩ := (h.breaksIff_toChars _ _).1 hs
    exact .error ((unanswerable_of_isScalar_left (Value.isScalar_of_isBasic ha)).2 (unwritable_ref_iff.2 hover))
  | functionLeft ht hb => exact unbroken (basic rfl hb)
  | functionRight ht ha => exact unbroken (basic ha rfl)

/-- The order of the operands of loose equality does not matter. The answer is the one that the rules give, and for two
arrays or objects it tells whether they are the same one; there is none exactly when an array that leads to an integer
out of range is compared with a truth value, a number, a text or a function. -/
theorem looseEqual_symmetric_unless_out_of_range (h : Heap) (a b : Value) :
    h.looseEqual a b = h.looseEqual b a ∧ h.Loosely a b (h.looseEqual a b) ∧
      (∀ i j, a = .ref i → b = .ref j → h.looseEqual a b = .ok (decide (i = j))) ∧
      ∀ why, h.looseEqual a b = .error why ↔
        why = .integerTooLarge ∧ (h.Unwritable a ∧ b.isScalar ∨ a.isScalar ∧ h.Unwritable b) := by
  have hr : h.Loosely a b (h.looseEqual a b) := loosely_iff.2 rfl
  refine ⟨hr.symm.eq.symm, hr, ?_, hr.breaksIff⟩
  rintro i j rfl rfl
  exact looseEqual_alike rfl

/-- An array of one large integer cannot be compared with a text. -/
theorem looseEqual_breaks_down_on_large_integer :
    (Heap.empty.allocArray (.ofList [.num (.int (pow10 309))])).2.looseEqual (.ref 0) (.text "x".codes.packed) =
      .error .integerTooLarge := by
  have hover : (Num.int (pow10 309)).Overflows := by
    rw [Num.Overflows]
    decide +kernel
  refine (Loosely.breaksIff (loosely_iff.2 rfl) _).2 ⟨rfl, .inl ⟨⟨rfl, ?_⟩, rfl⟩⟩
  exact .item List.mem_cons_self (.num hover)

end Heap

end Stepwise
