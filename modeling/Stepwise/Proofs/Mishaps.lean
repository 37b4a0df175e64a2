import Stepwise.Proofs.Computation
import Stepwise.Proofs.Lexemes
import Stepwise.Session.Basic

/-!
# Breakdowns that a program can bring about

Underneath the language there are mishaps for which it has no error: `Breakdown.Mishap` lists those that a program can
bring about. Conversions, operators and comparisons meet with nothing but an integer beyond the range of doubles
(`Ranged`). Reading a position, a length or the digits of an integer can go wrong in a few other ways.
-/

namespace Stepwise

variable {why : Breakdown}

/-- The breakdowns that a program can bring about. -/
inductive Breakdown.Mishap : Breakdown → Prop
  | integerTooLarge : Mishap .integerTooLarge
  | infinityAsInteger : Mishap .infinityAsInteger
  /-- what looks like a position has digits that are not decimal -/
  | notInteger {key : Text} (hdigits : key.isDigits) (hother : key.all Text.isDecimal = false) : Mishap (.notInteger key)
  | tooManyDigits {count : Nat} (hcount : digitLimit < count) : Mishap (.tooManyDigits count)
  | unexplainedJson : Mishap .unexplainedJson
  | sortInterference : Mishap .sortInterference
  | repeatSize : Mishap .repeatSize

/-- An error of the language that points at no line and has crossed no instruction, or a mishap that a program can bring
about. -/
inductive Fault.Native : Fault → Prop
  | error {cause : Cause} (unplaced : cause.line = none) : Native (.of cause)
  | mishap {why : Breakdown} (h : why.Mishap) : Native (.breakdown why)

theorem Fault.native_of (c : Cause) (h : c.line = none) : (Fault.of c).Native := .error h

theorem Fault.native_breakdown (h : why.Mishap) : (Fault.breakdown why).Native := .mishap h

theorem Fault.Native.of_breakdown (h : (Fault.breakdown why).Native) : why.Mishap := by
  cases h with
  | mishap h => exact h

variable {ε α β : Type} {P Q : ε → Prop}

/-- All errors are of the given kind. -/
def Only (P : ε → Prop) (e : Except ε α) : Prop := ∀ why, e = .error why → P why

namespace Only

variable {why : ε} {x : Except ε α} {f : α → Except ε β}

theorem ok (a : α) : Only P (.ok a) := nofun

theorem pure (a : α) : Only P (pure a : Except ε α) := nofun

theorem error (h : P why) : Only P (.error why : Except ε α) := by
  rintro _ ⟨⟩
  exact h

theorem imp {e : Except ε α} (h : Only P e) (hPQ : ∀ why, P why → Q why) : Only Q e := fun why he => hPQ why (h why he)

theorem bindOk (hx : Only P x) (hf : ∀ a, x = .ok a → Only P (f a)) : Only P (x >>= f) := by
  cases x with
  | ok a => exact hf a rfl
  | error why => exact .error (hx why rfl)

theorem bind (hx : Only P x) (hf : ∀ a, Only P (f a)) : Only P (x >>= f) :=
  hx.bindOk fun a _ => hf a

theorem ite (c : Prop) [Decidable c] {y : Except ε α} (hx : Only P x) (hy : Only P y) :
    Only P (if c then x else y) := by
  split
  · exact hx
  · exact hy

theorem check (c : Prop) [Decidable c] {rest : PUnit → Except ε α} (bad : P why) (good : Only P (rest ⟨⟩)) :
    Only P (if c then (throw why : Except ε PUnit) >>= rest else rest ⟨⟩) :=
  .ite c (.error bad) good

theorem mapM (hf : ∀ a, Only P (f a)) (l : List α) : Only P (l.mapM f) := by
  induction l with
  | nil => exact .pure []
  | cons a l ih =>
    rw [List.mapM_cons]
    exact .bind (hf a) fun _ => .bind ih fun _ => .pure _

theorem lift {e : Except Breakdown α} (h : Only Breakdown.Mishap e) : Only Fault.Native (liftM e : Except Fault α) := by
  cases e with
  | ok a => exact .ok a
  | error why => exact .error (Fault.native_breakdown (h why rfl))

theorem bindLift {x : Except Breakdown α} {f : α → Except Fault β} (hx : Only Breakdown.Mishap x)
    (hf : ∀ a, x = .ok a → Only Fault.Native (f a)) : Only Fault.Native (liftM x >>= f) := by
  cases x with
  | ok a => exact hf a rfl
  | error why => exact .error (Fault.native_breakdown (hx why rfl))

end Only

/-- Breaks down only for an integer beyond the range of doubles. -/
def Ranged (e : Except Breakdown α) : Prop := Only (· = .integerTooLarge) e

theorem Ranged.mishap {e : Except Breakdown α} (h : Ranged e) : Only Breakdown.Mishap e :=
  h.imp fun _ hwhy => hwhy ▸ .integerTooLarge

/-! ### Numbers -/

namespace Num

variable {n : Num}

theorem ranged_toFloat (n : Num) : Ranged n.toFloat := by
  cases n with
  | int n =>
    simp only [toFloat]
    split
    · exact .ok _
    · exact .error rfl
  | float x => exact .ok x

theorem ranged_isNaN (n : Num) : Ranged n.isNaN := .bind n.ranged_toFloat fun _ => .pure _

theorem ranged_isInfinite (n : Num) : Ranged n.isInfinite := .bind n.ranged_toFloat fun _ => .pure _

theorem ranged_isIntegral (n : Num) : Ranged n.isIntegral := .bind n.ranged_toFloat fun _ => .pure _

theorem ranged_normalize (n : Num) : Ranged n.normalize := by
  unfold normalize
  split
  · exact .ok _
  · exact .ite _ (.ok _) (.bind (ranged_toFloat _) fun _ => .pure _)

theorem ranged_format (n : Num) : Ranged n.format := by
  unfold format
  split
  · exact .ite _ (.ok _) (.bind (ranged_toFloat _) fun _ => .pure _)
  · exact .ok _

theorem ranged_combine (exact : Int → Int → Int) (rounded : Float → Float → Float) (a b : Num) :
    Ranged (combine exact rounded a b) := by
  unfold combine
  split
  · exact ranged_normalize _
  · exact .bind (ranged_toFloat _) fun _ => .bind (ranged_toFloat _) fun _ => ranged_normalize _

theorem ranged_neg (n : Num) : Ranged n.neg := by
  unfold neg
  split <;> exact ranged_normalize _

theorem ranged_div (a b : Num) : Ranged (a.div b) := by
  refine .bind a.ranged_isNaN fun _ => .ite _ (.pure _) <| .bind b.ranged_isNaN fun _ => .ite _ (.pure _) <|
    .ite _ (.pure _) ?_
  split
  · split
    · exact ranged_normalize _
    · exact .error rfl
  · exact .bind (ranged_toFloat _) fun _ => .bind (ranged_toFloat _) fun _ => ranged_normalize _

theorem ranged_rem (a b : Num) : Ranged (a.rem b) := by
  refine .bind a.ranged_isNaN fun _ => .ite _ (.pure _) <| .bind b.ranged_isNaN fun _ => .ite _ (.pure _) <|
    .ite _ (.pure _) <| .bind a.ranged_isInfinite fun _ => .ite _ (.pure _) <|
    .bind b.ranged_isInfinite fun _ => .ite _ (.pure _) ?_
  split
  · exact .pure _
  · refine .bind (ranged_toFloat _) fun _ => .bind (ranged_toFloat _) fun _ => ?_
    split
    · exact ranged_normalize _
    · exact .pure _

theorem ranged_pow (a b : Num) : Ranged (a.pow b) :=
  .bind a.ranged_toFloat fun _ => .bind b.ranged_toFloat fun _ => ranged_normalize _

theorem ranged_anyNaN (numbers : List Num) : Ranged (anyNaN numbers) := by
  induction numbers with
  | nil => exact .ok _
  | cons n rest ih => exact .bind n.ranged_isNaN fun _ => .ite _ (.pure _) ih

theorem ranged_extreme (greatest : Bool) (numbers : List Num) : Ranged (extreme greatest numbers) := by
  refine .bind (ranged_anyNaN numbers) fun _ => .ite _ (.pure _) ?_
  cases numbers <;> exact .pure _

theorem ranged_hypot (numbers : List Num) : Ranged (hypot numbers) :=
  .ite _ (.pure _) (.bind (.mapM ranged_toFloat numbers) fun _ => ranged_normalize _)

theorem ranged_atan2 (y x : Num) : Ranged (atan2 y x) :=
  .bind y.ranged_toFloat fun _ => .bind x.ranged_toFloat fun _ => ranged_normalize _

theorem only_truncate (h : n.isNaN = .ok false) : Only Breakdown.Mishap n.truncate := by
  cases n with
  | int n => exact .ok n
  | float x =>
    have hx : x.isNaN = false := Except.ok.inj h
    simp only [truncate, hx]
    split
    · exact .ok _
    · exact .error .infinityAsInteger

theorem only_truncate_of_isIntegral (h : n.isIntegral = .ok true) : Only Breakdown.Mishap n.truncate := by
  cases n with
  | int n => exact .ok n
  | float x =>
    have hx : (Double.parts? x).any Double.Parts.isIntegral = true := Except.ok.inj h
    cases hparts : Double.parts? x with
    | none => rw [hparts] at hx; cases hx
    | some p =>
      simp only [truncate, hparts]
      exact .ok _

end Num

theorem MathFunction.ranged_apply (f : MathFunction) (n : Num) : Ranged (f.apply n) := by
  refine .bind n.ranged_toFloat fun x => .ite _ (.pure _) ?_
  split <;> exact .pure _

namespace Numeral

theorem only_checkDigits (count : Nat) : Only Breakdown.Mishap (checkDigits count) := by
  unfold checkDigits
  split
  · exact .error (.tooManyDigits ‹_›)
  · exact .pure _

theorem only_leadingInteger (radix : Nat) (s : Text) : Only Breakdown.Mishap (leadingInteger radix s) := by
  unfold leadingInteger
  split
  exact .ite _ (.pure _) (.ite _ (.bind (only_checkDigits _) fun _ => .pure _) (.pure _))

theorem only_readInt {key : Text} (hdigits : key.isDigits) : Only Breakdown.Mishap (readInt key) := by
  cases hall : key.all Text.isDecimal with
  | true =>
    have hne : key ≠ [] := by
      rintro rfl
      cases hdigits
    rw [readInt_of_decimal (List.all_eq_true.mp hall) hne]
    exact .bind (only_checkDigits _) fun _ => .pure _
  | false =>
    have hnot : Only Breakdown.Mishap (throw (.notInteger key) : Except Breakdown Int) :=
      .error (.notInteger hdigits hall)
    unfold readInt
    split
    split
    · exact hnot
    · exact .bind (only_checkDigits _) fun _ => .ite _ hnot (.pure _)

end Numeral

/-! ### Data -/

namespace Datum

mutual

theorem ranged_toText : (d : Datum) → Ranged d.toText
  | .undefined | .null | .bool _ | .text _ | .function _ | .object _ => .ok _
  | .num n => n.ranged_format
  | .array items => .bind (ranged_itemTexts items) fun _ => .pure _

theorem ranged_itemTexts : (items : List Datum) → Ranged (itemTexts items)
  | [] => .ok _
  | item :: rest => by
    have next (s : Text) : Ranged (do return s :: (← itemTexts rest)) := .bind (ranged_itemTexts rest) fun _ => .pure _
    exact .ite _ (.bind (.ok _) next) (.bind (ranged_toText item) next)

end

theorem ranged_toNumber (d : Datum) : Ranged d.toNumber := by
  unfold toNumber
  split
  case h_6 => exact .bind (ranged_toText _) fun _ => .pure _
  all_goals exact .ok _

mutual

theorem ranged_stringify : (d : Datum) → Ranged d.stringify
  | .undefined | .function _ | .null | .bool _ | .text _ | .num (.float _) => .ok _
  | .num (.int _) => .bind (Num.ranged_format _) fun _ => .pure _
  | .array items => .bind (ranged_stringifyItems items) fun _ => .pure _
  | .object entries => .bind (ranged_stringifyEntries entries) fun _ => .pure _

theorem ranged_stringifyItems : (items : List Datum) → Ranged (stringifyItems items)
  | [] => .ok _
  | item :: rest =>
    .bind (ranged_stringify item) fun _ => .bind (ranged_stringifyItems rest) fun _ => .pure _

theorem ranged_stringifyEntries : (entries : List (Text × Datum)) → Ranged (stringifyEntries entries)
  | [] => .ok _
  | (_, d) :: rest => .bind (ranged_stringify d) fun _ => .bind (ranged_stringifyEntries rest) fun _ => .pure _

end

theorem ranged_consoleText (d : Datum) : Ranged d.consoleText := by
  unfold consoleText
  split
  · exact .bind (ranged_stringify _) fun _ => .pure _
  · exact .bind (ranged_stringify _) fun _ => .pure _
  · exact ranged_toText _

theorem ranged_displayText (d : Datum) : Ranged d.displayText := by
  unfold displayText
  split
  · exact .ok _
  · exact ranged_consoleText _

end Datum

/-! ### Values -/

theorem Value.ranged_truthy (v : Value) : Ranged v.truthy := by
  cases v with
  | num n => exact .ite _ (.ok _) (.bind n.ranged_isNaN fun _ => .pure _)
  | _ => exact .ok _

theorem Eval.ranged_shortCuts (op : LogicalOp) (left : Value) : Ranged (shortCuts op left) := by
  cases op with
  | and => exact .bind left.ranged_truthy fun _ => .pure _
  | or => exact left.ranged_truthy
  | nullish => exact .pure _

theorem ArrayMethod.ranged_sameValue (v target : Value) : Ranged (sameValue v target) := by
  unfold sameValue
  split
  · exact .bind (Num.ranged_isNaN _) fun _ =>
      .ite _ (.bind (Num.ranged_isNaN _) fun _ => .ite _ (.pure _) (.pure _)) (.pure _)
  · exact .ok _

theorem ArrayMethod.ranged_anySame (target : Value) (xs : Sequence Value) (count : Nat) :
    Ranged (anySame target xs count) := by
  induction count with
  | zero => exact .ok _
  | succ count ih =>
    unfold anySame
    split
    · exact .ok _
    · exact .bind (ranged_sameValue _ _) fun _ => .ite _ (.pure _) ih

namespace Heap

variable (h : Heap)

theorem ranged_toChars (v : Value) : Ranged (h.toChars v) := by
  unfold toChars
  split
  · exact .ok _
  · exact .bind (Datum.ranged_toText _) fun _ => .pure _
  · exact .bind (Datum.ranged_toText _) fun _ => .pure _

theorem ranged_toText (v : Value) : Ranged (h.toText v) := .bind (h.ranged_toChars v) fun _ => .pure _

theorem ranged_toNumber (v : Value) : Ranged (h.toNumber v) := by
  unfold toNumber
  split
  · exact Datum.ranged_toNumber _
  · exact .ite _ (Datum.ranged_toNumber _) (.ok _)
  · exact Datum.ranged_toNumber _

theorem ranged_toPrimitive (v : Value) : Ranged (h.toPrimitive v) := by
  cases v with
  | ref | function => exact .bind (h.ranged_toChars _) fun _ => .pure _
  | _ => exact .ok _

theorem ranged_refToText (v : Value) : Ranged (h.refToText v) := by
  cases v with
  | ref => exact .bind (h.ranged_toChars _) fun _ => .pure _
  | _ => exact .ok _

theorem ranged_looseEqual (a b : Value) : Ranged (h.looseEqual a b) :=
  .ite _ (.ok _) <| .ite _ (.ok _) <|
    .bind (h.ranged_refToText _) fun _ => .bind (h.ranged_refToText _) fun _ => .pure _

theorem ranged_compareValues (op : CompareOp) (a b : Value) : Ranged (h.compareValues op a b) := by
  refine .bind (h.ranged_toPrimitive a) fun _ => .bind (h.ranged_toPrimitive b) fun _ => ?_
  split
  · exact .pure _
  · exact .bind (h.ranged_toNumber _) fun _ => .bind (h.ranged_toNumber _) fun _ =>
      .bind (Num.ranged_isNaN _) fun _ => .ite _ (.pure _) <|
      .bind (Num.ranged_isNaN _) fun _ => .ite _ (.pure _) (.pure _)

theorem ranged_addValues (a b : Value) : Ranged (h.addValues a b) := by
  refine .bind (h.ranged_toPrimitive a) fun _ => .bind (h.ranged_toPrimitive b) fun _ => ?_
  split
  · exact .bind (h.ranged_toChars _) fun _ => .pure _
  · exact .bind (h.ranged_toChars _) fun _ => .pure _
  · exact .bind (h.ranged_toNumber _) fun _ => .bind (h.ranged_toNumber _) fun _ =>
      .bind (Num.ranged_combine _ _ _ _) fun _ => .pure _

theorem ranged_arithmetic (op : ArithOp) (a b : Value) : Ranged (h.arithmetic op a b) := by
  have numbers {f : Num → Num → Except Breakdown Num} (hf : ∀ m n, Ranged (f m n)) :
      Ranged (do return Value.num (← f (← h.toNumber a) (← h.toNumber b))) :=
    .bind (h.ranged_toNumber a) fun _ => .bind (h.ranged_toNumber b) fun _ => .bind (hf _ _) fun _ => .pure _
  cases op with
  | add => exact h.ranged_addValues a b
  | sub => exact numbers (Num.ranged_combine _ _)
  | mul => exact numbers (Num.ranged_combine _ _)
  | div => exact numbers Num.ranged_div
  | rem => exact numbers Num.ranged_rem
  | pow => exact numbers Num.ranged_pow

theorem ranged_binary (op : BinaryOp) (a b : Value) : Ranged (h.binary op a b) := by
  unfold binary
  split
  · exact h.ranged_arithmetic _ a b
  · exact .bind (h.ranged_compareValues _ a b) fun _ => .pure _
  · exact .ok _
  · exact .bind (h.ranged_looseEqual a b) fun _ => .pure _

theorem ranged_propertyKey (v : Value) : Ranged (h.propertyKey v) := by
  unfold propertyKey
  split
  · split
    · exact .ite _ (Num.ranged_format _) (Num.ranged_format _)
    · exact Num.ranged_format _
  · exact h.ranged_toText _

theorem only_indexOf {key : Text} (h : key.isDigits) : Only Breakdown.Mishap (indexOf key) :=
  .bind (Numeral.only_readInt h) fun _ => .pure _

theorem only_sequenceProperty (length : Nat) (item? : Nat → Option Value) (key : Text) :
    Only Breakdown.Mishap (sequenceProperty length item? key) := by
  unfold sequenceProperty
  refine .ite _ (.ok _) ?_
  split
  · exact .bind (only_indexOf ‹_›) fun _ => .pure _
  · exact .ok _

theorem only_property (v : Value) (key : Text) : Only Breakdown.Mishap (h.property v key) := by
  unfold property
  split
  · exact only_sequenceProperty _ _ _
  · split
    · exact only_sequenceProperty _ _ _
    · exact .ok _
    · exact .ok _

theorem only_readProperty (v : Value) (key : Text) : Only Fault.Native (h.readProperty v key) :=
  .ite _ (.error (Fault.native_of _ rfl)) (.lift (h.only_property v key))

theorem only_lengthOf (v : Value) : Only Fault.Native (h.lengthOf v) := by
  have raised : Fault.Native (.of .arrayLength) := Fault.native_of _ rfl
  refine .bindLift (h.ranged_toNumber v).mishap fun n _ => .bindLift n.ranged_isNaN.mishap fun nan hnan => ?_
  cases nan with
  | true => exact .error raised
  | false =>
    exact .check _ raised <| .check _ raised <| .bindLift (Num.only_truncate hnan) fun _ _ => .check _ raised (.pure _)

theorem only_storeItem (a : Addr) (items : Sequence Value) (i : Nat) (v : Value) :
    Only Fault.Native (h.storeItem a items i v) := .ite _ (.error (Fault.native_of _ rfl)) (.pure _)

theorem only_storeProperty (object : Value) (key : Text) (v : Value) :
    Only Fault.Native (h.storeProperty object key v) := by
  refine .ite _ (.error (Fault.native_of _ rfl)) ?_
  split
  · split
    · exact .bindLift (only_indexOf ‹_›) fun _ _ => h.only_storeItem _ _ _ _
    · exact .ite _ (.bind (h.only_lengthOf v) fun _ => .pure _) (.pure _)
  · exact .pure _
  · exact .pure _

end Heap

theorem Store.only_assign (s : Store) (name : Text) (v : Value) : Only (·.line = none) (s.assign name v) := by
  refine .bind ?_ fun _ => .pure _
  unfold Scope.assign
  split
  · exact .ite _ (.error rfl) (.ite _ (.ok _) (.ok _))
  · exact .ok _

/-! ### What a session shows -/

namespace Variables

variable (current previous : Variables)

theorem ranged_display (h : Heap) (v : Value) : Ranged (display h v) := by
  cases v with
  | text s => exact .ok _
  | _ => exact .bind (Datum.ranged_displayText _) fun _ => .pure _

theorem ranged_differs (d e : Datum) : Ranged (d.differs e) :=
  .bind (Datum.ranged_stringify d) fun _ => .bind (Datum.ranged_stringify e) fun _ => .pure _

theorem ranged_changed (name : Text) : Ranged (current.changed previous name) := by
  unfold changed
  split
  · exact .ok _
  · exact ranged_differs _ _

theorem ranged_row (name : Text) (value : Value) : Ranged (current.row previous name value) := by
  cases value with
  | ref a =>
    exact .bind (Datum.ranged_stringify _) fun _ => .bind (Datum.ranged_stringify _) fun _ => .pure _
  | _ => exact .bind (ranged_display _ _) fun _ => .bind (ranged_changed current previous name) fun _ => .pure _

theorem ranged_rows : Ranged (current.rows previous) :=
  .bind (.mapM (fun _ => ranged_row current previous _ _) _) fun _ => .pure _

end Variables

end Stepwise
