import Stepwise.Proofs.Layout
import Stepwise.Proofs.Lexemes

/-!
# Number literals

A number in a source is made of digits, a point and an exponent (`Lexeme.Number`). Whatever the script of its digits, it
has a value, unless it is an integer with too many of them (`Num.ofLiteral_of_number`).
-/

namespace Stepwise

namespace Lexeme

open Text List

variable {s : Text} {c : CodePoint}

/-- Digits, at least one, with an optional point. -/
inductive Mantissa : Text → Prop
  | whole {digits : Text} (h : ∀ c ∈ digits, isDecimal c) (hsome : digits ≠ []) : Mantissa digits
  | pointed {whole fraction : Text} (hwhole : ∀ c ∈ whole, isDecimal c) (hfraction : ∀ c ∈ fraction, isDecimal c)
      (hsome : whole ≠ [] ∨ fraction ≠ []) : Mantissa (whole ++ '.'.toNat :: fraction)

/-- A mark, an optional sign and digits, or nothing. -/
inductive Exponent : Text → Prop
  | absent : Exponent []
  | marked {mark : CodePoint} {sign digits : Text} (hmark : mark = 'e'.toNat ∨ mark = 'E'.toNat)
      (hsign : sign = [] ∨ sign = ['+'.toNat] ∨ sign = ['-'.toNat]) (hdigits : ∀ c ∈ digits, isDecimal c)
      (hsome : digits ≠ []) : Exponent (mark :: (sign ++ digits))

/-- The text of a number. -/
def Number (s : Text) : Prop := ∃ mantissa exponent, s = mantissa ++ exponent ∧ Mantissa mantissa ∧ Exponent exponent

theorem take_digitCount (s : Text) : s.take (digitCount s) = s.takeWhile isDecimal :=
  (prefix_iff_eq_take.mp ( takeWhile_prefix _)).symm

theorem isDecimal_of_mem_take (h : c ∈ s.take (digitCount s)) : isDecimal c := by
  rw [take_digitCount] at h
  exact mem_takeWhile_imp h

theorem take_ne_nil {n : Nat} (hle : n ≤ s.length) (hpos : n ≠ 0) : s.take n ≠ [] := by
  rw [← length_pos_iff, length_take_of_le hle]
  exact Nat.pos_of_ne_zero hpos

theorem mantissa_take (h : mantissaLength s ≠ 0) : Mantissa (s.take (mantissaLength s)) := by
  have hwhole : ∀ c ∈ s.take (digitCount s), isDecimal c := fun c => isDecimal_of_mem_take
  have hsome := take_ne_nil (onLine_digitCount s).1
  simp only [mantissaLength] at h ⊢
  split
  case h_1 c rest hdrop =>
    simp only [hdrop] at h
    by_cases hpoint : c = '.'.toNat ∧ (0 < digitCount s ∨ 0 < digitCount rest)
    · rw [if_pos hpoint, Nat.add_assoc, take_add, hdrop, Nat.add_comm 1, take_succ_cons, hpoint.1]
      refine .pointed hwhole (fun c => isDecimal_of_mem_take) (hpoint.2.imp ?_ ?_)
      · exact fun hpos => hsome (Nat.pos_iff_ne_zero.mp hpos)
      · exact fun hpos => take_ne_nil (onLine_digitCount rest).1 (Nat.pos_iff_ne_zero.mp hpos)
    · rw [if_neg hpoint] at h ⊢
      exact .whole hwhole (hsome h)
  case h_2 hdrop =>
    simp only [hdrop] at h
    exact .whole hwhole (hsome h)

theorem exponent_take (s : Text) : Exponent (s.take (exponentLength s)) := by
  unfold exponentLength
  split
  case h_1 c rest =>
    by_cases hmark : c = 'e'.toNat ∨ c = 'E'.toNat
    · have hrun : ∀ sign, (rest.take sign = [] ∨ rest.take sign = ['+'.toNat] ∨ rest.take sign = ['-'.toNat]) →
          Exponent ((c :: rest).take
            (if digitCount (rest.drop sign) = 0 then 0 else 1 + sign + digitCount (rest.drop sign))) := by
        intro sign hsign
        by_cases hnone : digitCount (rest.drop sign) = 0
        · rw [if_pos hnone]
          exact .absent
        · rw [if_neg hnone, Nat.add_assoc, Nat.add_comm 1, take_succ_cons, take_add]
          exact .marked hmark hsign (fun c => isDecimal_of_mem_take) (take_ne_nil (onLine_digitCount _).1 hnone)
      rw [if_pos hmark]
      apply hrun
      split
      case h_1 d rest =>
        split
        case isTrue hsign => exact .inr (hsign.imp (congrArg ([·])) (congrArg ([·])))
        case isFalse => exact .inl rfl
      case h_2 => exact .inl rfl
    · rw [if_neg hmark]
      exact .absent
  case h_2 => exact .absent

theorem number_take (h : numberLength s ≠ 0) : Number (s.take (numberLength s)) := by
  simp only [numberLength] at h ⊢
  by_cases hnone : mantissaLength s = 0
  · rw [if_pos hnone] at h
    exact absurd rfl h
  · rw [if_neg hnone, take_add]
    exact ⟨_, _, rfl, mantissa_take hnone, exponent_take _⟩

theorem Number.chars (h : Number s) (hc : c ∈ s) : isDecimal c ∨ c ∈ ".eE+-".codes := by
  obtain ⟨mantissa, exponent, rfl, hmantissa, hexponent⟩ := h
  rcases mem_append.mp hc with hc | hc
  · cases hmantissa with
    | whole hdigits => exact .inl (hdigits c hc)
    | pointed hwhole hfraction =>
      rcases mem_append.mp hc with hc | hc
      · exact .inl (hwhole c hc)
      rcases mem_cons.mp hc with rfl | hc
      · exact .inr (by decide)
      · exact .inl (hfraction c hc)
  · cases hexponent with
    | absent => cases hc
    | marked hmark hsign hdigits =>
      rcases mem_cons.mp hc with rfl | hc
      · rcases hmark with rfl | rfl <;> exact .inr (by decide)
      rcases mem_append.mp hc with hc | hc
      · rcases hsign with rfl | rfl | rfl
        · cases hc
        all_goals
          obtain rfl := mem_singleton.mp hc
          exact .inr (by decide)
      · exact .inl (hdigits c hc)

theorem Number.ne_nil (h : Number s) : s ≠ [] := by
  obtain ⟨mantissa, exponent, rfl, hmantissa, -⟩ := h
  cases hmantissa with
  | whole _ hsome => exact append_ne_nil_of_left_ne_nil hsome _
  | pointed => simp

theorem Exponent.head (h : Exponent s) : ∀ c ∈ s.head?, isDecimal c = false ∧ c ≠ '.'.toNat := by
  intro c hc
  cases h with
  | absent => cases hc
  | marked hmark =>
    cases hc
    rcases hmark with rfl | rfl <;> decide

end Lexeme

/-! ### Values -/

namespace Numeral

open Text Lexeme

variable {s : Text}

theorem natural?_of_decimal (h : ∀ c ∈ s, isDecimal c) : ∃ n, natural? s = some n := by
  have hvalues : ∃ values, s.mapM decimalValue? = some values := by
    induction s with
    | nil => exact ⟨[], rfl⟩
    | cons c s ih =>
      obtain ⟨value, hvalue⟩ := Option.isSome_iff_exists.mp (h c List.mem_cons_self)
      obtain ⟨values, hvalues⟩ := ih fun d hd => h d (List.mem_cons_of_mem c hd)
      exact ⟨value :: values, by rw [List.mapM_cons, hvalue, hvalues]; rfl⟩
  obtain ⟨values, hvalues⟩ := hvalues
  exact ⟨_, by rw [natural?, hvalues]; rfl⟩

theorem span_decimal {t : Text} (h : ∀ c ∈ s, isDecimal c) (ht : ∀ c ∈ t.head?, isDecimal c = false) :
    (s ++ t).takeWhile isDecimal = s ∧ (s ++ t).dropWhile isDecimal = t := by
  rw [List.takeWhile_append_of_pos h, List.dropWhile_append_of_pos h]
  cases t with
  | nil => simp
  | cons c t => simp [ht c rfl]

theorem exponent?_of_exponent (h : Exponent s) : ∃ k, exponent? s = some k := by
  cases h with
  | absent => exact ⟨0, rfl⟩
  | @marked mark sign digits hmark hsign hdigits hsome =>
    obtain ⟨n, hn⟩ := natural?_of_decimal hdigits
    have hsplit : (splitSign (sign ++ digits)).2 = digits := by
      rcases hsign with rfl | rfl | rfl
      · rw [List.nil_append, splitSign_of_decimal hdigits]
      · rfl
      · rfl
    have hexponent : isExponentMark mark = true := by rcases hmark with rfl | rfl <;> rfl
    have hempty : digits.isEmpty = false := by simpa using hsome
    simp only [exponent?, hexponent, if_true, hsplit, hempty, Bool.false_eq_true, if_false, hn]
    exact ⟨_, rfl⟩

theorem unsigned?_of_number (h : Number s) (negative : Bool) : ∃ n, unsigned? negative s = some n := by
  obtain ⟨mantissa, exponent, rfl, hmantissa, hexponent⟩ := h
  obtain ⟨k, hk⟩ := exponent?_of_exponent hexponent
  have hhead := hexponent.head
  cases hmantissa with
  | whole hdigits hsome =>
    obtain ⟨htake, hdrop⟩ := span_decimal hdigits fun c hc => (hhead c hc).1
    obtain ⟨n, hn⟩ := natural?_of_decimal hdigits
    have hempty : mantissa.isEmpty = false := by simpa using hsome
    rw [unsigned?, htake, hdrop]
    cases exponent with
    | nil => simp [hempty, hn, hk]
    | cons c exponent =>
      simp only [if_neg (hhead c rfl).2, List.append_nil, hempty, hn, hk]
      exact ⟨_, rfl⟩
  | @pointed whole fraction hwhole hfraction hsome =>
    obtain ⟨htake, hdrop⟩ := span_decimal (t := '.'.toNat :: (fraction ++ exponent)) hwhole fun c hc => by
      cases hc; decide
    obtain ⟨htake', hdrop'⟩ := span_decimal hfraction fun c hc => (hhead c hc).1
    obtain ⟨n, hn⟩ := natural?_of_decimal (s := whole ++ fraction)
      fun c hc => (List.mem_append.mp hc).elim (hwhole c) (hfraction c)
    have hempty : (whole.isEmpty && fraction.isEmpty) = false := by
      rcases hsome with hsome | hsome <;> simp [hsome]
    rw [List.append_assoc, List.cons_append, unsigned?, htake, hdrop]
    simp only [if_true, htake', hdrop', hempty, hn, hk]
    exact ⟨_, rfl⟩

theorem plain_of_number (h : Number s) {c : CodePoint} (hc : c ∈ s) : isMargin c = false ∧ c ≠ '_'.toNat ∧ c ≠ 10 := by
  have hsigns : ∀ c ∈ ".eE+-".codes, isMargin c = false ∧ c ≠ '_'.toNat ∧ c ≠ 10 := by decide
  rcases h.chars hc with hdecimal | hsign
  · obtain ⟨hmargin, hunder, -⟩ := plain_of_isDecimal hdecimal
    refine ⟨hmargin, hunder, ?_⟩
    rintro rfl
    exact absurd hdecimal (by decide)
  · exact hsigns c hsign

theorem splitSign_of_number (h : Number s) : splitSign s = (false, s) := by
  obtain ⟨mantissa, exponent, rfl, hmantissa, -⟩ := h
  have hdigit {c : CodePoint} {rest : Text} (hc : isDecimal c) : splitSign (c :: rest) = (false, c :: rest) := by
    obtain ⟨-, -, hminus, hplus⟩ := plain_of_isDecimal hc
    simp only [splitSign, hminus, hplus, if_false]
  cases hmantissa with
  | whole hdigits hsome =>
    obtain ⟨c, rest, rfl⟩ := List.exists_cons_of_ne_nil hsome
    exact hdigit (hdigits c List.mem_cons_self)
  | @pointed whole _ hwhole =>
    cases whole with
    | nil => rfl
    | cons c rest => exact hdigit (hwhole c List.mem_cons_self)

theorem readFloat?_of_number (h : Number s) : ∃ x, readFloat? s = some x := by
  have hstrip := stripMargin_of_forall fun c hc => (plain_of_number h hc).1
  have hungroup := ungroup?_of_forall false fun c hc => (plain_of_number h hc).2.1
  obtain ⟨n, hn⟩ := unsigned?_of_number h false
  simp only [readFloat?, hstrip, hungroup, Option.bind_eq_bind, Option.bind_some, double?, splitSign_of_number h, hn]
  split
  · exact ⟨_, rfl⟩
  · exact ⟨_, rfl⟩

end Numeral

namespace Num

open Text Lexeme

variable {s : Text}

theorem ofLiteral_of_number (h : Number s) :
    (∃ x, ofLiteral s = .ok x) ∨
      (∀ c ∈ s, isDecimal c) ∧ digitLimit < s.length ∧ ofLiteral s = .error (.tooManyDigits s.length) := by
  have hlast : s.getLast? ≠ some 10 := fun hlast => (Numeral.plain_of_number h (List.mem_of_getLast? hlast)).2.2 rfl
  have hinteger : isIntegerLiteral s = s.all isDecimal := by
    simp [isIntegerLiteral, hlast, h.ne_nil]
  rw [ofLiteral, hinteger]
  by_cases hall : s.all isDecimal = true
  · have hdigits : ∀ c ∈ s, isDecimal c := List.all_eq_true.mp hall
    rw [if_pos hall, Numeral.readInt_of_decimal hdigits h.ne_nil, Numeral.checkDigits]
    by_cases hmany : digitLimit < s.length
    · rw [if_pos hmany]
      exact .inr ⟨hdigits, hmany, rfl⟩
    · rw [if_neg hmany]
      exact .inl ⟨_, rfl⟩
  · obtain ⟨x, hx⟩ := Numeral.readFloat?_of_number h
    rw [if_neg hall, hx]
    exact .inl ⟨_, rfl⟩

end Num

end Stepwise
