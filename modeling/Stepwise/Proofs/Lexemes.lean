import Mathlib.Data.List.TakeWhile
import Stepwise.Syntax.ExprParser

/-!
# The lexemes of written data

Data are written with quoted texts, decimal digits, three words and a few marks. Each of these is scanned as one token
when what follows it cannot go on with it. The token of a quoted text stands for the text again, and that of the digits
of a number for the number.
-/

namespace Stepwise

open List

/-! ### Quoted texts -/

namespace Text

variable {c : CodePoint} {s : Text}

/-- The ways in which a code point is written between double quotes: as it is, by a letter, or by its number. -/
inductive Quotes : CodePoint → Text → Prop
  | plain {c : CodePoint} (quote : c ≠ '"'.toNat) (backslash : c ≠ '\\'.toNat) (feed : c ≠ 10) : Quotes c [c]
  | letter {c d : CodePoint} (feed : d ≠ 10) (stands : ∀ rest, escapeAt (d :: rest) = ([c], 1)) : Quotes c ['\\'.toNat, d]
  | number {c : CodePoint} {digits : Text} (length : digits.length = 4)
      (plain : ∀ d ∈ digits, d ≠ '"'.toNat ∧ d ≠ '\\'.toNat ∧ d ≠ 10) (value : hexNumber? digits = some c) :
      Quotes c ('\\'.toNat :: 'u'.toNat :: digits)

theorem escapeAt_of_ne {d : CodePoint} (hu : d ≠ 'u'.toNat) (hx : d ≠ 'x'.toNat) (hfeed : d ≠ 10) (rest : Text) :
    escapeAt (d :: rest) = ([(controlOf? d).getD d], 1) := by
  simp only [escapeAt, hu, hx, hfeed, if_false]

theorem quotes_quotedCode (c : CodePoint) : Quotes c (quotedCode c) := by
  unfold quotedCode
  split
  case isTrue h =>
    rcases h with rfl | rfl
    · exact .letter (by decide) (escapeAt_of_ne (by decide) (by decide) (by decide))
    · exact .letter (by decide) (escapeAt_of_ne (by decide) (by decide) (by decide))
  case isFalse hspecial =>
    split
    case isTrue hcontrol =>
      have hletters : ∀ c < 32, ∀ d ∈ letterEscape? c,
          d ≠ 'u'.toNat ∧ d ≠ 'x'.toNat ∧ d ≠ 10 ∧ (controlOf? d).getD d = c := by decide
      have hdigits : ∀ c < 32, (hexDigits 4 c).length = 4 ∧ hexNumber? (hexDigits 4 c) = some c ∧
          ∀ d ∈ hexDigits 4 c, d ≠ '"'.toNat ∧ d ≠ '\\'.toNat ∧ d ≠ 10 := by decide
      split
      case h_1 d hd =>
        obtain ⟨hu, hx, hfeed, hstands⟩ := hletters c hcontrol d hd
        refine .letter hfeed fun rest => ?_
        rw [escapeAt_of_ne hu hx hfeed, hstands]
      case h_2 =>
        obtain ⟨hlength, hvalue, hplain⟩ := hdigits c hcontrol
        exact .number hlength hplain hvalue
    case isFalse hcontrol =>
      rw [not_or] at hspecial
      exact .plain hspecial.1 hspecial.2 fun hfeed => hcontrol (hfeed ▸ by decide)

theorem unescapeFrom_append (s rest : Text) : unescapeFrom (s ++ rest) s.length = unescapeFrom rest 0 := by
  induction s with
  | nil => rfl
  | cons c s ih => exact ih

theorem Quotes.unescapeFrom (h : Quotes c s) (rest : Text) : unescapeFrom (s ++ rest) 0 = c :: unescapeFrom rest 0 := by
  cases h with
  | plain quote backslash feed => exact if_neg backslash
  | @letter d feed stands =>
    have hescape : Text.unescapeFrom ('\\'.toNat :: d :: rest) 0 =
        (escapeAt (d :: rest)).1 ++ Text.unescapeFrom (d :: rest) (escapeAt (d :: rest)).2 := if_pos rfl
    simp only [cons_append, nil_append]
    rw [hescape, stands]
    rfl
  | @number digits length plain value =>
    have hescape : Text.unescapeFrom ('\\'.toNat :: 'u'.toNat :: (digits ++ rest)) 0 =
        (escapeAt ('u'.toNat :: (digits ++ rest))).1 ++
          Text.unescapeFrom ('u'.toNat :: (digits ++ rest)) (escapeAt ('u'.toNat :: (digits ++ rest))).2 := if_pos rfl
    have htake : (digits ++ rest).take 4 = digits := by rw [← length, take_left']; rfl
    have hstands : escapeAt ('u'.toNat :: (digits ++ rest)) = ([c], 5) := by
      simp only [escapeAt, if_true, htake, length, value]
    have hskip := unescapeFrom_append ('u'.toNat :: digits) rest
    rw [length_cons, length] at hskip
    simp only [cons_append]
    rw [hescape, hstands]
    exact congrArg (c :: ·) hskip

theorem unescape_flatMap_quotedCode (s : Text) : unescape (s.flatMap quotedCode) = s := by
  unfold unescape
  induction s with
  | nil => rfl
  | cons c s ih => rw [flatMap_cons, (quotes_quotedCode c).unescapeFrom, ih]

theorem Quotes.feed_not_mem (h : Quotes c s) : 10 ∉ s := by
  cases h with
  | plain quote backslash feed => simpa using feed.symm
  | letter feed stands => simpa using feed.symm
  | number length plain value =>
    intro hmem
    simp only [mem_cons] at hmem
    rcases hmem with h | h | h
    · exact absurd h (by decide)
    · exact absurd h (by decide)
    · exact (plain 10 h).2.2 rfl

theorem feed_not_mem_quoted (s : Text) : 10 ∉ s.quoted := by
  intro hmem
  simp only [quoted, mem_append, mem_cons, mem_flatMap, not_mem_nil, or_false] at hmem
  rcases hmem with (h | ⟨c, -, h⟩) | h
  · exact absurd h (by decide)
  · exact (quotes_quotedCode c).feed_not_mem h
  · exact absurd h (by decide)

end Text

namespace Lexeme

open Text

variable {s : Text}

theorem quotedLength?_plain {s : Text} (h : ∀ d ∈ s, d ≠ '"'.toNat ∧ d ≠ '\\'.toNat ∧ d ≠ 10) (rest : Text) :
    quotedLength? '"'.toNat false (s ++ rest) = (quotedLength? '"'.toNat false rest).map (· + s.length) := by
  induction s with
  | nil => simp
  | cons c s ih =>
    obtain ⟨hquote, hbackslash, hfeed⟩ := h c mem_cons_self
    have hrest := ih fun d hd => h d (mem_cons_of_mem c hd)
    have hfirst : quotedLength? '"'.toNat false (c :: (s ++ rest)) =
        (quotedLength? '"'.toNat false (s ++ rest)).map (· + 1) := by
      rw [quotedLength?.eq_def]
      simp only [lineFeed, hquote, hbackslash, hfeed, false_and, if_false]
    rw [cons_append, hfirst, hrest, Option.map_map, length_cons]
    rfl

theorem quotedLength?_escape {d : CodePoint} (hfeed : d ≠ 10) (rest : Text) :
    quotedLength? '"'.toNat false ('\\'.toNat :: d :: rest) = (quotedLength? '"'.toNat false rest).map (· + 2) := by
  have hquote : '\\'.toNat ≠ '"'.toNat := by decide
  have hbackslash : '\\'.toNat ≠ lineFeed := by decide
  rw [quotedLength?, if_neg hquote, if_neg fun h => hbackslash h.1, if_pos rfl]
  exact if_neg fun h => hfeed h.1

theorem quotedLength?_quotes {c : CodePoint} (h : Quotes c s) (rest : Text) :
    quotedLength? '"'.toNat false (s ++ rest) = (quotedLength? '"'.toNat false rest).map (· + s.length) := by
  cases h with
  | plain quote backslash feed =>
    exact quotedLength?_plain (fun d hd => by rw [mem_singleton.mp hd]; exact ⟨quote, backslash, feed⟩) rest
  | letter feed stands => exact quotedLength?_escape feed rest
  | @number digits length plain value =>
    have hescape := quotedLength?_escape (d := 'u'.toNat) (by decide) (digits ++ rest)
    simp only [cons_append]
    rw [hescape, quotedLength?_plain plain, Option.map_map]
    rfl

theorem quotedLength?_flatMap (s rest : Text) :
    quotedLength? '"'.toNat false (s.flatMap quotedCode ++ '"'.toNat :: rest) = some ((s.flatMap quotedCode).length + 1) := by
  induction s with
  | nil =>
    rw [flatMap_nil, nil_append, quotedLength?.eq_def]
    exact if_pos rfl
  | cons c s ih =>
    rw [flatMap_cons, append_assoc, quotedLength?_quotes (quotes_quotedCode c), ih, length_append]
    simp only [Option.map_some, Option.some_inj]
    omega

end Lexeme

/-! ### Digits -/

namespace Text

variable {c : CodePoint}

theorem isAsciiDigit_of_mem_ofNat {n : Nat} {c : CodePoint} (h : c ∈ ofNat n) : isAsciiDigit c := by
  obtain ⟨d, hd, rfl⟩ := mem_map.mp h
  have hdigit := Nat.isDigit_of_mem_toDigits (by decide) (by decide) hd
  simp only [Char.isDigit, Bool.and_eq_true, decide_eq_true_eq, ge_iff_le, UInt32.le_iff_toNat_le] at hdigit
  simp only [isAsciiDigit, Bool.and_eq_true, decide_eq_true_eq]
  exact hdigit

theorem ofNat_ne_nil (n : Nat) : ofNat n ≠ [] := by
  simp [ofNat]

theorem decimalValue?_of_isAsciiDigit (h : isAsciiDigit c) : decimalValue? c = some (c - 48) := by
  simp only [isAsciiDigit] at h
  simp only [decimalValue?, decimalZeros, find?_cons, h, Option.map_some]

theorem isDecimal_of_isAsciiDigit (h : isAsciiDigit c) : isDecimal c := by
  rw [isDecimal, decimalValue?_of_isAsciiDigit h]
  rfl

theorem value_ofNat (n : Nat) : Positional.value 10 ((ofNat n).map (· - 48)) = n := by
  have hstep : (fun value (c : Char) => value * 10 + (c.toNat - 48)) = fun value c => 10 * value + (c.toNat - '0'.toNat) := by
    funext value c
    rw [Nat.mul_comm]
    rfl
  calc Positional.value 10 ((ofNat n).map (· - 48))
    _ = (Nat.toDigits 10 n).foldl (fun value c => value * 10 + (c.toNat - 48)) 0 := by
        rw [Positional.value_eq_foldl, ofNat, map_map, foldl_map]
        rfl
    _ = Nat.ofDigitChars 10 (Nat.toDigits 10 n) 0 := by rw [hstep, Nat.ofDigitChars]
    _ = n := Nat.ofDigitChars_ten_toDigits

end Text

namespace Numeral

open Text

variable {s : Text}

theorem plain_of_isDecimal {c : CodePoint} (h : isDecimal c) :
    isMargin c = false ∧ c ≠ '_'.toNat ∧ c ≠ '-'.toNat ∧ c ≠ '+'.toNat := by
  rw [isDecimal, decimalValue?, Option.isSome_map] at h
  obtain ⟨z, hz⟩ := Option.isSome_iff_exists.mp h
  have hbounds := find?_some hz
  simp only [Bool.and_eq_true, decide_eq_true_eq] at hbounds
  have hall : ∀ z ∈ decimalZeros, ∀ k < 10,
      isMargin (z + k) = false ∧ z + k ≠ '_'.toNat ∧ z + k ≠ '-'.toNat ∧ z + k ≠ '+'.toNat := by decide +kernel
  have hc := hall z (mem_of_find?_eq_some hz) (c - z)
    (Nat.sub_lt_left_of_lt_add hbounds.1 (Nat.lt_succ_of_le hbounds.2))
  rwa [Nat.add_sub_cancel' hbounds.1] at hc

theorem stripMargin_of_forall (h : ∀ c ∈ s, isMargin c = false) : stripMargin s = s := by
  have hdrop : ∀ t : Text, (∀ c ∈ t, isMargin c = false) → t.dropWhile isMargin = t := by
    intro t ht
    cases t with
    | nil => rfl
    | cons c t => simp [ht c mem_cons_self]
  rw [stripMargin, hdrop s h, hdrop s.reverse fun c hc => h c (mem_reverse.mp hc), reverse_reverse]

theorem ungroup?_of_forall (afterDigit : Bool) (h : ∀ c ∈ s, c ≠ '_'.toNat) : ungroup? afterDigit s = some s := by
  induction s generalizing afterDigit with
  | nil => rfl
  | cons c s ih =>
    rw [ungroup?, if_neg (h c mem_cons_self), ih _ fun d hd => h d (mem_cons_of_mem c hd)]
    rfl

theorem ungroup?_of_decimal (afterDigit : Bool) (h : ∀ c ∈ s, isDecimal c) : ungroup? afterDigit s = some s :=
  ungroup?_of_forall afterDigit fun c hc => (plain_of_isDecimal (h c hc)).2.1

theorem natural?_of_digits (h : ∀ c ∈ s, isAsciiDigit c) : natural? s = some (Positional.value 10 (s.map (· - 48))) := by
  have hvalues : s.mapM decimalValue? = some (s.map (· - 48)) := by
    induction s with
    | nil => rfl
    | cons c s ih =>
      rw [mapM_cons, decimalValue?_of_isAsciiDigit (h c mem_cons_self),
        ih fun d hd => h d (mem_cons_of_mem c hd)]
      rfl
  rw [natural?, hvalues]
  rfl

theorem natural?_ofNat (n : Nat) : natural? (ofNat n) = some n := by
  rw [natural?_of_digits fun c hc => isAsciiDigit_of_mem_ofNat hc, value_ofNat]

theorem splitSign_of_decimal (h : ∀ c ∈ s, isDecimal c) : splitSign s = (false, s) := by
  cases s with
  | nil => rfl
  | cons c s =>
    obtain ⟨-, -, hminus, hplus⟩ := plain_of_isDecimal (h c mem_cons_self)
    simp only [splitSign, hminus, hplus, if_false]

theorem takeWhile_isGrouped_of_decimal (h : ∀ c ∈ s, isDecimal c) : s.takeWhile isGrouped = s := by
  rw [takeWhile_eq_self_iff]
  intro c hc
  rw [isGrouped, h c hc, Bool.true_or]

theorem readInt_of_splitSign {t : Text} {negative : Bool} (hsign : splitSign (stripMargin t) = (negative, s))
    (h : ∀ c ∈ s, isDecimal c) (hne : s ≠ []) :
    readInt t = (checkDigits s.length).map fun _ =>
      if negative then -((natural? s).getD 0 : Int) else (natural? s).getD 0 := by
  have hgrouped : ∀ c ∈ s, isGrouped c := takeWhile_eq_self_iff.mp (takeWhile_isGrouped_of_decimal h)
  have hbody : (s.isEmpty || s.any (!isGrouped ·)) = false := by
    simpa [hne] using hgrouped
  rw [readInt, hsign]
  simp only [takeWhile_isGrouped_of_decimal h, ungroup?_of_decimal false h, hbody]
  cases checkDigits s.length <;> rfl

theorem readInt_of_decimal (h : ∀ c ∈ s, isDecimal c) (hne : s ≠ []) :
    readInt s = (checkDigits s.length).map fun _ => ((natural? s).getD 0 : Int) := by
  have hstrip := stripMargin_of_forall fun c hc => (plain_of_isDecimal (h c hc)).1
  have hsign : splitSign (stripMargin s) = (false, s) := by rw [hstrip, splitSign_of_decimal h]
  rw [readInt_of_splitSign hsign h hne]
  rfl

theorem readInt_ofNat (n : Nat) : readInt (ofNat n) = (checkDigits (ofNat n).length).map fun _ => (n : Int) := by
  have hdigits : ∀ c ∈ ofNat n, isDecimal c := fun c hc => isDecimal_of_isAsciiDigit (isAsciiDigit_of_mem_ofNat hc)
  rw [readInt_of_decimal hdigits (ofNat_ne_nil n), natural?_ofNat]
  rfl

theorem checkDigits_of_le {count : Nat} (h : count ≤ digitLimit) : checkDigits count = .ok () := if_neg (Nat.not_lt.mpr h)

end Numeral

theorem Text.length_ofNat_le {n : Nat} (h : n < Num.safeLimit) : (ofNat n).length ≤ digitLimit := by
  have hfew : (Nat.toDigits 10 n).length ≤ 16 :=
    (Nat.length_toDigits_le_iff (by decide) (by decide)).mpr (Nat.lt_trans h (by decide))
  rw [ofNat, length_map]
  exact Nat.le_trans hfew (by decide)

theorem Num.isIntegerLiteral_ofNat (n : Nat) : isIntegerLiteral (Text.ofNat n) = true := by
  have hdigits : ∀ c ∈ Text.ofNat n, Text.isAsciiDigit c := fun c hc => Text.isAsciiDigit_of_mem_ofNat hc
  have hlast : (Text.ofNat n).getLast? ≠ some 10 := fun hlast =>
    absurd (hdigits 10 (mem_of_getLast? hlast)) (by decide)
  have hdecimal : ∀ c ∈ Text.ofNat n, Text.isDecimal c := fun c hc => Text.isDecimal_of_isAsciiDigit (hdigits c hc)
  simpa [isIntegerLiteral, hlast, Text.ofNat_ne_nil n] using hdecimal

theorem Num.ofLiteral_ofNat (n : Nat) :
    ofLiteral (Text.ofNat n) = (Numeral.checkDigits (Text.ofNat n).length).map fun _ => .int n := by
  rw [ofLiteral, if_pos (isIntegerLiteral_ofNat n), Numeral.readInt_ofNat]
  cases Numeral.checkDigits (Text.ofNat n).length <;> rfl

/-! ### Tokens -/

/-- The code points that may follow a number or a word. -/
def Text.delimiters : Text := " ,]\x7d".codes

/-- A number or a word ends before the text. -/
def Text.Stops (rest : Text) : Prop := ∀ c ∈ rest.head?, c ∈ delimiters

theorem Text.exists_join_eq (sep t : Text) (ts : List Text) : ∃ u, join sep (t :: ts) = t ++ u := by
  cases ts with
  | nil => exact ⟨[], by simp [join]⟩
  | cons t' ts => exact ⟨sep ++ sep.intercalate (t' :: ts), by rw [join, intercalate_cons_cons, append_assoc]⟩

theorem Text.stops_cons {c : CodePoint} (h : c ∈ delimiters) (rest : Text) : Stops (c :: rest) := by
  intro d hd
  obtain rfl : c = d := Option.some.inj hd
  exact h

namespace Lexeme

open Text

variable {c d : CodePoint} {s rest : Text} {x : Text}

theorem takeWhile_of_stops {p : CodePoint → Bool} (hs : ∀ c ∈ s, p c) (hrest : rest.Stops)
    (hp : ∀ c ∈ delimiters, p c = false) : (s ++ rest).takeWhile p = s := by
  rw [takeWhile_append_of_pos hs]
  cases rest with
  | nil => simp
  | cons c rest => simp [hp c (hrest c rfl)]

theorem commentLength_of_ne (h : c ≠ '/'.toNat) (rest : Text) : commentLength (c :: rest) = 0 := by
  cases rest with
  | nil => rfl
  | cons d rest => simp only [commentLength, h, false_and, if_false]

theorem numberLength_of_ne (hdigit : isDecimal c = false) (hpoint : c ≠ '.'.toNat) (rest : Text) :
    numberLength (c :: rest) = 0 := by
  have hcount : digitCount (c :: rest) = 0 := by simp [digitCount, hdigit]
  have hmantissa : mantissaLength (c :: rest) = 0 := by
    simp only [mantissaLength, hcount, drop_zero, hpoint, false_and, if_false]
  simp only [numberLength, hmantissa, if_true]

theorem next_quoted (s rest : Text) : next (s.quoted ++ rest) = (some .string, s.quoted.length) := by
  have hbody : s.flatMap quotedCode ++ ['"'.toNat] ++ rest = s.flatMap quotedCode ++ '"'.toNat :: rest := by simp
  have hlength := quotedLength?_flatMap s rest
  have hcomment := commentLength_of_ne (c := '"'.toNat) (by decide) (s.flatMap quotedCode ++ '"'.toNat :: rest)
  have hnumber := numberLength_of_ne (c := '"'.toNat) (by decide) (by decide) (s.flatMap quotedCode ++ '"'.toNat :: rest)
  have hfeed : '"'.toNat ≠ lineFeed := by decide
  have hspace : isSpace '"'.toNat = false := by decide
  rw [quoted, cons_append, cons_append, hbody]
  simp only [next, hcomment, hnumber, hfeed, hspace, hlength, ne_eq, not_true_eq_false, Bool.false_eq_true, if_false,
    true_or, if_true]
  simp

theorem next_blank (h : isSpace c) (rest : Text) : next (c :: rest) = (none, ((c :: rest).takeWhile isSpace).length) := by
  have hslash : c ≠ '/'.toNat := by
    rintro rfl
    cases h
  have hfeed : c ≠ lineFeed := by
    rintro rfl
    cases h
  simp only [next, commentLength_of_ne hslash, hfeed, h, ne_eq, not_true_eq_false, if_false, if_true]

/-- A code point that begins no comment, number or text, and is no blank. -/
abbrev Ordinary (c : CodePoint) : Prop :=
  c ≠ '/'.toNat ∧ isDecimal c = false ∧ c ≠ '.'.toNat ∧ c ≠ lineFeed ∧ isSpace c = false ∧
    ¬ (c = '"'.toNat ∨ c = '\''.toNat) ∧ c ≠ 0x60

theorem next_of_startsName (h : Ordinary c) (hname : startsName c) (rest : Text) :
    next (c :: rest) = (some .name, ((c :: rest).takeWhile continuesName).length) := by
  obtain ⟨hslash, hdigit, hpoint, hfeed, hspace, hquote, htick⟩ := h
  simp only [next, commentLength_of_ne hslash, numberLength_of_ne hdigit hpoint, hfeed, hspace, hquote, htick, hname,
    ne_eq, not_true_eq_false, Bool.false_eq_true, if_false, if_true]

theorem next_of_not_startsName (h : Ordinary c) (hname : startsName c = false) (rest : Text) :
    next (c :: rest) = (operators.find? (·.isPrefixOf (c :: rest))).elim
      (if c ∈ marks then (some .punctuation, 1) else (some .stray, 1)) fun op => (some .operator, op.length) := by
  obtain ⟨hslash, hdigit, hpoint, hfeed, hspace, hquote, htick⟩ := h
  simp only [next, commentLength_of_ne hslash, numberLength_of_ne hdigit hpoint, hfeed, hspace, hquote, htick, hname,
    ne_eq, not_true_eq_false, Bool.false_eq_true, if_false]
  cases operators.find? (·.isPrefixOf (c :: rest)) <;> rfl

theorem find?_operators (h : ∀ op ∈ operators, op.head? ≠ some c) (rest : Text) :
    operators.find? (·.isPrefixOf (c :: rest)) = none := by
  rw [find?_eq_none]
  intro op hop hbegins
  cases op with
  | nil => exact absurd hop (by decide)
  | cons d op =>
    simp only [isPrefixOf, Bool.and_eq_true, beq_iff_eq] at hbegins
    exact h _ hop (by rw [hbegins.1]; rfl)

theorem next_mark (h : c ∈ "()[]\x7b\x7d,:".codes) (rest : Text) : next (c :: rest) = (some .punctuation, 1) := by
  have hmarks : ∀ c ∈ "()[]\x7b\x7d,:".codes, Ordinary c ∧ startsName c = false ∧
      (∀ op ∈ operators, op.head? ≠ some c) ∧ c ∈ marks := by
    decide
  obtain ⟨hordinary, hname, hoperator, hmark⟩ := hmarks c h
  rw [next_of_not_startsName hordinary hname, find?_operators hoperator]
  exact if_pos hmark

theorem find?_operators_minus (h : isAsciiDigit d) (rest : Text) :
    operators.find? (·.isPrefixOf ('-'.toNat :: d :: rest)) = some "-".codes := by
  have hdigit : 48 ≤ d ∧ d ≤ 57 := by simpa [isAsciiDigit] using h
  have hminus : (45 == d) = false := beq_eq_false_iff_ne.mpr (Nat.ne_of_lt (Nat.lt_of_lt_of_le (by decide) hdigit.1))
  have hequal : (61 == d) = false := beq_eq_false_iff_ne.mpr (Nat.ne_of_gt (Nat.lt_of_le_of_lt hdigit.2 (by decide)))
  simp [operators, String.codes, isPrefixOf, hminus, hequal]

theorem next_minus (h : isAsciiDigit d) (rest : Text) : next ('-'.toNat :: d :: rest) = (some .operator, 1) := by
  rw [next_of_not_startsName (by decide) (by decide), find?_operators_minus h]
  rfl

/-- A letter, an underscore or a dollar sign, followed by any of these and by digits. -/
def isName : Text → Bool
  | [] => false
  | c :: rest => startsName c && rest.all continuesName

theorem lt_of_continuesName (h : continuesName c) : c < 128 := by
  simp only [continuesName, startsName, isAsciiLetter, isAsciiDigit, Bool.or_eq_true, Bool.and_eq_true, decide_eq_true_eq,
    beq_iff_eq] at h
  rcases h with (((h | h) | rfl) | rfl) | h
  · exact Nat.lt_of_le_of_lt h.2 (by decide)
  · exact Nat.lt_of_le_of_lt h.2 (by decide)
  · decide
  · decide
  · exact Nat.lt_of_le_of_lt h.2 (by decide)

theorem continuesName_of_isName (h : isName x) : ∀ c ∈ x, continuesName c := by
  cases x with
  | nil => exact nofun
  | cons c x =>
    simp only [isName, Bool.and_eq_true, all_eq_true] at h
    rw [forall_mem_cons, continuesName, h.1, Bool.true_or]
    exact ⟨rfl, h.2⟩

theorem next_name (h : isName x) (hrest : rest.Stops) : next (x ++ rest) = (some .name, x.length) := by
  have htaken := takeWhile_of_stops (continuesName_of_isName h) hrest (by decide)
  cases x with
  | nil => cases h
  | cons c x =>
    have hordinary : ∀ c < 128, startsName c → Ordinary c := by decide
    have hc := lt_of_continuesName (continuesName_of_isName h c mem_cons_self)
    simp only [isName, Bool.and_eq_true] at h
    rw [cons_append] at htaken ⊢
    rw [next_of_startsName (hordinary c hc h.1) h.1, htaken]

theorem numberLength_ofNat (n : Nat) (hrest : rest.Stops) : numberLength (ofNat n ++ rest) = (ofNat n).length := by
  have hcount : digitCount (ofNat n ++ rest) = (ofNat n).length := by
    rw [digitCount, takeWhile_of_stops (fun c hc => isDecimal_of_isAsciiDigit (isAsciiDigit_of_mem_ofNat hc)) hrest
      (by decide)]
  have hexponent : exponentLength rest = 0 := by
    cases rest with
    | nil => rfl
    | cons c rest =>
      have hmark : ∀ c ∈ delimiters, ¬ (c = 'e'.toNat ∨ c = 'E'.toNat) := by decide
      exact if_neg (hmark c (hrest c rfl))
  have hmantissa : mantissaLength (ofNat n ++ rest) = (ofNat n).length := by
    simp only [mantissaLength, hcount, drop_left]
    cases rest with
    | nil => rfl
    | cons c rest =>
      have hmark : ∀ c ∈ delimiters, c ≠ '.'.toNat := by decide
      exact if_neg fun h => hmark c (hrest c rfl) h.1
  have hpos : (ofNat n).length ≠ 0 := fun h => ofNat_ne_nil n (length_eq_zero_iff.mp h)
  simp only [numberLength, hmantissa, hpos, drop_left, hexponent, if_false, Nat.add_zero]

theorem next_number (n : Nat) (hrest : rest.Stops) : next (ofNat n ++ rest) = (some .number, (ofNat n).length) := by
  have hnumber := numberLength_ofNat n hrest
  have hpos : (ofNat n).length ≠ 0 := fun h => ofNat_ne_nil n (length_eq_zero_iff.mp h)
  cases hdigits : ofNat n with
  | nil => exact absurd hdigits (ofNat_ne_nil n)
  | cons c digits =>
    have hdigit : isAsciiDigit c := isAsciiDigit_of_mem_ofNat (hdigits ▸ mem_cons_self)
    have hbounds : 48 ≤ c ∧ c ≤ 57 := by simpa [isAsciiDigit] using hdigit
    have hplain : ∀ c < 58, 48 ≤ c → c ≠ '/'.toNat ∧ c ≠ lineFeed ∧ isSpace c = false := by decide
    obtain ⟨hslash, hfeed, hspace⟩ := hplain c (Nat.lt_succ_of_le hbounds.2) hbounds.1
    rw [hdigits, cons_append] at hnumber
    rw [hdigits] at hpos
    simp only [cons_append, next, commentLength_of_ne hslash, hfeed, hspace, hnumber, hpos, ne_eq,
      not_true_eq_false, not_false_eq_true, Bool.false_eq_true, if_false, if_true]

/-- The text is one lexeme of the given class when `rest` follows it. -/
structure Stands (kind : TokenKind) (s rest : Text) : Prop where
  next : next (s ++ rest) = (some kind, s.length)
  nonempty : s ≠ []
  unbroken : 10 ∉ s
  seen : kind ≠ .newline ∧ kind ≠ .eof

theorem stands_quoted (s rest : Text) : Stands .string s.quoted rest :=
  ⟨next_quoted s rest, by simp [quoted], feed_not_mem_quoted s, by decide⟩

theorem stands_mark (h : c ∈ "()[]\x7b\x7d,:".codes) (rest : Text) : Stands .punctuation [c] rest := by
  have hfeed : ∀ c ∈ "()[]\x7b\x7d,:".codes, 10 ∉ [c] := by decide
  exact ⟨next_mark h rest, by simp, hfeed c h, by decide⟩

theorem stands_minus (n : Nat) (rest : Text) : Stands .operator "-".codes (ofNat n ++ rest) := by
  refine ⟨?_, by decide, by decide, by decide⟩
  cases hdigits : ofNat n with
  | nil => exact absurd hdigits (ofNat_ne_nil n)
  | cons d digits => exact next_minus (isAsciiDigit_of_mem_ofNat (hdigits ▸ mem_cons_self)) (digits ++ rest)

theorem stands_number (n : Nat) (hrest : rest.Stops) : Stands .number (ofNat n) rest :=
  ⟨next_number n hrest, ofNat_ne_nil n, fun h => absurd (isAsciiDigit_of_mem_ofNat h) (by decide), by decide⟩

theorem stands_name (h : isName x) (hrest : rest.Stops) : Stands .name x rest := by
  refine ⟨next_name h hrest, ?_, ?_, by decide⟩
  · rintro rfl
    cases h
  · exact fun hfeed => absurd (continuesName_of_isName h 10 hfeed) (by decide)

theorem Stands.plain {kind : TokenKind} (h : Stands kind s rest) : ∀ c ∈ s.head?, isSpace c = false := by
  intro c hc
  cases s with
  | nil => cases hc
  | cons d s =>
    obtain rfl : d = c := Option.some.inj hc
    by_contra hspace
    rw [Bool.not_eq_false] at hspace
    have hnext := h.next
    rw [cons_append, next_blank hspace] at hnext
    cases hnext

end Lexeme

namespace Token

variable {s rest : Text}

theorem scanFrom_skip (hfeed : 10 ∉ s) (rest : Text) (line col : Nat) :
    scanFrom (s ++ rest) s.length line col = scanFrom rest 0 line (col + s.length) := by
  induction s generalizing col with
  | nil => rfl
  | cons c s ih =>
    have hc : c ≠ Lexeme.lineFeed := fun h => hfeed (h ▸ mem_cons_self)
    have hskip := ih (fun h => hfeed (mem_cons_of_mem c h)) (col + 1)
    rw [cons_append, length_cons, scanFrom, if_neg hc, if_neg hc, hskip, Nat.add_assoc, Nat.add_comm 1]

/-- The tokens that the grammar sees from a given line and column on. -/
def seenFrom (s : Text) (line col : Nat) : List Token := Reader.significant (scanFrom s 0 line col)

theorem seenFrom_append {kind : TokenKind} (h : Lexeme.Stands kind s rest) (line col : Nat) :
    seenFrom (s ++ rest) line col = ⟨kind, s, line, col⟩ :: seenFrom rest line (col + s.length) := by
  cases s with
  | nil => exact absurd rfl h.nonempty
  | cons c s =>
    have hfeed : c ≠ Lexeme.lineFeed := fun hc => h.unbroken (hc ▸ mem_cons_self)
    have hskip := scanFrom_skip (fun hs => h.unbroken (mem_cons_of_mem c hs)) rest line (col + 1)
    have htake : (c :: (s ++ rest)).take (s.length + 1) = c :: s := by simp
    have hnext := h.next
    rw [cons_append] at hnext ⊢
    rw [seenFrom, scanFrom, hnext, if_neg hfeed, if_neg hfeed]
    simp only [length_cons, Nat.add_sub_cancel]
    rw [hskip, htake, Nat.add_assoc, Nat.add_comm 1]
    simp [seenFrom, Reader.significant, h.seen.1, h.seen.2]

end Token

end Stepwise
