import Mathlib.Data.List.Basic
import Stepwise.Proofs.RoundTrip

/-!
# Reading JSON back

The JSON reader takes the text of a datum and gives the datum again (`Writing.Sound.readValue`): quoted texts by their
escapes, integers by their digits, arrays and objects part by part. So `JSON.parse` undoes `JSON.stringify`, except for
what JSON does not have.
-/

namespace Stepwise

open List

/-! ### Data without infinite numbers -/

namespace Datum

mutual

/-- The datum with null in place of NaN and the infinities. -/
def finite : Datum → Datum
  | .num (.float x) => if x.isNaN || x.isInf then .null else .num (.float x)
  | .array items => .array (finiteItems items)
  | .object entries => .object (finiteEntries entries)
  | d => d

def finiteItems : List Datum → List Datum
  | [] => []
  | item :: rest => item.finite :: finiteItems rest

def finiteEntries : List (Text × Datum) → List (Text × Datum)
  | [] => []
  | (key, value) :: rest => (key, value.finite) :: finiteEntries rest

end

theorem isAbsent_finite (d : Datum) : d.finite.isAbsent = d.isAbsent := by
  cases d with
  | num n =>
    cases n with
    | int n => rfl
    | float x =>
      rw [finite]
      split <;> rfl
  | _ => rfl

mutual

theorem stringify_finite : (d : Datum) → d.finite.stringify = d.stringify
  | .num (.float x) => by
    rw [finite]
    split
    case isTrue h => simp only [stringify, h, if_true]
    case isFalse => rfl
  | .array items => by rw [finite, stringify, stringify, stringifyItems_finite items]
  | .object entries => by rw [finite, stringify, stringify, stringifyEntries_finite entries]
  | .undefined | .null | .bool _ | .num (.int _) | .text _ | .function _ => rfl

theorem stringifyItems_finite : (items : List Datum) → stringifyItems (finiteItems items) = stringifyItems items
  | [] => rfl
  | item :: rest => by rw [finiteItems, stringifyItems, stringifyItems, stringify_finite item, stringifyItems_finite rest]

theorem stringifyEntries_finite : (entries : List (Text × Datum)) →
    stringifyEntries (finiteEntries entries) = stringifyEntries entries
  | [] => rfl
  | (key, value) :: rest => by
    rw [finiteEntries, stringifyEntries, stringifyEntries, stringify_finite value, stringifyEntries_finite rest]

end

end Datum

/-! ### Texts -/

namespace Json

open Text

variable {c d : CodePoint} {read s t rest : Text}

theorem readTextFrom_skip (read s t : Text) : readTextFrom read (s ++ t) s.length = readTextFrom read t 0 := by
  induction s with
  | nil => rfl
  | cons c s ih => exact ih

theorem readTextFrom_plain (hquote : c ≠ '"'.toNat) (hbackslash : c ≠ '\\'.toNat) (hcontrol : ¬ c < 32) :
    readTextFrom read (c :: t) 0 = readTextFrom (c :: read) t 0 := by
  rw [readTextFrom, if_neg hquote, if_neg hbackslash, if_neg hcontrol]

theorem readTextFrom_escape (h : escape (s ++ t) = .ok (c, s.length)) :
    readTextFrom read ('\\'.toNat :: (s ++ t)) 0 = readTextFrom (c :: read) t 0 := by
  rw [readTextFrom, if_neg (by decide), if_pos rfl, h]
  exact readTextFrom_skip (c :: read) s t

theorem escape_letter (hu : d ≠ 'u'.toNat) (h : letterOf? d = some c) (t : Text) : escape (d :: t) = .ok (c, 1) := by
  rw [escape, if_neg hu, h]
  rfl

theorem escape_number (hc : c < 32) (ht : t ≠ []) : escape ('u'.toNat :: (hexDigits 4 c ++ t)) = .ok (c, 5) := by
  have hdigits : ∀ c < 32, (hexDigits 4 c).length = 4 ∧ hexNumber? (hexDigits 4 c) = some c ∧ isHighSurrogate c = false := by
    decide
  obtain ⟨hlength, hvalue, hplain⟩ := hdigits c hc
  have hdrop : (hexDigits 4 c ++ t).drop 4 = t := drop_left' hlength
  have htake : (hexDigits 4 c ++ t).take 4 = hexDigits 4 c := take_left' hlength
  have hsome : t.isEmpty = false := by simpa using ht
  have hcode : codeEscape (hexDigits 4 c ++ t) = .ok (c, 4) := by
    simp only [codeEscape, hdrop, htake, hsome, hvalue, hplain, Bool.false_and]
    rfl
  rw [escape, if_pos rfl, hcode]
  rfl

theorem readTextFrom_quotedCode (c : CodePoint) (read : Text) (ht : t ≠ []) :
    readTextFrom read (quotedCode c ++ t) 0 = readTextFrom (c :: read) t 0 := by
  unfold quotedCode
  split
  case isTrue h =>
    refine readTextFrom_escape (s := [c]) (escape_letter ?_ ?_ t)
    · rcases h with rfl | rfl <;> decide
    · rcases h with rfl | rfl <;> rfl
  case isFalse hspecial =>
    rw [not_or] at hspecial
    split
    case isTrue hcontrol =>
      have hletters : ∀ c < 32, ∀ d ∈ letterEscape? c, d ≠ 'u'.toNat ∧ letterOf? d = some c := by decide
      split
      case h_1 d hd =>
        obtain ⟨hu, hletter⟩ := hletters c hcontrol d hd
        exact readTextFrom_escape (s := [d]) (escape_letter hu hletter t)
      case h_2 =>
        have hescape := escape_number hcontrol ht
        exact readTextFrom_escape (s := 'u'.toNat :: hexDigits 4 c) (by exact hescape)
    case isFalse hcontrol => exact readTextFrom_plain hspecial.1 hspecial.2 hcontrol

theorem readTextFrom_flatMap (s read rest : Text) :
    readTextFrom read (s.flatMap quotedCode ++ '"'.toNat :: rest) 0 = .ok (read.reverse ++ s, rest) := by
  induction s generalizing read with
  | nil =>
    rw [flatMap_nil, nil_append, append_nil, readTextFrom, if_pos rfl]
    rfl
  | cons c s ih =>
    rw [flatMap_cons, append_assoc, readTextFrom_quotedCode c read (by simp), ih]
    simp

end Json

/-! ### Numbers -/

namespace Text

theorem head?_ofNat {n : Nat} (h : 0 < n) : (ofNat n).head? ≠ some '0'.toNat := by
  induction n using Nat.strongRecOn with
  | ind n ih =>
    by_cases hsmall : n < 10
    · have hdigit : ∀ n < 10, 0 < n → n.digitChar.toNat ≠ '0'.toNat := by decide
      rw [ofNat, Nat.toDigits_of_lt_base hsmall]
      simpa using hdigit n hsmall h
    · have hrest := ih (n / 10) (by omega) (by omega)
      rw [ofNat, Nat.toDigits_of_base_le (by decide) (by omega), map_append, head?_append_of_ne_nil]
      · exact hrest
      · exact ofNat_ne_nil (n / 10)

end Text

namespace Json

open Text

variable {rest sign : Text}

theorem wholeLength?_ofNat (n : Nat) (hrest : rest.Stops) : wholeLength? (ofNat n ++ rest) = some (ofNat n).length := by
  rcases Nat.eq_zero_or_pos n with rfl | hpos
  · rfl
  · have hfirst := head?_ofNat hpos
    have hdigits : ∀ c ∈ ofNat n, isAsciiDigit c := fun c hc => isAsciiDigit_of_mem_ofNat hc
    cases hn : ofNat n with
    | nil => exact absurd hn (ofNat_ne_nil n)
    | cons c digits =>
      rw [hn] at hfirst hdigits
      have hzero : c ≠ '0'.toNat := fun hc => hfirst (congrArg some hc)
      have htaken : (digits ++ rest).takeWhile isAsciiDigit = digits :=
        Lexeme.takeWhile_of_stops (fun d hd => hdigits d (mem_cons_of_mem c hd)) hrest (by decide)
      rw [cons_append, wholeLength?, if_neg hzero, if_pos (hdigits c mem_cons_self), htaken, length_cons,
        Nat.add_comm]

theorem fractionLength_of_stops (hrest : rest.Stops) : fractionLength rest = 0 := by
  cases rest with
  | nil => rfl
  | cons c rest =>
    have hmarks : ∀ c ∈ delimiters, c ≠ '.'.toNat := by decide
    exact if_neg fun h => hmarks c (hrest c rfl) h.1

theorem exponentLength_of_stops (hrest : rest.Stops) : exponentLength rest = 0 := by
  cases rest with
  | nil => rfl
  | cons c rest =>
    have hmarks : ∀ c ∈ delimiters, ¬ (c = 'e'.toNat ∨ c = 'E'.toNat) := by decide
    exact if_neg (hmarks c (hrest c rfl))

theorem numberLength?_append (hsign : sign = [] ∨ sign = "-".codes) (n : Nat) (hrest : rest.Stops) :
    numberLength? (sign ++ (ofNat n ++ rest)) = some ((sign ++ ofNat n).length, false) := by
  have hhead : (if (sign ++ (ofNat n ++ rest)).head? = some '-'.toNat then 1 else 0) = sign.length := by
    rcases hsign with rfl | rfl
    · refine if_neg fun h => ?_
      rw [nil_append, head?_append_of_ne_nil _ (ofNat_ne_nil n)] at h
      exact absurd (isAsciiDigit_of_mem_ofNat (mem_of_head? h)) (by decide)
    · rfl
  have hwhole := wholeLength?_ofNat n hrest
  simp only [numberLength?, hhead, drop_left, hwhole, Option.bind_eq_bind, Option.bind_some,
    fractionLength_of_stops hrest, exponentLength_of_stops hrest, Nat.add_zero, length_append]
  rfl

theorem find?_words (hsign : sign = [] ∨ sign = "-".codes) (n : Nat) (rest : Text) :
    words.find? (·.1.isPrefixOf (sign ++ (ofNat n ++ rest))) = none := by
  obtain ⟨d, digits, hn⟩ := exists_cons_of_ne_nil (ofNat_ne_nil n)
  have hd : isAsciiDigit d := isAsciiDigit_of_mem_ofNat (hn ▸ mem_cons_self)
  rw [find?_eq_none, hn]
  intro entry hentry hbegins
  obtain ⟨t, ht⟩ := isPrefixOf_iff_prefix.mp hbegins
  rcases hsign with rfl | rfl
  · have hfirst : ∀ entry ∈ words, entry.1 ≠ [] ∧ ∀ c ∈ entry.1.head?, isAsciiDigit c = false := by decide
    obtain ⟨hne, hletter⟩ := hfirst entry hentry
    obtain ⟨c, word, hword⟩ := exists_cons_of_ne_nil hne
    rw [hword] at ht hletter
    obtain rfl : c = d := (cons.inj ht).1
    exact absurd hd (by rw [hletter c rfl]; decide)
  · have hsecond : ∀ entry ∈ words, entry.1.tail ≠ [] ∧ ∀ c ∈ entry.1.tail.head?, isAsciiDigit c = false := by decide
    obtain ⟨hne, hletter⟩ := hsecond entry hentry
    obtain ⟨c, word, hword⟩ := exists_cons_of_ne_nil hne
    have htail := congrArg List.tail ht
    rw [tail_append_of_ne_nil fun h => hne (by rw [h]; rfl)] at htail
    rw [hword] at htail hletter
    obtain rfl : c = d := (cons.inj htail).1
    exact absurd hd (by rw [hletter c rfl]; decide)

theorem readValue_integer (hsign : sign = [] ∨ sign = "-".codes) {n : Nat} {k : Int}
    (hread : Numeral.readInt (sign ++ ofNat n) = .ok k) (hrest : rest.Stops) (fuel : Nat) :
    readValue (fuel + 1) (sign ++ (ofNat n ++ rest)) = .ok (.num (.int k), rest) := by
  have hlength := numberLength?_append hsign n hrest
  have hwords := find?_words hsign n rest
  have htake : (sign ++ (ofNat n ++ rest)).take (sign ++ ofNat n).length = sign ++ ofNat n := by
    rw [← append_assoc, take_left]
  have hdrop : (sign ++ (ofNat n ++ rest)).drop (sign ++ ofNat n).length = rest := by
    rw [← append_assoc, drop_left]
  have hvalue : numberOf (sign ++ ofNat n) false = .ok (.int k) := by
    simp only [numberOf, hread, Bool.false_eq_true, if_false]
  have hfirst : ∀ c ∈ (sign ++ (ofNat n ++ rest)).head?, c ≠ '"'.toNat ∧ c ≠ 0x7b ∧ c ≠ '['.toNat := by
    intro c hc
    rcases hsign with rfl | rfl
    · rw [nil_append, head?_append_of_ne_nil _ (ofNat_ne_nil n)] at hc
      have hdigit := isAsciiDigit_of_mem_ofNat (mem_of_head? hc)
      refine ⟨?_, ?_, ?_⟩ <;> rintro rfl <;> exact absurd hdigit (by decide)
    · obtain rfl : '-'.toNat = c := Option.some.inj hc
      decide
  cases hs : sign ++ (ofNat n ++ rest) with
  | nil => simp [ofNat_ne_nil n] at hs
  | cons c s =>
    rw [hs] at hlength hwords htake hdrop hfirst
    obtain ⟨hquote, hbrace, hbracket⟩ := hfirst c rfl
    rw [readValue, if_neg hquote, if_neg hbrace, if_neg hbracket]
    simp only [hwords, hlength, htake, hdrop, hvalue]
    rfl

theorem skipSpace_of_head? {s : Text} (h : ∀ c ∈ s.head?, isSpace c = false) : skipSpace s = s := by
  cases s with
  | nil => rfl
  | cons c s => simp [skipSpace, h c rfl]

variable {α β γ : Type} {fuel : Nat} {s t : Text} {j : Json} {js : List Json} {es : List (Text × Json)}
  {closer : CodePoint}

theorem readTextFrom_quoted (s rest : Text) : readTextFrom [] (s.quoted ++ rest).tail 0 = .ok (s, rest) := by
  have hbody : (s.quoted ++ rest).tail = s.flatMap quotedCode ++ '"'.toNat :: rest := by simp [quoted]
  rw [hbody, readTextFrom_flatMap]
  rfl

theorem readValue_quoted (s rest : Text) (fuel : Nat) : readValue (fuel + 1) (s.quoted ++ rest) = .ok (.text s, rest) := by
  change (readTextFrom [] (s.quoted ++ rest).tail 0 >>= fun r => pure (Json.text r.1, r.2)) = _
  rw [readTextFrom_quoted]
  rfl

/-- What a list of parts goes on with after a part: the closer, or a comma and more parts. -/
def readMore (closer : CodePoint) (more : Text → Except JsonError (List β × Text)) (part : β) (after : Text) :
    Except JsonError (List β × Text) :=
  match skipSpace after with
  | c :: rest =>
    if c = closer then return ([part], rest)
    else if c = ','.toNat then do
      let (parts, after) ← more (skipSpace rest)
      return (part :: parts, after)
    else throw .expectedComma
  | [] => throw .expectedComma

theorem readMore_comma (hcloser : closer = ']'.toNat ∨ closer = 0x7d)
    {more : Text → Except JsonError (List β × Text)} {parts : List β} (hs : skipSpace s = s)
    (h : more s = .ok (parts, rest)) (part : β) :
    readMore closer more part (",".codes ++ s) = .ok (part :: parts, rest) := by
  rcases hcloser with rfl | rfl
  all_goals
    change (more (skipSpace s) >>= fun r => pure (part :: r.1, r.2)) = _
    rw [hs, h]
    rfl

theorem readItems_of_value (h : readValue fuel s = .ok (j, t)) :
    readItems (fuel + 1) s = readMore ']'.toNat (readItems fuel) j t := by
  rw [readItems, h]
  rfl

theorem readEntries_of_value {key : Text} (h : readValue fuel s = .ok (j, t)) (hs : skipSpace s = s) :
    readEntries (fuel + 1) (key.quoted ++ (":".codes ++ s)) = readMore 0x7d (readEntries fuel) (key, j) t := by
  have hkey := readTextFrom_quoted key (":".codes ++ s)
  have hfirst : (key.quoted ++ (":".codes ++ s)).head? = some '"'.toNat := rfl
  rw [readEntries, hfirst, hkey]
  change (readValue fuel (skipSpace s) >>= _) = _
  rw [hs, h]
  rfl

theorem join_begins {P : Text → Prop} (h : ∀ t, P (s ++ t)) (ss : List Text) (t : Text) :
    P (join ",".codes (s :: ss) ++ t) := by
  obtain ⟨u, hu⟩ := exists_join_eq ",".codes s ss
  rw [hu, append_assoc]
  exact h (u ++ t)

/-- Parts that are joined with commas are read one after another. -/
theorem read_joined {read : Nat → Text → Except JsonError (List β × Text)} {text : α → Text} {f : α → γ} {g : β → γ}
    (hcloser : closer = ']'.toNat ∨ closer = 0x7d) {x : α} {xs : List α}
    (hskip : ∀ x' ∈ x :: xs, ∀ t, skipSpace (text x' ++ t) = text x' ++ t)
    (hpart : ∀ x' ∈ x :: xs, ∀ fuel t, t.Stops → 2 * (text x').length ≤ fuel + 1 →
      ∃ y, read (fuel + 2) (text x' ++ t) = readMore closer (read (fuel + 1)) y t ∧ g y = f x')
    (hfuel : 2 * (join ",".codes ((x :: xs).map text)).length + 2 ≤ fuel) :
    ∃ ys, read fuel (join ",".codes ((x :: xs).map text) ++ closer :: rest) = .ok (ys, rest) ∧
      ys.map g = (x :: xs).map f := by
  induction xs generalizing x fuel with
  | nil =>
    simp only [join, map_cons, map_nil, intercalate_singleton] at hfuel ⊢
    obtain ⟨fuel, rfl⟩ : ∃ k, fuel = k + 2 := ⟨fuel - 2, by omega⟩
    have hstops : Stops (closer :: rest) := stops_cons (by rcases hcloser with rfl | rfl <;> decide) rest
    obtain ⟨y, hy, hpart⟩ := hpart x mem_cons_self fuel (closer :: rest) hstops (by omega)
    refine ⟨[y], hy.trans ?_, congrArg ([·]) hpart⟩
    rcases hcloser with rfl | rfl <;> rfl
  | cons x' xs ih =>
    have hcomma : length ",".codes = 1 := by decide
    have hnext := join_begins (P := fun s => skipSpace s = s) (hskip x' (by simp)) (xs.map text) (closer :: rest)
    simp only [join, map_cons, intercalate_cons_cons, append_assoc, length_append] at hfuel hnext ⊢
    obtain ⟨fuel, rfl⟩ : ∃ k, fuel = k + 2 := ⟨fuel - 2, by omega⟩
    obtain ⟨ys, hys, hparts⟩ := ih (fun z hz => hskip z (mem_cons_of_mem x hz)) (fun z hz => hpart z (mem_cons_of_mem x hz))
      (show 2 * (join ",".codes ((x' :: xs).map text)).length + 2 ≤ fuel + 1 by simp only [join, map_cons]; omega)
    obtain ⟨y, hy, hpart⟩ := hpart x mem_cons_self fuel (",".codes ++ _) (stops_cons (by decide) _) (by omega)
    exact ⟨y :: ys, hy.trans (readMore_comma hcloser hnext hys y), congrArg₂ cons hpart hparts⟩

theorem readValue_array (hs : skipSpace s = s) (hopen : s.head? ≠ some ']'.toNat) (h : readItems fuel s = .ok (js, rest)) :
    readValue (fuel + 1) ("[".codes ++ s) = .ok (.array js, rest) := by
  change (if (skipSpace s).head? = some ']'.toNat then _ else readItems fuel (skipSpace s) >>= fun r => pure (Json.array r.1, r.2)) = _
  rw [hs, if_neg hopen, h]
  rfl

theorem readValue_object (hs : skipSpace s = s) (hopen : s.head? ≠ some 0x7d) (h : readEntries fuel s = .ok (es, rest))
    (hdistinct : (es.map Prod.fst).Nodup) : readValue (fuel + 1) ("\x7b".codes ++ s) = .ok (.object es, rest) := by
  change (if (skipSpace s).head? = some 0x7d then _ else
    readEntries fuel (skipSpace s) >>= fun r => pure (Json.object (OrderedMap.ofList r.1).toList, r.2)) = _
  rw [hs, if_neg hopen, h]
  change Except.ok (Json.object (OrderedMap.ofList es).toList, rest) = _
  rw [OrderedMap.toList_ofList hdistinct]

end Json

theorem Numeral.readInt_minus {n : Nat} (h : (Text.ofNat n).length ≤ digitLimit) :
    readInt ("-".codes ++ Text.ofNat n) = .ok (-n) := by
  have hdigits : ∀ c ∈ Text.ofNat n, Text.isDecimal c := fun c hc =>
    Text.isDecimal_of_isAsciiDigit (Text.isAsciiDigit_of_mem_ofNat hc)
  have hstrip : stripMargin ("-".codes ++ Text.ofNat n) = "-".codes ++ Text.ofNat n := by
    refine stripMargin_of_forall fun c hc => ?_
    rcases mem_append.mp hc with hc | hc
    · have hminus : ∀ c ∈ "-".codes, isMargin c = false := by decide
      exact hminus c hc
    · exact (plain_of_isDecimal (hdigits c hc)).1
  have hsign : splitSign (stripMargin ("-".codes ++ Text.ofNat n)) = (true, Text.ofNat n) := by
    rw [hstrip]
    rfl
  rw [readInt_of_splitSign hsign hdigits (Text.ofNat_ne_nil n), checkDigits_of_le h, natural?_ofNat]
  rfl

/-! ### Data -/

namespace Writing

open Json

variable {w : Writing} {rest : Text} {items : List Writing} {entries : List (Text × Writing)}

/-- The JSON reader takes the text, in front of what may follow it, and finds the datum. -/
def Reread (w : Writing) : Prop :=
  ∀ fuel rest, rest.Stops → 2 * w.text.length ≤ fuel + 1 →
    ∃ j, readValue (fuel + 1) (w.text ++ rest) = .ok (j, rest) ∧ Datum.ofJson j = w.datum

theorem Sound.head? (h : w.Sound) : ∃ c, w.text.head? = some c ∧ isSpace c = false ∧ c ≠ ']'.toNat ∧ c ≠ 0xfeff := by
  cases h with
  | null => exact ⟨'n'.toNat, by decide⟩
  | bool b => cases b <;> exact ⟨_, rfl, by decide⟩
  | @natural n small =>
    obtain ⟨c, digits, hn⟩ := List.exists_cons_of_ne_nil (Text.ofNat_ne_nil n)
    have hdigit : Text.isAsciiDigit c := Text.isAsciiDigit_of_mem_ofNat (hn ▸ List.mem_cons_self)
    have hbounds : 48 ≤ c ∧ c ≤ 57 := by simpa [Text.isAsciiDigit] using hdigit
    have hall : ∀ c < 58, 48 ≤ c → isSpace c = false ∧ c ≠ ']'.toNat ∧ c ≠ 0xfeff := by decide
    exact ⟨c, congrArg List.head? hn, hall c (Nat.lt_succ_of_le hbounds.2) hbounds.1⟩
  | negative positive small => exact ⟨'-'.toNat, rfl, by decide⟩
  | text s => exact ⟨'"'.toNat, rfl, by decide⟩
  | array sound => exact ⟨'['.toNat, rfl, by decide⟩
  | object distinct sound => exact ⟨0x7b, rfl, by decide⟩

theorem Sound.skipSpace (h : w.Sound) (rest : Text) : Json.skipSpace (w.text ++ rest) = w.text ++ rest := by
  obtain ⟨c, hc, hspace, -⟩ := h.head?
  refine skipSpace_of_head? fun d hd => ?_
  rw [head?_append, hc] at hd
  obtain rfl : c = d := Option.some.inj hd
  exact hspace

theorem ofJsonItems_eq_map (js : List Json) : Datum.ofJsonItems js = js.map Datum.ofJson := by
  induction js with
  | nil => rfl
  | cons j js ih => rw [Datum.ofJsonItems, ih, map_cons]

theorem ofJsonEntries_eq_map (es : List (Text × Json)) :
    Datum.ofJsonEntries es = es.map (Prod.map id Datum.ofJson) := by
  induction es with
  | nil => rfl
  | cons e es ih => exact congrArg ((e.1, Datum.ofJson e.2) :: ·) ih

theorem reread_array (hsound : ∀ x ∈ items, x.Sound) (hread : ∀ x ∈ items, x.Reread) (fuel : Nat)
    (rest : Text) (hfuel : 2 * (Text.join ",".codes (items.map Writing.text)).length + 2 ≤ fuel) :
    ∃ js, readValue (fuel + 1) ("[".codes ++ (Text.join ",".codes (items.map Writing.text) ++ ("]".codes ++ rest))) =
      .ok (.array js, rest) ∧ Datum.ofJsonItems js = items.map datum := by
  cases items with
  | nil => exact ⟨[], rfl, rfl⟩
  | cons x items =>
    obtain ⟨js, hjs, hdata⟩ := read_joined (.inl rfl) (fun y hy => (hsound y hy).skipSpace) (fun y hy fuel t ht hfuel => by
      obtain ⟨j, hj, hdatum⟩ := hread y hy fuel t ht hfuel
      exact ⟨j, readItems_of_value hj, hdatum⟩) hfuel
    have hx := hsound x mem_cons_self
    have hskip := join_begins (P := fun s => Json.skipSpace s = s) hx.skipSpace
    have hopen := join_begins (P := fun s => s.head? ≠ some ']'.toNat) (s := x.text) fun t => by
      obtain ⟨c, hc, -, hne, -⟩ := hx.head?
      rw [head?_append, hc]
      exact fun h => hne (Option.some.inj h)
    exact ⟨js, readValue_array (hskip _ _) (hopen _ _) hjs, (ofJsonItems_eq_map js).trans hdata⟩

theorem reread_object (hdistinct : (entries.map Prod.fst).Nodup)
    (hsound : ∀ x ∈ entries, x.2.Sound) (hread : ∀ x ∈ entries, x.2.Reread) (fuel : Nat) (rest : Text)
    (hfuel : 2 * (Text.join ",".codes (entries.map entry)).length + 2 ≤ fuel) :
    ∃ js, readValue (fuel + 1) ("\x7b".codes ++ (Text.join ",".codes (entries.map entry) ++ ("\x7d".codes ++ rest))) =
      .ok (.object js, rest) ∧ Datum.ofJsonEntries js = entries.map field := by
  cases entries with
  | nil => exact ⟨[], rfl, rfl⟩
  | cons e entries =>
    -- an entry begins with a quote
    obtain ⟨js, hjs, hdata⟩ := read_joined (f := field) (g := Prod.map id Datum.ofJson) (.inr rfl)
      (fun x hx t => rfl) (fun x hx fuel t ht hfuel => by
      rw [entry, length_append] at hfuel
      obtain ⟨j, hj, hdatum⟩ := hread x hx fuel t ht (by omega)
      refine ⟨(x.1, j), ?_, congrArg (x.1, ·) hdatum⟩
      rw [entry, append_assoc, append_assoc]
      exact readEntries_of_value hj ((hsound x hx).skipSpace t)) hfuel
    have hskip := join_begins (P := fun s => Json.skipSpace s = s) (s := entry e) fun t => rfl
    have hopen := join_begins (P := fun s => s.head? ≠ some 0x7d) (s := entry e) fun t h =>
      absurd (Option.some.inj h) (by decide)
    have hkeys : js.map Prod.fst = (e :: entries).map Prod.fst := by
      have hfirst := congrArg (map Prod.fst) hdata
      rw [map_map, map_map] at hfirst
      exact hfirst
    exact ⟨js, readValue_object (hskip _ _) (hopen _ _) hjs (hkeys ▸ hdistinct), (ofJsonEntries_eq_map js).trans hdata⟩

theorem Sound.reread (h : w.Sound) : w.Reread := by
  induction h with
  | null => exact fun fuel rest hrest hfuel => ⟨.null, rfl, rfl⟩
  | bool b =>
    cases b with
    | true => exact fun fuel rest hrest hfuel => ⟨.bool true, rfl, rfl⟩
    | false => exact fun fuel rest hrest hfuel => ⟨.bool false, rfl, rfl⟩
  | @natural n small =>
    intro fuel rest hrest hfuel
    have hint := Numeral.readInt_ofNat n
    rw [Numeral.checkDigits_of_le (Text.length_ofNat_le small)] at hint
    exact ⟨.num (.int n), readValue_integer (.inl rfl) hint hrest fuel, rfl⟩
  | @negative n positive small =>
    intro fuel rest hrest hfuel
    have hint := Numeral.readInt_minus (Text.length_ofNat_le small)
    exact ⟨.num (.int (-n)), readValue_integer (.inr rfl) hint hrest fuel, rfl⟩
  | text s => exact fun fuel rest hrest hfuel => ⟨.text s, readValue_quoted s rest fuel, rfl⟩
  | array sound ih =>
    intro fuel rest hrest hfuel
    have hmarks : length "[".codes = 1 ∧ length "]".codes = 1 := by decide
    rw [length_append, length_append] at hfuel
    rw [append_assoc, append_assoc]
    obtain ⟨js, hjs, hdata⟩ := reread_array sound ih fuel rest (by omega)
    exact ⟨.array js, hjs, by rw [Datum.ofJson, hdata]⟩
  | object distinct sound ih =>
    intro fuel rest hrest hfuel
    have hmarks : length "\x7b".codes = 1 ∧ length "\x7d".codes = 1 := by decide
    rw [length_append, length_append] at hfuel
    rw [append_assoc, append_assoc]
    obtain ⟨js, hjs, hdata⟩ := reread_object distinct sound ih fuel rest (by omega)
    exact ⟨.object js, hjs, by rw [Datum.ofJson, hdata]⟩

theorem Sound.parseJson (h : w.Sound) : ∃ j, Json.parse w.text = .ok j ∧ Datum.ofJson j = w.datum := by
  obtain ⟨j, hj, hdatum⟩ := h.reread (2 * w.text.length + 1) [] (fun c hc => by cases hc) (by omega)
  obtain ⟨c, hc, -, -, hmark⟩ := h.head?
  have hskip := h.skipSpace []
  have hfirst : ¬ w.text.head? = some 0xfeff := fun hfirst => hmark (Option.mem_unique hc hfirst)
  rw [append_nil] at hj hskip
  refine ⟨j, ?_, hdatum⟩
  rw [Json.parse, if_neg hfirst, hskip, hj]
  rfl

/-! ### Values -/

theorem settledItems_eq_map (ds : List Datum) : Datum.settledItems ds = ds.map Datum.settled := by
  induction ds with
  | nil => rfl
  | cons d ds ih => rw [Datum.settledItems, ih, map_cons]

theorem settledEntries_eq_map (es : List (Text × Datum)) :
    Datum.settledEntries es = es.map fun e => (e.1, e.2.settled) := by
  induction es with
  | nil => rfl
  | cons e es ih => rw [Datum.settledEntries, ih, map_cons]

theorem Sound.settled (h : w.Sound) : w.datum.settled = w.datum := by
  induction h with
  | array sound ih =>
    rw [Datum.settled, settledItems_eq_map, map_map]
    exact congrArg Datum.array (map_congr_left ih)
  | object distinct sound ih =>
    rw [Datum.settled, settledEntries_eq_map, map_map]
    exact congrArg Datum.object (map_congr_left fun e he => congrArg (e.1, ·) (ih e he))
  | _ => rfl

/-- Putting the datum on a heap leaves what is there and shows it. -/
def Loads (w : Writing) : Prop :=
  ∀ h : Heap, h.Keeps (h.load w.datum).2 ∧ (h.load w.datum).2.Shows (h.load w.datum).2.next (h.load w.datum).1 w.datum

theorem load_items (hload : ∀ x ∈ items, x.Loads) (h : Heap) :
    h.Keeps (h.loadItems (items.map datum)).2 ∧
      (h.loadItems (items.map datum)).2.AllShow (h.loadItems (items.map datum)).1 (items.map datum) := by
  induction items generalizing h with
  | nil => exact ⟨.refl h, .nil⟩
  | cons x items ih =>
    obtain ⟨hkeeps, hshows⟩ := hload x mem_cons_self h
    obtain ⟨hkeeps', hshows'⟩ := ih (fun y hy => hload y (mem_cons_of_mem x hy)) (h.load x.datum).2
    exact ⟨hkeeps.trans hkeeps', .cons (hshows.keeps hkeeps') hshows'⟩

theorem load_entries (hload : ∀ e ∈ entries, e.2.Loads) (h : Heap) :
    h.Keeps (h.loadEntries (entries.map field)).2 ∧
      (h.loadEntries (entries.map field)).1.map Prod.fst = entries.map Prod.fst ∧
      (h.loadEntries (entries.map field)).2.AllShow ((h.loadEntries (entries.map field)).1.map Prod.snd)
        (entries.map fun e => e.2.datum) := by
  induction entries generalizing h with
  | nil => exact ⟨.refl h, rfl, .nil⟩
  | cons e entries ih =>
    obtain ⟨hkeeps, hshows⟩ := hload e mem_cons_self h
    obtain ⟨hkeeps', hkeys, hshows'⟩ := ih (fun x hx => hload x (mem_cons_of_mem e hx)) (h.load e.2.datum).2
    exact ⟨hkeeps.trans hkeeps', congrArg (e.1 :: ·) hkeys, .cons (hshows.keeps hkeeps') hshows'⟩

theorem Sound.loads (hx : w.Sound) : w.Loads := by
  intro h
  induction hx generalizing h with
  | null => exact ⟨.refl h, .plain rfl⟩
  | bool b => exact ⟨.refl h, .plain rfl⟩
  | natural small => exact ⟨.refl h, .plain rfl⟩
  | negative positive small => exact ⟨.refl h, .plain rfl⟩
  | text s =>
    have hshown : h.readTo 0 (.text s.packed) = .text s := congrArg Datum.text (Text.toList_packed s)
    have hplain : h.Shows h.next (.text s.packed) (h.readTo 0 (.text s.packed)) := .plain rfl
    rw [hshown] at hplain
    exact ⟨.refl h, hplain⟩
  | @array items sound ih =>
    obtain ⟨hkeeps, hshows⟩ := load_items ih h
    rw [← Sequence.toList_ofList (h.loadItems (items.map datum)).1] at hshows
    exact ⟨hkeeps.trans (Heap.keeps_alloc _ _), Heap.shows_alloc_array hshows 0⟩
  | @object entries distinct sound ih =>
    obtain ⟨hkeeps, hkeys, hshows⟩ := load_entries ih h
    have hlist : (OrderedMap.ofList (h.loadEntries (entries.map field)).1).toList = (h.loadEntries (entries.map field)).1 :=
      OrderedMap.toList_ofList (by rw [hkeys]; exact distinct)
    refine ⟨hkeeps.trans (Heap.keeps_alloc _ _), Heap.shows_alloc_object ?_ ?_⟩
    · rw [OrderedMap.keys, hlist, hkeys, map_map]
      rfl
    · rw [OrderedMap.values, hlist, map_map]
      exact hshows

end Writing

namespace Builtin

open Exec

variable {limit : Option Limit} {invoke : Callback} {w : World} {text : Text}

theorem outcome_stringify {v : Value} (h : (w.store.heap.read v).stringify = .ok (some text)) :
    (apply limit invoke .stringify [v]).outcome w = (.ok (.text text.packed), w) := by
  have hwritten : (liftM (w.store.heap.read v).stringify : Exec (Option Text)).outcome w = (.ok (some text), w) := by
    rw [h]
    rfl
  change ((liftM (w.store.heap.read v).stringify : Exec (Option Text)) >>= _).outcome w = _
  rw [outcome_bind_ok hwritten]
  rfl

theorem outcome_parseJson {j : Json} (h : Json.parse text = .ok j) (limit : Option Limit) (invoke : Callback) (w : World) :
    (apply limit invoke .parseJson [.text text.packed]).outcome w =
      (.ok (w.store.heap.load (Datum.ofJson j).settled).1, w.onHeap (w.store.heap.load (Datum.ofJson j).settled).2) := by
  have htext : (Exec.toText (.text text.packed)).outcome w = (.ok text, w) := by
    have hread : w.store.heap.toText (.text text.packed) = .ok text := congrArg Except.ok (Text.toList_packed text)
    change (liftM (w.store.heap.toText (.text text.packed)) : Exec Text).outcome w = _
    rw [hread]
    rfl
  change (Exec.toText (.text text.packed) >>= _).outcome w = _
  rw [outcome_bind_ok htext]
  simp only [h]
  rfl

end Builtin

/-- Reading JSON undoes writing it: the text of a datum is read as the datum without what cannot be written and with null
for NaN and the infinities, which has the same text. So it is for the functions of a program, in every world. -/
theorem Datum.parse_undoes_stringify (d : Datum) (hportable : d.finite.Portable) (hpresent : d.isAbsent = false) :
    ∃ text j, d.stringify = .ok (some text) ∧ Json.parse text = .ok j ∧ (ofJson j).settled = d.finite.canon ∧
      d.finite.canon.stringify = .ok (some text) ∧
      ∀ (limit : Option Limit) (invoke : Callback) (w : World) (v : Value), w.store.heap.read v = d →
        (Builtin.apply limit invoke .stringify [v]).outcome w = (.ok (.text text.packed), w) ∧
        ∃ v' heap, (Builtin.apply limit invoke .parseJson [.text text.packed]).outcome w = (.ok v', w.onHeap heap) ∧
          w.store.heap.Keeps heap ∧ heap.read v' = d.finite.canon ∧
          (Builtin.apply limit invoke .stringify [v']).outcome (w.onHeap heap) =
            (.ok (.text text.packed), w.onHeap heap) := by
  obtain ⟨x, hsound, hdatum, htext⟩ := hportable.written (d.isAbsent_finite.trans hpresent)
  obtain ⟨j, hparse, hj⟩ := hsound.parseJson
  have hsettled : (ofJson j).settled = x.datum := by rw [hj, hsound.settled]
  have hagain := hsound.stringify
  rw [hdatum] at hagain
  rw [stringify_finite] at htext
  refine ⟨x.text, j, htext, hparse, hsettled.trans hdatum, hagain, fun limit invoke w v hv => ⟨?_, ?_⟩⟩
  · exact Builtin.outcome_stringify (by rw [hv, htext])
  · obtain ⟨hkeeps, hshows⟩ := hsound.loads w.store.heap
    have hrun := Builtin.outcome_parseJson hparse limit invoke w
    rw [hsettled] at hrun
    have hread := hshows.read.trans hdatum
    refine ⟨_, _, hrun, hkeeps, hread, Builtin.outcome_stringify ?_⟩
    change ((w.store.heap.load x.datum).2.read _).stringify = _
    rw [hread, hagain]

/-- An object with a quoted key, numbers that are not finite, and parts that cannot be written. -/
def Datum.mixed : Datum :=
  .object [("\"\n".codes, .array [.undefined, .num (.int (-3)), .num .nan]), ("f".codes, .function []),
    ("x".codes, .num (.infinity true))]

theorem Datum.parse_undoes_stringify_mixed :
    mixed.finite.Portable ∧ mixed.isAbsent = false ∧
    ∃ text j, mixed.stringify = .ok (some text) ∧ Json.parse text = .ok j ∧
      (ofJson j).settled = .object [("\"\n".codes, .array [.null, .num (.int (-3)), .null]), ("x".codes, .null)] := by
  have hfinite : mixed.finite = .object [("\"\n".codes, .array [.undefined, .num (.int (-3)), .null]),
      ("f".codes, .function []), ("x".codes, .null)] := rfl
  have hitems : Portable (.array [.undefined, .num (.int (-3)), .null]) := by
    refine .array ?_
    simp only [forall_mem_cons]
    exact ⟨.undefined, .int (by decide), .null, nofun⟩
  have hportable : mixed.finite.Portable := by
    rw [hfinite]
    refine .object (by decide) ?_
    simp only [forall_mem_cons]
    exact ⟨hitems, .function [], .null, nofun⟩
  obtain ⟨text, j, htext, hparse, hdatum, -⟩ := parse_undoes_stringify mixed hportable rfl
  exact ⟨hportable, rfl, text, j, htext, hparse, hdatum⟩

end Stepwise
