import Stepwise.Proofs.Literals
import Stepwise.Proofs.Segments

/-!
# Readers that settle

`Settles source x y ts Q` says that the readers `x` and `y` come to the same end on the tokens `ts`: both return the same
result and leave the same tokens, as described by `Q`, or both fail with an error that the source gives rise to
(`SyntaxError.Arises`), never for a lack of fuel. With `y` as `x` this says that a reader settles at all; with another
fuel in `y` it says that the fuel makes no difference. What is said of the tokens that are left is how many brackets are
open after those that were read (`Left`).
-/

namespace Stepwise

/-- Digits of the source that are too many for an integer. -/
def Text.Overlong (source digits : Text) : Prop :=
  digits <:+: source ∧ (∀ c ∈ digits, Text.isDecimal c) ∧ digitLimit < digits.length

/-- An error that a source gives rise to: anything but a lack of fuel, and a number only for its many digits. -/
def SyntaxError.Arises (source : Text) : SyntaxError → Prop
  | exhausted => False
  | numeral why => ∃ digits, source.Overlong digits ∧ why = .tooManyDigits digits.length
  | _ => True

/-! ### The tokens of a source -/

namespace Token

variable {source s : Text} {t : Token} {ts rest : List Token}

/-- What is known of a token that is not the end of a source. -/
structure Sound (source : Text) (t : Token) : Prop where
  nonempty : t.text ≠ []
  within : t.text <:+: source
  number : t.kind = .number → Lexeme.Number t.text

theorem Sound.mono (h : t.Sound s) (hs : s <:+: source) : t.Sound source := ⟨h.nonempty, h.within.trans hs, h.number⟩

/-- The number of code points of some tokens. -/
def weight : List Token → Nat
  | [] => 0
  | t :: ts => t.text.length + weight ts

theorem weight_filter_le (p : Token → Bool) (ts : List Token) : weight (ts.filter p) ≤ weight ts := by
  induction ts with
  | nil => exact Nat.le_refl 0
  | cons t ts ih =>
    rw [List.filter_cons]
    split
    · exact Nat.add_le_add_left ih _
    · exact Nat.le_trans ih (Nat.le_add_left _ _)

theorem weight_le_of_suffix (h : rest <:+ ts) : weight rest ≤ weight ts := by
  obtain ⟨used, rfl⟩ := h
  induction used with
  | nil => exact Nat.le_refl _
  | cons t used ih => exact Nat.le_trans ih (Nat.le_add_left _ _)

theorem Laid.weight_le {before : Text} (h : Laid before s ts) : weight ts ≤ s.length := by
  induction h with
  | last _ _ htext _ =>
    rw [weight, htext]
    exact Nat.zero_le _
  | token _ _ _ _ _ _ ih =>
    rw [weight, List.length_append, List.length_append]
    omega

theorem number_of_next {n : Nat} (h : Lexeme.next s = (some .number, n)) : Lexeme.Number (s.take n) := by
  cases s with
  | nil => cases h
  | cons c s =>
    simp only [Lexeme.next] at h
    iterate 3
      split at h
      · cases h
    split at h
    case isTrue hnumber =>
      cases h
      exact Lexeme.number_take hnumber
    case isFalse =>
      iterate 2
        split at h
        · split at h <;> cases h
      iterate 2
        split at h
        · cases h
      split at h <;> cases h

theorem sound_of_mem_significant (h : t ∈ Reader.significant (scan s)) : t.Sound s := by
  obtain ⟨hmem, hkind⟩ := List.mem_filter.mp h
  have hkind : t.kind ≠ .eof := by
    rintro heof
    simp [heof] at hkind
  constructor
  case nonempty =>
    obtain ⟨front, last, hscan, hlast, -, -, hfront⟩ := (laid_scan s).last_eof rfl
    rw [hscan] at hmem
    rcases List.mem_append.mp hmem with hmem | hmem
    · exact (hfront t hmem).2
    · obtain rfl := List.mem_singleton.mp hmem
      exact absurd hlast hkind
  all_goals
    obtain ⟨rest, n, hrest, hnext, htext⟩ := (exists_next_of_mem_scanFrom hmem).resolve_left hkind
    rw [htext]
  case within => exact ( List.take_prefix n rest).isInfix.trans hrest.isInfix
  case number =>
    intro hnumber
    rw [hnumber] at hnext
    exact number_of_next hnext

theorem weight_significant_le (s : Text) : weight (Reader.significant (scan s)) ≤ s.length :=
  Nat.le_trans (weight_filter_le _ _) (laid_scan s).weight_le

end Token

/-! ### Brackets -/

namespace Token

variable {a b c : Nat} {word : Text} {t : Token} {ts us : List Token} {k : CodePoint}

/-- The tokens take `a` open brackets to `b`, whatever is open around them. -/
def Shifts (a b : Nat) (ts : List Token) : Prop :=
  (∀ t ∈ ts, t.Plain) → ∀ d, ts.foldl depthAfter (d + a) = d + b

theorem Shifts.append (h : Shifts a b ts) (h' : Shifts b c us) : Shifts a c (ts ++ us) := by
  intro hplain d
  obtain ⟨hts, hus⟩ := List.forall_mem_append.mp hplain
  rw [List.foldl_append, h hts d, h' hus d]

theorem shifts_of_kind (h : t.kind ≠ .punctuation) : Shifts a a [t] := fun _ _ => if_neg h

theorem shifts_text (h : ∀ bracket ∈ Lexeme.brackets, t.text ≠ [bracket]) : Shifts a a [t] := by
  have hopen : ¬ (t.text = "(".codes ∨ t.text = "[".codes ∨ t.text = "\x7b".codes) := by
    rintro (heq | heq | heq)
    · exact h 40 (by decide) heq
    · exact h 91 (by decide) heq
    · exact h 123 (by decide) heq
  have hclose : ¬ (t.text = ")".codes ∨ t.text = "]".codes ∨ t.text = "\x7d".codes) := by
    rintro (heq | heq | heq)
    · exact h 41 (by decide) heq
    · exact h 93 (by decide) heq
    · exact h 125 (by decide) heq
  intro _ d
  rw [List.foldl_cons, List.foldl_nil, depthAfter, if_neg hopen, if_neg hclose, ite_self]

/-- A token that is read as the word takes `a` open brackets to `b`. -/
def Shift (word : Text) (a b : Nat) : Prop := ∀ t : Token, t.isWord word → Shifts a b [t]

theorem shift_open (h : k ∈ "([\x7b".codes) (a : Nat) : Shift [k] a (a + 1) := by
  have hsorts : ∀ c ∈ "([\x7b".codes, c ∈ Lexeme.brackets ∧ ([c] = "(".codes ∨ [c] = "[".codes ∨ [c] = "\x7b".codes) := by
    decide
  intro t hword hplain d
  have hmark := hplain t List.mem_cons_self k (hsorts k h).1 hword
  simp only [isMark, Bool.and_eq_true, beq_iff_eq] at hmark
  exact depthAfter_open hmark.1 (hmark.2 ▸ (hsorts k h).2) (d + a)

theorem shift_close (h : k ∈ ")]\x7d".codes) (a : Nat) : Shift [k] (a + 1) a := by
  have hsorts : ∀ c ∈ ")]\x7d".codes, c ∈ Lexeme.brackets ∧ ([c] = ")".codes ∨ [c] = "]".codes ∨ [c] = "\x7d".codes) := by
    decide
  intro t hword hplain d
  have hmark := hplain t List.mem_cons_self k (hsorts k h).1 hword
  simp only [isMark, Bool.and_eq_true, beq_iff_eq] at hmark
  exact depthAfter_close hmark.1 (hmark.2 ▸ (hsorts k h).2) (d + (a + 1))

theorem shift_other (h : ∀ bracket ∈ Lexeme.brackets, word ≠ [bracket]) (a : Nat) : Shift word a a :=
  fun _ hword => shifts_text (text_of_isWord hword ▸ h)

end Token

/-! ### What is left of some tokens -/

namespace Reader

open Token

variable {α β : Type} {source word : Text} {a b c : Nat} {ts rest last : List Token}

/-- What is left when the tokens before it, which take `a` open brackets to `b`, have been read. -/
def Left (a b : Nat) (ts rest : List Token) : Prop := ∃ used, ts = used ++ rest ∧ Shifts a b used

/-- What is left when something has been read. -/
def Shorter (a b : Nat) (ts rest : List Token) : Prop := ∃ used, ts = used ++ rest ∧ Shifts a b used ∧ used ≠ []

theorem Left.refl : Left a a ts ts := ⟨[], rfl, fun _ _ => rfl⟩

theorem Left.trans (h : Left a b ts rest) (h' : Left b c rest last) : Left a c ts last := by
  obtain ⟨used, rfl, hused⟩ := h
  obtain ⟨used', rfl, hused'⟩ := h'
  exact ⟨used ++ used', (List.append_assoc ..).symm, hused.append hused'⟩

theorem Left.suffix (h : Left a b ts rest) : rest <:+ ts := by
  obtain ⟨used, rfl, -⟩ := h
  exact List.suffix_append used rest

theorem Left.forall_mem {P : Token → Prop} (h : Left a b ts rest) (hts : ∀ t ∈ ts, P t) : ∀ t ∈ rest, P t :=
  fun t ht => hts t (h.suffix.subset ht)

namespace Shorter

theorem cons {t : Token} (h : Shifts a b [t]) : Shorter a b (t :: rest) rest := ⟨[t], rfl, h, List.cons_ne_nil t []⟩

theorem left (h : Shorter a b ts rest) : Left a b ts rest := by
  obtain ⟨used, hts, hused, -⟩ := h
  exact ⟨used, hts, hused⟩

theorem trans (h : Shorter a b ts rest) (h' : Left b c rest last) : Shorter a c ts last := by
  obtain ⟨used, rfl, hused, hne⟩ := h
  obtain ⟨used', rfl, hused'⟩ := h'
  exact ⟨used ++ used', (List.append_assoc ..).symm, hused.append hused', List.append_ne_nil_of_left_ne_nil hne used'⟩

theorem of_left (h : Left a b ts rest) (h' : Shorter b c rest last) : Shorter a c ts last := by
  obtain ⟨used, rfl, hused⟩ := h
  obtain ⟨used', rfl, hused', hne⟩ := h'
  exact ⟨used ++ used', (List.append_assoc ..).symm, hused.append hused', List.append_ne_nil_of_right_ne_nil used hne⟩

theorem length_lt (h : Shorter a b ts rest) : rest.length < ts.length := by
  obtain ⟨used, rfl, -, hne⟩ := h
  have hpos := List.length_pos_of_ne_nil hne
  rw [List.length_append]
  omega

theorem weight_lt (h : Shorter a b ts rest) (hts : ∀ t ∈ ts, t.Sound source) : weight rest < weight ts := by
  obtain ⟨used, rfl, -, hne⟩ := h
  obtain ⟨t, used, rfl⟩ := List.exists_cons_of_ne_nil hne
  have hpos := List.length_pos_of_ne_nil (hts t List.mem_cons_self).nonempty
  have hle := weight_le_of_suffix (List.suffix_append used rest)
  rw [List.cons_append, weight]
  omega

end Shorter

/-- The next token is read as the word, and the others are left. -/
def Next (word : Text) (ts rest : List Token) : Prop := ∃ t, ts = t :: rest ∧ t.isWord word

theorem Next.shorter (h : Next word ts rest) (hword : Shift word a b) : Shorter a b ts rest := by
  obtain ⟨t, rfl, ht⟩ := h
  exact .cons (hword t ht)

/-- The next token is a name, and the others are left. -/
def Named (ts rest : List Token) : Prop := ∃ t, ts = t :: rest ∧ t.kind = .name

theorem Named.shorter (h : Named ts rest) : Shorter a a ts rest := by
  obtain ⟨t, rfl, ht⟩ := h
  exact .cons (shifts_of_kind (by rw [ht]; exact nofun))

/-! ### Readers that settle -/

/-- Two readers come to the same end on some tokens: they return the same result and leave the same tokens, which are as
described, or they fail with the same error of the source. -/
inductive Settles (source : Text) (x y : Reader α) (ts : List Token) (Q : α → List Token → Prop) : Prop
  | returns {r : α} {rest : List Token} (hx : x.run ts = .ok (r, rest)) (hy : y.run ts = .ok (r, rest)) (h : Q r rest)
  | fails {e : SyntaxError} (hx : x.run ts = .error e) (hy : y.run ts = .error e) (h : e.Arises source)

namespace Settles

variable {x y : Reader α} {f g : α → Reader β} {Q Q' : α → List Token → Prop} {R : β → List Token → Prop} {r : α}
  {e : SyntaxError} {p : Prop} {x' y' : Reader α}

theorem same (h : Settles source x y ts Q) : x.run ts = y.run ts := by
  cases h with
  | returns hx hy => rw [hx, hy]
  | fails hx hy => rw [hx, hy]

theorem self (h : Settles source x y ts Q) : Settles source x x ts Q := by
  cases h with
  | returns hx _ h => exact .returns hx hx h
  | fails hx _ h => exact .fails hx hx h

theorem imp (h : Settles source x y ts Q) (himp : ∀ r rest, Q r rest → Q' r rest) : Settles source x y ts Q' := by
  cases h with
  | returns hx hy h => exact .returns hx hy (himp _ _ h)
  | fails hx hy h => exact .fails hx hy h

theorem pass (hx : x.run ts = .ok (r, rest)) (hy : y.run ts = .ok (r, rest))
    (h : Settles source (f r) (g r) rest R) : Settles source (x >>= f) (y >>= g) ts R := by
  have hrun : (x >>= f).run ts = (f r).run rest := by rw [StateT.run_bind, hx]; rfl
  have hrun' : (y >>= g).run ts = (g r).run rest := by rw [StateT.run_bind, hy]; rfl
  cases h with
  | returns hx hy h => exact .returns (hrun.trans hx) (hrun'.trans hy) h
  | fails hx hy h => exact .fails (hrun.trans hx) (hrun'.trans hy) h

theorem bind (h : Settles source x y ts Q) (hf : ∀ r rest, Q r rest → Settles source (f r) (g r) rest R) :
    Settles source (x >>= f) (y >>= g) ts R := by
  cases h with
  | returns hx hy h => exact .pass hx hy (hf _ _ h)
  | fails hx hy h => exact .fails (by rw [StateT.run_bind, hx]; rfl) (by rw [StateT.run_bind, hy]; rfl) h

theorem done (h : Q r ts) : Settles source (pure r) (pure r) ts Q := .returns rfl rfl h

theorem fault (h : e.Arises source) : Settles source (throw e : Reader α) (throw e) ts Q :=
  .fails rfl rfl h

theorem lift {r r' : Except SyntaxError α} (hsame : r = r') (hr : ∀ e, r = .error e → e.Arises source) :
    Settles source (liftM r) (liftM r') ts fun _ rest => rest = ts := by
  subst hsame
  cases r with
  | error e => exact .fails rfl rfl (hr e rfl)
  | ok a => exact .returns rfl rfl rfl

theorem ite [Decidable p] (yes : p → Settles source x y ts Q)
    (no : ¬ p → Settles source x' y' ts Q) : Settles source (if p then x else x') (if p then y else y') ts Q := by
  split
  case isTrue h => exact yes h
  case isFalse h => exact no h

theorem state {f g : List Token → Reader α} (h : Settles source (f ts) (g ts) ts Q) :
    Settles source (get >>= f) (get >>= g) ts Q := pass rfl rfl h

theorem peek {f g : Option Token → Reader α} (h : Settles source (f ts.head?) (g ts.head?) ts Q) :
    Settles source (Reader.peek >>= f) (Reader.peek >>= g) ts Q := pass rfl rfl h

theorem advance {f g : Option Token → Reader α} (h : Settles source (f ts.head?) (g ts.head?) ts.tail Q) :
    Settles source (Reader.advance >>= f) (Reader.advance >>= g) ts Q := pass rfl rfl h

theorem nextIs {f g : Bool → Reader α}
    (h : Settles source (f (ts.head?.any (·.isWord word))) (g (ts.head?.any (·.isWord word))) ts Q) :
    Settles source (Reader.nextIs word >>= f) (Reader.nextIs word >>= g) ts Q := pass rfl rfl h

theorem atEnd {f g : Bool → Reader α} (h : Settles source (f ts.isEmpty) (g ts.isEmpty) ts Q) :
    Settles source (Reader.atEnd >>= f) (Reader.atEnd >>= g) ts Q := pass rfl rfl h

theorem fail {c : Complaint} : Settles source (Reader.fail c : Reader α) (Reader.fail c) ts Q := peek (fault trivial)

theorem stop (h : e.Arises source) :
    Settles source ((throw e : Reader α) >>= f) ((throw e : Reader α) >>= g) ts R := .fails rfl rfl h

theorem fail_bind {c : Complaint} :
    Settles source ((Reader.fail c : Reader α) >>= f) ((Reader.fail c : Reader α) >>= g) ts R := .fails rfl rfl trivial

theorem accept {f g : Bool → Reader α} (yes : ∀ rest, Next word ts rest → Settles source (f true) (g true) rest Q)
    (no : ts.head?.any (·.isWord word) = false → Settles source (f false) (g false) ts Q) :
    Settles source (Reader.accept word >>= f) (Reader.accept word >>= g) ts Q := by
  have hrun : (Reader.accept word).run ts = StateT.run (if ts.head?.any (·.isWord word) then (do
      let _ ← Reader.advance
      return true) else return false) ts := rfl
  cases hnext : ts.head?.any (·.isWord word) with
  | false =>
    rw [hnext] at hrun
    exact pass hrun hrun (no hnext)
  | true =>
    rw [hnext] at hrun
    cases ts with
    | nil => cases hnext
    | cons t rest => exact pass hrun hrun (yes rest ⟨t, rfl, hnext⟩)

theorem acceptIf (hword : Shift word a b) (yes : ∀ rest, Shorter a b ts rest → Settles source x y rest Q)
    (no : Settles source x' y' ts Q) :
    Settles source (do if ← Reader.accept word then x else x') (do if ← Reader.accept word then y else y') ts Q :=
  accept (fun rest hrest => yes rest (hrest.shorter hword)) fun _ => no

theorem expect : Settles source (Reader.expect word) (Reader.expect word) ts fun _ => Next word ts := by
  refine nextIs (ite (fun hnext => advance (done ?_)) fun _ => fail)
  cases ts with
  | nil => cases hnext
  | cons t rest => exact ⟨t, rfl, hnext⟩

theorem expectShift (hword : Shift word a b) :
    Settles source (Reader.expect word) (Reader.expect word) ts fun _ => Shorter a b ts :=
  expect.imp fun _ _ h => h.shorter hword

theorem bindingName : Settles source Reader.bindingName Reader.bindingName ts fun _ => Named ts := by
  refine peek ?_
  cases ts with
  | nil => exact fail
  | cons t rest =>
    refine ite (fun hname => advance (done ⟨t, rfl, ?_⟩)) fun _ => fail
    simp only [Bool.and_eq_true, beq_iff_eq] at hname
    exact hname.1

theorem expectEnd : Settles source Reader.expectEnd Reader.expectEnd ts fun _ rest => ts = [] ∧ rest = [] := by
  refine atEnd (ite (fun _ => fail) fun hend => done ?_)
  obtain rfl : ts = [] := by simpa using hend
  exact ⟨rfl, rfl⟩

theorem expectIf [Decidable p] {f g : Unit → Reader α} (hword : Shift word a a)
    (h : ∀ rest, Left a a ts rest → Settles source (f ()) (g ()) rest Q) :
    Settles source (if p then Reader.expect word >>= f else f ()) (if p then Reader.expect word >>= g else g ()) ts Q :=
  ite (fun _ => (expectShift hword).bind fun _ rest hrest => h rest hrest.left) fun _ => h ts .refl

end Settles

/-- On any tokens of the source, the reader settles, and what it reads takes `a` open brackets to `b`. -/
def Takes (source : Text) (a b : Nat) (x : Reader α) : Prop :=
  ∀ ts, (∀ t ∈ ts, t.Sound source) → Settles source x x ts fun _ => Left a b ts

namespace Takes

variable {x y : Reader α} {f : α → Reader β}

theorem bind (hx : Takes source a b x) (hf : ∀ r, Takes source b c (f r)) : Takes source a c (x >>= f) := by
  intro ts hts
  refine (hx ts hts).bind fun r rest hrest => ?_
  exact (hf r rest (hrest.forall_mem hts)).imp fun _ _ hleft => hrest.trans hleft

theorem done (r : α) : Takes source a a (pure r) := fun _ _ => .done .refl

theorem fault {e : SyntaxError} (h : e.Arises source) : Takes source a b (throw e : Reader α) := fun _ _ => .fault h

theorem ite {p : Prop} [Decidable p] (yes : Takes source a b x) (no : Takes source a b y) :
    Takes source a b (if p then x else y) := fun ts hts => .ite (fun _ => yes ts hts) fun _ => no ts hts

theorem nextIs {f : Bool → Reader α} (h : ∀ r, Takes source a b (f r)) : Takes source a b (Reader.nextIs word >>= f) :=
  fun ts hts => .nextIs (h _ ts hts)

theorem atEnd {f : Bool → Reader α} (h : ∀ r, Takes source a b (f r)) : Takes source a b (Reader.atEnd >>= f) :=
  fun ts hts => .atEnd (h _ ts hts)

theorem expect (hword : Shift word a b) : Takes source a b (Reader.expect word) :=
  fun _ _ => (Settles.expectShift hword).imp fun _ _ => Shorter.left

theorem bindingName : Takes source a a Reader.bindingName :=
  fun _ _ => Settles.bindingName.imp fun _ _ h => h.shorter.left

theorem acceptIf (hword : Shift word a b) (yes : Takes source b c x) (no : Takes source a c y) :
    Takes source a c (do if ← Reader.accept word then x else y) := by
  intro ts hts
  refine .acceptIf hword (fun rest hrest => ?_) (no ts hts)
  exact (yes rest (hrest.left.forall_mem hts)).imp fun _ _ hleft => hrest.left.trans hleft

theorem sorted {σ : Type} {sort : Token → Option σ} {s : σ} {g : Option Token → Reader α}
    (hsort : ∀ t, sort t = some s → Shifts a b [t]) (hg : ∀ next, Takes source b c (g next))
    (hts : ∀ t ∈ ts, t.Sound source) (h : ts.head?.bind sort = some s) :
    Settles source (Reader.advance >>= g) (Reader.advance >>= g) ts fun _ => Left a c ts := by
  cases ts with
  | nil => cases h
  | cons t rest =>
    have hrest : Left a b (t :: rest) rest := (Shorter.cons (hsort t h)).left
    exact .advance ((hg _ rest (hrest.forall_mem hts)).imp fun _ _ hleft => hrest.trans hleft)

end Takes

end Reader

end Stepwise
