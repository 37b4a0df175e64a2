import Mathlib.Data.List.Infix
import Stepwise.Proofs.Searching

/-!
# Where the tokens stand

The line and column of a token give its offset in the source: the lines before it, each with its line feed, and the
column. `Comment` and `Skipped` say what may stand between two tokens, and `Laid` how the tokens of a source follow one
another in it. The scan lays them out that way whatever the source is, so nothing of a source is lost
(`scan_covers_source`).
-/

namespace Stepwise

open List

namespace Text

/-- The line and column after one more code point. -/
def advance (place : Nat × Nat) (c : CodePoint) : Nat × Nat :=
  (if c = Lexeme.lineFeed then place.1 + 1 else place.1, if c = Lexeme.lineFeed then 0 else place.2 + 1)

/-- The line and column at which a text ends. -/
def place (s : Text) : Nat × Nat := s.foldl advance (0, 0)

/-- The number of code points before a line and column. -/
def offset (source : Text) (line col : Nat) : Nat :=
  let before := (Program.splitLines source).take line
  before.flatten.length + before.length + col

variable {c : CodePoint}

theorem foldl_advance (s : Text) (line col : Nat) :
    s.foldl advance (line, col) = (line + s.place.1, if s.place.1 = 0 then col + s.place.2 else s.place.2) := by
  induction s generalizing line col with
  | nil => simp [place]
  | cons c s ih =>
    have hplace : place (c :: s) = s.foldl advance (advance (0, 0) c) := rfl
    rw [hplace, foldl_cons]
    by_cases hc : c = Lexeme.lineFeed
    · simp only [advance, if_pos hc, ih]
      simp
      omega
    · simp only [advance, if_neg hc, ih]
      by_cases hline : (place s).1 = 0
      · simp [hline]
        omega
      · simp [hline]

theorem place_feed (s : Text) : place (10 :: s) = (s.place.1 + 1, s.place.2) := by
  have hplace : place (10 :: s) = s.foldl advance (1, 0) := rfl
  rw [hplace, foldl_advance]
  simp
  omega

theorem place_cons (hc : c ≠ 10) (s : Text) :
    place (c :: s) = (s.place.1, if s.place.1 = 0 then s.place.2 + 1 else s.place.2) := by
  have hfeed : c ≠ Lexeme.lineFeed := hc
  have hplace : place (c :: s) = s.foldl advance (0, 1) := by
    rw [place, foldl_cons, advance, if_neg hfeed, if_neg hfeed]
  rw [hplace, foldl_advance, Nat.zero_add, Nat.add_comm 1]

theorem place_append (s t : Text) : place (s ++ t) = t.foldl advance s.place := foldl_append

theorem place_fst (s : Text) : s.place.1 = s.count 10 := by
  induction s with
  | nil => rfl
  | cons c s ih =>
    by_cases hc : c = 10
    · rw [hc, place_feed, count_cons_self, ih]
    · rw [place_cons hc, count_cons_of_ne hc, ih]

theorem offset_feed (s : Text) (line col : Nat) : offset (10 :: s) (line + 1) col = offset s line col + 1 := by
  have hlines : Program.splitLines (10 :: s) = [] :: Program.splitLines s := by
    rw [Program.splitLines_eq_splitOn, Program.splitLines_eq_splitOn]
    exact splitOnP_cons_eq_if_modifyHead ..
  rw [offset, offset, hlines, take_succ_cons, flatten_cons, length_append, length_cons,
    length_nil]
  omega

theorem offset_cons (hc : c ≠ 10) (s : Text) (line col : Nat) :
    offset (c :: s) (line + 1) col = offset s (line + 1) col + 1 := by
  have hlines : Program.splitLines (c :: s) = (Program.splitLines s).modifyHead (c :: ·) := by
    rw [Program.splitLines_eq_splitOn, Program.splitLines_eq_splitOn, List.splitOn, List.splitOnP_cons_eq_if_modifyHead,
      if_neg (by simpa using hc)]
    rfl
  cases hfirst : Program.splitLines s with
  | nil =>
    rw [Program.splitLines_eq_splitOn] at hfirst
    exact absurd hfirst (splitOn_ne_nil 10 s)
  | cons first lines =>
    rw [offset, offset, hlines, hfirst, modifyHead_cons, take_succ_cons, take_succ_cons]
    simp only [flatten_cons, length_append, length_cons]
    omega

/-- The place at which a beginning of the source ends gives back its length. -/
theorem offset_place (before rest : Text) : offset (before ++ rest) before.place.1 before.place.2 = before.length := by
  induction before with
  | nil => simp [offset, place]
  | cons c before ih =>
    rw [cons_append, length_cons, ← ih]
    by_cases hc : c = 10
    · rw [hc, place_feed, offset_feed]
    · rw [place_cons hc]
      cases hline : (place before).1 with
      | zero => simp [offset]
      | succ line => exact offset_cons hc _ _ _

end Text

namespace Lexeme

variable {c : CodePoint} {s rest : Text} {m n : Nat} {gap : Text}

/-- The first `n` code points are there, on one line. -/
def OnLine (n : Nat) (s : Text) : Prop := n ≤ s.length ∧ 10 ∉ s.take n

theorem onLine_zero (s : Text) : OnLine 0 s := ⟨Nat.zero_le _, by simp⟩

theorem onLine_one (hc : c ≠ 10) (rest : Text) : OnLine 1 (c :: rest) := ⟨by simp, by simp [Ne.symm hc]⟩

theorem OnLine.add (hm : OnLine m s) (hn : OnLine n (s.drop m)) : OnLine (m + n) s := by
  obtain ⟨hlength, hfeed⟩ := hn
  have hm' := hm.1
  rw [length_drop] at hlength
  refine ⟨by omega, ?_⟩
  rw [take_add, mem_append]
  exact fun h => h.elim hm.2 hfeed

theorem OnLine.cons (hc : c ≠ 10) (h : OnLine n rest) : OnLine (n + 1) (c :: rest) :=
  ⟨Nat.succ_le_succ h.1, by simp [Ne.symm hc, h.2]⟩

theorem onLine_takeWhile {p : CodePoint → Bool} (hp : p 10 = false) (s : Text) : OnLine (s.takeWhile p).length s := by
  have htaken := takeWhile_prefix (l := s) p
  refine ⟨htaken.length_le, fun h => ?_⟩
  rw [← prefix_iff_eq_take.mp htaken] at h
  have hfeed := all_eq_true.mp all_takeWhile 10 h
  rw [hp] at hfeed
  cases hfeed

theorem onLine_digitCount (s : Text) : OnLine (digitCount s) s := onLine_takeWhile (by decide) s

theorem onLine_mantissaLength (s : Text) : OnLine (mantissaLength s) s := by
  have hwhole := onLine_digitCount s
  simp only [mantissaLength]
  split
  case h_1 c rest hrest =>
    split
    case isTrue h =>
      have hpoint : c ≠ 10 := by
        rw [h.1]
        decide
      have hfraction := (onLine_digitCount rest).cons hpoint
      rw [← hrest] at hfraction
      have htotal := hwhole.add hfraction
      rwa [Nat.add_comm (digitCount rest), ← Nat.add_assoc] at htotal
    case isFalse => exact hwhole
  case h_2 => exact hwhole

theorem onLine_exponentLength (s : Text) : OnLine (exponentLength s) s := by
  unfold exponentLength
  split
  case h_1 c rest =>
    by_cases hmark : c = 'e'.toNat ∨ c = 'E'.toNat
    · have hc : c ≠ 10 := by rcases hmark with rfl | rfl <;> decide
      have hrun : ∀ sign, OnLine sign rest →
          OnLine (if digitCount (rest.drop sign) = 0 then 0 else 1 + sign + digitCount (rest.drop sign)) (c :: rest) := by
        intro sign hsign
        split
        · exact onLine_zero _
        · have htotal := (hsign.add (onLine_digitCount _)).cons hc
          rwa [Nat.add_comm, ← Nat.add_assoc] at htotal
      rw [if_pos hmark]
      apply hrun
      split
      case h_1 d rest =>
        split
        case isTrue hsign => exact onLine_one (by rcases hsign with rfl | rfl <;> decide) rest
        case isFalse => exact onLine_zero _
      case h_2 => exact onLine_zero _
    · rw [if_neg hmark]
      exact onLine_zero _
  case h_2 => exact onLine_zero _

theorem onLine_numberLength (s : Text) : OnLine (numberLength s) s := by
  simp only [numberLength]
  split
  · exact onLine_zero s
  · exact (onLine_mantissaLength s).add (onLine_exponentLength _)

/-- A closed text ends inside the source, and on its first line unless it may span lines. -/
theorem length_of_quotedLength? {quote : CodePoint} {spansLines : Bool} (hquote : quote ≠ 10)
    (h : quotedLength? quote spansLines s = some n) : n ≤ s.length ∧ (spansLines = false → 10 ∉ s.take n) := by
  fun_induction quotedLength? quote spansLines s generalizing n with
  | case1 => cases h
  | case2 rest =>
    cases h
    exact ⟨by simp, fun _ => (onLine_one hquote rest).2⟩
  | case3 => cases h
  | case4 => cases h
  | case5 => cases h
  | case6 d rest hd _ _ ih =>
    obtain ⟨k, hk, rfl⟩ := Option.map_eq_some_iff.mp h
    obtain ⟨hlength, hfeed⟩ := ih hk
    refine ⟨Nat.add_le_add_right hlength 2, fun hspan => ?_⟩
    have hd' : d ≠ 10 := fun hd10 => hd ⟨hd10, by rw [hspan]; rfl⟩
    have hbody : OnLine k rest := ⟨hlength, hfeed hspan⟩
    exact ((hbody.cons hd').cons (by decide)).2
  | case7 c rest hc hplain hback ih =>
    obtain ⟨k, hk, rfl⟩ := Option.map_eq_some_iff.mp h
    obtain ⟨hlength, hfeed⟩ := ih hk
    refine ⟨Nat.add_le_add_right hlength 1, fun hspan => ?_⟩
    have hc' : c ≠ 10 := fun hc10 => hplain ⟨hc10, by rw [hspan]; rfl⟩
    have hbody : OnLine k rest := ⟨hlength, hfeed hspan⟩
    exact (hbody.cons hc').2

/-- A comment that stands before `rest`: to the end of its line, to the first closing, or to the end of the source. -/
inductive Comment : (text rest : Text) → Prop
  | line {body rest : Text} (hbody : 10 ∉ body) (hrest : ∀ c ∈ rest.head?, c = 10) : Comment ("//".codes ++ body) rest
  | block {body rest : Text} (hfirst : ¬ "*/".codes <:+: body ++ "*".codes) :
      Comment ("/*".codes ++ body ++ "*/".codes) rest
  | unclosed {body : Text} (hopen : ¬ "*/".codes <:+: body) : Comment ("/*".codes ++ body) []

theorem closing_prefix_iff (c : CodePoint) (s : Text) :
    "*/".codes <+: c :: s ↔ c = '*'.toNat ∧ s.head? = some '/'.toNat := by
  have hcodes : "*/".codes = ['*'.toNat, '/'.toNat] := rfl
  rw [hcodes, cons_prefix_cons, head?_eq_some_iff]
  constructor
  · rintro ⟨hc, rest, hrest⟩
    exact ⟨hc.symm, rest, hrest.symm⟩
  · rintro ⟨hc, rest, hrest⟩
    exact ⟨hc.symm, rest, hrest.symm⟩

/-- A block comment runs through its first closing, or to the end of the source when there is none. -/
theorem blockLength_cases (s : Text) :
    (∃ body rest, s = body ++ "*/".codes ++ rest ∧ ¬ "*/".codes <:+: body ++ "*".codes ∧
      blockLength s = body.length + 2) ∨
    ¬ "*/".codes <:+: s ∧ blockLength s = s.length := by
  induction s with
  | nil => exact .inr ⟨by decide, rfl⟩
  | cons c s ih =>
    by_cases hclose : c = '*'.toNat ∧ s.head? = some '/'.toNat
    · left
      obtain ⟨rfl, hhead⟩ := hclose
      obtain ⟨rest, rfl⟩ := head?_eq_some_iff.mp hhead
      exact ⟨[], rest, rfl, by decide, rfl⟩
    · rw [blockLength, if_neg hclose]
      rcases ih with ⟨body, rest, rfl, hfirst, hlength⟩ | ⟨hopen, hlength⟩
      · left
        refine ⟨c :: body, rest, rfl, ?_, by rw [hlength, length_cons]; omega⟩
        rw [cons_append, infix_cons_iff, closing_prefix_iff, not_or]
        refine ⟨fun hhere => hclose ⟨hhere.1, ?_⟩, hfirst⟩
        cases body with
        | nil => exact absurd hhere.2 (by decide)
        | cons d body => exact hhere.2
      · right
        rw [infix_cons_iff, closing_prefix_iff, not_or]
        exact ⟨⟨hclose, hopen⟩, by rw [hlength, length_cons, Nat.add_comm]⟩

theorem comment_of_commentLength (h : commentLength s ≠ 0) :
    ∃ text rest, s = text ++ rest ∧ text.length = commentLength s ∧ Comment text rest := by
  unfold commentLength at h ⊢
  split at h
  case h_1 c d rest =>
    by_cases hline : c = '/'.toNat ∧ d = '/'.toNat
    · obtain ⟨rfl, rfl⟩ := hline
      refine ⟨"//".codes ++ rest.takeWhile (· ≠ lineFeed), rest.dropWhile (· ≠ lineFeed), ?_, ?_, .line ?_ ?_⟩
      · rw [append_assoc, takeWhile_append_dropWhile]
        rfl
      · rw [length_append]
        rfl
      · exact fun hfeed => absurd (all_eq_true.mp all_takeWhile 10 hfeed) (by decide)
      · intro c hc
        have hstop := head?_dropWhile_not (fun c => decide (c ≠ lineFeed)) rest
        rw [Option.mem_def.mp hc] at hstop
        exact of_not_not (of_decide_eq_false hstop)
    · by_cases hblock : c = '/'.toNat ∧ d = '*'.toNat
      · obtain ⟨rfl, rfl⟩ := hblock
        rcases blockLength_cases rest with ⟨body, after, rfl, hfirst, hlength⟩ | ⟨hopen, hlength⟩
        · refine ⟨"/*".codes ++ body ++ "*/".codes, after, by simp [String.codes], ?_, .block hfirst⟩
          rw [if_neg (by decide), if_pos (by decide), hlength, length_append, length_append]
          change 2 + body.length + 2 = _
          omega
        · refine ⟨"/*".codes ++ rest, [], by simp [String.codes], ?_, .unclosed hopen⟩
          rw [if_neg (by decide), if_pos (by decide), hlength, length_append]
          rfl
      · rw [if_neg hline, if_neg hblock] at h
        exact absurd rfl h
  case h_2 => exact absurd rfl h

/-- What the scan can cut off at the front of a source: a lexeme of the given class, or blanks or a comment when it has
none. -/
inductive Piece : Option TokenKind → (text rest : Text) → Prop
  | blanks {text rest : Text} (h : ∀ c ∈ text, isSpace c) : Piece none text rest
  | comment {text rest : Text} (h : Comment text rest) : Piece none text rest
  | newline {rest : Text} : Piece (some .newline) [10] rest
  | template {text rest : Text} : Piece (some .template) text rest
  | unbroken {kind : TokenKind} {text rest : Text} (hkind : kind ≠ .eof) (h : 10 ∉ text) : Piece (some kind) text rest

theorem exists_piece {kind : Option TokenKind} (hpos : n ≠ 0) (hlength : n ≤ s.length)
    (h : Piece kind (s.take n) (s.drop n)) :
    ∃ text rest, s = text ++ rest ∧ text ≠ [] ∧ n = text.length ∧ Piece kind text rest := by
  have htaken : (s.take n).length = n := length_take_of_le hlength
  refine ⟨s.take n, s.drop n, (take_append_drop n s).symm, ?_, htaken.symm, h⟩
  intro hempty
  rw [hempty] at htaken
  exact hpos htaken.symm

theorem OnLine.exists_piece {kind : TokenKind} (h : OnLine n s) (hkind : kind ≠ .eof) (hpos : n ≠ 0) :
    ∃ text rest, s = text ++ rest ∧ text ≠ [] ∧ n = text.length ∧ Piece (some kind) text rest :=
  Lexeme.exists_piece hpos h.1 (.unbroken hkind h.2)

/-- The lexeme at the start of a source is a piece of it. -/
theorem next_piece (c : CodePoint) (rest : Text) :
    ∃ text after, c :: rest = text ++ after ∧ text ≠ [] ∧ (next (c :: rest)).2 = text.length ∧
      Piece (next (c :: rest)).1 text after := by
  have hlead : ∀ p : CodePoint → Bool, p c → ((c :: rest).takeWhile p).length ≠ 0 := by
    intro p hp
    rw [takeWhile_cons_of_pos hp]
    exact Nat.succ_ne_zero _
  simp only [next]
  by_cases hcomment : commentLength (c :: rest) ≠ 0
  · rw [if_pos hcomment]
    obtain ⟨text, after, hcut, hlength, htext⟩ := comment_of_commentLength hcomment
    refine ⟨text, after, hcut, ?_, hlength.symm, .comment htext⟩
    rintro rfl
    exact hcomment hlength.symm
  rw [if_neg hcomment]
  by_cases hfeed : c = lineFeed
  · rw [if_pos hfeed, hfeed]
    exact ⟨[10], rest, rfl, by simp, rfl, .newline⟩
  rw [if_neg hfeed]
  by_cases hspace : isSpace c
  · rw [if_pos hspace]
    refine ⟨_, _, takeWhile_append_dropWhile.symm, ?_, rfl, .blanks (all_eq_true.mp all_takeWhile)⟩
    exact fun hempty => hlead isSpace hspace (by rw [hempty]; rfl)
  rw [if_neg hspace]
  by_cases hnumber : numberLength (c :: rest) ≠ 0
  · rw [if_pos hnumber]
    exact (onLine_numberLength _).exists_piece (by decide) hnumber
  rw [if_neg hnumber]
  by_cases hquote : c = '"'.toNat ∨ c = '\''.toNat
  · rw [if_pos hquote]
    split
    case h_1 n hn =>
      have hbody := length_of_quotedLength? hfeed hn
      have hline : OnLine n rest := ⟨hbody.1, hbody.2 rfl⟩
      exact (hline.cons hfeed).exists_piece (by decide) (Nat.succ_ne_zero n)
    case h_2 => exact (onLine_one hfeed rest).exists_piece (by decide) Nat.one_ne_zero
  rw [if_neg hquote]
  by_cases htick : c = 0x60
  · rw [if_pos htick]
    split
    case h_1 n hn =>
      have hbody := length_of_quotedLength? hfeed hn
      exact exists_piece (Nat.succ_ne_zero n) (Nat.succ_le_succ hbody.1) .template
    case h_2 => exact (onLine_one hfeed rest).exists_piece (by decide) Nat.one_ne_zero
  rw [if_neg htick]
  by_cases hname : startsName c
  · rw [if_pos hname]
    have hcontinues : continuesName c := by rw [continuesName, hname, Bool.true_or]
    exact (onLine_takeWhile (by decide) _).exists_piece (by decide) (hlead _ hcontinues)
  rw [if_neg hname]
  split
  case h_1 op hop =>
    have hplain : ∀ op ∈ operators, op ≠ [] ∧ 10 ∉ op := by decide
    have hbegins := find?_some (p := fun op => isPrefixOf op (c :: rest)) hop
    obtain ⟨after, hafter⟩ := isPrefixOf_iff_prefix.mp hbegins
    obtain ⟨hop', hfeed'⟩ := hplain op (mem_of_find?_eq_some hop)
    exact ⟨op, after, hafter.symm, hop', rfl, .unbroken (by decide) hfeed'⟩
  case h_2 =>
    split
    · exact (onLine_one hfeed rest).exists_piece (by decide) Nat.one_ne_zero
    · exact (onLine_one hfeed rest).exists_piece (by decide) Nat.one_ne_zero

/-- A row of blanks and comments that stands before `rest`. -/
inductive Skipped : (gap rest : Text) → Prop
  | nil (rest : Text) : Skipped [] rest
  | blank {c : CodePoint} {gap rest : Text} (hspace : isSpace c) (hgap : Skipped gap rest) : Skipped (c :: gap) rest
  | comment {text gap rest : Text} (htext : Comment text (gap ++ rest)) (hgap : Skipped gap rest) :
      Skipped (text ++ gap) rest

theorem Skipped.blanks {text : Text} (h : ∀ c ∈ text, isSpace c) (hgap : Skipped gap rest) :
    Skipped (text ++ gap) rest := by
  induction text with
  | nil => exact hgap
  | cons c text ih =>
    rw [forall_mem_cons] at h
    exact .blank h.1 (ih h.2)

theorem Skipped.comment_of_feed (h : Skipped gap rest) {i : Nat} (hi : gap[i]? = some 10) :
    ∃ before text after, gap = before ++ text ++ after ∧ Comment text (after ++ rest) ∧ before.length ≤ i ∧
      i < before.length + text.length := by
  induction h generalizing i with
  | nil => cases hi
  | @blank c gap rest hspace _ ih =>
    cases i with
    | zero =>
      obtain rfl : c = 10 := Option.some.inj hi
      cases hspace
    | succ i =>
      obtain ⟨before, text, after, rfl, htext, hfrom, hto⟩ := ih hi
      refine ⟨c :: before, text, after, rfl, htext, Nat.succ_le_succ hfrom, ?_⟩
      rw [length_cons]
      omega
  | @comment text gap rest htext _ ih =>
    by_cases hin : i < text.length
    · exact ⟨[], text, gap, rfl, htext, Nat.zero_le i, by simpa using hin⟩
    · rw [getElem?_append_right (Nat.le_of_not_lt hin)] at hi
      obtain ⟨before, text', after, rfl, htext', hfrom, hto⟩ := ih hi
      refine ⟨text ++ before, text', after, by simp, htext', ?_, ?_⟩
      · rw [length_append]
        omega
      · rw [length_append]
        omega

end Lexeme

namespace Token

open Lexeme

variable {before rest text : Text} {kind : Option TokenKind} {tokens : List Token} {t : Token}

/-- The number of code points of the source before the token. -/
def offset (source : Text) (t : Token) : Nat := source.offset t.line t.col

/-- The number of code points of the source before what follows the token. -/
def stop (source : Text) (t : Token) : Nat := t.offset source + t.text.length

/-- The number of code points of the source before what follows the tokens, `start` when there are none. -/
def reached (source : Text) (start : Nat) (tokens : List Token) : Nat := tokens.foldl (fun _ t => t.stop source) start

/-- How tokens lie in a source of which `before` has been scanned and `rest` remains: what is skipped, the next token,
and so on to the end. A line feed is a token of its own or part of a template. -/
inductive Laid : (before rest : Text) → List Token → Prop
  | last {before gap : Text} {t : Token} (hgap : Skipped gap []) (hkind : t.kind = .eof) (htext : t.text = [])
      (hplace : (t.line, t.col) = (before ++ gap).place) : Laid before gap [t]
  | token {before gap rest : Text} {t : Token} {tokens : List Token} (hgap : Skipped gap (t.text ++ rest))
      (hkind : t.kind ≠ .eof) (htext : t.text ≠ []) (hplace : (t.line, t.col) = (before ++ gap).place)
      (hfeed : 10 ∈ t.text → t.kind = .newline ∧ t.text = [10] ∨ t.kind = .template)
      (h : Laid (before ++ gap ++ t.text) rest tokens) : Laid before (gap ++ (t.text ++ rest)) (t :: tokens)

theorem Laid.skip (htext : ∀ gap rest', rest = gap ++ rest' → Skipped gap rest' → Skipped (text ++ gap) rest')
    (h : Laid (before ++ text) rest tokens) : Laid before (text ++ rest) tokens := by
  cases h with
  | last hgap hkind hempty hplace =>
    rw [append_assoc] at hplace
    exact .last (htext _ _ (append_nil _).symm hgap) hkind hempty hplace
  | token hgap hkind hempty hplace hfeed h =>
    rw [← append_assoc]
    rw [append_assoc] at hplace
    refine .token (htext _ _ rfl hgap) hkind hempty hplace hfeed ?_
    rwa [append_assoc before] at h

theorem Laid.cons (h : Laid (before ++ text) rest tokens) {kind : TokenKind} (hkind : kind ≠ .eof) (htext : text ≠ [])
    (hfeed : 10 ∈ text → kind = .newline ∧ text = [10] ∨ kind = .template) :
    Laid before (text ++ rest) (⟨kind, text, before.place.1, before.place.2⟩ :: tokens) := by
  let t : Token := ⟨kind, text, before.place.1, before.place.2⟩
  have hplace : (t.line, t.col) = (before ++ []).place := by rw [append_nil]
  rw [← append_nil before] at h
  exact @Laid.token before [] rest t tokens (.nil _) hkind htext hplace hfeed h

theorem scanFrom_foldl (text rest : Text) (line col : Nat) :
    scanFrom (text ++ rest) text.length line col =
      scanFrom rest 0 (text.foldl Text.advance (line, col)).1 (text.foldl Text.advance (line, col)).2 := by
  induction text generalizing line col with
  | nil => rfl
  | cons c text ih => exact ih _ _

theorem scanFrom_piece (htext : text ≠ []) (hnext : Lexeme.next (text ++ rest) = (kind, text.length)) (before : Text) :
    scanFrom (text ++ rest) 0 before.place.1 before.place.2 =
      (kind.map fun k => ⟨k, text, before.place.1, before.place.2⟩).toList ++
        scanFrom rest 0 (before ++ text).place.1 (before ++ text).place.2 := by
  cases text with
  | nil => exact absurd rfl htext
  | cons c text =>
    have hafter := scanFrom_foldl text rest (Text.advance before.place c).1 (Text.advance before.place c).2
    rw [Text.place_append, foldl_cons, ← hafter]
    rw [cons_append] at hnext ⊢
    rw [scanFrom, hnext]
    cases kind with
    | none => rfl
    | some k =>
      have htake : (c :: (text ++ rest)).take (text.length + 1) = c :: text := by simp
      simp only [length_cons, htake]
      rfl

theorem laid_scanFrom (before rest : Text) : Laid before rest (scanFrom rest 0 before.place.1 before.place.2) := by
  -- each lexeme leaves a shorter rest
  induction hsize : rest.length using Nat.strong_induction_on generalizing before rest with
  | _ size ih =>
    cases rest with
    | nil => exact .last (.nil []) rfl rfl (by rw [append_nil])
    | cons c rest =>
      obtain ⟨text, after, hcut, htext, hlength, hpiece⟩ := next_piece c rest
      have hnext : Lexeme.next (text ++ after) = ((Lexeme.next (c :: rest)).1, text.length) := by rw [← hcut, ← hlength]
      have hshorter : after.length < size := by
        have hpos := length_pos_of_ne_nil htext
        rw [← hsize, hcut, length_append]
        omega
      have hafter := ih _ hshorter (before ++ text) after rfl
      rw [hcut, scanFrom_piece htext hnext]
      generalize (Lexeme.next (c :: rest)).1 = kind at hpiece
      cases hpiece with
      | blanks hblank => exact hafter.skip fun gap rest' _ hgap => hgap.blanks hblank
      | comment hcomment => exact hafter.skip fun gap rest' hrest hgap => .comment (hrest ▸ hcomment) hgap
      | newline => exact hafter.cons (by decide) htext fun _ => .inl ⟨rfl, rfl⟩
      | template => exact hafter.cons (by decide) htext fun _ => .inr rfl
      | unbroken hkind hunbroken => exact hafter.cons hkind htext fun hfeed => absurd hfeed hunbroken

section Positions

variable {source : Text} {front behind : List Token} {i : Nat}

theorem stands (hsource : source = before ++ (t.text ++ rest)) (hplace : (t.line, t.col) = before.place) :
    t.offset source = before.length ∧ source.drop (t.offset source) = t.text ++ rest ∧
      t.line = (source.take (t.offset source)).count 10 := by
  have hline : t.line = before.place.1 := congrArg Prod.fst hplace
  have hcol : t.col = before.place.2 := congrArg Prod.snd hplace
  have hoffset : t.offset source = before.length := by
    rw [offset, hsource, hline, hcol, Text.offset_place]
  refine ⟨hoffset, ?_, ?_⟩
  · rw [hoffset, hsource, drop_left]
  · rw [hoffset, hsource, take_left, hline, Text.place_fst]

/-- A token stands behind the one before it and what is skipped there. -/
theorem Laid.split (h : Laid before rest tokens) (hsource : source = before ++ rest)
    (htokens : tokens = front ++ t :: behind) :
    ∃ ahead gap after, source = ahead ++ gap ++ (t.text ++ after) ∧ before <+: ahead ∧
      ahead.length = reached source before.length front ∧ Skipped gap (t.text ++ after) ∧
      (t.line, t.col) = (ahead ++ gap).place := by
  induction h generalizing front with
  | @last before gap u hgap _ hempty hplace =>
    obtain ⟨rfl, hlast⟩ : front = [] ∧ [u] = t :: behind := by
      cases front with
      | nil => exact ⟨rfl, htokens⟩
      | cons first front => simp at htokens
    obtain ⟨rfl, -⟩ := cons.inj hlast
    exact ⟨before, gap, [], by rw [hsource, hempty]; simp, prefix_rfl, rfl, by rwa [hempty], hplace⟩
  | @token before gap rest u tokens hgap _ _ hplace _ _ ih =>
    have hcut : source = (before ++ gap) ++ (u.text ++ rest) := by rw [hsource, append_assoc]
    cases front with
    | nil =>
      obtain ⟨rfl, -⟩ := cons.inj htokens
      exact ⟨before, gap, rest, hcut, prefix_rfl, rfl, hgap, hplace⟩
    | cons first front =>
      obtain ⟨rfl, htail⟩ := cons.inj htokens
      have hstop : u.stop source = (before ++ gap ++ u.text).length := by
        rw [stop, (stands hcut hplace).1]
        exact length_append.symm
      obtain ⟨ahead, gap', after, hcut', hbefore, hreached, hrest⟩ := ih (by rw [hcut]; simp) htail
      rw [append_assoc] at hbefore
      exact ⟨ahead, gap', after, hcut', (prefix_append _ _).trans hbefore, by rw [hreached, ← hstop]; rfl, hrest⟩

theorem Laid.mem (h : Laid before rest tokens) (hsource : source = before ++ rest) (ht : t ∈ tokens) :
    before.length ≤ t.offset source ∧ t.text <+: source.drop (t.offset source) ∧
      t.line = (source.take (t.offset source)).count 10 := by
  obtain ⟨front, behind, htokens⟩ := append_of_mem ht
  obtain ⟨ahead, gap, after, hcut, hbefore, -, -, hplace⟩ := h.split hsource htokens
  obtain ⟨hoffset, hdrop, hline⟩ := stands hcut hplace
  refine ⟨?_, ?_, hline⟩
  · have hle := hbefore.length_le
    rw [hoffset, length_append]
    omega
  · rw [hdrop]
    exact prefix_append _ _

theorem Laid.pairwise (h : Laid before rest tokens) (hsource : source = before ++ rest) :
    tokens.Pairwise fun t u => t.offset source < u.offset source ∧ t.stop source ≤ u.offset source := by
  induction h with
  | last => exact pairwise_singleton _ _
  | @token before gap rest t tokens _ _ htext hplace _ h ih =>
    have hcut : source = (before ++ gap) ++ (t.text ++ rest) := by rw [hsource, append_assoc]
    have hafter : source = before ++ gap ++ t.text ++ rest := by rw [hcut, append_assoc _ t.text]
    refine pairwise_cons.mpr ⟨fun u hu => ?_, ih hafter⟩
    have hpos := length_pos_of_ne_nil htext
    have hu := (h.mem hafter hu).1
    rw [length_append, ← (stands hcut hplace).1] at hu
    exact ⟨by omega, hu⟩

theorem Laid.last_eof (h : Laid before rest tokens) (hsource : source = before ++ rest) :
    ∃ front t, tokens = front ++ [t] ∧ t.kind = .eof ∧ t.text = [] ∧ t.offset source = source.length ∧
      ∀ u ∈ front, u.kind ≠ .eof ∧ u.text ≠ [] := by
  induction h with
  | @last before gap t _ hkind hempty hplace =>
    have hcut : source = (before ++ gap) ++ (t.text ++ []) := by rw [hsource, hempty]; simp
    exact ⟨[], t, rfl, hkind, hempty, by rw [(stands hcut hplace).1, hsource], forall_mem_nil _⟩
  | @token before gap rest t tokens _ hkind htext _ _ _ ih =>
    obtain ⟨front, last, rfl, hlast⟩ := ih (by rw [hsource]; simp)
    refine ⟨t :: front, last, rfl, hlast.1, hlast.2.1, hlast.2.2.1, ?_⟩
    exact forall_mem_cons.mpr ⟨⟨hkind, htext⟩, hlast.2.2.2⟩

/-- Before each token stand blanks and comments, from where the token before it stops. -/
theorem Laid.skipped (h : Laid before rest tokens) (hsource : source = before ++ rest)
    (htokens : tokens = front ++ t :: behind) :
    ∃ gap, source.drop (reached source before.length front) = gap ++ source.drop (t.offset source) ∧
      reached source before.length front + gap.length = t.offset source ∧
      Skipped gap (source.drop (t.offset source)) := by
  obtain ⟨ahead, gap, after, hcut, -, hreached, hgap, hplace⟩ := h.split hsource htokens
  obtain ⟨hoffset, hdrop, -⟩ := stands hcut hplace
  refine ⟨gap, ?_, ?_, ?_⟩
  · rw [hdrop, ← hreached, hcut, append_assoc]
    exact drop_left
  · rw [← hreached, hoffset, length_append]
  · rwa [hdrop]

/-- At `start` stands a comment that shares nothing with the tokens. -/
structure CommentAt (source : Text) (tokens : List Token) (start : Nat) (text : Text) : Prop where
  begins : text <+: source.drop start
  comment : Comment text (source.drop (start + text.length))
  apart : ∀ t ∈ tokens, t.stop source ≤ start ∨ start + text.length ≤ t.offset source

theorem commentAt_of_feed {gap : Text} (hgap : Skipped gap rest) (hsource : source = before ++ gap ++ rest)
    (hafter : ∀ t ∈ tokens, (before ++ gap).length ≤ t.offset source) (hfrom : before.length ≤ i)
    (hto : i < (before ++ gap).length) (hi : source[i]? = some 10) :
    ∃ start text, CommentAt source tokens start text ∧ before.length ≤ start ∧ start ≤ i ∧ i < start + text.length := by
  simp only [length_append] at hafter hto
  have hfeed : gap[i - before.length]? = some 10 := by
    rwa [hsource, append_assoc, getElem?_append_right hfrom, getElem?_append_left (by omega)] at hi
  obtain ⟨front, text, behind, rfl, htext, hstart, hstop⟩ := hgap.comment_of_feed hfeed
  have hdrop : source.drop (before.length + front.length) = text ++ (behind ++ rest) := by
    have hcut : source = (before ++ front) ++ (text ++ (behind ++ rest)) := by rw [hsource]; simp
    rw [hcut, ← length_append, drop_left]
  refine ⟨before.length + front.length, text, ⟨?_, ?_, ?_⟩, by omega, by omega, by omega⟩
  · rw [hdrop]
    exact prefix_append _ _
  · rwa [← drop_drop, hdrop, drop_left]
  · intro t ht
    have hbound := hafter t ht
    simp only [length_append] at hbound
    omega

/-- A line feed is a token, or it stands in a template or in a comment. -/
theorem Laid.feed (h : Laid before rest tokens) (hsource : source = before ++ rest) (hfrom : before.length ≤ i)
    (hi : source[i]? = some 10) :
    (∃ t ∈ tokens, t.kind = .newline ∧ t.text = [10] ∧ t.offset source = i) ∨
    (∃ t ∈ tokens, t.kind = .template ∧ t.offset source ≤ i ∧ i < t.stop source) ∨
    ∃ start text, CommentAt source tokens start text ∧ before.length ≤ start ∧ start ≤ i ∧ i < start + text.length := by
  induction h with
  | @last before gap t hgap _ hempty hplace =>
    have hcut : source = (before ++ gap) ++ (t.text ++ []) := by rw [hsource, hempty]; simp
    have hto : i < (before ++ gap).length := by
      have hlt := (List.getElem?_eq_some_iff.mp hi).1
      rwa [hsource] at hlt
    have hafter : ∀ u ∈ [t], (before ++ gap).length ≤ u.offset source := by
      simp [(stands hcut hplace).1]
    exact .inr (.inr (commentAt_of_feed hgap (by rw [hsource, append_nil]) hafter hfrom hto hi))
  | @token before gap rest t tokens hgap _ _ hplace hfeed h ih =>
    have hcut : source = (before ++ gap) ++ (t.text ++ rest) := by rw [hsource, append_assoc]
    have hnext : source = before ++ gap ++ t.text ++ rest := by rw [hcut, append_assoc _ t.text]
    obtain ⟨hoffset, hdrop, -⟩ := stands hcut hplace
    have hstop : t.stop source = (before ++ gap ++ t.text).length := by
      rw [stop, hoffset]
      exact length_append.symm
    by_cases hbefore : i < (before ++ gap).length
    · have hafter : ∀ u ∈ t :: tokens, (before ++ gap).length ≤ u.offset source := by
        refine forall_mem_cons.mpr ⟨Nat.le_of_eq hoffset.symm, fun u hu => ?_⟩
        have hu := (h.mem hnext hu).1
        rw [length_append] at hu
        omega
      exact .inr (.inr (commentAt_of_feed hgap hcut hafter hfrom hbefore hi))
    · by_cases hinside : i < t.stop source
      · have hin : t.text[i - (before ++ gap).length]? = some 10 := by
          rw [hstop, length_append] at hinside
          rwa [hcut, getElem?_append_right (Nat.le_of_not_lt hbefore),
            getElem?_append_left (by omega)] at hi
        rcases hfeed (mem_of_getElem? hin) with ⟨hnewline, htext⟩ | htemplate
        · left
          refine ⟨t, mem_cons_self, hnewline, htext, ?_⟩
          rw [stop, htext, length_singleton] at hinside
          omega
        · right
          left
          exact ⟨t, mem_cons_self, htemplate, by omega, hinside⟩
      · rw [hstop, Nat.not_lt] at hinside
        rcases ih hnext hinside with ⟨u, hu, hrest⟩ | ⟨u, hu, hrest⟩ | ⟨start, text, hcomment, hstart, hin⟩
        · exact .inl ⟨u, mem_cons_of_mem t hu, hrest⟩
        · exact .inr (.inl ⟨u, mem_cons_of_mem t hu, hrest⟩)
        · have hapart := forall_mem_cons.mpr ⟨.inl (hstop ▸ hstart), hcomment.apart⟩
          refine .inr (.inr ⟨start, text, ⟨hcomment.begins, hcomment.comment, hapart⟩, ?_, hin⟩)
          simp only [length_append] at hstart
          omega

theorem laid_scan (source : Text) : Laid [] source (scan source) := laid_scanFrom [] source

/-- **Nothing of a source is lost.** Each token stands in the source where its line and column say, the tokens are in
order and apart, and only blanks and comments stand between them. The end of the source comes last, and each line feed
is a token or stands in a template or in a comment. -/
theorem scan_covers_source (source : Text) :
    (∃ front t, scan source = front ++ [t] ∧ t.kind = .eof ∧ t.text = [] ∧ t.offset source = source.length ∧
      ∀ u ∈ front, u.kind ≠ .eof ∧ u.text ≠ []) ∧
    (∀ t ∈ scan source, t.text <+: source.drop (t.offset source) ∧
      t.line = (source.take (t.offset source)).count 10) ∧
    ((scan source).Pairwise fun t u => t.offset source < u.offset source ∧ t.stop source ≤ u.offset source) ∧
    (∀ front t behind, scan source = front ++ t :: behind →
      ∃ gap, source.drop (reached source 0 front) = gap ++ source.drop (t.offset source) ∧
        reached source 0 front + gap.length = t.offset source ∧ Skipped gap (source.drop (t.offset source))) ∧
    ∀ i, source[i]? = some 10 →
      (∃ t ∈ scan source, t.kind = .newline ∧ t.text = [10] ∧ t.offset source = i) ∨
      (∃ t ∈ scan source, t.kind = .template ∧ t.offset source ≤ i ∧ i < t.stop source) ∨
      ∃ start text, CommentAt source (scan source) start text ∧ start ≤ i ∧ i < start + text.length := by
  have hlaid := laid_scan source
  refine ⟨hlaid.last_eof rfl, ?_, hlaid.pairwise rfl, ?_, ?_⟩
  · intro t ht
    exact (hlaid.mem rfl ht).2
  · intro front t behind htokens
    exact hlaid.skipped rfl htokens
  · intro i hi
    rcases hlaid.feed rfl (Nat.zero_le i) hi with hnewline | htemplate | ⟨start, text, hcomment, -, hin⟩
    · exact .inl hnewline
    · exact .inr (.inl htemplate)
    · exact .inr (.inr ⟨start, text, hcomment, hin⟩)

end Positions

end Token

end Stepwise
