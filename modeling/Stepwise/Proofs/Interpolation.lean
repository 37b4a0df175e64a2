import Stepwise.Proofs.Brackets
import Stepwise.Proofs.Precedence

/-!
# Interpolation

A template is one token, from its first tick to the next one that no backslash is in front of. Its body is cut into text
and the code of interpolations, which ends at the first brace that closes more than was opened, and each piece is parsed
by itself (`Expr.parse_template`). Braces are counted wherever they stand, so an expression can be interpolated just when
all its braces are balanced, those in its strings and comments included (`Expr.parse_interpolation_iff_balanced`).
-/

namespace Stepwise

open List

/-- The sign that a template stands between. -/
def Lexeme.tick : CodePoint := 0x60

/-! ### A template as a token -/

namespace Lexeme

variable {s : Text}

/-- A text that can stand in a template as it is. -/
def Verbatim (s : Text) : Prop := ∀ c ∈ s, c ≠ tick ∧ c ≠ '\\'.toNat ∧ c ≠ '$'.toNat

theorem quotedLength?_step {c : CodePoint} (htick : c ≠ tick) (hbackslash : c ≠ '\\'.toNat) (rest : Text) :
    quotedLength? tick true (c :: rest) = (quotedLength? tick true rest).map (· + 1) := by
  rw [quotedLength?.eq_def]
  simp only [htick, hbackslash, Bool.not_true, Bool.false_eq_true, and_false, if_false]

theorem quotedLength?_pair (d : CodePoint) (rest : Text) :
    quotedLength? tick true ('\\'.toNat :: d :: rest) = (quotedLength? tick true rest).map (· + 2) := by
  have htick : '\\'.toNat ≠ tick := by decide
  rw [quotedLength?.eq_def]
  simp only [htick, Bool.not_true, Bool.false_eq_true, and_false, if_false, if_true]

theorem quotedLength?_verbatim (h : Verbatim s) : quotedLength? tick true (s ++ [tick]) = some (s.length + 1) := by
  induction s with
  | nil => rfl
  | cons c s ih =>
    obtain ⟨⟨htick, hbackslash, -⟩, hs⟩ := forall_mem_cons.1 h
    rw [cons_append, quotedLength?_step htick hbackslash, ih hs]
    rfl

/-- A backslash takes at most the brace with it, so a template ends at its last tick. -/
theorem quotedLength?_closed {b : Text} (hs : tick ∉ s) (hb : Verbatim b) :
    quotedLength? tick true (s ++ 0x7d :: (b ++ [tick])) = some ((s ++ 0x7d :: b).length + 1) := by
  -- what follows a backslash is a case of its own
  suffices h : quotedLength? tick true (s ++ 0x7d :: (b ++ [tick])) = some ((s ++ 0x7d :: b).length + 1) ∧
      quotedLength? tick true ('\\'.toNat :: (s ++ 0x7d :: (b ++ [tick]))) = some ((s ++ 0x7d :: b).length + 2) from h.1
  have hlast := quotedLength?_verbatim hb
  induction s with
  | nil =>
    rw [nil_append, quotedLength?_step (by decide) (by decide), quotedLength?_pair, hlast]
    exact ⟨rfl, rfl⟩
  | cons c s ih =>
    rw [mem_cons, not_or] at hs
    obtain ⟨hplain, hescaped⟩ := ih hs.2
    rw [cons_append, quotedLength?_pair, hplain]
    refine ⟨?_, rfl⟩
    by_cases hc : c = '\\'.toNat
    · rw [hc, hescaped]
      rfl
    · rw [quotedLength?_step (Ne.symm hs.1) hc, hplain]
      rfl

theorem next_template {n : Nat} (h : quotedLength? tick true s = some n) :
    next (tick :: s) = (some .template, n + 1) := by
  have hcomment := commentLength_of_ne (c := tick) (by decide) s
  have hnumber := numberLength_of_ne (c := tick) (by decide) (by decide) s
  have hfeed : tick ≠ lineFeed := by decide
  have hspace : isSpace tick = false := by decide
  have hquote : ¬ (tick = '"'.toNat ∨ tick = '\''.toNat) := by decide
  have htick : tick = 0x60 := rfl
  simp only [next, hcomment, hnumber, hfeed, hspace, hquote, ne_eq, not_true_eq_false, Bool.false_eq_true, if_false]
  rw [if_pos htick, h]

end Lexeme

namespace Token

open Lexeme

theorem seen_of_skip_all (s : Text) {skip : Nat} (h : s.length ≤ skip) (line col : Nat) :
    Reader.significant (scanFrom s skip line col) = [] := by
  induction s generalizing skip line col with
  | nil => rfl
  | cons c s ih =>
    obtain ⟨k, rfl⟩ : ∃ k, skip = k + 1 := Nat.exists_eq_add_one.2 (by rw [length_cons] at h; omega)
    exact ih (Nat.le_of_succ_le_succ h) _ _

theorem seenFrom_template {s : Text} (h : quotedLength? tick true s = some s.length) :
    seenFrom (tick :: s) 0 0 = [⟨.template, tick :: s, 0, 0⟩] := by
  have htake : (tick :: s).take (s.length + 1) = tick :: s := take_length (l := tick :: s)
  have hfeed : tick ≠ lineFeed := by decide
  have hend := seen_of_skip_all s (Nat.le_refl s.length) 0 1
  rw [seenFrom, scanFrom, next_template h, if_neg hfeed, if_neg hfeed]
  simp only [Nat.add_sub_cancel, htake]
  exact congrArg _ hend

end Token

/-! ### The parts of a template -/

/-- What a piece of a template is parsed as. -/
def TemplatePiece.toPart : TemplatePiece → Except SyntaxError Part
  | .text raw => .ok (.text (.ofText raw.unescape))
  | .code source => return .code (← Expr.parse source)
  | .unclosed => .error .unterminatedTemplate

namespace Expr

variable {n : Nat} {pieces : List TemplatePiece}

theorem parseSource_eq_parse {s : Text} {n : Nat} (h : 16 * s.length + 6 ≤ n) : parseSource n s = Expr.parse s := by
  have hn := ((suffices_fuel s (16 * s.length + 32) n).inner (infix_refl s) h).1
  have hparse := ((suffices_fuel s n (16 * s.length + 32)).inner (infix_refl s) (by omega)).1
  rw [hn, Nat.add_comm, ← hparse, Expr.parse]

theorem run_parseParts (h : 16 * TemplatePiece.weight pieces + 1 ≤ n)
    (ts : List Token) : (parseParts n pieces).run ts = (pieces.mapM TemplatePiece.toPart).map (·, ts) := by
  induction pieces generalizing n with
  | nil =>
    obtain ⟨m, rfl⟩ := Nat.exists_eq_add_one.2 (Nat.lt_of_lt_of_le (Nat.succ_pos _) h)
    rfl
  | cons piece pieces ih =>
    obtain ⟨m, rfl⟩ := Nat.exists_eq_add_one.2 (Nat.lt_of_lt_of_le (Nat.succ_pos _) h)
    rw [mapM_cons]
    cases piece with
    | text raw =>
      have hmore := ih (n := m) (by simp only [TemplatePiece.weight] at h; omega)
      change ((parseParts m pieces).run ts >>= fun r => pure (_ :: r.1, r.2)) = _
      rw [hmore]
      cases pieces.mapM TemplatePiece.toPart <;> rfl
    | code source =>
      simp only [TemplatePiece.weight] at h
      have hmore := ih (n := m) (by omega)
      have hsource := parseSource_eq_parse (s := source) (n := m) (by omega)
      rw [parseParts, hsource, TemplatePiece.toPart]
      cases Expr.parse source with
      | error e => rfl
      | ok e =>
        change ((parseParts m pieces).run ts >>= fun r => pure (_ :: r.1, r.2)) = _
        rw [hmore]
        cases pieces.mapM TemplatePiece.toPart <;> rfl
    | unclosed => rfl

theorem run_parseWhole_template (text : Text) (line col : Nat)
    (hpieces : TemplatePiece.split (Token.mk .template text line col).body = pieces)
    (h : 16 * TemplatePiece.weight pieces + 1 ≤ n) :
    (parseWhole (n + 5)).run [⟨.template, text, line, col⟩] =
      (pieces.mapM TemplatePiece.toPart).map fun parts => (.template parts, []) := by
  have hprimary : (parsePrimary (n + 1)).run [⟨.template, text, line, col⟩] =
      (pieces.mapM TemplatePiece.toPart).map fun parts => (.template parts, []) := by
    change ((parseParts n (TemplatePiece.split (Token.mk .template text line col).body)).run [] >>=
      fun r => pure (Expr.template r.1, r.2)) = _
    rw [hpieces, run_parseParts h]
    cases pieces.mapM TemplatePiece.toPart <;> rfl
  generalize pieces.mapM TemplatePiece.toPart = parts at hprimary ⊢
  have hafter : (parsePostfix (n + 2)).run [⟨.template, text, line, col⟩] =
      parts.map fun parts => (.template parts, []) := by
    rw [parsePostfix, StateT.run_bind, hprimary]
    cases parts <;> rfl
  have hlevel : (parseLevel (n + 4) 1).run [⟨.template, text, line, col⟩] =
      parts.map fun parts => (.template parts, []) := by
    change ((parsePostfix (n + 2)).run [⟨.template, text, line, col⟩] >>= _) = _
    rw [hafter]
    cases parts <;> rfl
  rw [parseWhole, StateT.run_bind, hlevel]
  cases parts <;> rfl

theorem parse_template {body : Text} (h : Lexeme.quotedLength? Lexeme.tick true (body ++ [Lexeme.tick]) = some (body.length + 1)) :
    Expr.parse (Lexeme.tick :: (body ++ [Lexeme.tick])) = do
      return .template (← (TemplatePiece.split body).mapM TemplatePiece.toPart) := by
  have hseen := Token.seenFrom_template (s := body ++ [Lexeme.tick]) (by rw [h, length_append]; rfl)
  have hbody : (Token.mk .template (Lexeme.tick :: (body ++ [Lexeme.tick])) 0 0).body = body := dropLast_concat
  have hweight := TemplatePiece.weight_split_le body
  rw [parse_of_seen (by rw [hseen]; exact cons_ne_nil _ _), hseen]
  have hrun := run_parseWhole_template (Lexeme.tick :: (body ++ [Lexeme.tick])) 0 0 (congrArg _ hbody)
    (n := 16 * (Lexeme.tick :: (body ++ [Lexeme.tick])).length + 26) (by simp only [length_cons, length_append]; omega)
  rw [hrun]
  cases (TemplatePiece.split body).mapM TemplatePiece.toPart <;> rfl

end Expr

/-! ### Rows of brackets that go on -/

namespace Bracket

variable {w v : List Bracket} {k : Nat}

theorem Climbs.of_concat_opening (h : Climbs (w ++ [opening]) k) : ∃ j, k = j + 1 ∧ Climbs w j := by
  have htotal := h.total
  have hle := h.front w (prefix_append _ _)
  rw [count_concat, count_concat, if_pos rfl, if_neg (by decide)] at htotal
  refine ⟨w.count opening - w.count closing, by omega, fun u hu => h.front u (hu.trans (prefix_append _ _)), ?_⟩
  omega

theorem Climbs.of_concat_closing (h : Climbs (w ++ [closing]) k) : Climbs w (k + 1) := by
  have htotal := h.total
  rw [count_concat, count_concat, if_pos rfl, if_neg (by decide)] at htotal
  exact ⟨fun u hu => h.front u (hu.trans (prefix_append _ _)), by omega⟩

end Bracket

/-! ### Escapes in front of a brace -/

namespace Text

open Lexeme

variable {s r b : Text} {c : CodePoint}

theorem unescape_verbatim (h : Verbatim s) : s.unescape = s := by
  rw [unescape]
  induction s with
  | nil => rfl
  | cons c s ih =>
    obtain ⟨⟨-, hbackslash, -⟩, hs⟩ := forall_mem_cons.1 h
    rw [unescapeFrom, if_neg hbackslash, ih hs]

theorem hexNumber?_of_mem (hmem : c ∈ s) (hc : hexValue? c = none) : hexNumber? s = none := by
  have hnone (s : Text) : s.foldl (fun acc c => do return (← acc) * 16 + (← hexValue? c)) none = none := by
    induction s with
    | nil => rfl
    | cons c s ih => exact ih
  obtain ⟨front, behind, rfl⟩ := append_of_mem hmem
  rw [hexNumber?, foldl_append, foldl_cons, hc]
  generalize front.foldl _ (some 0) = acc
  cases acc <;> exact hnone behind

/-- The digits of an escape do not reach behind a brace. -/
theorem width_le_of_hexNumber? {digits rest : Text} {width n : Nat}
    (h : hexNumber? ((digits ++ 0x7d :: rest).take width) = some n) : width ≤ digits.length := by
  by_contra hshort
  obtain ⟨k, hk⟩ := Nat.exists_eq_add_of_lt (Nat.lt_of_not_le hshort)
  have hmem : 0x7d ∈ (digits ++ 0x7d :: rest).take width := by
    rw [take_append, hk, Nat.add_assoc, Nat.add_sub_cancel_left, take_succ_cons]
    exact mem_append_right _ mem_cons_self
  rw [hexNumber?_of_mem hmem rfl] at h
  cases h

theorem escapeAt_le (hr : r ≠ []) (rest : Text) : (escapeAt (r ++ 0x7d :: rest)).2 ≤ r.length := by
  cases r with
  | nil => exact absurd rfl hr
  | cons c r =>
    have hhex {width n : Nat} {p : Prop} [Decidable p] (h : (if p then
        if ((r ++ 0x7d :: rest).take width).length = width then hexNumber? ((r ++ 0x7d :: rest).take width) else none
        else none) = some n) : width ≤ r.length := by
      rw [Option.ite_none_right_eq_some, Option.ite_none_right_eq_some] at h
      exact width_le_of_hexNumber? h.2.2
    rw [cons_append, escapeAt.eq_def, length_cons]
    dsimp only
    split
    case h_1 h => exact Nat.succ_le_succ (hhex h)
    case h_2 h => exact Nat.succ_le_succ (hhex h)
    case h_3 => split <;> exact Nat.succ_le_succ (Nat.zero_le _)

/-- A brace is not lost to an escape, nor is what follows it. -/
theorem length_lt_unescapeFrom (hb : Verbatim b) {skip : Nat} (hskip : skip ≤ s.length) :
    b.length < (unescapeFrom (s ++ 0x7d :: b) skip).length := by
  have hlast : unescapeFrom b 0 = b := unescape_verbatim hb
  induction s generalizing skip with
  | nil =>
    obtain rfl : skip = 0 := Nat.le_zero.1 hskip
    rw [nil_append, unescapeFrom, if_neg (by decide), hlast]
    exact Nat.lt_succ_self _
  | cons c s ih =>
    cases skip with
    | succ skip => exact ih (Nat.le_of_succ_le_succ hskip)
    | zero =>
      rw [cons_append, unescapeFrom]
      split
      case isFalse => exact Nat.lt_succ_of_lt (ih (Nat.zero_le _))
      case isTrue =>
        rw [length_append]
        by_cases hs : s = []
        · subst hs
          rw [nil_append, escapeAt_of_ne (by decide) (by decide) (by decide), unescapeFrom, hlast]
          exact Nat.lt_add_of_pos_left Nat.one_pos
        · exact Nat.lt_add_left _ (ih (escapeAt_le hs b))

end Text

/-! ### The pieces of a template -/

namespace TemplatePiece

open Lexeme

variable {s a b collected : Text} {c : CodePoint} {d : Nat} {k : Nat} {piece : TemplatePiece}

theorem splitFrom_text_cons (hbackslash : c ≠ '\\'.toNat) (hdollar : c ≠ '$'.toNat) (s collected : Text) :
    splitFrom (c :: s) .text collected = splitFrom s .text (c :: collected) := by
  cases s with
  | nil => rfl
  | cons d s => rw [splitFrom, if_neg hbackslash, if_neg fun h => hdollar h.1]

theorem splitFrom_verbatim (ha : Verbatim a) (rest collected : Text) :
    splitFrom (a ++ rest) .text collected = splitFrom rest .text (a.reverse ++ collected) := by
  induction a generalizing collected with
  | nil => rfl
  | cons c a ih =>
    obtain ⟨⟨-, hbackslash, hdollar⟩, ha⟩ := forall_mem_cons.1 ha
    rw [cons_append, splitFrom_text_cons hbackslash hdollar, ih ha, reverse_cons, append_assoc]
    rfl

theorem splitFrom_interpolation (rest collected : Text) :
    splitFrom ('$'.toNat :: 0x7b :: rest) .text collected = flush collected (splitFrom rest (.code 0) []) := by
  rw [splitFrom, if_neg (by decide), if_pos ⟨rfl, rfl⟩]

/-- The braces of a text, wherever they stand. -/
def braces (s : Text) : List Bracket :=
  s.filterMap fun c => if c = 0x7b then some .opening else if c = 0x7d then some .closing else none

theorem braces_concat (s : Text) (c : CodePoint) : braces (s ++ [c]) = braces s ++ braces [c] := filterMap_append

open Bracket

theorem splitFrom_climbs (s : Text) (h : Climbs (braces s) k) (rest : Text) :
    splitFrom (s ++ rest) (.code 0) [] = splitFrom rest (.code k) s.reverse := by
  induction s using reverseRecOn generalizing k rest with
  | nil =>
    obtain rfl : 0 = k := by simpa [braces] using h.total
    rfl
  | append_singleton s c ih =>
    rw [braces_concat] at h
    rw [append_assoc, reverse_concat]
    by_cases hopen : c = 0x7b
    · subst hopen
      obtain ⟨j, rfl, hj⟩ := h.of_concat_opening
      rw [ih hj]
      rfl
    · by_cases hclose : c = 0x7d
      · subst hclose
        rw [ih h.of_concat_closing]
        rfl
      · have hnone : braces [c] = [] := by simp [braces, hopen, hclose]
        rw [hnone, append_nil] at h
        rw [ih h, singleton_append, splitFrom.eq_def]
        simp only [hopen, hclose, if_false]

/-- The braces of a text leave some open, or one closes that was not opened. -/
theorem climbs_or_closes (s : Text) : (∃ k, Climbs (braces s) k) ∨ ∃ p q, s = p ++ 0x7d :: q ∧ Balanced (braces p) := by
  induction s using reverseRecOn with
  | nil => exact .inl ⟨0, balanced_nil⟩
  | append_singleton s c ih =>
    rw [braces_concat]
    rcases ih with ⟨k, hk⟩ | ⟨p, q, rfl, hp⟩
    · by_cases hopen : c = 0x7b
      · subst hopen
        exact .inl ⟨k + 1, hk.concat_opening⟩
      · by_cases hclose : c = 0x7d
        · subst hclose
          cases k with
          | zero => exact .inr ⟨s, [], rfl, hk⟩
          | succ k => exact .inl ⟨k, hk.concat_closing⟩
        · have hnone : braces [c] = [] := by simp [braces, hopen, hclose]
          rw [hnone, append_nil]
          exact .inl ⟨k, hk⟩
    · exact .inr ⟨p, q ++ [c], by rw [append_assoc, cons_append], hp⟩

/-- An interpolation ends at the first brace that closes more than was opened. -/
theorem splitFrom_balanced {p : Text} (h : Balanced (braces p)) (rest : Text) :
    splitFrom (p ++ 0x7d :: rest) (.code 0) [] = .code p :: splitFrom rest .text [] := by
  rw [splitFrom_climbs p h, splitFrom.eq_def]
  simp

theorem splitFrom_unclosed (h : Climbs (braces s) k) : splitFrom s (.code 0) [] = [.unclosed] := by
  have hend := splitFrom_climbs s h []
  rwa [append_nil] at hend

theorem exists_not_text (s : Text) (d : Nat) (collected : Text) :
    ∃ piece ∈ splitFrom s (.code d) collected, ∀ raw, piece ≠ .text raw := by
  induction s generalizing d collected with
  | nil => exact ⟨.unclosed, mem_singleton_self _, by simp⟩
  | cons c s ih =>
    rw [splitFrom.eq_def]
    dsimp only
    split
    · exact ih _ _
    · split
      · split
        · exact ⟨_, mem_cons_self, by simp⟩
        · exact ih _ _
      · exact ih _ _

theorem mem_flush_of_mem {rest : List TemplatePiece} (h : piece ∈ rest) : piece ∈ flush collected rest := by
  unfold flush
  split
  · exact h
  · exact mem_cons_of_mem _ h

/-- Where no interpolation begins, all is one piece. -/
theorem splitFrom_text_of_forall (h : ∀ piece ∈ splitFrom s .text collected, ∃ raw, piece = .text raw) :
    splitFrom s .text collected = flush (s.reverse ++ collected) [] := by
  generalize hplace : Place.text = place at h ⊢
  fun_induction splitFrom s place collected with
  | case1 => rfl
  | case3 => rfl
  | case4 collected d rest' ih =>
    rw [ih hplace h]
    simp
  | case5 c collected d rest' =>
    obtain ⟨piece, hmem, hother⟩ := exists_not_text rest' 0 []
    obtain ⟨raw, hraw⟩ := h piece (mem_flush_of_mem hmem)
    exact absurd hraw (hother raw)
  | case6 c collected d rest' hc hd ih =>
    rw [ih hplace h]
    simp
  | case2 | case7 | case8 | case9 | case10 => cases hplace

/-! ### What the pieces are parsed as -/

/-- The part for some text, unless it is empty. -/
def textParts (s : Text) : List Part := if s.isEmpty then [] else [.text (.ofText s)]

theorem mapM_flush (ha : Verbatim a) (pieces : List TemplatePiece) :
    (flush a.reverse pieces).mapM toPart = (pieces.mapM toPart).map (textParts a ++ ·) := by
  cases a with
  | nil =>
    change pieces.mapM toPart = _
    cases pieces.mapM toPart <;> rfl
  | cons c a =>
    have hflush : flush (c :: a).reverse pieces = .text (c :: a) :: pieces := by simp [flush]
    rw [hflush, mapM_cons, toPart, Text.unescape_verbatim ha]
    cases pieces.mapM toPart <;> rfl

theorem eq_text_of_toPart {l : Literal} (h : toPart piece = .ok (.text l)) : ∃ raw, piece = .text raw := by
  cases piece with
  | text raw => exact ⟨raw, rfl⟩
  | code source =>
    obtain ⟨e, -, h⟩ := eq_ok_of_bind h
    cases h
  | unclosed => cases h

/-- Text that is parsed as one part, or as none, has no interpolation in it. -/
theorem unescape_of_mapM {q : Text} (h : (splitFrom q .text []).mapM toPart = .ok (textParts b)) : q.unescape = b := by
  have hpieces := mapM_eq_ok_iff.1 h
  have htext : splitFrom q .text [] = flush q.reverse [] := by
    rw [← append_nil q.reverse]
    refine splitFrom_text_of_forall fun piece hpiece => ?_
    obtain ⟨part, hpart, heq⟩ := mem_map.1 (hpieces ▸ mem_map_of_mem hpiece)
    rw [textParts] at hpart
    split at hpart
    · cases hpart
    · rw [mem_singleton.1 hpart] at heq
      exact eq_text_of_toPart heq.symm
  rw [htext, textParts] at hpieces
  cases q with
  | nil =>
    split at hpieces
    case isTrue hb => exact (isEmpty_iff.1 hb).symm
    case isFalse => cases hpieces
  | cons c q =>
    have hflush : flush (c :: q).reverse [] = [.text (c :: q)] := by simp [flush]
    rw [hflush] at hpieces
    split at hpieces
    case isTrue => cases hpieces
    case isFalse =>
      simp only [map_cons, map_nil, toPart, cons.injEq, Except.ok.injEq, Part.text.injEq, and_true] at hpieces
      exact congrArg Literal.text hpieces

end TemplatePiece

namespace Expr

open Lexeme TemplatePiece Bracket

variable {a e b : Text} {x : Expr}

/-- A template with one interpolation. -/
def interpolated (a e b : Text) : Text :=
  "`".codes ++ a ++ "$\x7b".codes ++ e ++ "\x7d".codes ++ b ++ "`".codes

theorem parse_interpolated (ha : Verbatim a) (hb : Verbatim b) (he : tick ∉ e) :
    Expr.parse (interpolated a e b) = ((splitFrom (e ++ 0x7d :: b) (.code 0) []).mapM toPart).map
      fun parts => .template (textParts a ++ parts) := by
  have hbody : interpolated a e b = tick :: ((a ++ '$'.toNat :: 0x7b :: e) ++ 0x7d :: b ++ [tick]) := by
    simp [interpolated, tick, String.codes]
  have htick : tick ∉ a ++ '$'.toNat :: 0x7b :: e := by
    rw [mem_append, not_or]
    refine ⟨fun h => (ha _ h).1 rfl, ?_⟩
    rw [mem_cons, mem_cons, not_or, not_or]
    exact ⟨by decide, by decide, he⟩
  have hclosed := quotedLength?_closed htick hb
  rw [hbody, parse_template (by rwa [append_assoc, cons_append]), split, append_assoc,
    splitFrom_verbatim ha, cons_append, cons_append, splitFrom_interpolation, append_nil, mapM_flush ha]
  cases (splitFrom (e ++ 0x7d :: b) (.code 0) []).mapM toPart <;> rfl

theorem mapM_interpolated_iff (hb : Verbatim b) (hx : Expr.parse e = .ok x) :
    (splitFrom (e ++ 0x7d :: b) (.code 0) []).mapM toPart = .ok (.code x :: textParts b) ↔ Balanced (braces e) := by
  constructor
  · intro h
    rcases climbs_or_closes (e ++ 0x7d :: b) with ⟨k, hk⟩ | ⟨p, q, heq, hp⟩
    · rw [splitFrom_unclosed hk] at h
      cases h
    · rw [heq, splitFrom_balanced hp, mapM_cons] at h
      obtain ⟨part, -, h⟩ := eq_ok_of_bind h
      obtain ⟨parts, hparts, h⟩ := eq_ok_of_bind h
      cases h
      have hq := unescape_of_mapM hparts
      rcases append_eq_append_iff.1 heq with ⟨l, rfl, hl⟩ | ⟨l, rfl, hl⟩
      · -- the interpolation ends with or behind the expression
        cases l with
        | nil => rwa [append_nil] at hp
        | cons c l =>
          rw [cons_append] at hl
          obtain ⟨-, rfl⟩ := cons.inj hl
          rw [Text.unescape_verbatim fun c hc => hb c (by simp [hc])] at hq
          have hlength := congrArg List.length hq
          rw [length_append, length_cons] at hlength
          omega
      · -- the interpolation ends with or inside the expression
        cases l with
        | nil => rwa [append_nil]
        | cons c l =>
          rw [cons_append] at hl
          obtain ⟨-, rfl⟩ := cons.inj hl
          have hlength := Text.length_lt_unescapeFrom (s := l) hb (Nat.zero_le _)
          rw [← Text.unescape, hq] at hlength
          exact absurd hlength (Nat.lt_irrefl _)
  · intro h
    have hlast : splitFrom b .text [] = flush b.reverse [] := by
      rw [← append_nil b, splitFrom_verbatim hb, splitFrom, append_nil, append_nil]
    rw [splitFrom_balanced h, hlast, mapM_cons, toPart, hx, mapM_flush hb, mapM_nil]
    exact congrArg (fun parts => Except.ok (Part.code x :: parts)) (append_nil (textParts b))

/-- An expression that stands by itself can stand in a template just when its braces are balanced, those in its strings
and comments included. -/
theorem parse_interpolation_iff_balanced (a e b : Text) (x : Expr) (ha : Verbatim a) (hb : Verbatim b) (he : tick ∉ e)
    (hx : Expr.parse e = .ok x) :
    Expr.parse (interpolated a e b) = .ok (.template (textParts a ++ .code x :: textParts b)) ↔ Balanced (braces e) := by
  rw [parse_interpolated ha hb he, ← mapM_interpolated_iff hb hx]
  cases (splitFrom (e ++ 0x7d :: b) (.code 0) []).mapM toPart <;> simp [Except.map]

/-- An object literal can be interpolated. -/
theorem parse_interpolation_iff_balanced_object : ∃ x, Expr.parse "\x7ba: \x7bb: 1\x7d\x7d.a".codes = .ok x ∧
    Expr.parse (interpolated "a is ".codes "\x7ba: \x7bb: 1\x7d\x7d.a".codes "!".codes) =
      .ok (.template (textParts "a is ".codes ++ .code x :: textParts "!".codes)) := by
  obtain ⟨x, hx⟩ := eq_ok_of_isOk (r := Expr.parse "\x7ba: \x7bb: 1\x7d\x7d.a".codes) (by decide +kernel)
  refine ⟨x, hx, (parse_interpolation_iff_balanced _ _ _ x ?_ ?_ (by decide) hx).2 ?_⟩
  · unfold Verbatim
    decide
  · unfold Verbatim
    decide
  · exact balanced_nil.concat_opening.concat_opening.concat_closing.concat_closing

/-- A brace in a string ends the interpolation. -/
theorem parse_interpolation_stops_in_string :
    Expr.parse "'\x7d'".codes = .ok (.text (.ofText "\x7d".codes)) ∧
      Expr.parse (interpolated [] "'\x7d'".codes []) = .error .invalidToken := by
  exact ⟨rfl, rfl⟩

end Expr

end Stepwise
