import Stepwise.Proofs.BlockIndex

/-!
# What segments are made of

A bracket in the source is always a punctuation mark. A segment is a non-empty stretch of tokens without newlines; one
that opens a block ends in the brace that does so, and no other segment holds such a brace.
-/

namespace Stepwise

open List

/-! ### Tokens -/

/-- The brackets. -/
def Lexeme.brackets : Text := "()[]\x7b\x7d".codes

theorem Lexeme.next_bracket {c : CodePoint} (h : c ∈ brackets) (rest : Text) :
    next (c :: rest) = (some .punctuation, 1) := by
  simp only [brackets, String.codes] at h
  rcases (by simpa using h : c = 40 ∨ c = 41 ∨ c = 91 ∨ c = 93 ∨ c = 123 ∨ c = 125) with
    rfl | rfl | rfl | rfl | rfl | rfl <;> cases rest <;> rfl

namespace Token

variable {t : Token}

/-- A bracket that is read as a word is a mark. -/
def Plain (t : Token) : Prop := ∀ c ∈ Lexeme.brackets, t.isWord [c] → t.isMark [c]

/-- Each token of a scan is the end of the source, or the lexeme at the start of what remains. -/
theorem exists_next_of_mem_scanFrom {s : Text} {skip line col : Nat} (h : t ∈ scanFrom s skip line col) :
    t.kind = .eof ∨ ∃ rest n, rest <:+ s ∧ Lexeme.next rest = (some t.kind, n) ∧ t.text = rest.take n := by
  induction s generalizing skip line col with
  | nil =>
    obtain rfl : t = ⟨.eof, [], line, col⟩ := by simpa [scanFrom] using h
    exact .inl rfl
  | cons c s ih =>
    have hlater {skip line col : Nat} (h : t ∈ scanFrom s skip line col) : t.kind = .eof ∨
        ∃ rest n, rest <:+ c :: s ∧ Lexeme.next rest = (some t.kind, n) ∧ t.text = rest.take n := by
      rcases ih h with heof | ⟨rest, n, hrest, hnext⟩
      · exact .inl heof
      · exact .inr ⟨rest, n, hrest.trans (suffix_cons c s), hnext⟩
    cases skip with
    | succ skip => exact hlater h
    | zero =>
      rw [scanFrom] at h
      split at h
      case h_1 kind n hnext =>
        rcases mem_cons.mp h with rfl | h
        · exact .inr ⟨c :: s, n, suffix_refl _, hnext, rfl⟩
        · exact hlater h
      case h_2 => exact hlater h

theorem text_of_isWord {word : Text} (h : t.isWord word) : t.text = word := by
  simp only [isWord] at h
  split at h <;> simp_all

theorem plain_scan {source : Text} (h : t ∈ scan source) : t.Plain := by
  intro bracket hbracket hword
  rcases exists_next_of_mem_scanFrom h with heof | ⟨rest, n, -, hnext, htext⟩
  · simp [isWord, heof] at hword
  · -- the text of the token is the bracket, so what remains begins with it
    rw [text_of_isWord hword] at htext
    obtain ⟨behind, rfl⟩ : ∃ behind, rest = bracket :: behind := by
      cases rest with
      | nil => simp at htext
      | cons c behind =>
        cases n with
        | zero => simp at htext
        | succ n => exact ⟨behind, by simp_all⟩
    rw [Lexeme.next_bracket hbracket] at hnext
    obtain ⟨hkind, -⟩ := Prod.mk.inj hnext
    simp [isMark, ← Option.some.inj hkind, text_of_isWord hword]

/-- How many brackets are open after a token. -/
def depthAfter (depth : Nat) (t : Token) : Nat :=
  if t.kind = .punctuation then
    if t.text = "(".codes ∨ t.text = "[".codes ∨ t.text = "\x7b".codes then depth + 1
    else if t.text = ")".codes ∨ t.text = "]".codes ∨ t.text = "\x7d".codes then depth - 1
    else depth
  else depth

theorem depthAfter_open (hkind : t.kind = .punctuation)
    (htext : t.text = "(".codes ∨ t.text = "[".codes ∨ t.text = "\x7b".codes) (depth : Nat) :
    depthAfter depth t = depth + 1 := by
  rw [depthAfter, if_pos hkind, if_pos htext]

theorem depthAfter_close (hkind : t.kind = .punctuation)
    (htext : t.text = ")".codes ∨ t.text = "]".codes ∨ t.text = "\x7d".codes) (depth : Nat) :
    depthAfter depth t = depth - 1 := by
  rw [depthAfter, if_pos hkind, if_neg ?_, if_pos htext]
  rcases htext with htext | htext | htext <;> rw [htext] <;> decide

/-- How many brackets are open after some tokens. -/
def depth (ts : List Token) : Nat := ts.foldl depthAfter 0

theorem depth_append (ts us : List Token) : depth (ts ++ us) = us.foldl depthAfter (depth ts) := foldl_append

end Token

/-! ### Segments -/

namespace Segment

/-- Whether a brace after these tokens opens a block. -/
def Opening (ts : List Token) : Prop := Token.depth ts = 0 ∧ isHeader ts.reverse

/-- None of the tokens is a brace that opens a block. -/
def Unopened (ts : List Token) : Prop :=
  ∀ before t behind, ts = before ++ t :: behind → t.isMark "\x7b".codes → ¬ Opening before

/-- A token that a segment may hold. -/
def Holds (tokens : List Token) (t : Token) : Prop := t ∈ tokens ∧ t.kind ≠ .newline ∧ t.kind ≠ .eof

/-- What is known of a segment of some tokens. -/
structure Cut (tokens : List Token) (s : Segment) : Prop where
  nonempty : s.tokens ≠ []
  holds : ∀ t ∈ s.tokens, Holds tokens t
  unopened : s.opens = false → Unopened s.tokens
  opened : s.opens → ∃ before t, s.tokens = before ++ [t] ∧ t.isMark "\x7b".codes ∧ Opening before

/-- What is known of the tokens collected so far, last first. -/
structure Collected (tokens current : List Token) (depth : Nat) : Prop where
  holds : ∀ t ∈ current, Holds tokens t
  depth_eq : depth = Token.depth current.reverse
  unopened : Unopened current.reverse

variable {tokens current : List Token} {depth : Nat} {t : Token} {rest : List Segment} {s : Segment}

theorem Collected.nil : Collected tokens [] 0 :=
  ⟨by simp, rfl, fun before t behind h => by simp at h⟩

theorem Collected.push (h : Collected tokens current depth) (ht : Holds tokens t)
    (hbrace : t.isMark "\x7b".codes → ¬ Opening current.reverse) :
    Collected tokens (t :: current) (Token.depthAfter depth t) := by
  refine ⟨?_, ?_, ?_⟩
  · intro u hu
    rcases mem_cons.mp hu with rfl | hu
    · exact ht
    · exact h.holds u hu
  · rw [reverse_cons, Token.depth_append, ← h.depth_eq]
    rfl
  · intro before u behind heq hmark
    rw [reverse_cons] at heq
    -- the brace is the last token or one of those before
    rcases eq_nil_or_concat behind with rfl | ⟨behind', last, rfl⟩
    · obtain ⟨rfl, heq'⟩ := append_inj' heq rfl
      obtain rfl : t = u := by simpa using heq'
      exact hbrace hmark
    · have heq' : current.reverse ++ [t] = (before ++ u :: behind') ++ [last] := by simpa using heq
      obtain ⟨hinit, -⟩ := append_inj' heq' rfl
      exact h.unopened before u behind' hinit hmark

theorem Collected.flush (h : Collected tokens current depth) (hrest : ∀ s ∈ rest, Cut tokens s) :
    ∀ s ∈ Segment.flush current false rest, Cut tokens s := by
  intro s hs
  unfold Segment.flush at hs
  split at hs
  · exact hrest s hs
  · rename_i hempty
    rcases mem_cons.mp hs with rfl | hs
    · refine ⟨?_, ?_, fun _ => h.unopened, by simp⟩
      · simpa using hempty
      · intro t ht
        exact h.holds t (mem_reverse.mp ht)
    · exact hrest s hs

theorem Collected.flush_open (h : Collected tokens current depth) (ht : Holds tokens t)
    (hmark : t.isMark "\x7b".codes) (hopening : Opening current.reverse) (hrest : ∀ s ∈ rest, Cut tokens s) :
    ∀ s ∈ Segment.flush (t :: current) true rest, Cut tokens s := by
  intro s hs
  rcases mem_cons.mp (by simpa [Segment.flush] using hs) with rfl | hs
  · refine ⟨by simp, ?_, by simp, fun _ => ⟨current.reverse, t, by simp, hmark, hopening⟩⟩
    intro u hu
    rcases (by simpa using hu : u ∈ current ∨ u = t) with hu | rfl
    · exact h.holds u hu
    · exact ht
  · exact hrest s hs

theorem cut_cutFrom (ts : List Token) (hts : ∀ t ∈ ts, t ∈ tokens) (h : Collected tokens current depth) :
    ∀ s ∈ cutFrom ts current depth, Cut tokens s := by
  induction ts generalizing current depth with
  | nil => exact h.flush (by simp)
  | cons t rest ih =>
    have hrest : ∀ u ∈ rest, u ∈ tokens := fun u hu => hts u (mem_cons_of_mem _ hu)
    have hfresh := ih hrest Collected.nil
    rw [cutFrom]
    split
    case h_1 => exact h.flush (by simp)
    case h_2 =>
      split
      · exact h.flush hfresh
      · exact ih hrest h
    case h_3 hkind =>
      have ht : Holds tokens t := ⟨hts t mem_cons_self, by simp [hkind], by simp [hkind]⟩
      have hpush (hbrace : t.isMark "\x7b".codes → ¬ Opening current.reverse) {depth' : Nat}
          (hdepth : Token.depthAfter depth t = depth') : ∀ s ∈ cutFrom rest (t :: current) depth', Cut tokens s :=
        ih hrest (hdepth ▸ h.push ht hbrace)
      have hnobrace (hmark : t.text ≠ "\x7b".codes) : t.isMark "\x7b".codes → ¬ Opening current.reverse :=
        fun hbrace => by simp [Token.isMark, hmark] at hbrace
      split
      case isTrue => exact h.flush hfresh
      case isFalse =>
        split
        case isTrue hopen =>
          refine hpush (hnobrace ?_) (Token.depthAfter_open hkind (hopen.imp_right .inl) depth)
          rcases hopen with htext | htext <;> rw [htext] <;> decide
        case isFalse hnotopen =>
          split
          case isTrue hclose =>
            refine hpush (hnobrace ?_) (Token.depthAfter_close hkind (hclose.imp_right .inl) depth)
            rcases hclose with htext | htext <;> rw [htext] <;> decide
          case isFalse hnotclose =>
            split
            case isTrue hbrace =>
              have hmark : t.isMark "\x7b".codes := by simp [Token.isMark, hkind, hbrace]
              split
              case isTrue hopening =>
                refine h.flush_open ht hmark ⟨by rw [← h.depth_eq]; exact hopening.1, ?_⟩ hfresh
                rw [reverse_reverse]
                exact hopening.2
              case isFalse hopening =>
                refine hpush (fun _ hcontra => hopening ⟨?_, ?_⟩)
                  (Token.depthAfter_open hkind (.inr (.inr hbrace)) depth)
                · rw [h.depth_eq]
                  exact hcontra.1
                · simpa using hcontra.2
            case isFalse hnotbrace =>
              split
              case isTrue hclosing =>
                have hdepth := Token.depthAfter_close hkind (.inr (.inr hclosing))
                have hlone : Collected tokens [t] 0 := by
                  have := Collected.nil.push ht fun hbrace => by simp [Token.isMark, hnotbrace] at hbrace
                  rwa [hdepth 0] at this
                split
                case isTrue => exact hpush (hnobrace hnotbrace) (hdepth depth)
                case isFalse =>
                  split
                  case isTrue => exact h.flush (ih hrest hlone)
                  case isFalse => exact h.flush (hlone.flush hfresh)
              case isFalse hnotclosing =>
                refine hpush (hnobrace hnotbrace) ?_
                simp_all [Token.depthAfter]
    case h_4 hkind₁ hkind₂ hkind₃ =>
      have ht : Holds tokens t := ⟨hts t mem_cons_self, by simp_all, by simp_all⟩
      have hdepth : Token.depthAfter depth t = depth := by simp_all [Token.depthAfter]
      have hpush := h.push ht fun hbrace => by simp_all [Token.isMark]
      rw [hdepth] at hpush
      exact ih hrest hpush

theorem cut_of_mem_cut (h : s ∈ cut tokens) : Cut tokens s :=
  cut_cutFrom tokens (fun _ ht => ht) .nil s h

theorem Cut.significant_eq (h : Cut tokens s) : Reader.significant s.tokens = s.tokens := by
  refine filter_eq_self.mpr fun t ht => ?_
  obtain ⟨-, hnewline, heof⟩ := h.holds t ht
  simp [hnewline, heof]

end Segment

end Stepwise
