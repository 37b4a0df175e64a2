import Stepwise.Proofs.Segments

/-!
# Segmentation loses nothing

Cutting a token stream is a walk along it. What the walk remembers is the tokens held for the segment under way
(`Segment.collect`); what is outside all brackets is told from these alone. The segments, one after the other, are the
tokens that the walk keeps (`Segment.kept`): all but the newlines and the semicolons outside all brackets.
-/

namespace Stepwise.Segment

open List

/-! ### The walk -/

/-- Whether the tokens held are a header that waits for a brace on a following line. -/
def Waits (held after : List Token) : Prop := held ≠ [] ∧ isHeader held.reverse ∧ braceFollows after

instance (held after : List Token) : Decidable (Waits held after) := inferInstanceAs (Decidable (_ ∧ _ ∧ _))

/-- Whether the tokens held have no bracket open. -/
def Outside (held : List Token) : Prop := Token.depth held = 0

instance (held : List Token) : Decidable (Outside held) := inferInstanceAs (Decidable (_ = 0))

instance (held : List Token) : Decidable (Opening held) := inferInstanceAs (Decidable (_ ∧ _))

/-- Whether a token belongs to no segment when it is met. -/
def Dropped (held : List Token) (t : Token) : Prop := t.kind = .newline ∨ t.isMark ";".codes ∧ Outside held

instance (held : List Token) (t : Token) : Decidable (Dropped held t) := inferInstanceAs (Decidable (_ ∨ _ ∧ _))

/-- The tokens held for a segment after a token has been met, with `after` still to come. -/
def collect (held : List Token) (t : Token) (after : List Token) : List Token :=
  if t.kind = .newline then if Outside held ∧ ¬ Waits held after then [] else held
  else if ¬ Outside held then held ++ [t]
  else if t.isMark ";".codes then []
  else if t.isMark "\x7b".codes ∧ Opening held then []
  else if t.isMark "\x7d".codes then if after.head?.any (·.isName "else".codes) then [t] else []
  else held ++ [t]

/-- The tokens of a stream up to its end that belong to a segment. -/
def kept : (held : List Token) → List Token → List Token
  | _, [] => []
  | held, t :: after =>
    if t.kind = .eof then []
    else if Dropped held t then kept (collect held t after) after
    else t :: kept (collect held t after) after

/-- The tokens held as a segment that opens nothing, if there are any. -/
def whole (held : List Token) : List Segment := if held = [] then [] else [⟨held, false⟩]

/-- The segments that are complete once a token has been met. -/
def completed (held : List Token) (t : Token) (after : List Token) : List Segment :=
  if ¬ Outside held then []
  else if t.kind = .newline then if Waits held after then [] else whole held
  else if t.isMark ";".codes then whole held
  else if t.isMark "\x7b".codes ∧ Opening held then [⟨held ++ [t], true⟩]
  else if t.isMark "\x7d".codes then
    whole held ++ if after.head?.any (·.isName "else".codes) then [] else [⟨[t], false⟩]
  else []

variable {held after : List Token} {t : Token} {P : List Token → Token → Prop}

theorem flush_false (current : List Token) (rest : List Segment) : flush current false rest = whole current.reverse ++ rest := by
  cases current with
  | nil => rfl
  | cons t current => simp [flush, whole]

theorem cutFrom_push (held after : List Token) (t : Token) :
    cutFrom after (t :: held.reverse) (Token.depthAfter (Token.depth held) t) =
      cutFrom after (held ++ [t]).reverse (Token.depth (held ++ [t])) := by
  rw [reverse_append, Token.depth_append]
  rfl

/-- One token of the walk: the segments that it completes come first, then those cut from what follows. -/
def Walks (held : List Token) (t : Token) (after : List Token) : Prop :=
  cutFrom (t :: after) held.reverse (Token.depth held) =
    completed held t after ++ cutFrom after (collect held t after).reverse (Token.depth (collect held t after))

theorem walks_newline (h : t.kind = .newline) : Walks held t after := by
  have hwaits : (!held.reverse.isEmpty && isHeader held.reverse && braceFollows after) = decide (Waits held after) := by
    rw [Bool.eq_iff_iff, decide_eq_true_iff]
    simp [Waits, and_assoc]
  have hempty : Token.depth [] = 0 := rfl
  rw [Walks, cutFrom, h]
  simp only [hwaits, completed, collect, h, if_true, Outside]
  by_cases houtside : Token.depth held = 0
  · by_cases hwait : Waits held after
    · simp [houtside, hwait]
    · simp [houtside, hwait, flush_false, hempty]
  · simp [houtside]

theorem walks_inside (h : t.kind = .punctuation) (hinside : ¬ Outside held) : Walks held t after := by
  have hdepth : Token.depth held ≠ 0 := hinside
  have hcollect : collect held t after = held ++ [t] := by simp [collect, h, hinside]
  have hcompleted : completed held t after = [] := by simp [completed, hinside]
  rw [Walks, hcollect, hcompleted, nil_append, ← cutFrom_push, cutFrom, h]
  simp only [hdepth, and_false, if_false, false_and, Nat.pos_of_ne_zero hdepth, if_true]
  split
  case isTrue hopen => rw [Token.depthAfter_open h (hopen.imp_right .inl)]
  case isFalse hopen =>
    split
    case isTrue hclose => rw [Token.depthAfter_close h (hclose.imp_right .inl)]
    case isFalse hclose =>
      split
      case isTrue hbrace => rw [Token.depthAfter_open h (.inr (.inr hbrace))]
      case isFalse hbrace =>
        split
        case isTrue hbrace' => rw [Token.depthAfter_close h (.inr (.inr hbrace'))]
        case isFalse hbrace' => simp_all [Token.depthAfter]

theorem walks_outside (h : t.kind = .punctuation) (houtside : Outside held) : Walks held t after := by
  have hdepth : Token.depth held = 0 := houtside
  have hempty : Token.depth [] = 0 := rfl
  have hmark (mark : Text) : t.isMark mark = true ↔ t.text = mark := by simp [Token.isMark, h]
  have hopening : isHeader held.reverse = true ↔ Opening held := by simp [Opening, hdepth]
  rw [Walks, cutFrom, h]
  simp only [hdepth, completed, collect, houtside, not_true, h, reduceCtorEq, if_false, hmark, hopening, true_and,
    and_true, Nat.lt_irrefl]
  by_cases hsemicolon : t.text = ";".codes
  · simp [hsemicolon, flush_false, hempty]
  by_cases hbrace : t.text = "\x7b".codes
  · have hopen : ¬ (t.text = "(".codes ∨ t.text = "[".codes) := by rw [hbrace]; decide
    have hclose : ¬ (t.text = ")".codes ∨ t.text = "]".codes) := by rw [hbrace]; decide
    have hclosing : t.text ≠ "\x7d".codes := by rw [hbrace]; decide
    by_cases hopens : Opening held
    · simp only [if_neg hsemicolon, if_neg hopen, if_neg hclose, if_pos hbrace, if_pos hopens,
        if_pos (And.intro hbrace hopens)]
      simp [flush, hempty]
    · have hpush := Token.depthAfter_open h (.inr (.inr hbrace)) 0
      have hneither : ¬ (t.text = "\x7b".codes ∧ Opening held) := fun hboth => hopens hboth.2
      simp only [if_neg hsemicolon, if_neg hopen, if_neg hclose, if_pos hbrace, if_neg hopens, if_neg hneither,
        if_neg hclosing, nil_append]
      rw [← cutFrom_push, hdepth, hpush]
  have hneither : ¬ (t.text = "\x7b".codes ∧ Opening held) := fun hboth => hbrace hboth.1
  by_cases hclosing : t.text = "\x7d".codes
  · have hopen : ¬ (t.text = "(".codes ∨ t.text = "[".codes) := by rw [hclosing]; decide
    have hclose : ¬ (t.text = ")".codes ∨ t.text = "]".codes) := by rw [hclosing]; decide
    have hlone : Token.depth [t] = 0 := Token.depthAfter_close h (.inr (.inr hclosing)) 0
    simp only [if_neg hsemicolon, if_neg hopen, if_neg hclose, if_neg hbrace, if_neg hneither, if_pos hclosing, flush_false]
    split
    · simp [hlone]
    · simp [whole, hempty]
  · simp only [if_neg hsemicolon, if_neg hbrace, if_neg hneither, if_neg hclosing, nil_append]
    rw [← cutFrom_push, hdepth]
    split
    case isTrue hopen => rw [Token.depthAfter_open h (hopen.imp_right .inl)]
    case isFalse hopen =>
      split
      case isTrue hclose => rw [Token.depthAfter_close h (hclose.imp_right .inl)]
      case isFalse hclose => simp_all [Token.depthAfter]

theorem walks (h : t.kind ≠ .eof) : Walks held t after := by
  cases hkind : t.kind with
  | eof => exact absurd hkind h
  | newline => exact walks_newline hkind
  | punctuation =>
    by_cases houtside : Outside held
    · exact walks_outside hkind houtside
    · exact walks_inside hkind houtside
  | _ =>
    have hcollect : collect held t after = held ++ [t] := by simp [collect, hkind, Token.isMark]
    have hcompleted : completed held t after = [] := by simp [completed, hkind, Token.isMark]
    have hdepth : Token.depthAfter (Token.depth held) t = Token.depth held := by simp [Token.depthAfter, hkind]
    rw [Walks, hcollect, hcompleted, nil_append, ← cutFrom_push, hdepth, cutFrom, hkind]

/-! ### What the walk keeps -/

@[simp] theorem flatMap_whole (held : List Token) : (whole held).flatMap Segment.tokens = held := by
  cases held <;> simp [whole]

/-- No token gets lost or comes twice when one is met. -/
theorem flatMap_completed (held : List Token) (t : Token) (after : List Token) :
    (completed held t after).flatMap Segment.tokens ++ collect held t after =
      held ++ if Dropped held t then [] else [t] := by
  unfold completed collect Dropped
  by_cases hnewline : t.kind = .newline
  · by_cases houtside : Outside held <;> by_cases hwaits : Waits held after <;> simp [hnewline, houtside, hwaits]
  by_cases houtside : Outside held
  · simp only [hnewline, houtside, not_true, if_false, false_or, and_true]
    split
    · simp
    · split
      · simp
      · split
        · split <;> simp
        · simp
  · simp [hnewline, houtside]

theorem flatMap_cutFrom (held ts : List Token) :
    (cutFrom ts held.reverse (Token.depth held)).flatMap Segment.tokens = held ++ kept held ts := by
  induction ts generalizing held with
  | nil => simp [cutFrom, kept, flush_false]
  | cons t after ih =>
    by_cases heof : t.kind = .eof
    · simp [cutFrom, kept, heof, flush_false]
    · rw [walks heof, flatMap_append, ih, ← append_assoc, flatMap_completed, kept, if_neg heof]
      split <;> simp

/-! ### Where braces stand -/

/-- Every token of a list is well placed after those before it. -/
def Everywhere (P : List Token → Token → Prop) (ts : List Token) : Prop :=
  ∀ before t behind, ts = before ++ t :: behind → P before t

/-- A token that neither opens a block nor closes one, unless it comes first. -/
def Inner (before : List Token) (t : Token) : Prop :=
  ¬ (t.isMark "\x7b".codes ∧ Opening before) ∧ (t.isMark "\x7d".codes → Outside before → before = [])

/-- A segment is a stretch of inner tokens, after which there may be a brace that opens a block. -/
inductive Proper : Segment → Prop
  | plain {ts : List Token} (nonempty : ts ≠ []) (inner : Everywhere Inner ts) : Proper ⟨ts, false⟩
  | header {ts : List Token} {t : Token} (inner : Everywhere Inner ts) (brace : t.isMark "\x7b".codes) (opening : Opening ts) :
      Proper ⟨ts ++ [t], true⟩

end Stepwise.Segment
