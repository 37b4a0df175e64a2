import Stepwise.Proofs.Precedence
import Stepwise.Proofs.Written

/-!
# Reading written data

The text of a datum is scanned as the words of the expression that it spells, although there are no blanks between them.
So it is parsed as that expression (`Writing.Sound.parse`).
-/

namespace Stepwise

open List

namespace Token

variable {t : Text} {l : List Word}

/-- The text is scanned as the words in front of what ends a number or a word. -/
def Spans (t : Text) (l : List Word) : Prop := ∀ s m, s.Stops → Scans s m → Scans (t ++ s) (l ++ m)

theorem spans_commas (parts : List (Text × List Word)) (h : ∀ p ∈ parts, Spans p.1 p.2) :
    Spans (Text.join ",".codes (parts.map Prod.fst)) (Word.commas (parts.map Prod.snd)) := by
  induction parts with
  | nil => exact fun s m _ hs => hs
  | cons p parts ih =>
    have ih := ih fun q hq => h q (mem_cons_of_mem p hq)
    have hp := h p mem_cons_self
    intro s m hstops hs
    cases parts with
    | nil =>
      simp only [Text.join, Word.commas, map_cons, map_nil, intercalate_singleton]
      exact hp s m hstops hs
    | cons q parts =>
      have hcomma (rest : Text) : Lexeme.Stands .punctuation ",".codes rest := Lexeme.stands_mark (by decide) rest
      simp only [Text.join, Word.commas, map_cons, intercalate_cons_cons, append_assoc]
      refine hp _ _ (Text.stops_cons (by decide) _) ?_
      exact .cons (w := .mark ",".codes) (hcomma _) (ih s m hstops hs)

theorem Spans.closed {c d : CodePoint} (h : Spans t l) (hc : c ∈ "[\x7b".codes) (hd : d ∈ "]\x7d".codes) :
    Spans ([c] ++ t ++ [d]) (.mark [c] :: (l ++ [.mark [d]])) := by
  have hmarks : ∀ c ∈ "[\x7b".codes, c ∈ "()[]\x7b\x7d,:".codes := by decide
  have hclosers : ∀ c ∈ "]\x7d".codes, c ∈ "()[]\x7b\x7d,:".codes ∧ c ∈ Text.delimiters := by decide
  intro s m hstops hs
  have hwords : .mark [c] :: (l ++ [.mark [d]]) ++ m = Word.mark [c] :: (l ++ .mark [d] :: m) := by simp
  rw [append_assoc, append_assoc, hwords]
  refine .cons (w := .mark [c]) (Lexeme.stands_mark (hmarks c hc) _) (h _ _ (Text.stops_cons (hclosers d hd).2 _) ?_)
  exact .cons (w := .mark [d]) (Lexeme.stands_mark (hclosers d hd).1 _) hs

end Token

namespace Writing

open Token

variable {w : Writing}

theorem Sound.spellable (h : w.Sound) : w.expr.Spellable := by
  induction h with
  | null => exact .null
  | bool b => exact .bool b
  | natural small => exact .num (Text.length_ofNat_le small)
  | negative positive small => exact .unary .minus (.num (Text.length_ofNat_le small))
  | text s => exact .text (.ofText s)
  | array sound ih =>
    refine .array fun i hi => ?_
    obtain ⟨w, hw, rfl⟩ := mem_map.mp hi
    exact ih w hw
  | object distinct sound ih =>
    refine .object fun f hf e he => ?_
    obtain ⟨x, hx, rfl⟩ := mem_map.mp hf
    obtain rfl := mem_singleton.mp he
    exact ih x hx

theorem Sound.spans (h : w.Sound) : Spans w.text w.expr.words := by
  induction h with
  | null => exact fun s m hstops hs => .cons (w := .name "null".codes) (Lexeme.stands_name (by decide) hstops) hs
  | bool b =>
    have hname : Lexeme.isName (if b then "true".codes else "false".codes) := by cases b <;> decide
    exact fun s m hstops hs => .cons (w := .name _) (Lexeme.stands_name hname hstops) hs
  | @natural n small => exact fun s m hstops hs => .cons (w := ⟨.number, _⟩) (Lexeme.stands_number n hstops) hs
  | @negative n positive small =>
    intro s m hstops hs
    rw [append_assoc]
    refine .cons (w := .sign "-".codes) (Lexeme.stands_minus n s) ?_
    exact .cons (w := ⟨.number, _⟩) (Lexeme.stands_number n hstops) hs
  | text s => exact fun s' m _ hs => .cons (w := ⟨.string, _⟩) (Lexeme.stands_quoted s s') hs
  | @array items sound ih =>
    have hitems := spans_commas (items.map fun w => (w.text, w.expr.words)) ?_
    · simp only [map_map, Function.comp_def] at hitems
      rw [Expr.words, Expr.itemWords_eq_map, map_map]
      exact hitems.closed (by decide) (by decide)
    · intro p hp
      obtain ⟨w, hw, rfl⟩ := mem_map.mp hp
      exact ih w hw
  | @object entries distinct sound ih =>
    have hentries := spans_commas (entries.map fun e =>
      (entry e, ⟨.string, e.1.quoted⟩ :: .mark ":".codes :: e.2.expr.words)) ?_
    · simp only [map_map, Function.comp_def] at hentries
      rw [Expr.words, Expr.entryWords_eq_map, map_map]
      exact hentries.closed (by decide) (by decide)
    · intro p hp
      obtain ⟨e, he, rfl⟩ := mem_map.mp hp
      intro s m hstops hs
      rw [entry, append_assoc, append_assoc]
      refine .cons (w := ⟨.string, _⟩) (Lexeme.stands_quoted e.1 _) ?_
      exact .cons (w := .mark ":".codes) (Lexeme.stands_mark (by decide) _) (ih e he s m hstops hs)

theorem Sound.parse (h : w.Sound) : Expr.parse w.text = .ok w.expr := by
  have hscans := h.spans [] [] (fun c hc => by cases hc) .nil
  rw [append_nil, append_nil] at hscans
  exact h.spellable.parse_of_scans hscans

end Writing

end Stepwise
