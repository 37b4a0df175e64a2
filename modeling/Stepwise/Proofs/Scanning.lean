import Mathlib.Data.List.Basic
import Stepwise.Proofs.Spelling

/-!
# Scanning words

`Token.Scans s l` says how a text is made up of words: each word stands before what follows it, and there may be a blank
between two of them. The scanner finds exactly these words. Every word of an expression stands before a blank, so the
text of an expression is scanned as its words.
-/

namespace Stepwise

open List

namespace Token

variable {s : Text} {l : List Word}

/-- The text consists of the words, with or without a blank in front of each. -/
inductive Scans : Text → List Word → Prop
  | nil : Scans [] []
  | blank {s : Text} {l : List Word} (plain : ∀ c ∈ s.head?, Lexeme.isSpace c = false) (more : Scans s l) :
      Scans (" ".codes ++ s) l
  | cons {w : Word} {s : Text} {l : List Word} (stands : Lexeme.Stands w.kind w.text s) (more : Scans s l) :
      Scans (w.text ++ s) (w :: l)

theorem seenFrom_blank (h : ∀ c ∈ s.head?, Lexeme.isSpace c = false) (line col : Nat) :
    seenFrom (" ".codes ++ s) line col = seenFrom s line (col + 1) := by
  have hblank : Lexeme.isSpace 32 := by decide
  have hlength : ((32 :: s).takeWhile Lexeme.isSpace).length = 1 := by
    cases s with
    | nil => rfl
    | cons c s => simp [hblank, h c rfl]
  have hnext := Lexeme.next_blank hblank s
  rw [hlength] at hnext
  change Reader.significant (scanFrom (32 :: s) 0 line col) = _
  rw [scanFrom, hnext]
  rfl

theorem Scans.words_seenFrom (h : Scans s l) (line col : Nat) : (seenFrom s line col).map Token.word = l := by
  induction h generalizing line col with
  | nil => rfl
  | blank plain more ih => rw [seenFrom_blank plain, ih]
  | cons stands more ih =>
    rw [seenFrom_append stands, map_cons, ih]
    rfl

theorem Scans.length_le (h : Scans s l) : l.length ≤ s.length := by
  induction h with
  | nil => exact Nat.le_refl 0
  | blank plain more ih =>
    rw [length_append]
    omega
  | cons stands more ih =>
    have hpos := length_pos_iff.mpr stands.nonempty
    rw [length_cons, length_append]
    omega

end Token

/-! ### Words before a blank -/

namespace Word

open Lexeme

/-- The word is a lexeme of its own when a blank follows, or nothing. -/
def Apart (w : Word) : Prop := ∀ rest : Text, (∀ c ∈ rest.head?, c = 32) → Stands w.kind w.text rest

theorem stops_of_blank {rest : Text} (h : ∀ c ∈ rest.head?, c = 32) : rest.Stops := by
  intro c hc
  rw [h c hc]
  decide

theorem apart_number (n : Nat) : Apart ⟨.number, Text.ofNat n⟩ := fun _ hrest => stands_number n (stops_of_blank hrest)

theorem apart_string (s : Text) : Apart ⟨.string, s.quoted⟩ := fun rest _ => stands_quoted s rest

theorem apart_name {x : Text} (h : isName x) : Apart (name x) := fun _ hrest => stands_name h (stops_of_blank hrest)

/-- The signs of expressions. -/
def signs : List Text :=
  ["??", "||", "&&", "==", "!=", "===", "!==", "<", ">", "<=", ">=", "+", "-", "*", "/", "%", "**", "!", "?", "..."].map
    String.codes

theorem next_sign : ∀ s ∈ signs, ∀ rest, Lexeme.next (s ++ 32 :: rest) = (some .operator, s.length) := by
  simp only [signs, map_cons, map_nil, forall_mem_cons]
  and_intros
  all_goals first | exact fun rest => rfl | exact forall_mem_nil _

theorem apart_sign {s : Text} (h : s ∈ signs) : Apart (sign s) := by
  have hsigns : ∀ s ∈ signs, s ≠ [] ∧ 10 ∉ s ∧ Lexeme.next (s ++ []) = (some .operator, s.length) := by decide
  obtain ⟨hne, hfeed, hend⟩ := hsigns s h
  intro rest hrest
  refine ⟨?_, hne, hfeed, nofun, nofun⟩
  cases rest with
  | nil => exact hend
  | cons c rest =>
    rw [hrest c rfl]
    exact next_sign s h rest

theorem apart_mark {c : CodePoint} (h : c ∈ "()[]\x7b\x7d,:".codes) : Apart (mark [c]) := fun rest _ => stands_mark h rest

theorem apart_point : Apart (mark ".".codes) := by
  intro rest hrest
  refine ⟨?_, by decide, by decide, by decide⟩
  cases rest with
  | nil => decide
  | cons c rest =>
    rw [hrest c rfl]
    rfl

theorem apart_connective (c : Connective) : Apart (sign c.sign) := by
  have hall : ∀ p ∈ Connective.spellings, p.1 ∈ signs := by decide
  exact apart_sign (hall _ c.mem_spellings)

theorem apart_unary (op : UnaryOp) : Apart op.word := by
  cases op with
  | not => exact apart_sign (by decide)
  | minus => exact apart_sign (by decide)
  | plus => exact apart_sign (by decide)
  | typeof => exact apart_name (by decide)

theorem apart_within {l : List Word} (h : ∀ w ∈ l, Apart w) (j k : Nat) : ∀ w ∈ within j k l, Apart w := by
  unfold within
  split
  case isTrue =>
    rw [forall_mem_cons, forall_mem_append, forall_mem_singleton]
    exact ⟨apart_mark (by decide), h, apart_mark (by decide)⟩
  case isFalse => exact h

theorem apart_commas {lists : List (List Word)} (h : ∀ l ∈ lists, ∀ w ∈ l, Apart w) : ∀ w ∈ commas lists, Apart w := by
  unfold commas
  induction lists with
  | nil => exact forall_mem_nil _
  | cons l lists ih =>
    have ih := ih fun m hm => h m (mem_cons_of_mem l hm)
    have hl := h l mem_cons_self
    cases lists with
    | nil => rwa [intercalate_singleton]
    | cons m lists =>
      rw [intercalate_cons_cons, forall_mem_append, forall_mem_append, forall_mem_singleton]
      exact ⟨⟨hl, apart_mark (by decide)⟩, ih⟩

theorem scans_join {l : List Word} (h : ∀ w ∈ l, w.Apart) : Token.Scans (Text.join " ".codes (l.map Word.text)) l := by
  induction l with
  | nil => exact .nil
  | cons w l ih =>
    have ih := ih fun v hv => h v (mem_cons_of_mem w hv)
    have hw := h w mem_cons_self
    cases l with
    | nil =>
      rw [map_cons, map_nil, Text.join, intercalate_singleton, ← append_nil w.text]
      exact .cons (hw [] (by simp)) .nil
    | cons v l =>
      have hv := h v (mem_cons_of_mem w mem_cons_self) [] (by simp)
      obtain ⟨u, hu⟩ := Text.exists_join_eq " ".codes v.text (l.map Word.text)
      have hplain : ∀ c ∈ (Text.join " ".codes ((v :: l).map Word.text)).head?, isSpace c = false := by
        intro c hc
        rw [map_cons, hu, head?_append_of_ne_nil _ hv.nonempty] at hc
        exact hv.plain c hc
      rw [map_cons, map_cons, Text.join, intercalate_cons_cons, append_assoc]
      exact .cons (hw _ fun c hc => (Option.some.inj hc).symm) (.blank hplain ih)

end Word

namespace Expr

open Word

variable {t : Expr}

theorem apart_item {i : Item} (h : ∀ w ∈ i.value.words, w.Apart) : ∀ w ∈ i.words, w.Apart := by
  cases i with
  | single e => exact h
  | spread e => exact forall_mem_cons.mpr ⟨apart_sign (by decide), h⟩

theorem apart_entry {f : Entry} (h : ∀ e ∈ f.parts, ∀ w ∈ e.words, w.Apart) : ∀ w ∈ f.words, w.Apart := by
  cases f with
  | property key e =>
    simp only [Entry.words, forall_mem_cons]
    exact ⟨apart_string key, apart_mark (by decide), h e mem_cons_self⟩
  | computed key e =>
    simp only [Entry.words, forall_mem_cons, forall_mem_append]
    exact ⟨apart_mark (by decide), h key mem_cons_self, apart_mark (by decide), apart_mark (by decide),
      h e (mem_cons_of_mem _ mem_cons_self)⟩
  | spread e => exact forall_mem_cons.mpr ⟨apart_sign (by decide), h e mem_cons_self⟩

theorem apart_items {items : List Item} (h : ∀ i ∈ items, ∀ w ∈ i.value.words, w.Apart) :
    ∀ w ∈ commas (itemWords items), w.Apart := by
  rw [itemWords_eq_map]
  refine apart_commas fun l hl => ?_
  obtain ⟨i, hi, rfl⟩ := mem_map.mp hl
  exact apart_item (h i hi)

theorem apart_entries {entries : List Entry} (h : ∀ f ∈ entries, ∀ e ∈ f.parts, ∀ w ∈ e.words, w.Apart) :
    ∀ w ∈ commas (entryWords entries), w.Apart := by
  rw [entryWords_eq_map]
  refine apart_commas fun l hl => ?_
  obtain ⟨f, hf, rfl⟩ := mem_map.mp hl
  exact apart_entry (h f hf)

theorem Spellable.apart (h : t.Spellable) : ∀ w ∈ t.words, w.Apart := by
  induction h with
  | @num n short => exact forall_mem_singleton.mpr (apart_number n)
  | text s => exact forall_mem_singleton.mpr (apart_string s.text)
  | bool b =>
    refine forall_mem_singleton.mpr (apart_name ?_)
    cases b <;> decide
  | null => exact forall_mem_singleton.mpr (apart_name (by decide))
  | undefined => exact forall_mem_singleton.mpr (apart_name (by decide))
  | name isName free => exact forall_mem_singleton.mpr (apart_name isName)
  | array parts ih =>
    simp only [words, forall_mem_cons, forall_mem_append]
    exact ⟨apart_mark (by decide), apart_items ih, apart_mark (by decide), forall_mem_nil _⟩
  | object parts ih =>
    simp only [words, forall_mem_cons, forall_mem_append]
    exact ⟨apart_mark (by decide), apart_entries ih, apart_mark (by decide), forall_mem_nil _⟩
  | member object isName ih =>
    simp only [words, forall_mem_cons, forall_mem_append]
    exact ⟨apart_within ih _ _, apart_point, apart_name isName, forall_mem_nil _⟩
  | index object key ih ihkey =>
    simp only [words, forall_mem_cons, forall_mem_append]
    exact ⟨apart_within ih _ _, apart_mark (by decide), ihkey, apart_mark (by decide), forall_mem_nil _⟩
  | call callee parts ih ihparts =>
    simp only [words, forall_mem_cons, forall_mem_append]
    exact ⟨apart_within ih _ _, apart_mark (by decide), apart_items ihparts, apart_mark (by decide), forall_mem_nil _⟩
  | unary op operand ih =>
    rw [words, forall_mem_cons]
    exact ⟨apart_unary op, apart_within ih _ _⟩
  | connected c left right ihleft ihright =>
    rw [words_apply, forall_mem_append, forall_mem_cons]
    exact ⟨apart_within ihleft _ _, apart_connective c, apart_within ihright _ _⟩
  | cond test yes no ihtest ihyes ihno =>
    simp only [words, forall_mem_cons, forall_mem_append]
    exact ⟨apart_within ihtest _ _, apart_sign (by decide), ihyes, apart_mark (by decide), ihno⟩

theorem Spellable.scans (h : t.Spellable) : Token.Scans t.spelled t.words := scans_join h.apart

end Expr

end Stepwise
