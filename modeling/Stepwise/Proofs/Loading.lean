import Mathlib.Data.List.Forall2
import Stepwise.Proofs.Brackets
import Stepwise.Proofs.Segmentation

/-!
# Loading is total and faithful to the lines

The tokens of a source follow its lines, and so do the segments cut from them. `Instruction.Filled` tells how the
instructions come from the segments: one for each, and a no-op for each line that no segment starts on or spans. Every
source is loaded that way (`Program.load_is_faithful`), but for one with a number of too many digits.
-/

namespace Stepwise

open List

theorem Program.length_splitLines (source : Text) : (splitLines source).length = source.count 10 + 1 := by
  rw [splitLines_eq_splitOn]
  induction source with
  | nil => rfl
  | cons c s ih =>
    rw [splitOn] at ih ⊢
    rw [splitOnP_cons_eq_if_modifyHead]
    by_cases hc : c = 10
    · simp [hc, ih]
    · simp [hc, ih]

/-! ### The lines of tokens and segments -/

namespace Token

variable {source : Text} {t : Token}

theorem count_take_le (source : Text) {m n : Nat} (h : m ≤ n) : (source.take m).count 10 ≤ (source.take n).count 10 :=
  (take_sublist_take_left h).count_le 10

theorem line_eq (h : t ∈ scan source) : t.line = (source.take (t.offset source)).count 10 :=
  ((laid_scan source).mem rfl h).2.2

/-- The line on which a token ends has as many line feeds before it as stand before the end of the token. -/
theorem lastLine_eq (h : t ∈ scan source) : t.lastLine = (source.take (t.stop source)).count 10 := by
  have hprefix := ((laid_scan source).mem rfl h).2.1
  have htext : (source.drop (t.offset source)).take t.text.length = t.text := (prefix_iff_eq_take.mp hprefix).symm
  rw [lastLine, line_eq h, stop, take_add, htext, count_append]

theorem lastLine_lt (h : t ∈ scan source) : t.lastLine < (Program.splitLines source).length := by
  rw [lastLine_eq h, Program.length_splitLines]
  exact Nat.lt_succ_of_le ((take_sublist _ _).count_le 10)

/-- A token does not start before the line on which the tokens before it end. -/
theorem pairwise_lines (source : Text) : (scan source).Pairwise fun t u => t.lastLine ≤ u.line := by
  refine ((laid_scan source).pairwise rfl).imp_of_mem fun ht hu hle => ?_
  rw [lastLine_eq ht, line_eq hu]
  exact count_take_le source hle.2

end Token

namespace Segment

variable {s : Segment}

theorem kept_sublist (held ts : List Token) : (kept held ts).Sublist ts := by
  induction ts generalizing held with
  | nil => exact List.Sublist.slnil
  | cons t after ih =>
    rw [kept]
    split
    · exact nil_sublist _
    split
    · exact (ih _).cons t
    · exact (ih _).cons_cons t

theorem exists_ends (h : s.tokens ≠ []) : ∃ first rest, s.tokens = first :: rest ∧ s.firstLine = first.line ∧
    ∃ last ∈ s.tokens, s.lastLine = last.lastLine := by
  obtain ⟨first, rest, htokens⟩ := exists_cons_of_ne_nil h
  refine ⟨first, rest, htokens, by rw [firstLine, htokens]; rfl, s.tokens.getLast h, getLast_mem h, ?_⟩
  rw [lastLine, getLast?_eq_some_getLast h]
  rfl

/-- Segments that follow the lines of a source with `stop` lines. -/
structure Follow (stop : Nat) (segments : List Segment) : Prop where
  ordered : segments.Pairwise fun s s' => s.lastLine ≤ s'.firstLine
  spans : ∀ s ∈ segments, s.firstLine ≤ s.lastLine ∧ s.lastLine < stop

theorem Follow.tail {stop : Nat} {segments : List Segment} (h : Follow stop (s :: segments)) : Follow stop segments :=
  ⟨(pairwise_cons.mp h.ordered).2, fun s' hs' => h.spans s' (mem_cons_of_mem s hs')⟩

theorem follow_cut (source : Text) : Follow (Program.splitLines source).length (cut (Token.scan source)) := by
  have hkept : (cut (Token.scan source)).flatMap tokens = kept [] (Token.scan source) := flatMap_cutFrom [] _
  have hpairs := (Token.pairwise_lines source).sublist (kept_sublist [] _)
  rw [← hkept, pairwise_flatMap] at hpairs
  obtain ⟨hinside, hacross⟩ := hpairs
  constructor
  case ordered =>
    refine hacross.imp_of_mem fun {s s'} hs hs' hle => ?_
    obtain ⟨-, -, -, -, last, hlast, hlastLine⟩ := exists_ends (cut_of_mem_cut hs).nonempty
    obtain ⟨first, rest, htokens, hfirstLine, -⟩ := exists_ends (cut_of_mem_cut hs').nonempty
    rw [hlastLine, hfirstLine]
    exact hle last hlast first (by simp [htokens])
  case spans =>
    intro s hs
    have hcut := cut_of_mem_cut hs
    obtain ⟨first, rest, htokens, hfirstLine, last, hlast, hlastLine⟩ := exists_ends hcut.nonempty
    rw [hfirstLine, hlastLine]
    refine ⟨?_, Token.lastLine_lt (hcut.holds last hlast).1⟩
    have hpairs := hinside s hs
    rw [htokens] at hlast hpairs
    rcases mem_cons.mp hlast with rfl | hlast
    · exact Nat.le_add_right _ _
    · calc first.line ≤ first.lastLine := Nat.le_add_right _ _
        _ ≤ last.line := (pairwise_cons.mp hpairs).1 last hlast
        _ ≤ last.lastLine := Nat.le_add_right _ _

end Segment

/-! ### Instructions -/

namespace Instruction

variable {source : Text} {lines : Array (Array CodePoint)} {stop free l : Nat} {segments : List Segment}
  {instrs : List Instruction} {instr : Instruction} {s : Segment}

/-- The instructions of segments that follow the lines: no-ops come before each up to its first line, and after the last. -/
inductive Filled (lines : Array (Array CodePoint)) (stop : Nat) : Nat → List Segment → List Instruction → Prop
  | nil {free : Nat} : Filled lines stop free [] (noops free stop)
  | cons {free : Nat} {s : Segment} {segments : List Segment} {instr : Instruction} {instrs : List Instruction}
      (hs : ofSegment lines s = .ok instr) (h : Filled lines stop (max free (s.lastLine + 1)) segments instrs) :
      Filled lines stop free (s :: segments) (noops free s.firstLine ++ instr :: instrs)

theorem filled_of_collect {collected : List Instruction} (h : collect lines stop free collected segments = .ok instrs) :
    ∃ more, instrs = collected.reverse ++ more ∧ Filled lines stop free segments more := by
  induction segments generalizing free collected with
  | nil =>
    cases h
    exact ⟨_, rfl, .nil⟩
  | cons s segments ih =>
    cases hs : ofSegment lines s with
    | error e =>
      rw [collect, hs] at h
      cases h
    | ok instr =>
      rw [collect, hs] at h
      obtain ⟨more, rfl, hmore⟩ := ih h
      exact ⟨noops free s.firstLine ++ instr :: more, by simp, .cons hs hmore⟩

theorem mem_noops {first : Nat} : instr ∈ noops first stop ↔ ∃ l, instr = noop l ∧ first ≤ l ∧ l < stop := by
  simp only [noops, mem_map, mem_range'_1]
  constructor
  · rintro ⟨l, hl, rfl⟩
    exact ⟨l, rfl, by omega, by omega⟩
  · rintro ⟨l, rfl, hl⟩
    exact ⟨l, by omega, rfl⟩

namespace Filled

theorem cases_mem (h : Filled lines stop free segments instrs) (hfollow : Segment.Follow stop segments)
    (hinstr : instr ∈ instrs) :
    (∃ l, instr = noop l ∧ free ≤ l ∧ l < stop) ∨ ∃ s ∈ segments, ofSegment lines s = .ok instr := by
  induction h with
  | nil => exact .inl (mem_noops.mp hinstr)
  | @cons free s segments instr' instrs hs h ih =>
    obtain ⟨hspan, hstop⟩ := hfollow.spans s mem_cons_self
    rcases mem_append.mp hinstr with hinstr | hinstr
    · obtain ⟨l, rfl, hle, hlt⟩ := mem_noops.mp hinstr
      exact .inl ⟨l, rfl, hle, by omega⟩
    rcases mem_cons.mp hinstr with rfl | hinstr
    · exact .inr ⟨s, mem_cons_self, hs⟩
    rcases ih hfollow.tail hinstr with ⟨l, rfl, hle, hlt⟩ | ⟨s', hs', h'⟩
    · exact .inl ⟨l, rfl, by omega, hlt⟩
    · exact .inr ⟨s', mem_cons_of_mem s hs', h'⟩

theorem le_line (h : Filled lines stop free segments instrs) (hfollow : Segment.Follow stop segments) {m : Nat}
    (hfree : m ≤ free) (hsegments : ∀ s ∈ segments, m ≤ s.firstLine) (hinstr : instr ∈ instrs) : m ≤ instr.line := by
  rcases h.cases_mem hfollow hinstr with ⟨l, rfl, hle, -⟩ | ⟨s, hs, hsegment⟩
  · exact Nat.le_trans hfree hle
  · obtain ⟨stmt, -, rfl⟩ := ofSegment_eq_ok hsegment
    exact hsegments s hs

theorem line_lt (h : Filled lines stop free segments instrs) (hfollow : Segment.Follow stop segments)
    (hinstr : instr ∈ instrs) : instr.line < stop := by
  rcases h.cases_mem hfollow hinstr with ⟨l, rfl, -, hlt⟩ | ⟨s, hs, hsegment⟩
  · exact hlt
  · obtain ⟨stmt, -, rfl⟩ := ofSegment_eq_ok hsegment
    exact Nat.lt_of_le_of_lt (hfollow.spans s hs).1 (hfollow.spans s hs).2

theorem pairwise_noops (first stop : Nat) : (noops first stop).Pairwise (·.line ≤ ·.line) := by
  rw [noops, pairwise_map]
  exact pairwise_le_range'

theorem pairwise (h : Filled lines stop free segments instrs) (hfollow : Segment.Follow stop segments) :
    instrs.Pairwise (·.line ≤ ·.line) := by
  induction h with
  | nil => exact pairwise_noops _ _
  | @cons free s segments instr instrs hs h ih =>
    have hlater := (pairwise_cons.mp hfollow.ordered).1
    have hspan := (hfollow.spans s mem_cons_self).1
    have hline : instr.line = s.firstLine := by
      obtain ⟨stmt, -, rfl⟩ := ofSegment_eq_ok hs
      rfl
    have hafter : ∀ instr' ∈ instrs, s.firstLine ≤ instr'.line := fun instr' =>
      h.le_line hfollow.tail (by omega) fun s' hs' => Nat.le_trans hspan (hlater s' hs')
    refine pairwise_append.mpr ⟨pairwise_noops _ _, pairwise_cons.mpr ⟨?_, ih hfollow.tail⟩, ?_⟩
    · rw [hline]
      exact hafter
    · intro instr' hinstr' instr'' hinstr''
      obtain ⟨l, rfl, -, hlt⟩ := mem_noops.mp hinstr'
      refine Nat.le_trans (Nat.le_of_lt hlt) ?_
      rcases mem_cons.mp hinstr'' with rfl | hinstr''
      · exact Nat.le_of_eq hline.symm
      · exact hafter instr'' hinstr''

theorem noop_mem_iff (h : Filled lines stop free segments instrs) (hfollow : Segment.Follow stop segments)
    (hactive : ∀ s ∈ segments, ∀ instr, ofSegment lines s = .ok instr → instr.stmt.isNoop = false) :
    noop l ∈ instrs ↔ free ≤ l ∧ l < stop ∧ ∀ s ∈ segments, ¬ (s.firstLine ≤ l ∧ l ≤ s.lastLine) := by
  have hnoop {l first stop : Nat} : noop l ∈ noops first stop ↔ first ≤ l ∧ l < stop := by
    rw [mem_noops]
    constructor
    · rintro ⟨l', heq, hl'⟩
      rwa [show l = l' from congrArg line heq]
    · exact fun hl => ⟨l, rfl, hl⟩
  induction h with
  | nil => simp [hnoop]
  | @cons free s segments instr instrs hs h ih =>
    have hlater := (pairwise_cons.mp hfollow.ordered).1
    obtain ⟨hspan, hstop⟩ := hfollow.spans s mem_cons_self
    have hrest : noop l ∈ instrs ↔ max free (s.lastLine + 1) ≤ l ∧ l < stop ∧
        ∀ s ∈ segments, ¬ (s.firstLine ≤ l ∧ l ≤ s.lastLine) :=
      ih hfollow.tail fun s' hs' => hactive s' (mem_cons_of_mem s hs')
    have hne : noop l ≠ instr := by
      rintro rfl
      cases hactive s mem_cons_self _ hs
    rw [mem_append, mem_cons, hnoop, hrest, forall_mem_cons]
    constructor
    · rintro (⟨hle, hlt⟩ | heq | ⟨hle, hlt, hnone⟩)
      · -- what is before this segment is before the later ones
        refine ⟨hle, by omega, by omega, fun s' hs' hspans => ?_⟩
        have hfirst := hlater s' hs'
        omega
      · exact absurd heq hne
      · exact ⟨by omega, hlt, by omega, hnone⟩
    · rintro ⟨hle, hlt, hapart, hnone⟩
      by_cases hbefore : l < s.firstLine
      · exact .inl ⟨hle, hbefore⟩
      · exact .inr (.inr ⟨by omega, hlt, hnone⟩)

theorem forall₂ (h : Filled lines stop free segments instrs)
    (hactive : ∀ s ∈ segments, ∀ instr, ofSegment lines s = .ok instr → instr.stmt.isNoop = false) :
    List.Forall₂ (fun s instr => ofSegment lines s = .ok instr) segments (instrs.filter (!·.stmt.isNoop)) := by
  have hnoops (first stop : Nat) : (noops first stop).filter (!·.stmt.isNoop) = [] := by
    rw [filter_eq_nil_iff]
    intro instr hinstr
    obtain ⟨l, rfl, -⟩ := mem_noops.mp hinstr
    exact Bool.false_ne_true
  induction h with
  | nil =>
    rw [hnoops]
    exact .nil
  | @cons free s segments instr instrs hs h ih =>
    rw [filter_append, hnoops, nil_append, filter_cons, hactive s mem_cons_self _ hs]
    exact .cons hs (ih fun s' hs' => hactive s' (mem_cons_of_mem s hs'))

end Filled

theorem isNoop_classify {stmt : Stmt} (hcut : s.Cut (Token.scan source)) (h : classify s = .ok stmt) :
    stmt.isNoop = false := by
  rcases classify_eq_ok h with hparse | ⟨why, rfl⟩ | ⟨-, why, rfl⟩
  · have hfits := fits_of_parse hcut hparse
    have hne : stmt ≠ .noop := by
      cases hword : s.tokens.head?.any (·.isWord "\x7d".codes) with
      | true => rcases hfits.closing hword with rfl | ⟨test, rfl⟩ <;> exact Stmt.noConfusion
      | false => exact (hfits.opening hcut.nonempty hword).1
    cases stmt <;> first | rfl | exact absurd rfl hne
  · rfl
  · rfl

/-- What the instruction of a segment is in a program: a brace that closes nothing is an error. -/
structure Renders (lines : Array (Array CodePoint)) (s : Segment) (instr : Instruction) : Prop where
  line_eq : instr.line = s.firstLine
  text_eq : instr.text = s.text lines
  closes_eq : instr.closes = s.closes
  stmt_eq : (classify s = .ok instr.stmt ∧ instr.opens = s.opens) ∨
    (s.closes ∧ instr.stmt = .invalid (.misplaced "\x7d".codes) ∧ instr.opens = false)

/-- An instruction as it is, or the error for a brace that closes nothing. -/
inductive Mended : Instruction → Instruction → Prop
  | same (instr : Instruction) : Mended instr instr
  | stray {instr : Instruction} (hcloses : instr.closes) (hactive : instr.stmt.isNoop = false) :
      Mended instr { instr with stmt := .invalid (.misplaced "\x7d".codes), opens := false, closes := true }

theorem mended_marked (h : ∀ instr ∈ instrs, instr.closes → instr.stmt.isNoop = false) :
    List.Forall₂ Mended instrs (BlockScan.marked instrs) := by
  rw [forall₂_iff_get]
  refine ⟨by rw [BlockScan.marked, Program.markUnmatched, length_mapIdx], fun i hi hi' => ?_⟩
  have hat := BlockScan.getElem?_marked instrs i
  rw [getElem?_eq_getElem hi, getElem?_eq_getElem hi'] at hat
  rw [get_eq_getElem, get_eq_getElem]
  by_cases hunmatched : i ∈ (BlockScan.scan instrs).unmatched
  · rw [if_pos hunmatched, Option.map_some] at hat
    rw [Option.some.inj hat]
    obtain ⟨instr, hinstr, hcloses, -⟩ := BlockScan.mem_unmatched.mp hunmatched
    obtain rfl := Option.some.inj (hinstr.symm.trans (getElem?_eq_getElem hi))
    exact .stray hcloses (h _ (getElem_mem hi) hcloses)
  · rw [if_neg hunmatched] at hat
    rw [Option.some.inj hat]
    exact .same _

namespace Mended

variable {mended : List Instruction}

theorem map_line (h : List.Forall₂ Mended instrs mended) : mended.map line = instrs.map line := by
  induction h with
  | nil => rfl
  | cons hinstr _ ih =>
    rw [map_cons, map_cons, ih]
    cases hinstr <;> rfl

theorem filter_noops (h : List.Forall₂ Mended instrs mended) :
    mended.filter (·.stmt.isNoop) = instrs.filter (·.stmt.isNoop) := by
  induction h with
  | nil => rfl
  | cons hinstr _ ih =>
    rw [filter_cons, filter_cons, ih]
    cases hinstr with
    | same => rfl
    | stray _ hactive => rw [hactive]; rfl

theorem renders {instr' : Instruction} (h : Mended instr instr') (hs : ofSegment lines s = .ok instr) :
    Renders lines s instr' := by
  obtain ⟨stmt, hclassify, rfl⟩ := ofSegment_eq_ok hs
  cases h with
  | same => exact ⟨rfl, rfl, rfl, .inl ⟨hclassify, rfl⟩⟩
  | stray hcloses => exact ⟨rfl, rfl, hcloses.symm, .inr ⟨hcloses, rfl, rfl⟩⟩

/-- The instructions of the segments stay those of the segments. -/
theorem forall₂_renders (h : List.Forall₂ Mended instrs mended)
    (hs : List.Forall₂ (fun s instr => ofSegment lines s = .ok instr) segments (instrs.filter (!·.stmt.isNoop))) :
    List.Forall₂ (Renders lines) segments (mended.filter (!·.stmt.isNoop)) := by
  induction h generalizing segments with
  | nil =>
    cases hs
    exact .nil
  | @cons instr instr' instrs mended hinstr hrest ih =>
    have hsame : instr'.stmt.isNoop = instr.stmt.isNoop := by
      cases hinstr with
      | same => rfl
      | stray _ hactive => exact hactive.symm
    rw [filter_cons] at hs ⊢
    rw [hsame]
    cases hnoop : instr.stmt.isNoop with
    | true =>
      rw [hnoop] at hs
      exact ih hs
    | false =>
      rw [hnoop] at hs
      cases hs with
      | cons hsegment hs => exact .cons (hinstr.renders hsegment) (ih hs)

end Mended

end Instruction

/-! ### Programs -/

namespace Program

open Instruction

/-- The instructions of a program are those of the segments of its source, in order, with a no-op for each line that no
segment starts on or spans. -/
structure LineFaithful (source : Text) (p : Program) : Prop where
  lineCount_eq : p.lineCount = source.count 10 + 1
  nonempty : 0 < p.size
  segments : List.Forall₂ (Renders ((splitLines source).map List.toArray).toArray) (Segment.cut (Token.scan source))
    (p.instructions.toList.filter (!·.stmt.isNoop))
  noops : ∀ instr ∈ p.instructions.toList, instr.stmt.isNoop → instr = noop instr.line
  ordered : p.instructions.toList.Pairwise (·.line ≤ ·.line)
  bounded : ∀ instr ∈ p.instructions.toList, instr.line < p.lineCount
  noop_iff (l : Nat) : noop l ∈ p.instructions.toList ↔
    l < p.lineCount ∧ ∀ s ∈ Segment.cut (Token.scan source), ¬ (s.firstLine ≤ l ∧ l ≤ s.lastLine)
  covered : ∀ l < p.lineCount, (∃ instr ∈ p.instructions.toList, instr.line = l) ∨
    ∃ s ∈ Segment.cut (Token.scan source), s.firstLine < l ∧ l ≤ s.lastLine

variable {source : Text} {p : Program}

theorem covered_of_noop_iff {instrs : List Instruction} {lines : Array (Array CodePoint)} {segments : List Segment}
    {count l : Nat} (hsegments : List.Forall₂ (Renders lines) segments (instrs.filter (!·.stmt.isNoop)))
    (hnoop : noop l ∈ instrs ↔ l < count ∧ ∀ s ∈ segments, ¬ (s.firstLine ≤ l ∧ l ≤ s.lastLine)) (hl : l < count) :
    (∃ instr ∈ instrs, instr.line = l) ∨ ∃ s ∈ segments, s.firstLine < l ∧ l ≤ s.lastLine := by
  by_cases hspanned : ∃ s ∈ segments, s.firstLine ≤ l ∧ l ≤ s.lastLine
  · obtain ⟨s, hs, hfirst, hlast⟩ := hspanned
    rcases Nat.lt_or_eq_of_le hfirst with hfirst | hfirst
    · exact .inr ⟨s, hs, hfirst, hlast⟩
    · obtain ⟨i, hi, rfl⟩ := getElem_of_mem hs
      have hi' := hsegments.length_eq ▸ hi
      have hrenders := hsegments.get hi hi'
      refine .inl ⟨_, mem_of_mem_filter (getElem_mem hi'), hrenders.line_eq.trans hfirst⟩
  · refine .inl ⟨noop l, hnoop.mpr ⟨hl, fun s hs hspans => hspanned ⟨s, hs, hspans⟩⟩, rfl⟩

theorem lineFaithful_load (h : load source = .ok p) : p.LineFaithful source := by
  have hsize := size_pos h
  obtain ⟨instrs, hinstrs, rfl⟩ := load_eq_ok h
  obtain ⟨more, hmore, hfilled⟩ := filled_of_collect hinstrs
  obtain rfl : instrs = more := hmore
  have hfollow := Segment.follow_cut source
  have hactive : ∀ s ∈ Segment.cut (Token.scan source), ∀ instr,
      ofSegment ((splitLines source).map toArray).toArray s = .ok instr → instr.stmt.isNoop = false := by
    intro s hs instr hinstr
    obtain ⟨stmt, hclassify, rfl⟩ := ofSegment_eq_ok hinstr
    exact isNoop_classify (Segment.cut_of_mem_cut hs) hclassify
  have hmended : List.Forall₂ Mended instrs (ofInstructions (splitLines source) instrs).instructions.toList := by
    refine mended_marked fun instr hinstr hcloses => ?_
    rcases hfilled.cases_mem hfollow hinstr with ⟨l, rfl, -⟩ | ⟨s, hs, hsegment⟩
    · cases hcloses
    · exact hactive s hs instr hsegment
  have hcount : (ofInstructions (splitLines source) instrs).lineCount = (splitLines source).length := rfl
  generalize ofInstructions (splitLines source) instrs = p at hsize hmended hcount
  have hsegments := Mended.forall₂_renders hmended (hfilled.forall₂ hactive)
  have hlines := Mended.map_line hmended
  have hmem {instr : Instruction} (hnoop : instr.stmt.isNoop) : instr ∈ p.instructions.toList ↔ instr ∈ instrs := by
    have hboth (l : List Instruction) : instr ∈ l ↔ instr ∈ l.filter (·.stmt.isNoop) := by simp [hnoop]
    rw [hboth, Mended.filter_noops hmended, ← hboth]
  have hnoops (l : Nat) : noop l ∈ p.instructions.toList ↔
      l < p.lineCount ∧ ∀ s ∈ Segment.cut (Token.scan source), ¬ (s.firstLine ≤ l ∧ l ≤ s.lastLine) := by
    rw [hmem rfl, hfilled.noop_mem_iff hfollow hactive, hcount]
    exact and_iff_right (Nat.zero_le l)
  constructor
  case lineCount_eq => rw [hcount, length_splitLines]
  case nonempty => exact hsize
  case segments => exact hsegments
  case noops =>
    intro instr hinstr hnoop
    rcases hfilled.cases_mem hfollow ((hmem hnoop).mp hinstr) with ⟨l, rfl, -⟩ | ⟨s, hs, hsegment⟩
    · rfl
    · rw [hactive s hs instr hsegment] at hnoop
      cases hnoop
  case ordered =>
    have hpairs := hfilled.pairwise hfollow
    rw [← pairwise_map] at hpairs ⊢
    rwa [hlines]
  case bounded =>
    intro instr hinstr
    have hline := mem_map_of_mem (f := line) hinstr
    rw [hlines] at hline
    obtain ⟨instr', hinstr', heq⟩ := mem_map.mp hline
    rw [← heq, hcount]
    exact hfilled.line_lt hfollow hinstr'
  case noop_iff => exact hnoops
  case covered => exact fun l hl => covered_of_noop_iff hsegments (hnoops l) hl

end Program

end Stepwise
