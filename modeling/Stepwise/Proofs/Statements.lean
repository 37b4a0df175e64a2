import Stepwise.Proofs.Headers

/-!
# Statements and the flags of their instructions

An instruction closes a block when its segment begins with a closing brace. Such a segment is a lone brace, an `else`
clause, or an error; and an `else` clause knows whether it began with a brace.
-/

namespace Stepwise

open List

namespace Instruction

variable {source : Text} {s : Segment} {stmt : Stmt}

theorem classify_eq_ok (h : classify s = .ok stmt) :
    Stmt.parse s.tokens = .ok stmt ∨ (∃ why, stmt = .invalid why) ∨ (s.closes = false ∧ ∃ why, stmt = .unsupported why) := by
  unfold classify at h
  split at h
  · cases h
    exact .inr (.inl ⟨_, rfl⟩)
  split at h
  case h_1 hparse =>
    cases h
    exact .inl hparse
  case h_2 => cases h
  case h_3 =>
    cases h
    cases hcloses : s.closes with
    | true => exact .inr (.inl ⟨_, rfl⟩)
    | false => exact .inr (.inr ⟨rfl, _, rfl⟩)

theorem closes_iff (hcut : s.Cut (Token.scan source)) {t : Token} {ts : List Token} (hs : s.tokens = t :: ts) :
    s.closes = t.isWord "\x7d".codes := by
  have ht : t ∈ s.tokens := by simp [hs]
  have hplain := Token.plain_scan (hcut.holds t ht).1 125 (by decide)
  have hmark : t.isMark "\x7d".codes → t.isWord "\x7d".codes := by
    intro h
    simp only [Token.isMark, Bool.and_eq_true, beq_iff_eq] at h
    simp [Token.isWord, h]
  simp only [Segment.closes, hs, head?_cons, Option.any_some]
  exact Bool.eq_iff_iff.mpr ⟨hmark, hplain⟩

theorem sound_of_cut (hcut : s.Cut (Token.scan source)) : ∀ t ∈ s.tokens, t.Sound source := by
  intro t ht
  obtain ⟨hmem, hnewline, heof⟩ := hcut.holds t ht
  exact Token.sound_of_mem_significant (mem_filter.mpr ⟨hmem, by simp [hnewline, heof]⟩)

theorem fits_of_parse (hcut : s.Cut (Token.scan source)) (h : Stmt.parse s.tokens = .ok stmt) : stmt.Fits s.tokens := by
  rcases Stmt.parse_settles (hcut.significant_eq ▸ sound_of_cut hcut) with ⟨stmt', hparse, hfits⟩ | ⟨e, hparse, -⟩
  · rw [h] at hparse
    cases hparse
    rwa [hcut.significant_eq] at hfits
  · rw [h] at hparse
    cases hparse

theorem opens_of_header (hcut : s.Cut (Token.scan source)) (h : classify s = .ok stmt) (hheader : stmt.isHeader) :
    s.opens := by
  rcases classify_eq_ok h with hparse | ⟨why, rfl⟩ | ⟨-, why, rfl⟩
  · have hplain : ∀ t ∈ s.tokens, t.Plain := fun t ht => Token.plain_scan (hcut.holds t ht).1
    obtain ⟨used, brace, hused, hopening, hbrace⟩ := (fits_of_parse hcut hparse).opens hheader
    refine Bool.not_eq_false _ ▸ fun hopens => ?_
    rw [hused] at hplain
    have hmark := hplain brace (by simp) 123 (by decide) hbrace
    exact hcut.unopened hopens used brace [] hused hmark (hopening fun t ht => hplain t (mem_append_left _ ht))
  · cases hheader
  · cases hheader

theorem proper_classify (hcut : s.Cut (Token.scan source)) (h : classify s = .ok stmt) (line : Nat) (text : Text) :
    Instruction.Proper ⟨line, stmt, text, s.opens, s.closes⟩ := by
  have hheader := opens_of_header hcut h
  rcases classify_eq_ok h with hparse | ⟨why, rfl⟩ | ⟨hcloses, why, rfl⟩
  · obtain ⟨t, ts, hs⟩ := exists_cons_of_ne_nil hcut.nonempty
    have hfits := hs ▸ fits_of_parse hcut hparse
    cases hcloses : s.closes with
    | true =>
      have hword : t.isWord "\x7d".codes := by rw [← closes_iff hcut hs, hcloses]
      rcases hfits.closing hword with rfl | ⟨test, rfl⟩
      · exact ⟨fun _ => .inl rfl, nofun, nofun, nofun⟩
      · exact ⟨fun _ => .inr (.inl ⟨test, rfl⟩), fun heq => (Stmt.otherwise.inj heq).2, nofun, hheader⟩
    | false =>
      have hword : t.isWord "\x7d".codes = false := by rw [← closes_iff hcut hs, hcloses]
      obtain ⟨hnoop, -, hstmt⟩ := hfits.opening (cons_ne_nil t ts) hword
      refine ⟨nofun, fun {test closes} heq => ?_, fun h => absurd h hnoop, hheader⟩
      cases closes with
      | false => rfl
      | true => exact absurd heq (hstmt test)
  · exact ⟨fun _ => .inr (.inr ⟨why, rfl⟩), nofun, nofun, nofun⟩
  · exact ⟨fun h => by simp [hcloses] at h, nofun, nofun, nofun⟩

theorem proper_noop (line : Nat) : (noop line).Proper := ⟨nofun, nofun, fun _ => rfl, nofun⟩

theorem forall_mem_noops {P : Instruction → Prop} (h : ∀ line, P (noop line)) (first stop : Nat) :
    ∀ instr ∈ noops first stop, P instr := by
  intro instr hinstr
  obtain ⟨line, -, rfl⟩ := mem_map.mp hinstr
  exact h line

theorem forall_mem_collect {P : Instruction → Prop} (hnoop : ∀ line, P (noop line))
    {lines : Array (Array CodePoint)} {stop free : Nat} {collected : List Instruction} {segments : List Segment}
    (hsegment : ∀ s ∈ segments, ∀ instr, ofSegment lines s = .ok instr → P instr)
    (hcollected : ∀ instr ∈ collected, P instr) {instrs : List Instruction}
    (h : collect lines stop free collected segments = .ok instrs) : ∀ instr ∈ instrs, P instr := by
  induction segments generalizing free collected with
  | nil =>
    cases h
    intro instr hinstr
    rcases mem_append.mp hinstr with hinstr | hinstr
    · exact hcollected instr (mem_reverse.mp hinstr)
    · exact forall_mem_noops hnoop _ _ instr hinstr
  | cons s rest ih =>
    cases hs : ofSegment lines s with
    | error e => rw [collect, hs] at h; cases h
    | ok instr =>
      rw [collect, hs] at h
      refine ih (fun s' hs' => hsegment s' (mem_cons_of_mem s hs')) (fun instr' hinstr => ?_) h
      simp only [mem_append, mem_cons, mem_reverse] at hinstr
      rcases hinstr with (rfl | hinstr) | hinstr
      · exact hsegment s mem_cons_self _ hs
      · exact forall_mem_noops hnoop _ _ instr' hinstr
      · exact hcollected instr' hinstr

theorem collect_ne_nil {lines : Array (Array CodePoint)} {stop free : Nat} {collected : List Instruction}
    {segments : List Segment} (hsome : collected ≠ [] ∨ free < stop ∨ segments ≠ []) {instrs : List Instruction}
    (h : collect lines stop free collected segments = .ok instrs) : instrs ≠ [] := by
  induction segments generalizing free collected with
  | nil =>
    cases h
    rcases hsome with hcollected | hfree | hnil
    · simp [hcollected]
    · simp only [noops, ne_eq, append_eq_nil_iff, map_eq_nil_iff, range'_eq_nil_iff]
      omega
    · exact absurd rfl hnil
  | cons s rest ih =>
    cases hs : ofSegment lines s with
    | error e => rw [collect, hs] at h; cases h
    | ok instr =>
      rw [collect, hs] at h
      exact ih (.inl (by simp)) h

theorem ofSegment_eq_ok {lines : Array (Array CodePoint)} {instr : Instruction} (h : ofSegment lines s = .ok instr) :
    ∃ stmt, classify s = .ok stmt ∧ instr = ⟨s.firstLine, stmt, s.text lines, s.opens, s.closes⟩ := by
  unfold ofSegment at h
  cases hs : classify s with
  | error e => rw [hs] at h; cases h
  | ok stmt => rw [hs] at h; cases h; exact ⟨stmt, rfl, rfl⟩

end Instruction

theorem Text.splitFrom_ne_nil (sep : Text) (fuel : Nat) (pieces : List Text) (s : Text) :
    splitFrom sep fuel pieces s ≠ [] := by
  induction fuel generalizing pieces s with
  | zero => simp [splitFrom]
  | succ fuel ih =>
    rw [splitFrom]
    split
    · simp
    · exact ih _ _

namespace Program

variable {source : Text} {p : Program}

theorem load_eq_ok (h : load source = .ok p) :
    ∃ instrs, Instruction.ofSegments (splitLines source) (Segment.cut (Token.scan source)) = .ok instrs ∧
      p = ofInstructions (splitLines source) instrs := by
  simp only [load] at h
  cases hinstrs : Instruction.ofSegments (splitLines source) (Segment.cut (Token.scan source)) with
  | error e => rw [hinstrs] at h; cases h
  | ok instrs => rw [hinstrs] at h; cases h; exact ⟨instrs, rfl, rfl⟩

theorem indexed_load (h : load source = .ok p) : p.Indexed := by
  obtain ⟨instrs, hinstrs, rfl⟩ := load_eq_ok h
  refine indexed_ofInstructions _ _ (Instruction.forall_mem_collect Instruction.proper_noop ?_ (forall_mem_nil _) hinstrs)
  intro s hs instr hinstr
  obtain ⟨stmt, hclass, rfl⟩ := Instruction.ofSegment_eq_ok hinstr
  exact Instruction.proper_classify (Segment.cut_of_mem_cut hs) hclass _ _

/-- There are instructions, since every line has one or is spanned by one. -/
theorem size_pos (h : load source = .ok p) : 0 < p.size := by
  obtain ⟨instrs, hinstrs, rfl⟩ := load_eq_ok h
  have hlines : 0 < (splitLines source).length := length_pos_iff.mpr (Text.splitFrom_ne_nil _ _ _ _)
  have hne := Instruction.collect_ne_nil (.inr (.inl hlines)) hinstrs
  simpa [size, ofInstructions, markUnmatched, length_pos_iff] using hne

end Program

end Stepwise
