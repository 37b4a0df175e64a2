import Stepwise.Proofs.Nesting

/-!
# Well-formed programs

A program is well formed when each block is closed, each `else` clause belongs to a conditional, and nothing that cannot
be executed opens a block. Then the closing instruction of a block is a brace or the next clause, and going from
statement to statement at one level never meets an `else` clause.
-/

namespace Stepwise

variable {s : Stmt}

/-- A statement that is an error as soon as it is executed. -/
def Stmt.isInvalid : Stmt → Bool
  | .invalid _ => true
  | _ => false

theorem Stmt.eq_otherwise (h : s.isOtherwise) : ∃ test closes, s = .otherwise test closes := by
  cases s <;> first | exact ⟨_, _, rfl⟩ | cases h

theorem Stmt.isHeader_of_isOtherwise (h : s.isOtherwise) : s.isHeader := by
  cases s <;> first | rfl | cases h

theorem Stmt.isHeader_of_isFunction (h : s.isFunction) : s.isHeader := by
  cases s <;> first | rfl | cases h

namespace Program

/-- The blocks of a program are closed, its clauses are linked, and what it cannot execute opens no block. -/
structure WellFormed (p : Program) : Prop where
  closed {i : Nat} {instr : Instruction} : p.instructions[i]? = some instr → instr.opens → ∃ c, p.closerOf[i]? = some c
  linked {i : Nat} {instr : Instruction} : p.instructions[i]? = some instr → instr.stmt.isOtherwise →
    ∃ o, p.prevClause[i]? = some o
  valid {i : Nat} {instr : Instruction} : p.instructions[i]? = some instr → instr.stmt.isInvalid = false
  supported {i : Nat} {instr : Instruction} : p.instructions[i]? = some instr → instr.stmt.isUnsupported →
    instr.opens = false

/-- A check for well-formed programs. -/
def isWellFormed (p : Program) : Bool :=
  (List.range p.size).all fun i => p.instructions[i]?.all fun instr =>
    (!instr.opens || p.closerOf[i]?.isSome) && (!instr.stmt.isOtherwise || p.prevClause[i]?.isSome) &&
      !instr.stmt.isInvalid && (!instr.stmt.isUnsupported || !instr.opens)

theorem wellFormed_of_check {p : Program} (h : p.isWellFormed) : p.WellFormed := by
  have hall {i : Nat} {instr : Instruction} (hinstr : p.instructions[i]? = some instr) :
      ((instr.opens = false ∨ p.closerOf[i]?.isSome) ∧ (instr.stmt.isOtherwise = false ∨ p.prevClause[i]?.isSome)) ∧
        instr.stmt.isInvalid = false ∧ (instr.stmt.isUnsupported = false ∨ instr.opens = false) := by
    have hlt : i < p.size := (Array.getElem?_eq_some_iff.mp hinstr).1
    have hi := List.all_eq_true.mp h i (List.mem_range.mpr hlt)
    rw [hinstr] at hi
    simpa [and_assoc] using hi
  constructor
  · intro i instr hinstr hopens
    exact Option.isSome_iff_exists.mp ((hall hinstr).1.1.resolve_left (by simp [hopens]))
  · intro i instr hinstr hkind
    exact Option.isSome_iff_exists.mp ((hall hinstr).1.2.resolve_left (by simp [hkind]))
  · intro i instr hinstr
    exact (hall hinstr).2.1
  · intro i instr hinstr hkind
    exact (hall hinstr).2.2.resolve_left (by simp [hkind])

variable {p : Program} {i j o c stop : Nat} {instr : Instruction} {last k k' : Nat}

/-! ### Closing instructions -/

namespace WellFormed

variable (hp : p.WellFormed) (h : p.Indexed)

include hp h

theorem header_closed (hinstr : p.instructions[i]? = some instr) (hheader : instr.stmt.isHeader) :
    ∃ c, p.closerOf[i]? = some c := hp.closed hinstr ((h.proper hinstr).header hheader)

/-- The block before a clause that begins with a brace is the clause that it is linked to. -/
theorem nextClause_of_closes (hblock : p.closerOf[o]? = some c) (hinstr : p.instructions[c]? = some instr)
    {test : Option Expr} (hkind : instr.stmt = .otherwise test true) : p.nextClause[o]? = some c := by
  obtain ⟨o', ho'⟩ := hp.linked hinstr (by rw [hkind]; rfl)
  have hnext := h.clause_iff.mp ho'
  obtain ⟨c', hblock', hfollows, -⟩ := h.clause hnext
  cases hfollows with
  | here =>
    have hsame : o' = o := by
      have hopener := h.opener_iff.mpr hblock'
      rw [h.opener_iff.mpr hblock] at hopener
      exact (Option.some.inj hopener).symm
    rwa [← hsame]
  | after hfound hkind' _ _ =>
    rw [hinstr] at hfound
    obtain rfl := Option.some.inj hfound
    rw [hkind] at hkind'
    cases hkind'

/-- A block that no clause closes is closed by a brace of its own. -/
theorem close_of_not_clause (hblock : p.closerOf[o]? = some c) (hnext : p.nextClause[o]? ≠ some c) :
    ∃ instr, p.instructions[c]? = some instr ∧ instr.stmt = .close := by
  obtain ⟨instr, hinstr, hcloses⟩ := h.closer hblock
  refine ⟨instr, hinstr, ?_⟩
  rcases (h.proper hinstr).closing hcloses with hclose | ⟨test, hkind⟩ | ⟨why, hkind⟩
  · exact hclose
  · exact absurd (hp.nextClause_of_closes h hblock hinstr hkind) hnext
  · have hvalid := hp.valid hinstr
    rw [hkind] at hvalid
    cases hvalid

end WellFormed

/-! ### Chains of clauses -/

theorem Indexed.nextClause_eq_none (h : p.Indexed) (hinstr : p.instructions[i]? = some instr)
    (hclause : instr.stmt.isClause = false) : p.nextClause[i]? = none := by
  cases hnext : p.nextClause[i]? with
  | none => rfl
  | some j =>
    obtain ⟨-, -, -, instr', hinstr', hclause'⟩ := h.clause hnext
    obtain rfl := Option.mem_unique hinstr hinstr'
    rw [hclause] at hclause'
    cases hclause'

theorem Chain.closed (hchain : p.Chain o last) (h : p.Indexed) (hp : p.WellFormed)
    (hblock : p.closerOf[o]? = some c) : ∃ e, p.closerOf[last]? = some e := by
  induction hchain generalizing c with
  | last => exact ⟨c, hblock⟩
  | next hnext _ ih =>
    obtain ⟨instr, hinstr, hkind⟩ := h.nextClause_lt hnext
    obtain ⟨c', hblock'⟩ := hp.header_closed h hinstr (Stmt.isHeader_of_isOtherwise hkind)
    exact ih hblock'

/-- From the end of a clause to the next one there is a closing brace, and then nothing to run. -/
theorem stmt_between (h : p.Indexed) (hp : p.WellFormed) (hblock : p.closerOf[o]? = some c)
    (hnext : p.nextClause[o]? = some j) (hck : c ≤ k) (hkj : k < j) :
    ∃ instr, p.instructions[k]? = some instr ∧ (instr.stmt = .close ∨ instr.stmt = .noop) := by
  obtain ⟨c', hblock', hfollows, -⟩ := h.clause hnext
  obtain rfl := Option.mem_unique hblock hblock'
  cases hfollows with
  | here => omega
  | after _ _ _ hbetween =>
    rcases Nat.eq_or_lt_of_le hck with rfl | hlt
    · have hne : p.nextClause[o]? ≠ some c := by
        rw [hnext]
        exact fun heq => Nat.ne_of_gt hkj (Option.some.inj heq)
      obtain ⟨instr, hinstr, hclose⟩ := hp.close_of_not_clause h hblock hne
      exact ⟨instr, hinstr, .inl hclose⟩
    · obtain ⟨instr, hinstr, hnoop⟩ := hbetween k hlt hkj
      exact ⟨instr, hinstr, .inr (Stmt.eq_noop hnoop)⟩

theorem not_clause_between (h : p.Indexed) (hp : p.WellFormed) (hblock : p.closerOf[o]? = some c)
    (hnext : p.nextClause[o]? = some j) (hck : c ≤ k) (hkj : k < j) : p.nextClause[k]? = none := by
  cases hlink : p.nextClause[k]? with
  | none => rfl
  | some k' =>
    obtain ⟨-, -, -, instr, hinstr, hclause⟩ := h.clause hlink
    obtain ⟨instr', hinstr', hkind⟩ := stmt_between h hp hblock hnext hck hkj
    obtain rfl := Option.mem_unique hinstr hinstr'
    rcases hkind with hkind | hkind <;> rw [hkind] at hclause <;> cases hclause

/-- A clause inside a block is linked only to clauses inside of it. -/
theorem Indexed.link_inside (h : p.Indexed) (hblock : p.closerOf[o]? = some c) (hlink : p.nextClause[k]? = some k')
    (hlt : o < k) (hlt' : k < c) : k' < c :=
  (h.region_block hblock).clause h hlink hlt hlt'

theorem Chain.after {e : Nat} (hchain : p.Chain o last) (h : p.Indexed) (hp : p.WellFormed)
    (hblock : p.closerOf[o]? = some c) (hlast : p.closerOf[last]? = some e) (hlink : p.nextClause[k]? = some k')
    (hle : o ≤ k) (hpast : e < k') : e < k := by
  induction hchain generalizing c with
  | @last o hnone =>
    obtain rfl := Option.mem_unique hblock hlast
    refine Nat.lt_of_not_le fun hkc => ?_
    rcases Nat.eq_or_lt_of_le hle with rfl | hlt
    · rw [hnone] at hlink
      cases hlink
    rcases Nat.eq_or_lt_of_le hkc with rfl | hlt'
    · obtain ⟨instr, hinstr, hclose⟩ := hp.close_of_not_clause h hblock (by rw [hnone]; exact nofun)
      obtain ⟨-, -, -, instr', hinstr', hclause⟩ := h.clause hlink
      obtain rfl := Option.mem_unique hinstr hinstr'
      rw [hclose] at hclause
      cases hclause
    · have := h.link_inside hblock hlink hlt hlt'
      omega
  | @next o j last hnext hrest ih =>
    obtain ⟨instr, hinstr, hkind⟩ := h.nextClause_lt hnext
    obtain ⟨cj, hblockj⟩ := hp.header_closed h hinstr (Stmt.isHeader_of_isOtherwise hkind)
    have hle_last := hrest.le h
    have hlast_lt := (h.block_lt hlast).1
    refine ih hblockj hlast (Nat.le_of_not_lt fun hkj => ?_)
    obtain ⟨c', hblock', hfollows, -⟩ := h.clause hnext
    obtain rfl := Option.mem_unique hblock hblock'
    have hcj := hfollows.le
    rcases Nat.eq_or_lt_of_le hle with rfl | hlt
    · rw [hnext] at hlink
      obtain rfl := Option.some.inj hlink
      omega
    rcases Nat.lt_or_ge k c with hkc | hkc
    · have := h.link_inside hblock hlink hlt hkc
      omega
    · rw [not_clause_between h hp hblock hnext hkc hkj] at hlink
      cases hlink

/-! ### Levels -/

/-- No link between clauses leads over `i` to a clause before `stop`: a statement begins at `i`. -/
def Level (p : Program) (i stop : Nat) : Prop := ∀ o j, p.nextClause[o]? = some j → i ≤ j → j < stop → i ≤ o

namespace Level

theorem zero (stop : Nat) : p.Level 0 stop := fun o _ _ _ _ => Nat.zero_le o

variable (hl : p.Level i stop) (h : p.Indexed) (hp : p.WellFormed)

include hl h hp

theorem not_otherwise (hinstr : p.instructions[i]? = some instr) (hlt : i < stop) : instr.stmt.isOtherwise = false := by
  refine Bool.eq_false_iff.mpr fun hkind => ?_
  obtain ⟨o, ho⟩ := hp.linked hinstr hkind
  have hnext := h.clause_iff.mp ho
  have := hl o i hnext (Nat.le_refl i) hlt
  have := h.lt_nextClause hnext
  omega

omit hp in
theorem step (hinstr : p.instructions[i]? = some instr) (hclause : instr.stmt.isClause = false) : p.Level (i + 1) stop := by
  intro o j hnext hle hlt
  refine Nat.lt_of_le_of_ne (hl o j hnext (Nat.le_of_succ_le hle) hlt) ?_
  rintro rfl
  rw [h.nextClause_eq_none hinstr hclause] at hnext
  cases hnext

theorem chain (hblock : p.closerOf[i]? = some c) {e : Nat} (hlast : p.closerOf[p.lastClause p.size i]? = some e) :
    p.Level (e + 1) stop := by
  intro o j hnext hle hlt
  have hie := (h.block_lt hlast).1
  have hile := h.le_lastClause i
  exact (h.chain i).after h hp hblock hlast hnext (hl o j hnext (by omega) hlt) hle

end Level

theorem Indexed.level_body (h : p.Indexed) (hp : p.WellFormed) (hblock : p.closerOf[o]? = some c)
    (hinstr : p.instructions[o]? = some instr) (hheader : instr.stmt.isHeader) : p.Level (o + 1) c := by
  intro k j hnext hle hlt
  obtain ⟨c', hblock', hfollows, -⟩ := h.clause hnext
  have hc'j := hfollows.le
  refine Nat.lt_of_not_le fun hko => ?_
  rcases Nat.eq_or_lt_of_le hko with rfl | hko
  · obtain rfl := Option.mem_unique hblock hblock'
    omega
  rcases h.laminar hblock' hblock hko with hout | hin
  · -- the header would be between the two clauses
    obtain ⟨instr', hinstr', hkind⟩ := stmt_between h hp hblock' hnext hout (by omega)
    obtain rfl := Option.mem_unique hinstr hinstr'
    rcases hkind with hkind | hkind <;> rw [hkind] at hheader <;> cases hheader
  · omega

end Program

end Stepwise
