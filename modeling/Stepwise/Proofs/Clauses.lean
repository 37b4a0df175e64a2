import Stepwise.Proofs.BlockTree
import Stepwise.Proofs.Brackets

/-!
# Chains of clauses

A clause of a conditional is linked to the `else` clause that comes next after its block, if there is one. The links go
forward and no two of them lead to the same clause, so the clauses of a conditional form a chain with a last one, and a
chain never leaves the block that it begins in.
-/

namespace Stepwise.Program

variable {source : Text} {p : Program} {i j k o c last lo hi : Nat}

/-! ### Which clauses are linked -/

section Links

variable {instrs : Array Instruction}

theorem firstActive_eq {fuel : Nat} (hle : i ≤ j) (hfuel : j ≤ i + fuel)
    (hnoops : ∀ k, i ≤ k → k < j → ∃ instr, instrs[k]? = some instr ∧ instr.stmt.isNoop)
    (hactive : instrs[j]?.any (·.stmt.isNoop) = false) : firstActive instrs fuel i = j := by
  induction fuel generalizing i with
  | zero =>
    rw [firstActive]
    omega
  | succ fuel ih =>
    rw [firstActive]
    rcases Nat.eq_or_lt_of_le hle with rfl | hlt
    · rw [hactive]
      rfl
    · rw [if_pos (by simpa [Option.any_eq_true] using hnoops i (Nat.le_refl i) hlt)]
      exact ih hlt (by omega) fun k hk => hnoops k (Nat.le_of_succ_le hk)

theorem nextClause?_of_otherwise (hclause : instrs[o]?.any (·.stmt.isClause)) (hcloser : instrs[c]?.any (·.stmt.isOtherwise)) :
    nextClause? instrs o c = some c := by
  rw [nextClause?, if_pos hclause, if_pos hcloser]

theorem nextClause?_of_alone (hclause : instrs[o]?.any (·.stmt.isClause))
    (hcloser : instrs[c]?.any (·.stmt.isOtherwise) = false) (hlt : c < j) {instr : Instruction} {test : Option Expr}
    (hinstr : instrs[j]? = some instr) (hstmt : instr.stmt = .otherwise test false)
    (hnoops : ∀ k, c < k → k < j → ∃ instr, instrs[k]? = some instr ∧ instr.stmt.isNoop) :
    nextClause? instrs o c = some j := by
  have hsize : j < instrs.size := (Array.getElem?_eq_some_iff.mp hinstr).1
  have hfirst : firstActive instrs instrs.size (c + 1) = j := by
    refine firstActive_eq hlt (by omega) hnoops ?_
    rw [hinstr, Option.any_some, hstmt]
    rfl
  rw [nextClause?, if_pos hclause, hcloser, if_neg Bool.false_ne_true]
  simp only [hfirst, hinstr, Option.map_some, hstmt]

end Links

/-- Which `else` clause a clause is linked to: the one that its closing brace carries, or else the one that follows the
brace with nothing but no-ops in between. -/
theorem nextClause_eq_some_iff (lines : List Text) (instrs : List Instruction) :
    (ofInstructions lines instrs).nextClause[o]? = some j ↔ ∃ c, (ofInstructions lines instrs).closerOf[o]? = some c ∧
      (∃ header, (ofInstructions lines instrs).instructions[o]? = some header ∧ header.stmt.isClause) ∧
      (ofInstructions lines instrs).Follows c j ∧
      ∀ closer, (ofInstructions lines instrs).instructions[c]? = some closer → closer.stmt.isOtherwise → j = c := by
  rw [nextClause_iff]
  generalize hp : ofInstructions lines instrs = p
  have hclosed {c : Nat} : p.closerOf[o]? = some c ↔ (o, c) ∈ (BlockScan.scan instrs).closed := hp ▸ closerOf_iff lines instrs
  constructor
  · rintro ⟨c, hc, hnext⟩
    obtain ⟨hheader, hplace⟩ := nextClause?_eq_some hnext
    refine ⟨c, hclosed.mpr hc, hheader, ?_, fun closer hcloser hkind => ?_⟩
    · rcases hplace with ⟨rfl, closer, hcloser, hkind⟩ | ⟨hlt, ⟨instr, test, hinstr, hkind⟩, hnoops⟩
      · exact .here hcloser hkind
      · exact .after hinstr hkind hlt hnoops
    · have hhere : nextClause? p.instructions o c = some c := by
        refine nextClause?_of_otherwise ?_ (by rw [hcloser]; exact hkind)
        simpa [Option.any_eq_true] using hheader
      exact Option.mem_unique hnext hhere
  · rintro ⟨c, hc, hheader, hfollows, hcarried⟩
    refine ⟨c, hclosed.mp hc, ?_⟩
    have hclause : p.instructions[o]?.any (·.stmt.isClause) := by simpa [Option.any_eq_true] using hheader
    cases hfollows with
    | here hcloser hkind => exact nextClause?_of_otherwise hclause (by rw [hcloser]; exact hkind)
    | after hinstr hkind hlt hnoops =>
      refine nextClause?_of_alone hclause ?_ hlt hinstr hkind hnoops
      refine Bool.eq_false_iff.mpr fun hother => ?_
      obtain ⟨closer, hcloser, hkind'⟩ := (Option.any_eq_true _ _).mp hother
      have := hcarried closer hcloser hkind'
      omega

/-! ### From clause to clause -/

/-- A clause that is linked to another one. -/
def IsLinked (p : Program) (i : Nat) : Prop := (∃ j, p.nextClause[i]? = some j) ∨ ∃ o : Nat, p.nextClause[o]? = some i

theorem Chain.of_leads (h : p.Leads i k) (hchain : p.Chain i last) : p.Chain k last := by
  induction h with
  | refl => exact hchain
  | tail _ hnext ih =>
    cases ih with
    | last hnone =>
      rw [hnone] at hnext
      cases hnext
    | next hnext' hrest =>
      obtain rfl := Option.mem_unique hnext hnext'
      exact hrest

theorem IsLinked.opens (h : p.IsLinked i) (hp : p.Indexed) (hlead : p.Leads i k) :
    ∃ instr, p.instructions[k]? = some instr ∧ instr.opens := by
  have hotherwise {o j : Nat} (hnext : p.nextClause[o]? = some j) :
      ∃ instr, p.instructions[j]? = some instr ∧ instr.opens := by
    obtain ⟨instr, hinstr, hkind⟩ := hp.nextClause_lt hnext
    exact ⟨instr, hinstr, (hp.proper hinstr).header (Stmt.isHeader_of_isOtherwise hkind)⟩
  cases hlead with
  | tail _ hnext => exact hotherwise hnext
  | refl =>
    rcases h with ⟨j, hnext⟩ | ⟨o, hnext⟩
    · obtain ⟨c, hblock, -⟩ := hp.clause hnext
      exact hp.header hblock
    · exact hotherwise hnext

theorem blockEnd_of_closed {e : Nat} (h : p.closerOf[i]? = some e) : p.blockEnd i = .ok e := by
  rw [blockEnd, h]

/-- The links between clauses are made as described, go forward, and lead to no clause twice; the links back are their
inverse. Following them from any clause leads to a last one, whose closing brace comes after every clause of the chain.
From a clause inside a block the chain, with its end, stays inside the block. -/
theorem clauses_form_chains (h : load source = .ok p) :
    (∀ o j : Nat, p.nextClause[o]? = some j ↔ ∃ c, p.closerOf[o]? = some c ∧
      (∃ header, p.instructions[o]? = some header ∧ header.stmt.isClause) ∧ p.Follows c j ∧
      ∀ closer, p.instructions[c]? = some closer → closer.stmt.isOtherwise → j = c) ∧
    (∀ o j : Nat, p.nextClause[o]? = some j → o < j) ∧
    (∀ o o' j : Nat, p.nextClause[o]? = some j → p.nextClause[o']? = some j → o = o') ∧
    (∀ o j : Nat, p.prevClause[j]? = some o ↔ p.nextClause[o]? = some j) ∧
    (∀ i : Nat, ∃ last, p.Leads i last ∧ p.nextClause[last]? = none ∧ p.chainEnd i = p.blockEnd last ∧
      ∀ e, p.closerOf[last]? = some e → p.chainEnd i = .ok e ∧ ∀ k, p.Leads k i ∨ p.Leads i k → k < e) ∧
    ∀ o c i : Nat, p.closerOf[o]? = some c → o < i → i < c → p.IsLinked i →
      (∀ k, p.Leads i k → o < k ∧ k < c) ∧ ∃ e, p.chainEnd i = .ok e ∧ o < e ∧ e < c := by
  have hp := indexed_load h
  have hscanned := scanned_load h
  refine ⟨fun o j => ?_, fun o j => hp.lt_nextClause, fun o o' j hnext hnext' => ?_, fun o j => hp.clause_iff,
    fun i => ?_, fun o c i hblock hlt hlt' hlinked => ?_⟩
  · obtain ⟨instrs, -, rfl⟩ := load_eq_ok h
    exact nextClause_eq_some_iff _ instrs
  · exact Option.some.inj ((hp.clause_iff.mpr hnext).symm.trans (hp.clause_iff.mpr hnext'))
  · have hchain := hp.chain i
    obtain ⟨hlead, hnone⟩ := hchain.leads
    refine ⟨p.lastClause p.size i, hlead, hnone, rfl, fun e he => ⟨blockEnd_of_closed he, fun k hk => ?_⟩⟩
    refine Nat.lt_of_le_of_lt ?_ (hp.block_lt he).1
    rcases hk with hk | hk
    · exact Nat.le_trans (hk.le hp) (hlead.le hp)
    · exact (hchain.of_leads hk).le hp
  · have hregion := hp.region_block hblock
    have hlater (k : Nat) (hk : p.Leads i k) : o < k ∧ k < c :=
      ⟨Nat.lt_of_lt_of_le hlt (hk.le hp), hk.lt_of_region hp hregion hlt hlt'⟩
    refine ⟨hlater, ?_⟩
    -- the last clause opens a block inside, which is closed inside as well
    obtain ⟨hlead, -⟩ := (hp.chain i).leads
    obtain ⟨hafter, hbefore⟩ := hlater _ hlead
    obtain ⟨instr, hinstr, hopens⟩ := hlinked.opens hp hlead
    obtain ⟨e, he, hinside⟩ := hscanned.inside hblock hafter hbefore hinstr hopens
    exact ⟨e, blockEnd_of_closed he, Nat.lt_trans hafter (hp.block_lt he).1, hinside⟩

/-- A conditional inside a loop, with a clause of its own behind an empty line. -/
theorem clauses_form_chains_loop : ∃ p : Program,
    load "while (a) \x7b\nif (b) \x7b\n\x7d else if (c) \x7b\n\x7d\n\nelse \x7b\n\x7d\n\x7d".codes = .ok p ∧
      p.closerOf[0]? = some 7 ∧ p.nextClause[1]? = some 2 ∧ p.nextClause[2]? = some 5 ∧ p.chainEnd 1 = .ok 6 ∧
      ∀ k, p.Leads 1 k → 0 < k ∧ k < 7 := by
  obtain ⟨p, hload, hp⟩ := eq_ok_of_any
    (r := load "while (a) \x7b\nif (b) \x7b\n\x7d else if (c) \x7b\n\x7d\n\nelse \x7b\n\x7d\n\x7d".codes)
    (P := fun p => p.closerOf[0]? == some 7 && p.nextClause[1]? == some 2 && p.nextClause[2]? == some 5 &&
      (p.chainEnd 1).toOption == some 6) (by decide +kernel)
  simp only [Bool.and_eq_true, beq_iff_eq] at hp
  obtain ⟨⟨⟨hloop, hfirst⟩, hsecond⟩, hend⟩ := hp
  obtain ⟨-, -, -, -, -, hinside⟩ := clauses_form_chains hload
  exact ⟨p, hload, hloop, hfirst, hsecond, eq_ok_of_toOption hend,
    (hinside 0 7 1 hloop (by decide) (by decide) (.inl ⟨2, hfirst⟩)).1⟩

end Stepwise.Program
