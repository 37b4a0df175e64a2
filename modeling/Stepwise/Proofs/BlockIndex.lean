import Stepwise.Program.Basic
import Stepwise.Proofs.BlockScan

/-!
# The index of blocks

What a program knows about its blocks: the two directions of the index agree, blocks are nested or apart, and an `else`
clause that is linked to a clause follows it with nothing but no-ops in between. `Program.Indexed` collects these facts;
`Program.indexed_ofInstructions` proves them.
-/

namespace Stepwise

open List

/-- The header of a block. -/
def Stmt.isHeader : Stmt → Bool
  | .block | .otherwise _ _ | .function _ _ | .loopFor _ _ _ | .loopEach _ _ _ _ | .loopWhile _ | .branch _ => true
  | _ => false

/-- What the flags of an instruction say about its statement, and the other way round. -/
structure Instruction.Proper (instr : Instruction) : Prop where
  closing : instr.closes → instr.stmt = .close ∨ (∃ test, instr.stmt = .otherwise test true) ∨
    ∃ why, instr.stmt = .invalid why
  otherwise {test : Option Expr} {closes : Bool} : instr.stmt = .otherwise test closes → instr.closes = closes
  noop : instr.stmt = .noop → instr.opens = false
  header : instr.stmt.isHeader → instr.opens

namespace Program

variable {l : List (Nat × Nat)} {k v : Nat}

/-- The `else` clause at `j` comes right after the block that is closed at `c`. -/
inductive Follows (p : Program) (c : Nat) : (j : Nat) → Prop
  | here {instr : Instruction} (found : p.instructions[c]? = some instr) (kind : instr.stmt.isOtherwise) : Follows p c c
  | after {j : Nat} {instr : Instruction} {test : Option Expr} (found : p.instructions[j]? = some instr)
      (kind : instr.stmt = .otherwise test false) (lt : c < j)
      (between : ∀ k, c < k → k < j → ∃ instr, p.instructions[k]? = some instr ∧ instr.stmt.isNoop) : Follows p c j

/-- What a program knows about its blocks. -/
structure Indexed (p : Program) : Prop where
  block_lt {o c : Nat} : p.closerOf[o]? = some c → o < c ∧ c < p.size
  opener_iff {o c : Nat} : p.openerOf[c]? = some o ↔ p.closerOf[o]? = some c
  /-- blocks are nested or apart -/
  laminar {o c o' c' : Nat} : p.closerOf[o]? = some c → p.closerOf[o']? = some c' → o < o' → c ≤ o' ∨ c' < c
  header {o c : Nat} : p.closerOf[o]? = some c → ∃ instr, p.instructions[o]? = some instr ∧ instr.opens
  closer {o c : Nat} : p.closerOf[o]? = some c → ∃ instr, p.instructions[c]? = some instr ∧ instr.closes
  proper {i : Nat} {instr : Instruction} : p.instructions[i]? = some instr → instr.Proper
  /-- what closes no block is an error -/
  matched {i : Nat} {instr : Instruction} : p.instructions[i]? = some instr → instr.closes →
    (∃ o : Nat, p.closerOf[o]? = some i) ∨ ∃ why, instr.stmt = .invalid why
  clause_iff {o j : Nat} : p.prevClause[j]? = some o ↔ p.nextClause[o]? = some j
  clause {o j : Nat} : p.nextClause[o]? = some j → ∃ c, p.closerOf[o]? = some c ∧ p.Follows c j ∧
    ∃ instr, p.instructions[o]? = some instr ∧ instr.stmt.isClause
  function {name : Text} {f : Function} : p.functions.get? name = some f → p.closerOf[f.start]? = some f.stop
  function_header {name : Text} {f : Function} : p.functions.get? name = some f →
    ∃ instr, p.instructions[f.start]? = some instr ∧ instr.stmt.isFunction
  /-- no function that can be called is inside another one -/
  function_outermost {name : Text} {f : Function} {o c : Nat} {instr : Instruction} :
    p.functions.get? name = some f → p.closerOf[o]? = some c → o < f.start → f.start < c →
    p.instructions[o]? = some instr → instr.stmt.isFunction = false

/-! ### Looking up pairs -/

theorem getElem?_ofList_iff (distinct : l.Pairwise fun a b => a.1 ≠ b.1) :
    (Std.TreeMap.ofList l : Std.TreeMap Nat Nat)[k]? = some v ↔ (k, v) ∈ l := by
  have distinct' : l.Pairwise fun a b => ¬ compare a.1 b.1 = .eq :=
    distinct.imp fun h heq => h (Std.LawfulEqCmp.eq_of_compare heq)
  constructor
  · intro h
    by_cases hk : (l.map Prod.fst).contains k = true
    · obtain ⟨⟨k', v'⟩, hmem, rfl⟩ : ∃ e ∈ l, e.1 = k := by simpa using hk
      have := Std.TreeMap.getElem?_ofList_of_mem Std.ReflCmp.compare_self distinct' hmem
      rw [this] at h
      obtain rfl := Option.some.inj h
      exact hmem
    · rw [Std.TreeMap.getElem?_ofList_of_contains_eq_false (by simpa using hk)] at h
      simp at h
  · intro h
    exact Std.TreeMap.getElem?_ofList_of_mem Std.ReflCmp.compare_self distinct' h

theorem getElem?_ofList_swap_iff (distinct : l.Pairwise fun a b => a.2 ≠ b.2) :
    (Std.TreeMap.ofList (l.map fun (a, b) => (b, a)) : Std.TreeMap Nat Nat)[v]? = some k ↔ (k, v) ∈ l := by
  rw [getElem?_ofList_iff (pairwise_map.mpr distinct), mem_map]
  constructor
  · rintro ⟨⟨a, b⟩, hmem, heq⟩
    obtain ⟨rfl, rfl⟩ := Prod.mk.inj heq
    exact hmem
  · exact fun h => ⟨(k, v), h, rfl⟩

/-! ### Clauses -/

section Clauses

variable {instrs : Array Instruction} {o c j : Nat}

/-- What is passed over on the way to the first active instruction is a no-op. -/
theorem firstActive_spec (instrs : Array Instruction) (fuel i : Nat) :
    i ≤ firstActive instrs fuel i ∧
      ∀ k, i ≤ k → k < firstActive instrs fuel i → ∃ instr, instrs[k]? = some instr ∧ instr.stmt.isNoop := by
  induction fuel generalizing i with
  | zero =>
    refine ⟨Nat.le_refl i, fun k hk hlt => ?_⟩
    simp only [firstActive] at hlt
    omega
  | succ fuel ih =>
    rw [firstActive]
    split
    case isTrue hnoop =>
      obtain ⟨hle, hall⟩ := ih (i + 1)
      refine ⟨by omega, fun k hk hlt => ?_⟩
      rcases Nat.eq_or_lt_of_le hk with rfl | hk
      · simpa [Option.any_eq_true] using hnoop
      · exact hall k hk hlt
    case isFalse => exact ⟨Nat.le_refl i, fun k hk hlt => by omega⟩

/-- The ways in which an `else` clause is found after a block. -/
theorem nextClause?_eq_some (h : nextClause? instrs o c = some j) :
    (∃ instr, instrs[o]? = some instr ∧ instr.stmt.isClause) ∧
      ((j = c ∧ ∃ instr, instrs[c]? = some instr ∧ instr.stmt.isOtherwise) ∨
        (c < j ∧ (∃ instr test, instrs[j]? = some instr ∧ instr.stmt = .otherwise test false) ∧
          ∀ k, c < k → k < j → ∃ instr, instrs[k]? = some instr ∧ instr.stmt.isNoop)) := by
  unfold nextClause? at h
  split at h
  case isFalse => simp at h
  case isTrue hclause =>
    refine ⟨by simpa [Option.any_eq_true] using hclause, ?_⟩
    split at h
    case isTrue hother =>
      obtain rfl := Option.some.inj h
      exact .inl ⟨rfl, by simpa [Option.any_eq_true] using hother⟩
    case isFalse =>
      obtain ⟨hle, hall⟩ := firstActive_spec instrs instrs.size (c + 1)
      dsimp only at h
      split at h
      case h_2 => simp at h
      case h_1 test hstmt =>
        obtain rfl := Option.some.inj h
        obtain ⟨instr, hinstr, hkind⟩ := Option.map_eq_some_iff.mp hstmt
        exact .inr ⟨by omega, ⟨instr, test, hinstr, hkind⟩, hall⟩

end Clauses

/-! ### Instructions after loading -/

section Instructions

variable {instrs : List Instruction} {unmatched : List Nat} {i : Nat} {instr : Instruction}

theorem getElem?_markUnmatched_of_not_mem (h : i ∉ unmatched) :
    (markUnmatched instrs (.ofList unmatched)).toArray[i]? = instrs[i]? := by
  simp [markUnmatched, getElem?_mapIdx, h]

theorem invalid_markUnmatched_of_mem (h : i ∈ unmatched)
    (hinstr : (markUnmatched instrs (.ofList unmatched)).toArray[i]? = some instr) : ∃ why, instr.stmt = .invalid why := by
  simp only [markUnmatched, getElem?_toArray, getElem?_mapIdx, Option.map_eq_some_iff] at hinstr
  obtain ⟨instr', -, rfl⟩ := hinstr
  have hmarked : (Std.TreeSet.ofList unmatched : Std.TreeSet Nat).contains i = true := by simpa using h
  rw [if_pos hmarked]
  exact ⟨_, rfl⟩

theorem proper_markUnmatched (hproper : ∀ instr ∈ instrs, instr.Proper)
    (h : (markUnmatched instrs (.ofList unmatched)).toArray[i]? = some instr) : instr.Proper := by
  simp only [markUnmatched, getElem?_toArray, getElem?_mapIdx, Option.map_eq_some_iff] at h
  obtain ⟨instr', hinstr', rfl⟩ := h
  split
  · exact ⟨fun _ => .inr (.inr ⟨_, rfl⟩), nofun, nofun, nofun⟩
  · exact hproper instr' (mem_of_getElem? hinstr')

end Instructions

/-! ### All facts together -/

section Indexed

variable (lines : List Text) (instrs : List Instruction) {o c j : Nat} {name : Text}

theorem closerOf_iff :
    (ofInstructions lines instrs).closerOf[o]? = some c ↔ (o, c) ∈ (BlockScan.scan instrs).closed := by
  have hdistinct := (BlockScan.scan_sound instrs).headers_distinct
  have hreverse : (BlockScan.scan instrs).closed.reverse.Pairwise fun a b => a.1 ≠ b.1 :=
    pairwise_reverse.mpr (hdistinct.imp fun h => h.symm)
  exact (getElem?_ofList_iff hreverse).trans mem_reverse

theorem openerOf_iff :
    (ofInstructions lines instrs).openerOf[c]? = some o ↔ (o, c) ∈ (BlockScan.scan instrs).closed := by
  have hsorted := (BlockScan.scan_sound instrs).closers_sorted
  have hreverse : (BlockScan.scan instrs).closed.reverse.Pairwise fun a b => a.2 ≠ b.2 :=
    pairwise_reverse.mpr (hsorted.imp fun h => Nat.ne_of_lt h)
  exact (getElem?_ofList_swap_iff hreverse).trans mem_reverse

theorem getElem?_of_closed (h : (o, c) ∈ (BlockScan.scan instrs).closed) :
    (ofInstructions lines instrs).instructions[o]? = instrs[o]? ∧
      (ofInstructions lines instrs).instructions[c]? = instrs[c]? := by
  have hlone := (BlockScan.scan_sound instrs).unmatched_closed
  constructor
  · exact getElem?_markUnmatched_of_not_mem fun hi => (hlone o hi o c h).1 rfl
  · exact getElem?_markUnmatched_of_not_mem fun hi => (hlone c hi o c h).2 rfl

theorem mem_clauseLinks : (o, j) ∈ clauseLinks (ofInstructions lines instrs).instructions
      (BlockScan.scan instrs).closed.reverse ↔
    ∃ c, (o, c) ∈ (BlockScan.scan instrs).closed ∧
      nextClause? (ofInstructions lines instrs).instructions o c = some j := by
  simp only [clauseLinks, mem_filterMap, mem_reverse, Option.map_eq_some_iff, Prod.exists, Prod.mk.injEq]
  constructor
  · rintro ⟨o', c, hmem, j', hnext, rfl, rfl⟩
    exact ⟨c, hmem, hnext⟩
  · rintro ⟨c, hmem, hnext⟩
    exact ⟨o, c, hmem, j, hnext, rfl, rfl⟩

theorem nextClause_iff : (ofInstructions lines instrs).nextClause[o]? = some j ↔
    ∃ c, (o, c) ∈ (BlockScan.scan instrs).closed ∧
      nextClause? (ofInstructions lines instrs).instructions o c = some j := by
  have hdistinct : (clauseLinks (ofInstructions lines instrs).instructions
      (BlockScan.scan instrs).closed.reverse).Pairwise fun a b => a.1 ≠ b.1 := by
    rw [clauseLinks, pairwise_filterMap]
    refine pairwise_reverse.mpr ((BlockScan.scan_sound instrs).headers_distinct.imp ?_)
    rintro ⟨o, c⟩ ⟨o', c'⟩ hne b hb b' hb'
    obtain ⟨_, -, rfl⟩ := Option.map_eq_some_iff.mp hb
    obtain ⟨_, -, rfl⟩ := Option.map_eq_some_iff.mp hb'
    exact fun h => hne h.symm
  exact (getElem?_ofList_iff hdistinct).trans (mem_clauseLinks lines instrs)

theorem clauses_distinct (hproper : ∀ instr ∈ instrs, instr.Proper) {o' c' : Nat}
    (h' : (o', c') ∈ (BlockScan.scan instrs).closed) (hlt : c < c')
    (hj : nextClause? (ofInstructions lines instrs).instructions o c = some j)
    (hj' : nextClause? (ofInstructions lines instrs).instructions o' c' = some j) : False := by
  have hscan := BlockScan.scan_sound instrs
  -- a closing instruction is neither a no-op nor an `else` clause of its own
  have hcloser : ∀ {o c : Nat}, (o, c) ∈ (BlockScan.scan instrs).closed → ∀ instr,
      (ofInstructions lines instrs).instructions[c]? = some instr → instr.closes ∧ instr.stmt.isNoop = false := by
    intro o c hc instr hinstr
    obtain ⟨instr', hinstr', hcloses⟩ := hscan.closed_closer o c hc
    rw [(getElem?_of_closed lines instrs hc).2, hinstr'] at hinstr
    obtain rfl := Option.some.inj hinstr
    refine ⟨hcloses, ?_⟩
    rcases (hproper instr' (mem_of_getElem? hinstr')).closing hcloses with hs | ⟨_, hs⟩ | ⟨_, hs⟩ <;> rw [hs] <;> rfl
  have halone : ∀ {instr : Instruction} {test : Option Expr},
      (ofInstructions lines instrs).instructions[j]? = some instr → instr.stmt = .otherwise test false →
      instr.closes = false := fun hinstr hstmt => (proper_markUnmatched hproper hinstr).otherwise hstmt
  obtain ⟨-, hhere | ⟨hgt, ⟨instr, test, hinstr, hstmt⟩, hnoops⟩⟩ := nextClause?_eq_some hj <;>
    obtain ⟨-, hhere' | ⟨hgt', ⟨instr', test', hinstr', hstmt'⟩, hnoops'⟩⟩ := nextClause?_eq_some hj'
  · omega
  · omega
  · obtain ⟨rfl, -⟩ := hhere'
    have hcloses := (hcloser h' instr hinstr).1
    rw [halone hinstr hstmt] at hcloses
    exact Bool.noConfusion hcloses
  · obtain ⟨mid, hmid, hnoop⟩ := hnoops c' hlt hgt'
    rw [(hcloser h' mid hmid).2] at hnoop
    exact Bool.noConfusion hnoop

theorem prevClause_iff (hproper : ∀ instr ∈ instrs, instr.Proper) :
    (ofInstructions lines instrs).prevClause[j]? = some o ↔
      ∃ c, (o, c) ∈ (BlockScan.scan instrs).closed ∧
        nextClause? (ofInstructions lines instrs).instructions o c = some j := by
  have hdistinct : (clauseLinks (ofInstructions lines instrs).instructions
      (BlockScan.scan instrs).closed.reverse).Pairwise fun a b => a.2 ≠ b.2 := by
    rw [clauseLinks, pairwise_filterMap]
    refine pairwise_reverse.mpr ((BlockScan.scan_sound instrs).closers_sorted.imp_of_mem ?_)
    rintro ⟨o', c'⟩ ⟨o, c⟩ hmem' - hlt b hb b' hb' heq
    obtain ⟨j, hj, rfl⟩ := Option.map_eq_some_iff.mp hb
    obtain ⟨j', hj', rfl⟩ := Option.map_eq_some_iff.mp hb'
    obtain rfl : j = j' := heq
    exact clauses_distinct lines instrs hproper hmem' hlt hj hj'
  exact (getElem?_ofList_swap_iff hdistinct).trans (mem_clauseLinks lines instrs)

theorem mem_of_get?_ofList {α : Type} {entries : List (Text × α)} {a : α}
    (h : (OrderedMap.ofList entries).get? name = some a) : (name, a) ∈ entries := by
  have hmem : ∀ (entries : List (Text × α)) (m : OrderedMap α) (e : Text × α),
      e ∈ (entries.foldl (fun m e => m.put e.1 e.2) m).toList → e ∈ m.toList ∨ e ∈ entries := by
    intro entries
    induction entries with
    | nil => exact fun m e he => .inl he
    | cons first rest ih =>
      intro m e he
      rcases ih (m.put first.1 first.2) e he with hput | hrest
      · rw [OrderedMap.toList_put] at hput
        rcases Assoc.mem_put hput with rfl | hold
        · exact .inr mem_cons_self
        · exact .inl hold
      · exact .inr (mem_cons_of_mem _ hrest)
  rw [OrderedMap.get?_eq, lookup_eq_some_iff] at h
  obtain ⟨before, behind, hlist, -⟩ := h
  have hfound : (name, a) ∈ (OrderedMap.ofList entries).toList := by simp [hlist]
  rcases hmem entries .empty _ hfound with hempty | hentry
  · simp at hempty
  · exact hentry

theorem function_of_get? {f : Function} (h : (ofInstructions lines instrs).functions.get? name = some f) :
    (name, f.start) ∈ (BlockScan.scan instrs).functions.toList ∧
      (ofInstructions lines instrs).closerOf[f.start]? = some f.stop := by
  obtain ⟨⟨name', start⟩, hregistered, hmade⟩ := mem_filterMap.mp (mem_of_get?_ofList h)
  obtain ⟨f', hf', heq⟩ := Option.map_eq_some_iff.mp hmade
  obtain ⟨rfl, rfl⟩ := Prod.mk.inj heq
  simp only [functionAt?, Option.bind_eq_bind, Option.bind_eq_some_iff] at hf'
  obtain ⟨stop, hstop, header, -, closer, -, hf⟩ := hf'
  obtain rfl := Option.some.inj hf
  exact ⟨hregistered, hstop⟩

theorem indexed_ofInstructions (hproper : ∀ instr ∈ instrs, instr.Proper) : (ofInstructions lines instrs).Indexed := by
  have hscan := BlockScan.scan_sound instrs
  have hat {i : Nat} (hi : i ∉ (BlockScan.scan instrs).unmatched) :
      (ofInstructions lines instrs).instructions[i]? = instrs[i]? := getElem?_markUnmatched_of_not_mem hi
  constructor
  case block_lt =>
    intro o c h
    have hlt := hscan.closed_lt o c ((closerOf_iff lines instrs).mp h)
    have hsize : (ofInstructions lines instrs).size = instrs.length := by simp [size, ofInstructions, markUnmatched]
    omega
  case opener_iff => exact (openerOf_iff lines instrs).trans (closerOf_iff lines instrs).symm
  case laminar =>
    intro o c o' c' h h'
    exact hscan.laminar o c o' c' ((closerOf_iff lines instrs).mp h) ((closerOf_iff lines instrs).mp h')
  case header =>
    intro o c h
    have hclosed := (closerOf_iff lines instrs).mp h
    rw [(getElem?_of_closed lines instrs hclosed).1]
    exact hscan.closed_header o c hclosed
  case closer =>
    intro o c h
    have hclosed := (closerOf_iff lines instrs).mp h
    rw [(getElem?_of_closed lines instrs hclosed).2]
    exact hscan.closed_closer o c hclosed
  case proper => exact fun h => proper_markUnmatched hproper h
  case matched =>
    intro i instr hinstr hcloses
    by_cases hi : i ∈ (BlockScan.scan instrs).unmatched
    · exact .inr (invalid_markUnmatched_of_mem hi hinstr)
    · rw [hat hi] at hinstr
      obtain ⟨o, ho⟩ := (BlockScan.closes_scan hinstr hcloses).resolve_left hi
      exact .inl ⟨o, (closerOf_iff lines instrs).mpr ho⟩
  case clause_iff => exact (prevClause_iff lines instrs hproper).trans (nextClause_iff lines instrs).symm
  case clause =>
    intro o j h
    obtain ⟨c, hclosed, hnext⟩ := (nextClause_iff lines instrs).mp h
    obtain ⟨hclause, ⟨rfl, instr, hinstr, hkind⟩ | ⟨hlt, ⟨instr, test, hinstr, hkind⟩, hnoops⟩⟩ :=
      nextClause?_eq_some hnext
    · exact ⟨j, (closerOf_iff lines instrs).mpr hclosed, .here hinstr hkind, hclause⟩
    · exact ⟨c, (closerOf_iff lines instrs).mpr hclosed, .after hinstr hkind hlt hnoops, hclause⟩
  case function => exact fun h => (function_of_get? lines instrs h).2
  case function_header =>
    intro name f h
    obtain ⟨hnot, instr, params, hinstr, hstmt⟩ :=
      hscan.registered_header name f.start (function_of_get? lines instrs h).1
    exact ⟨instr, by rw [hat hnot, hinstr], by rw [hstmt]; rfl⟩
  case function_outermost =>
    intro name f o c instr h hblock hlt hlt' hinstr
    have hclosed := (closerOf_iff lines instrs).mp hblock
    rw [(getElem?_of_closed lines instrs hclosed).1] at hinstr
    exact hscan.registered_closed name f.start (function_of_get? lines instrs h).1 o c hclosed hlt hlt' instr hinstr

end Indexed

end Program

end Stepwise
