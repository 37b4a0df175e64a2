import Stepwise.Proofs.BlockTree
import Stepwise.Proofs.Brackets

/-!
# Which functions can be called

The scan for blocks registers a function when its header is met with no function open. A header is open when an
instruction is met exactly when its block, closed later or never, is around the instruction; so the functions of a
program are the first headers of their names that no function is around, if their blocks are closed.
-/

namespace Stepwise

open List

/-! ### Registering names -/

namespace OrderedMap

variable {α : Type} {m : OrderedMap α} {key name : Text} {value a : α} {entries : List (Text × α)}

theorem toList_put_of_new (h : m.has key = false) : (m.put key value).toList = m.toList ++ [(key, value)] := by
  have hnone : (m.toList.map Prod.fst).findIdx? (· == key) = none := by
    rw [has, Option.isSome_eq_false_iff, Option.isNone_iff_eq_none, m.indexed] at h
    exact h
  rw [toList_put, push_eq_put _ _ _ hnone]

theorem has_eq_true_iff : m.has name ↔ ∃ a, (name, a) ∈ m.toList := by
  rw [has_eq, Assoc.has, any_eq_true]
  constructor
  · rintro ⟨⟨x, a⟩, hmem, heq⟩
    obtain rfl := beq_iff_eq.mp heq
    exact ⟨a, hmem⟩
  · rintro ⟨a, hmem⟩
    exact ⟨(name, a), hmem, beq_self_eq_true name⟩

theorem get?_eq_some_iff (h : m.keys.Nodup) : m.get? name = some a ↔ (name, a) ∈ m.toList := by
  rw [get?_eq, lookup_eq_some_iff]
  rw [keys] at h
  generalize m.toList = entries at h ⊢
  constructor
  · rintro ⟨before, behind, rfl, -⟩
    simp
  · intro hmem
    obtain ⟨before, behind, rfl⟩ := append_of_mem hmem
    refine ⟨before, behind, rfl, fun e he => ?_⟩
    rw [map_append, nodup_append] at h
    exact bne_iff_ne.mpr fun heq => h.2.2 e.1 (mem_map_of_mem he) name (by simp) heq.symm

theorem get?_ofList_iff (h : (entries.map Prod.fst).Nodup) : (ofList entries).get? name = some a ↔ (name, a) ∈ entries := by
  rw [get?_eq_some_iff (by rwa [keys, toList_ofList h]), toList_ofList h]

end OrderedMap

/-! ### Open headers -/

namespace BlockScan

variable {instrs : List Instruction} {instr : Instruction} {n o c : Nat} {s : BlockScan}

theorem mem_closed_step : (o, c) ∈ (s.step n instr).closed ↔
    (o, c) ∈ s.closed ∨ c = n ∧ instr.closes ∧ ∃ b outer, s.opened = b :: outer ∧ o = b.header := by
  have hstep := stepped s n instr
  generalize s.step n instr = s' at hstep
  cases hstep with
  | unmatched hcloses hnone => simp [hnone]
  | closed hcloses hopens hsome => simp [hsome, popped, hcloses, or_comm, and_comm]
  | reopened hcloses hopens hsome => simp [hsome, popped, hcloses, or_comm, and_comm]
  | opened hcloses hopens => simp [hcloses]
  | passed hcloses hopens => simp [hcloses]

theorem mem_closed_upTo (hle : n ≤ instrs.length) :
    (o, c) ∈ (upTo instrs n).closed ↔ (o, c) ∈ (scan instrs).closed ∧ c < n := by
  suffices hall : ∀ m ≤ instrs.length, n ≤ m → ((o, c) ∈ (upTo instrs n).closed ↔ (o, c) ∈ (upTo instrs m).closed ∧ c < n) by
    rw [← upTo_length]
    exact hall _ (Nat.le_refl _) hle
  intro m hm hnm
  induction hnm with
  | refl => exact ⟨fun h => ⟨h, ((sound_upTo hle).closed_lt o c h).2.2⟩, fun h => h.1⟩
  | @step m hnm ih =>
    rw [ih (Nat.le_of_succ_le hm), upTo_succ (getElem?_eq_getElem hm), mem_closed_step]
    constructor
    · exact fun h => ⟨.inl h.1, h.2⟩
    · rintro ⟨hold | ⟨rfl, -⟩, hlt⟩
      · exact ⟨hold, hlt⟩
      · exact absurd hnm (Nat.not_le_of_lt hlt)

theorem mem_opened_upTo (htidy : Tidy instrs) (hle : n ≤ instrs.length) :
    (∃ b ∈ (upTo instrs n).opened, b.header = o) ↔ o < n ∧ (∃ instr, instrs[o]? = some instr ∧ instr.opens) ∧
      ∀ c, (o, c) ∈ (scan instrs).closed → n ≤ c := by
  have hsound := sound_upTo hle
  constructor
  · rintro ⟨b, hb, rfl⟩
    obtain ⟨instr, hinstr, hopens, -⟩ := hsound.opened_header b hb
    refine ⟨hsound.opened_lt b hb, ⟨instr, hinstr, hopens⟩, fun c hc => Nat.le_of_not_lt fun hlt => ?_⟩
    have hclosed := (mem_closed_upTo hle).mpr ⟨hc, hlt⟩
    have := hsound.apart _ c hclosed b hb
    have := hsound.closed_lt _ c hclosed
    omega
  · rintro ⟨hlt, ⟨instr, hinstr, hopens⟩, hlater⟩
    refine ((nested_upTo htidy hle).known o instr hlt hinstr hopens).resolve_right ?_
    rintro ⟨c, hc⟩
    obtain ⟨hclosed, hbefore⟩ := (mem_closed_upTo hle).mp hc
    exact absurd (hlater c hclosed) (Nat.not_le_of_lt hbefore)

theorem functions_opening_of_function {name : Text} {params : List Text} (h : instr.stmt = .function name params) :
    (s.opening n instr).functions =
      if s.insideFunction || s.functions.has name then s.functions else s.functions.put name n := by
  rw [opening, h]

theorem functions_opening_of_other (h : instr.stmt.isFunction = false) : (s.opening n instr).functions = s.functions := by
  obtain ⟨line, stmt, text, opens, closes⟩ := instr
  cases stmt <;> first | rfl | cases h

theorem functions_step_of_other (h : instr.stmt.isFunction = false) : (s.step n instr).functions = s.functions := by
  have hstep := stepped s n instr
  generalize s.step n instr = s' at hstep
  cases hstep with
  | unmatched hcloses hnone => rfl
  | closed hcloses hopens hsome => rfl
  | reopened hcloses hopens hsome => exact functions_opening_of_other h
  | opened hcloses hopens => exact functions_opening_of_other h
  | passed hcloses hopens => rfl

end BlockScan

theorem Stmt.eq_function {s : Stmt} (h : s.isFunction) : ∃ name params, s = .function name params := by
  cases s <;> first | exact ⟨_, _, rfl⟩ | cases h

namespace Program

open BlockScan

variable {source : Text} {p : Program} {name : Text} {n o c start stop : Nat} {instr : Instruction} {s s' : BlockScan}
  {f : Function}

/-! ### Declarations -/

/-- The block of the function header at `o`, closed or never closed, is around instruction `i`. -/
def FunctionAround (p : Program) (o i : Nat) : Prop :=
  o < i ∧ (∃ header, p.instructions[o]? = some header ∧ header.stmt.isFunction) ∧ ∀ c, p.closerOf[o]? = some c → i < c

/-- Instruction `i` is the header of a function with the given name, and no function is around it. -/
def Declares (p : Program) (name : Text) (i : Nat) : Prop :=
  (∃ header params, p.instructions[i]? = some header ∧ header.stmt = .function name params) ∧ ∀ o, ¬ p.FunctionAround o i

/-- The first such header. -/
def DeclaresFirst (p : Program) (name : Text) (i : Nat) : Prop := p.Declares name i ∧ ∀ j < i, ¬ p.Declares name j

theorem exists_declaresFirst (h : p.Declares name n) : ∃ i ≤ n, p.DeclaresFirst name i := by
  induction n using Nat.strong_induction_on with
  | _ n ih =>
    by_cases hfirst : ∃ j < n, p.Declares name j
    · obtain ⟨j, hlt, hj⟩ := hfirst
      obtain ⟨i, hle, hi⟩ := ih j hlt hj
      exact ⟨i, Nat.le_trans hle (Nat.le_of_lt hlt), hi⟩
    · exact ⟨n, Nat.le_refl n, h, fun j hlt hj => hfirst ⟨j, hlt, hj⟩⟩

theorem Indexed.flags_of_function (h : p.Indexed) (hinstr : p.instructions[n]? = some instr)
    (hfunction : instr.stmt.isFunction) : instr.opens ∧ instr.closes = false := by
  refine ⟨(h.proper hinstr).header (Stmt.isHeader_of_isFunction hfunction), Bool.eq_false_iff.mpr fun hcloses => ?_⟩
  rcases (h.proper hinstr).closing hcloses with hs | ⟨_, hs⟩ | ⟨_, hs⟩ <;> rw [hs] at hfunction <;> cases hfunction

/-- A function is open when an instruction that closes nothing is met exactly when it is around the instruction. -/
theorem insideFunction_iff (h : p.Indexed) (hs : p.Scanned) (hinstr : p.instructions[n]? = some instr)
    (hcloses : instr.closes = false) : (upTo p.instructions.toList n).insideFunction ↔ ∃ o, p.FunctionAround o n := by
  have hle : n ≤ p.instructions.toList.length := Nat.le_of_lt (Array.getElem?_eq_some_iff.mp hinstr).1
  have hopened {o : Nat} := mem_opened_upTo (o := o) hs.tidy hle
  rw [insideFunction, any_eq_true]
  constructor
  · rintro ⟨b, hb, hkind⟩
    obtain ⟨header, hheader, -, hfunction⟩ := (sound_upTo hle).opened_header b hb
    obtain ⟨hlt, -, hlater⟩ := hopened.mp ⟨b, hb, rfl⟩
    rw [Array.getElem?_toList] at hheader
    refine ⟨b.header, hlt, ⟨header, hheader, hfunction ▸ hkind⟩, fun c hc => ?_⟩
    refine Nat.lt_of_le_of_ne (hlater c (hs.closed.mp hc)) ?_
    rintro rfl
    obtain ⟨closer, hcloser, hcloses'⟩ := h.closer hc
    obtain rfl := Option.mem_unique hinstr hcloser
    rw [hcloses] at hcloses'
    cases hcloses'
  · rintro ⟨o, hlt, ⟨header, hheader, hfunction⟩, haround⟩
    have hopens := (h.flags_of_function hheader hfunction).1
    rw [← Array.getElem?_toList] at hheader
    obtain ⟨b, hb, rfl⟩ := hopened.mpr ⟨hlt, ⟨header, hheader, hopens⟩, fun c hc => Nat.le_of_lt (haround c (hs.closed.mpr hc))⟩
    obtain ⟨header', hheader', -, hkind⟩ := (sound_upTo hle).opened_header b hb
    obtain rfl := Option.mem_unique hheader hheader'
    exact ⟨b, hb, hkind ▸ hfunction⟩

/-- What the scan has registered after `n` instructions. -/
structure Registers (p : Program) (n : Nat) (s : BlockScan) : Prop where
  distinct : (s.functions.toList.map Prod.fst).Nodup
  registered {name : Text} {start : Nat} : (name, start) ∈ s.functions.toList ↔ start < n ∧ p.DeclaresFirst name start

theorem Registers.keep (h : p.Registers n s) (hsame : s'.functions = s.functions)
    (hnone : ∀ name, ¬ p.DeclaresFirst name n) : p.Registers (n + 1) s' := by
  refine ⟨hsame ▸ h.distinct, fun {name start} => ?_⟩
  rw [hsame, h.registered]
  constructor
  · rintro ⟨hlt, hfirst⟩
    exact ⟨Nat.lt_succ_of_lt hlt, hfirst⟩
  · rintro ⟨hlt, hfirst⟩
    rcases Nat.lt_succ_iff_lt_or_eq.mp hlt with hlt | rfl
    · exact ⟨hlt, hfirst⟩
    · exact absurd hfirst (hnone name)

theorem Registers.add (h : p.Registers n s) (hfirst : p.DeclaresFirst name n)
    (hadded : s'.functions.toList = s.functions.toList ++ [(name, n)]) (hnew : s.functions.has name = false)
    (honly : ∀ x, p.DeclaresFirst x n → x = name) : p.Registers (n + 1) s' := by
  constructor
  case distinct =>
    rw [hadded, map_append, nodup_append]
    refine ⟨h.distinct, by simp, fun x hx y hy => ?_⟩
    obtain rfl : y = name := by simpa using hy
    rintro rfl
    obtain ⟨⟨x, start⟩, hmem, rfl⟩ := mem_map.mp hx
    rw [OrderedMap.has_eq_true_iff.mpr ⟨start, hmem⟩] at hnew
    cases hnew
  case registered =>
    intro x start
    rw [hadded, mem_append, mem_singleton, Prod.mk.injEq, h.registered]
    constructor
    · rintro (⟨hlt, hx⟩ | ⟨rfl, rfl⟩)
      · exact ⟨Nat.lt_succ_of_lt hlt, hx⟩
      · exact ⟨Nat.lt_succ_self _, hfirst⟩
    · rintro ⟨hlt, hx⟩
      rcases Nat.lt_succ_iff_lt_or_eq.mp hlt with hlt | rfl
      · exact .inl ⟨hlt, hx⟩
      · exact .inr ⟨honly x hx, rfl⟩

theorem Registers.step {params : List Text} (hregisters : p.Registers n (upTo p.instructions.toList n)) (h : p.Indexed)
    (hs : p.Scanned) (hinstr : p.instructions[n]? = some instr) (hstmt : instr.stmt = .function name params) :
    p.Registers (n + 1) ((upTo p.instructions.toList n).step n instr) := by
  obtain ⟨hopens, hcloses⟩ := h.flags_of_function hinstr (by rw [hstmt]; rfl)
  have haround := insideFunction_iff h hs hinstr hcloses
  have honly (x : Text) (hx : p.DeclaresFirst x n) : x = name := by
    obtain ⟨⟨header, params', hheader, hstmt'⟩, -⟩ := hx.1
    obtain rfl := Option.mem_unique hinstr hheader
    rw [hstmt] at hstmt'
    exact (Stmt.function.inj hstmt').1.symm
  rw [BlockScan.step, hcloses, hopens, if_neg Bool.false_ne_true, if_pos rfl]
  generalize upTo p.instructions.toList n = s at hregisters haround
  have hfunctions := functions_opening_of_function (s := s) (n := n) hstmt
  by_cases hknown : (s.insideFunction || s.functions.has name) = true
  · rw [if_pos hknown] at hfunctions
    refine hregisters.keep hfunctions fun x hx => ?_
    obtain rfl := honly x hx
    rcases Bool.or_eq_true_iff.mp hknown with hinside | hhas
    · obtain ⟨o, ho⟩ := haround.mp hinside
      exact hx.1.2 o ho
    · obtain ⟨start, hmem⟩ := OrderedMap.has_eq_true_iff.mp hhas
      obtain ⟨hlt, hstart⟩ := hregisters.registered.mp hmem
      exact hx.2 start hlt hstart.1
  · rw [if_neg hknown] at hfunctions
    obtain ⟨houtside, hnew⟩ : s.insideFunction = false ∧ s.functions.has name = false := by simpa using hknown
    have hdeclares : p.Declares name n := by
      refine ⟨⟨instr, params, hinstr, hstmt⟩, fun o ho => ?_⟩
      rw [haround.mpr ⟨o, ho⟩] at houtside
      cases houtside
    refine hregisters.add ⟨hdeclares, fun j hlt hj => ?_⟩ (by rw [hfunctions, OrderedMap.toList_put_of_new hnew]) hnew honly
    obtain ⟨i, hle, hi⟩ := exists_declaresFirst hj
    have hmem := hregisters.registered.mpr ⟨Nat.lt_of_le_of_lt hle hlt, hi⟩
    rw [OrderedMap.has_eq_true_iff.mpr ⟨i, hmem⟩] at hnew
    cases hnew

theorem registers_blocks (h : p.Indexed) (hs : p.Scanned) : p.Registers p.size p.blocks := by
  rw [blocks, ← upTo_length, Array.length_toList]
  refine upTo_induction (P := fun n s => p.Registers n s) _ ⟨by simp [empty], by simp [empty]⟩
    (fun n instr hinstr ih => ?_) (Nat.le_of_eq Array.length_toList.symm)
  rw [Array.getElem?_toList] at hinstr
  cases hfunction : instr.stmt.isFunction with
  | false =>
    refine ih.keep (functions_step_of_other hfunction) fun name hfirst => ?_
    obtain ⟨⟨header, params, hheader, hstmt⟩, -⟩ := hfirst.1
    obtain rfl := Option.mem_unique hinstr hheader
    rw [hstmt] at hfunction
    cases hfunction
  | true =>
    obtain ⟨name, params, hstmt⟩ := Stmt.eq_function hfunction
    exact ih.step h hs hinstr hstmt

/-! ### The functions of a program -/

section Functions

variable {lines : Array Text} {instrs : Array Instruction} {closerOf : Std.TreeMap Nat Nat} {f : Function}

theorem functionAt?_eq {header closer : Instruction} {params : List Text} (hstop : closerOf[start]? = some stop)
    (hheader : instrs[start]? = some header) (hcloser : instrs[stop]? = some closer)
    (hstmt : header.stmt = .function name params) : functionAt? lines instrs closerOf name start =
      some ⟨name, params, start, stop, header.line, closer.line,
        Text.join [10] (lines.extract header.line (closer.line + 1)).toList⟩ := by
  simp only [functionAt?, hstop, hheader, Option.bind_eq_bind, Option.bind_some, hcloser, hstmt]
  rfl

theorem closed_of_functionAt? (h : functionAt? lines instrs closerOf name start = some f) :
    ∃ stop, closerOf[start]? = some stop := by
  cases hstop : closerOf[start]? with
  | some stop => exact ⟨stop, rfl⟩
  | none =>
    rw [functionAt?, hstop] at h
    cases h

end Functions

theorem nodup_filterMap {α β : Type} {entries : List (Text × α)} {g : Text × α → Option (Text × β)}
    (hg : ∀ e e', g e = some e' → e'.1 = e.1) (h : (entries.map Prod.fst).Nodup) :
    ((entries.filterMap g).map Prod.fst).Nodup := by
  rw [List.Nodup, pairwise_map] at h ⊢
  rw [pairwise_filterMap]
  refine h.imp fun hne e he e' he' => ?_
  rw [hg _ e he, hg _ e' he']
  exact hne

theorem function?_ofInstructions (lines : List Text) (instrs : List Instruction)
    (hdistinct : ((scan instrs).functions.toList.map Prod.fst).Nodup) :
    (ofInstructions lines instrs).function? name = some f ↔ ∃ start, (name, start) ∈ (scan instrs).functions.toList ∧
      functionAt? lines.toArray (ofInstructions lines instrs).instructions (ofInstructions lines instrs).closerOf name start =
        some f := by
  refine (OrderedMap.get?_ofList_iff (nodup_filterMap ?_ hdistinct)).trans ?_
  · intro e e' he
    obtain ⟨f, -, rfl⟩ := Option.map_eq_some_iff.mp he
    rfl
  · rw [mem_filterMap]
    constructor
    · rintro ⟨⟨x, start⟩, hmem, hmade⟩
      obtain ⟨f', hf', heq⟩ := Option.map_eq_some_iff.mp hmade
      obtain ⟨rfl, rfl⟩ := Prod.mk.inj heq
      exact ⟨start, hmem, hf'⟩
    · rintro ⟨start, hmem, hf⟩
      exact ⟨(name, start), hmem, Option.map_eq_some_iff.mpr ⟨f, hf, rfl⟩⟩

/-- The functions of a loaded program are made from the first declarations of their names. -/
theorem function?_eq_some_iff (h : load source = .ok p) :
    p.function? name = some f ↔ ∃ start, p.DeclaresFirst name start ∧
      functionAt? p.lines.toArray p.instructions p.closerOf name start = some f := by
  have hregisters := registers_blocks (indexed_load h) (scanned_load h)
  have hregistered {start : Nat} : (name, start) ∈ p.blocks.functions.toList ↔ p.DeclaresFirst name start := by
    refine hregisters.registered.trans ⟨fun hstart => hstart.2, fun hstart => ⟨?_, hstart⟩⟩
    obtain ⟨⟨header, params, hheader, -⟩, -⟩ := hstart.1
    exact lt_size hheader
  have hdistinct := hregisters.distinct
  obtain ⟨instrs, -, rfl⟩ := load_eq_ok h
  rw [blocks_ofInstructions] at hregistered hdistinct
  simp only [function?_ofInstructions _ instrs hdistinct, hregistered]
  rfl

/-- A name can be called exactly when the first header of a function with this name that no function is around, be it
closed or not, has a closed block. The function then has the header's parameters, runs to the end of the block, and
every block that is opened inside it is closed inside it. -/
theorem functions_are_outermost (h : load source = .ok p) (name : Text) :
    ((∃ f, p.function? name = some f) ↔ ∃ start stop, p.DeclaresFirst name start ∧ p.closerOf[start]? = some stop) ∧
    ∀ f, p.function? name = some f → p.DeclaresFirst name f.start ∧ p.closerOf[f.start]? = some f.stop ∧
      (∃ header, p.instructions[f.start]? = some header ∧ header.stmt = .function name f.params) ∧
      ∀ o header, f.start < o → o < f.stop → p.instructions[o]? = some header → header.opens →
        ∃ c, p.closerOf[o]? = some c ∧ c < f.stop := by
  have hp := indexed_load h
  have hs := scanned_load h
  have hmade {start stop : Nat} (hfirst : p.DeclaresFirst name start) (hstop : p.closerOf[start]? = some stop) :
      ∃ f header, functionAt? p.lines.toArray p.instructions p.closerOf name start = some f ∧ f.start = start ∧
        f.stop = stop ∧ p.instructions[start]? = some header ∧ header.stmt = .function name f.params := by
    obtain ⟨⟨header, params, hheader, hstmt⟩, -⟩ := hfirst.1
    obtain ⟨closer, hcloser, -⟩ := hp.closer hstop
    exact ⟨_, header, functionAt?_eq hstop hheader hcloser hstmt, rfl, rfl, hheader, hstmt⟩
  constructor
  · constructor
    · rintro ⟨f, hf⟩
      obtain ⟨start, hfirst, hat⟩ := (function?_eq_some_iff h).mp hf
      obtain ⟨stop, hstop⟩ := closed_of_functionAt? hat
      exact ⟨start, stop, hfirst, hstop⟩
    · rintro ⟨start, stop, hfirst, hstop⟩
      obtain ⟨f, -, hat, -⟩ := hmade hfirst hstop
      exact ⟨f, (function?_eq_some_iff h).mpr ⟨start, hfirst, hat⟩⟩
  · intro f hf
    obtain ⟨start, hfirst, hat⟩ := (function?_eq_some_iff h).mp hf
    obtain ⟨stop, hstop⟩ := closed_of_functionAt? hat
    obtain ⟨f', header, hat', rfl, rfl, hheader, hstmt⟩ := hmade hfirst hstop
    obtain rfl := Option.mem_unique hat hat'
    exact ⟨hfirst, hstop, ⟨header, hheader, hstmt⟩, fun o header' hlt hlt' => hs.inside hstop hlt hlt'⟩

/-- After a brace that closes nothing: a function with another one inside, a second function of its name, and one that
is never closed. -/
theorem functions_are_outermost_nested : ∃ p f,
    load "\x7d\nfunction f(a) \x7b\nfunction g() \x7b\n\x7d\n\x7d\nfunction f() \x7b\n\x7d\nfunction h() \x7b\nfunction k() \x7b\n\x7d".codes =
      .ok p ∧ p.function? "f".codes = some f ∧ p.DeclaresFirst "f".codes 1 ∧ p.closerOf[1]? = some 4 ∧
      (∃ c, p.closerOf[2]? = some c ∧ c < 4) ∧
      ∀ name ∈ ["g".codes, "h".codes, "k".codes], ∀ start stop, p.DeclaresFirst name start → p.closerOf[start]? ≠ some stop := by
  obtain ⟨p, hload, hp⟩ := eq_ok_of_any
    (r := load "\x7d\nfunction f(a) \x7b\nfunction g() \x7b\n\x7d\n\x7d\nfunction f() \x7b\n\x7d\nfunction h() \x7b\nfunction k() \x7b\n\x7d".codes)
    (P := fun p => (p.function? "f".codes).any (fun f => f.start == 1 && f.stop == 4) && p.instructions[2]?.any (·.opens) &&
      ["g".codes, "h".codes, "k".codes].all fun name => (p.function? name).isNone) (by decide +kernel)
  simp only [Bool.and_eq_true, beq_iff_eq, Option.any_eq_true, all_eq_true, Option.isNone_iff_eq_none] at hp
  obtain ⟨⟨⟨f, hf, hstart, hstop⟩, header, hheader, hopens⟩, hnone⟩ := hp
  obtain ⟨hfirst, hclosed, -, hinside⟩ := (functions_are_outermost hload _).2 f hf
  rw [hstart] at hfirst hclosed hinside
  rw [hstop] at hclosed hinside
  refine ⟨p, f, hload, hf, hfirst, hclosed, hinside 2 header (by decide) (by decide) hheader hopens, ?_⟩
  intro name hname start stop hstart hclosed
  obtain ⟨f, hf⟩ := (functions_are_outermost hload name).1.mpr ⟨start, stop, hstart, hclosed⟩
  rw [hnone name hname] at hf
  cases hf

end Program

end Stepwise
