import Stepwise.Program.Blocks

/-!
# What the scan for blocks has found

The open blocks form a stack whose headers grow inward; the closed ones are nested or apart, and no open header lies
inside a closed block. A function is registered only when its header is not inside another function.
-/

namespace Stepwise

open List

namespace BlockScan

variable {instrs : List Instruction} {instr : Instruction} {n k : Nat} {s : BlockScan} {b : OpenBlock}

/-- What holds of a scan whose headers are below `n` and whose closing instructions are below `k`. -/
structure Sound (instrs : List Instruction) (n k : Nat) (s : BlockScan) : Prop where
  opened_sorted : s.opened.Pairwise fun b b' => b'.header < b.header
  opened_lt : ∀ b ∈ s.opened, b.header < n
  opened_header : ∀ b ∈ s.opened, ∃ instr, instrs[b.header]? = some instr ∧ instr.opens ∧
    b.isFunction = instr.stmt.isFunction
  closed_lt : ∀ o c, (o, c) ∈ s.closed → o < c ∧ o < n ∧ c < k
  closed_header : ∀ o c, (o, c) ∈ s.closed → ∃ instr, instrs[o]? = some instr ∧ instr.opens
  closed_closer : ∀ o c, (o, c) ∈ s.closed → ∃ instr, instrs[c]? = some instr ∧ instr.closes
  closers_sorted : s.closed.Pairwise fun b b' => b'.2 < b.2
  headers_distinct : s.closed.Pairwise fun b b' => b.1 ≠ b'.1
  /-- no open header lies inside a closed block -/
  apart : ∀ o c, (o, c) ∈ s.closed → ∀ b ∈ s.opened, b.header < o ∨ c ≤ b.header
  laminar : ∀ o c o' c', (o, c) ∈ s.closed → (o', c') ∈ s.closed → o < o' → c ≤ o' ∨ c' < c
  unmatched_lt : ∀ i ∈ s.unmatched, i < n
  unmatched_opened : ∀ i ∈ s.unmatched, ∀ b ∈ s.opened, b.header ≠ i
  unmatched_closed : ∀ i ∈ s.unmatched, ∀ o c, (o, c) ∈ s.closed → o ≠ i ∧ c ≠ i
  registered_lt : ∀ name start, (name, start) ∈ s.functions.toList → start < n
  registered_header : ∀ name start, (name, start) ∈ s.functions.toList → start ∉ s.unmatched ∧
    ∃ instr params, instrs[start]? = some instr ∧ instr.stmt = .function name params
  /-- no function is around a registered one -/
  registered_opened : ∀ name start, (name, start) ∈ s.functions.toList → ∀ b ∈ s.opened, b.header < start →
    b.isFunction = false
  registered_closed : ∀ name start, (name, start) ∈ s.functions.toList → ∀ o c, (o, c) ∈ s.closed → o < start →
    start < c → ∀ instr, instrs[o]? = some instr → instr.stmt.isFunction = false

namespace Sound

theorem empty : Sound instrs 0 0 .empty := by
  constructor <;> simp [BlockScan.empty]

theorem mono (h : Sound instrs n k s) {n' k' : Nat} (hn : n ≤ n') (hk : k ≤ k') : Sound instrs n' k' s :=
  { h with
    opened_lt := fun b hb => Nat.lt_of_lt_of_le (h.opened_lt b hb) hn
    closed_lt := fun o c hc => by have := h.closed_lt o c hc; omega
    unmatched_lt := fun i hi => Nat.lt_of_lt_of_le (h.unmatched_lt i hi) hn
    registered_lt := fun name start hs => Nat.lt_of_lt_of_le (h.registered_lt name start hs) hn }

theorem unmatch (h : Sound instrs n n s) (hopened : s.opened = []) :
    Sound instrs (n + 1) (n + 1) { s with unmatched := n :: s.unmatched } := by
  have h' := h.mono (Nat.le_succ n) (Nat.le_succ n)
  refine { h' with unmatched_lt := ?_, unmatched_opened := ?_, unmatched_closed := ?_, registered_header := ?_ }
  · intro i hi
    rcases mem_cons.mp hi with rfl | hi
    · omega
    · exact h'.unmatched_lt i hi
  · simp [hopened]
  · intro i hi o c hc
    rcases mem_cons.mp hi with rfl | hi
    · have := h.closed_lt o c hc
      omega
    · exact h.unmatched_closed i hi o c hc
  · intro name start hs
    have hlt := h.registered_lt name start hs
    obtain ⟨hnot, hheader⟩ := h.registered_header name start hs
    refine ⟨?_, hheader⟩
    simp only [mem_cons, not_or]
    exact ⟨by omega, hnot⟩

theorem pop {outer : List OpenBlock} (h : Sound instrs n n s) (hopened : s.opened = b :: outer)
    (hinstr : instrs[n]? = some instr) (hcloses : instr.closes) :
    Sound instrs n (n + 1) { s with opened := outer, closed := (b.header, n) :: s.closed } := by
  have hb : b ∈ s.opened := by simp [hopened]
  have houter {b' : OpenBlock} (h' : b' ∈ outer) : b' ∈ s.opened := by simp [hopened, h']
  have hsorted := h.opened_sorted
  rw [hopened, pairwise_cons] at hsorted
  have hblt := h.opened_lt b hb
  have hmem {o c : Nat} (hc : (o, c) ∈ (b.header, n) :: s.closed) : (o = b.header ∧ c = n) ∨ (o, c) ∈ s.closed := by
    simpa using hc
  have h' := h.mono (Nat.le_refl n) (Nat.le_succ n)
  constructor
  case opened_sorted => exact hsorted.2
  case opened_lt => exact fun b' hb' => h.opened_lt b' (houter hb')
  case opened_header => exact fun b' hb' => h.opened_header b' (houter hb')
  case closed_lt =>
    intro o c hc
    rcases hmem hc with ⟨rfl, rfl⟩ | hc
    · omega
    · exact h'.closed_lt o c hc
  case closed_header =>
    intro o c hc
    rcases hmem hc with ⟨rfl, rfl⟩ | hc
    · obtain ⟨header, hheader, hopens, -⟩ := h.opened_header b hb
      exact ⟨header, hheader, hopens⟩
    · exact h.closed_header o c hc
  case closed_closer =>
    intro o c hc
    rcases hmem hc with ⟨rfl, rfl⟩ | hc
    · exact ⟨instr, hinstr, hcloses⟩
    · exact h.closed_closer o c hc
  case closers_sorted =>
    refine pairwise_cons.mpr ⟨?_, h.closers_sorted⟩
    rintro ⟨o, c⟩ hc
    exact (h.closed_lt o c hc).2.2
  case headers_distinct =>
    refine pairwise_cons.mpr ⟨?_, h.headers_distinct⟩
    rintro ⟨o, c⟩ hc heq
    have := h.apart o c hc b hb
    have := h.closed_lt o c hc
    simp only at heq
    omega
  case apart =>
    intro o c hc b' hb'
    rcases hmem hc with ⟨rfl, rfl⟩ | hc
    · exact .inl (hsorted.1 b' hb')
    · exact h.apart o c hc b' (houter hb')
  case laminar =>
    intro o c o' c' hc hc' hlt
    rcases hmem hc with ⟨rfl, rfl⟩ | hold <;> rcases hmem hc' with ⟨rfl, rfl⟩ | hold'
    · omega
    · exact .inr (h.closed_lt o' c' hold').2.2
    · rcases h.apart o c hold b hb with hapart | hapart
      · omega
      · exact .inl hapart
    · exact h.laminar o c o' c' hold hold' hlt
  case unmatched_lt => exact h.unmatched_lt
  case unmatched_opened => exact fun i hi b' hb' => h.unmatched_opened i hi b' (houter hb')
  case unmatched_closed =>
    intro i hi o c hc
    rcases hmem hc with ⟨rfl, rfl⟩ | hc
    · have := h.unmatched_lt i hi
      exact ⟨h.unmatched_opened i hi b hb, by omega⟩
    · exact h.unmatched_closed i hi o c hc
  case registered_lt => exact h.registered_lt
  case registered_header => exact h.registered_header
  case registered_opened => exact fun name start hs b' hb' => h.registered_opened name start hs b' (houter hb')
  case registered_closed =>
    intro name start hs o c hc hlt hlt' header hheader
    rcases hmem hc with ⟨rfl, rfl⟩ | hc
    · obtain ⟨header', hheader', -, hkind⟩ := h.opened_header b hb
      obtain rfl : header' = header := by simpa [hheader] using hheader'.symm
      rw [← hkind]
      exact h.registered_opened name start hs b hb hlt
    · exact h.registered_closed name start hs o c hc hlt hlt' header hheader

theorem push (h : Sound instrs n k s) (hk : k ≤ n + 1) (hinstr : instrs[n]? = some instr) (hopens : instr.opens) :
    Sound instrs (n + 1) (n + 1) { s with opened := ⟨n, instr.stmt.isFunction⟩ :: s.opened } := by
  have h' := h.mono (Nat.le_succ n) hk
  have hmem {b : OpenBlock} (hb : b ∈ ⟨n, instr.stmt.isFunction⟩ :: s.opened) :
      b = ⟨n, instr.stmt.isFunction⟩ ∨ b ∈ s.opened := by simpa using hb
  refine { h' with
    opened_sorted := pairwise_cons.mpr ⟨h.opened_lt, h.opened_sorted⟩
    opened_lt := ?_, opened_header := ?_, apart := ?_, unmatched_opened := ?_, registered_opened := ?_ }
  · intro b hb
    rcases hmem hb with rfl | hb
    · simp
    · exact h'.opened_lt b hb
  · intro b hb
    rcases hmem hb with rfl | hb
    · exact ⟨instr, hinstr, hopens, rfl⟩
    · exact h.opened_header b hb
  · intro o c hc b hb
    rcases hmem hb with rfl | hb
    · have := h.closed_lt o c hc
      simp only
      omega
    · exact h.apart o c hc b hb
  · intro i hi b hb
    rcases hmem hb with rfl | hb
    · have := h.unmatched_lt i hi
      simp only
      omega
    · exact h.unmatched_opened i hi b hb
  · intro name start hs b hb hlt
    rcases hmem hb with rfl | hb
    · have := h.registered_lt name start hs
      simp only at hlt
      omega
    · exact h.registered_opened name start hs b hb hlt

/-- A function is registered by the header that is opened next, unless it is inside another function. -/
theorem register (h : Sound instrs n k s) (hk : k ≤ n + 1) (hinstr : instrs[n]? = some instr) (hopens : instr.opens)
    {name : Text} {params : List Text} (hstmt : instr.stmt = .function name params)
    (houtside : s.insideFunction = false) :
    Sound instrs (n + 1) (n + 1)
      { s with opened := ⟨n, instr.stmt.isFunction⟩ :: s.opened, functions := s.functions.put name n } := by
  have h' := h.push hk hinstr hopens
  have hmem {x : Text} {start : Nat} (hs : (x, start) ∈ (s.functions.put name n).toList) :
      (x = name ∧ start = n) ∨ (x, start) ∈ s.functions.toList := by
    rw [OrderedMap.toList_put] at hs
    simpa using Assoc.mem_put hs
  refine { h' with
    registered_lt := ?_, registered_header := ?_, registered_opened := ?_, registered_closed := ?_ }
  · intro x start hs
    rcases hmem hs with ⟨rfl, rfl⟩ | hs
    · omega
    · exact h'.registered_lt x start hs
  · intro x start hs
    rcases hmem hs with ⟨rfl, rfl⟩ | hs
    · refine ⟨fun hi => ?_, instr, params, hinstr, hstmt⟩
      have := h.unmatched_lt start hi
      omega
    · exact h.registered_header x start hs
  · intro x start hs b hb hlt
    rcases hmem hs with ⟨rfl, rfl⟩ | hs
    · have hopened : b ∈ s.opened := by
        rcases mem_cons.mp hb with rfl | hb
        · simp at hlt
        · exact hb
      simpa [insideFunction] using any_eq_false.mp houtside b hopened
    · exact h'.registered_opened x start hs b hb hlt
  · intro x start hs o c hc hlt hlt'
    rcases hmem hs with ⟨rfl, rfl⟩ | hs
    · have := h.closed_lt o c hc
      omega
    · exact h.registered_closed x start hs o c hc hlt hlt'

theorem opening (h : Sound instrs n k s) (hk : k ≤ n + 1) (hinstr : instrs[n]? = some instr) (hopens : instr.opens) :
    Sound instrs (n + 1) (n + 1) (s.opening n instr) := by
  have hpushed := h.push hk hinstr hopens
  unfold BlockScan.opening
  split
  case h_1 name params hstmt =>
    have hkind : instr.stmt.isFunction = true := by rw [hstmt]; rfl
    rw [hkind] at hpushed
    by_cases hknown : (s.insideFunction || s.functions.has name) = true
    · simpa only [hknown, if_true] using hpushed
    · have houtside : s.insideFunction = false := by simp_all
      have hregistered := h.register hk hinstr hopens hstmt houtside
      rw [hkind] at hregistered
      simpa only [hknown, Bool.false_eq_true, if_false] using hregistered
  case h_2 hstmt =>
    have hkind : instr.stmt.isFunction = false := by
      unfold Stmt.isFunction
      split
      · exact absurd ‹_› (hstmt _ _)
      · rfl
    rwa [hkind] at hpushed

theorem step (h : Sound instrs n n s) (hinstr : instrs[n]? = some instr) :
    Sound instrs (n + 1) (n + 1) (s.step n instr) := by
  unfold BlockScan.step
  split
  case isTrue hcloses =>
    split
    case h_1 hopened => exact h.unmatch hopened
    case h_2 b outer hopened =>
      have hpopped := h.pop hopened hinstr hcloses
      dsimp only
      split
      case isTrue hopens => exact hpopped.opening (Nat.le_refl _) hinstr hopens
      case isFalse => exact hpopped.mono (Nat.le_succ n) (Nat.le_refl _)
  case isFalse =>
    split
    case isTrue hopens => exact h.opening (Nat.le_succ n) hinstr hopens
    case isFalse => exact h.mono (Nat.le_succ n) (Nat.le_succ n)

theorem scanFrom (rest : List Instruction) (h : Sound instrs n n s) (hrest : instrs.drop n = rest) :
    Sound instrs (n + rest.length) (n + rest.length) (s.scanFrom n rest) := by
  induction rest generalizing n s with
  | nil => exact h
  | cons instr rest ih =>
    have hinstr : instrs[n]? = some instr := by
      have := congrArg head? hrest
      simpa [head?_drop] using this
    have hdrop : instrs.drop (n + 1) = rest := by
      rw [← drop_drop, hrest]
      simp
    have hall := ih (h.step hinstr) hdrop
    rw [length_cons, Nat.add_comm rest.length 1, ← Nat.add_assoc]
    exact hall

end Sound

theorem scan_sound (instrs : List Instruction) : Sound instrs instrs.length instrs.length (scan instrs) := by
  have hall := Sound.empty.scanFrom instrs (by simp : instrs.drop 0 = instrs)
  rwa [Nat.zero_add] at hall

/-! ### Closing instructions -/

/-- Instruction `i` has closed a block or found none to close. -/
def Closes (s : BlockScan) (i : Nat) : Prop := i ∈ s.unmatched ∨ ∃ o, (o, i) ∈ s.closed

variable {i : Nat}

theorem closes_opening : (s.opening n instr).Closes i ↔ s.Closes i := by
  unfold opening Closes
  split <;> rfl

theorem Closes.step (h : s.Closes i) : (s.step n instr).Closes i := by
  unfold BlockScan.step
  split
  · split
    · exact h.imp_left (mem_cons_of_mem _)
    · have hpopped {outer : List OpenBlock} {b : OpenBlock} :
          Closes { s with opened := outer, closed := (b.header, n) :: s.closed } i :=
        h.imp_right fun ⟨o, ho⟩ => ⟨o, mem_cons_of_mem _ ho⟩
      dsimp only
      split
      · exact closes_opening.mpr hpopped
      · exact hpopped
  · split
    · exact closes_opening.mpr h
    · exact h

theorem closes_step (hcloses : instr.closes) : (s.step n instr).Closes n := by
  unfold BlockScan.step
  rw [if_pos hcloses]
  split
  · exact .inl mem_cons_self
  · have hpopped {outer : List OpenBlock} {b : OpenBlock} :
        Closes { s with opened := outer, closed := (b.header, n) :: s.closed } n := .inr ⟨b.header, mem_cons_self⟩
    dsimp only
    split
    · exact closes_opening.mpr hpopped
    · exact hpopped

theorem Closes.scanFrom (h : s.Closes i) (rest : List Instruction) : (BlockScan.scanFrom n rest s).Closes i := by
  induction rest generalizing n s with
  | nil => exact h
  | cons instr rest ih => exact ih h.step

theorem closes_scanFrom (rest : List Instruction) (hinstr : rest[i]? = some instr) (hcloses : instr.closes) :
    (BlockScan.scanFrom n rest s).Closes (n + i) := by
  induction rest generalizing n s i with
  | nil => simp at hinstr
  | cons first rest ih =>
    cases i with
    | zero =>
      obtain rfl : first = instr := by simpa using hinstr
      exact (closes_step hcloses).scanFrom rest
    | succ i =>
      have hrest := ih (n := n + 1) (s := s.step n first) (by simpa using hinstr)
      rwa [Nat.add_right_comm] at hrest

theorem closes_scan (hinstr : instrs[i]? = some instr) (hcloses : instr.closes) : (scan instrs).Closes i := by
  have hall := closes_scanFrom (n := 0) (s := empty) instrs hinstr hcloses
  rwa [Nat.zero_add] at hall

end BlockScan

end Stepwise
