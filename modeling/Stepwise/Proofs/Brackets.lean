import Mathlib.Data.List.Infix
import Stepwise.Proofs.Computation
import Stepwise.Proofs.Statements

/-!
# Blocks and brackets

Every instruction counts as brackets: a closing one, an opening one, or both in this order. The scan for blocks keeps a
stack, and the brackets after an open header climb by as many as there are open headers above it. So the index pairs an
opening instruction with a closing one exactly when the brackets between them are balanced.
-/

namespace Stepwise

open List

/-! ### Rows of brackets -/

/-- A bracket that opens or closes a block. -/
inductive Bracket
  | opening
  | closing
  deriving DecidableEq

namespace Bracket

variable {w v : List Bracket} {k : Nat}

/-- `k` more brackets open than close, and none closes before one is open. -/
structure Climbs (w : List Bracket) (k : Nat) : Prop where
  front : ∀ u, u <+: w → u.count closing ≤ u.count opening
  total : w.count opening = w.count closing + k

/-- As many brackets open as close, and none closes before one is open. -/
def Balanced (w : List Bracket) : Prop := Climbs w 0

theorem balanced_nil : Balanced [] where
  front u hu := by
    rw [prefix_nil.mp hu]
    exact Nat.le_refl _
  total := rfl

theorem count_concat (w : List Bracket) (b x : Bracket) : (w ++ [b]).count x = w.count x + if b = x then 1 else 0 := by
  rw [count_append, count_singleton]
  simp

theorem Climbs.concat_opening (h : Climbs w k) : Climbs (w ++ [opening]) (k + 1) := by
  have htotal := h.total
  have hopening := count_concat w opening opening
  have hclosing := count_concat w opening closing
  simp only [reduceCtorEq, if_true, if_false] at hopening hclosing
  refine ⟨fun u hu => ?_, by omega⟩
  rcases prefix_concat_iff.mp hu with rfl | hu
  · omega
  · exact h.front u hu

theorem Climbs.concat_closing (h : Climbs w (k + 1)) : Climbs (w ++ [closing]) k := by
  have htotal := h.total
  have hopening := count_concat w closing opening
  have hclosing := count_concat w closing closing
  simp only [reduceCtorEq, if_true, if_false] at hopening hclosing
  refine ⟨fun u hu => ?_, by omega⟩
  rcases prefix_concat_iff.mp hu with rfl | hu
  · omega
  · exact h.front u hu

/-- A row that climbs does not begin with a balanced row and one more bracket that closes. -/
theorem Climbs.not_front (h : Climbs v k) (hw : Balanced w) : ¬ w ++ [closing] <+: v := by
  intro hfront
  have hle := h.front _ hfront
  have htotal := hw.total
  have hopening := count_concat w closing opening
  have hclosing := count_concat w closing closing
  simp only [reduceCtorEq, if_true, if_false] at hopening hclosing
  omega

end Bracket

open Stepwise.Bracket

/-- The brackets that an instruction counts as. -/
def Instruction.brackets (instr : Instruction) : List Bracket :=
  (if instr.closes then [closing] else []) ++ if instr.opens then [opening] else []

/-- The brackets strictly between two instructions. -/
def Instruction.between (instrs : List Instruction) (o c : Nat) : List Bracket :=
  ((instrs.take c).drop (o + 1)).flatMap brackets

namespace Instruction

variable {instrs : List Instruction} {instr : Instruction} {o c n : Nat} {c' : Nat}

theorem between_self (instrs : List Instruction) (n : Nat) : between instrs n (n + 1) = [] := by
  have hdrop : (instrs.take (n + 1)).drop (n + 1) = [] := drop_eq_nil_of_le (length_take_le _ _)
  rw [between, hdrop, flatMap_nil]

theorem between_succ (hlt : o < n) (hinstr : instrs[n]? = some instr) :
    between instrs o (n + 1) = between instrs o n ++ instr.brackets := by
  have hsize : n < instrs.length := (List.getElem?_eq_some_iff.mp hinstr).1
  have htaken : (instrs.take n).length = n := length_take_of_le (Nat.le_of_lt hsize)
  rw [between, between, take_add_one, hinstr, drop_append_of_le_length (by omega), flatMap_append]
  simp

theorem between_front (hle : c ≤ c') : between instrs o c <+: between instrs o c' := by
  obtain ⟨rest, hrest⟩ := (take_prefix_take_left (l := instrs) hle).drop (o + 1)
  rw [between, between, ← hrest, flatMap_append]
  exact prefix_append _ _

theorem concat_closing_front (hlt : o < c) (hlt' : c < c') (hinstr : instrs[c]? = some instr)
    (hcloses : instr.closes) : between instrs o c ++ [closing] <+: between instrs o c' := by
  refine List.IsPrefix.trans ?_ (between_front hlt')
  rw [between_succ hlt hinstr, brackets, if_pos hcloses, ← append_assoc]
  exact prefix_append _ _

end Instruction

/-! ### The scan -/

namespace BlockScan

open Instruction

variable {instrs : List Instruction} {instr : Instruction} {n : Nat} {s : BlockScan} {i : Nat}

@[simp] theorem opened_opening (s : BlockScan) (n : Nat) (instr : Instruction) :
    (s.opening n instr).opened = ⟨n, instr.stmt.isFunction⟩ :: s.opened := by
  obtain ⟨line, stmt, text, opens, closes⟩ := instr
  cases stmt <;> rfl

@[simp] theorem closed_opening (s : BlockScan) (n : Nat) (instr : Instruction) :
    (s.opening n instr).closed = s.closed := by
  unfold opening
  split <;> rfl

@[simp] theorem unmatched_opening (s : BlockScan) (n : Nat) (instr : Instruction) :
    (s.opening n instr).unmatched = s.unmatched := by
  unfold opening
  split <;> rfl

/-- The innermost block is closed by instruction `n`. -/
def popped (s : BlockScan) (b : OpenBlock) (outer : List OpenBlock) (n : Nat) : BlockScan :=
  { s with opened := outer, closed := (b.header, n) :: s.closed }

/-- What one instruction can do to the scan. -/
inductive Stepped (s : BlockScan) (n : Nat) (instr : Instruction) : BlockScan → Prop
  | unmatched (closes : instr.closes) (none : s.opened = []) :
      Stepped s n instr { s with unmatched := n :: s.unmatched }
  | closed {b : OpenBlock} {outer : List OpenBlock} (closes : instr.closes) (opens : instr.opens = false)
      (some : s.opened = b :: outer) : Stepped s n instr (s.popped b outer n)
  | reopened {b : OpenBlock} {outer : List OpenBlock} (closes : instr.closes) (opens : instr.opens)
      (some : s.opened = b :: outer) : Stepped s n instr ((s.popped b outer n).opening n instr)
  | opened (closes : instr.closes = false) (opens : instr.opens) : Stepped s n instr (s.opening n instr)
  | passed (closes : instr.closes = false) (opens : instr.opens = false) : Stepped s n instr s

theorem stepped (s : BlockScan) (n : Nat) (instr : Instruction) : Stepped s n instr (s.step n instr) := by
  unfold step
  split
  case isTrue hcloses =>
    split
    case h_1 hnone => exact .unmatched hcloses hnone
    case h_2 b outer hsome =>
      split
      case isTrue hopens => exact .reopened hcloses hopens hsome
      case isFalse hopens => exact .closed hcloses (Bool.eq_false_iff.mpr hopens) hsome
  case isFalse hcloses =>
    split
    case isTrue hopens => exact .opened (Bool.eq_false_iff.mpr hcloses) hopens
    case isFalse hopens => exact .passed (Bool.eq_false_iff.mpr hcloses) (Bool.eq_false_iff.mpr hopens)

theorem mem_unmatched_step :
    i ∈ (s.step n instr).unmatched ↔ i ∈ s.unmatched ∨ i = n ∧ instr.closes ∧ s.opened = [] := by
  have hstep := stepped s n instr
  generalize s.step n instr = s' at hstep
  cases hstep with
  | unmatched hcloses hnone => simp [hcloses, hnone, or_comm]
  | closed hcloses hopens hsome => simp [hsome, popped]
  | reopened hcloses hopens hsome => simp [hsome, popped]
  | opened hcloses hopens => simp [hcloses]
  | passed hcloses hopens => simp [hcloses]

/-- The scan of the first `n` instructions. -/
def upTo (instrs : List Instruction) (n : Nat) : BlockScan := scanFrom 0 (instrs.take n) empty

theorem scanFrom_append (front rest : List Instruction) (i : Nat) (s : BlockScan) :
    scanFrom i (front ++ rest) s = scanFrom (i + front.length) rest (scanFrom i front s) := by
  induction front generalizing i s with
  | nil => rfl
  | cons instr front ih =>
    rw [cons_append, scanFrom, scanFrom, ih, length_cons, Nat.add_right_comm, Nat.add_assoc]

theorem upTo_succ (hinstr : instrs[n]? = some instr) : upTo instrs (n + 1) = (upTo instrs n).step n instr := by
  have hlt : n < instrs.length := (List.getElem?_eq_some_iff.mp hinstr).1
  have htaken : (instrs.take n).length = n := length_take_of_le (Nat.le_of_lt hlt)
  rw [upTo, take_add_one, hinstr, scanFrom_append, htaken, Nat.zero_add]
  rfl

theorem upTo_length (instrs : List Instruction) : upTo instrs instrs.length = scan instrs := by
  rw [upTo, take_length]
  rfl

/-- What holds at first and after each further instruction holds throughout. -/
theorem upTo_induction {P : Nat → BlockScan → Prop} (instrs : List Instruction) (hempty : P 0 .empty)
    (hstep : ∀ n instr, instrs[n]? = some instr → P n (upTo instrs n) → P (n + 1) ((upTo instrs n).step n instr))
    (hle : n ≤ instrs.length) : P n (upTo instrs n) := by
  induction n with
  | zero => exact hempty
  | succ n ih =>
    have hinstr := getElem?_eq_getElem (Nat.lt_of_succ_le hle)
    rw [upTo_succ hinstr]
    exact hstep n _ hinstr (ih (Nat.le_of_succ_le hle))

theorem sound_upTo (hle : n ≤ instrs.length) : Sound instrs n n (upTo instrs n) :=
  upTo_induction (P := fun n s => Sound instrs n n s) instrs .empty (fun _ _ hinstr h => h.step hinstr) hle

/-- A closing instruction is unmatched when it is met with no block open. -/
theorem mem_unmatched_upTo (hle : n ≤ instrs.length) : i ∈ (upTo instrs n).unmatched ↔
    i < n ∧ ∃ instr, instrs[i]? = some instr ∧ instr.closes ∧ (upTo instrs i).opened = [] := by
  refine upTo_induction (P := fun n s => i ∈ s.unmatched ↔
    i < n ∧ ∃ instr, instrs[i]? = some instr ∧ instr.closes ∧ (upTo instrs i).opened = []) instrs (by simp [empty])
    (fun n instr hinstr ih => ?_) hle
  rw [mem_unmatched_step, ih]
  constructor
  · rintro (⟨hlt, hi⟩ | ⟨rfl, hcloses, hnone⟩)
    · exact ⟨Nat.lt_succ_of_lt hlt, hi⟩
    · exact ⟨Nat.lt_succ_self i, instr, hinstr, hcloses, hnone⟩
  · rintro ⟨hlt, hi⟩
    rcases Nat.lt_succ_iff_lt_or_eq.mp hlt with hlt | rfl
    · exact .inl ⟨hlt, hi⟩
    · obtain ⟨instr', hinstr', hcloses, hnone⟩ := hi
      obtain rfl := Option.mem_unique hinstr hinstr'
      exact .inr ⟨rfl, hcloses, hnone⟩

theorem mem_unmatched : i ∈ (scan instrs).unmatched ↔
    ∃ instr, instrs[i]? = some instr ∧ instr.closes ∧ (upTo instrs i).opened = [] := by
  rw [← upTo_length, mem_unmatched_upTo (Nat.le_refl _)]
  constructor
  · exact fun h => h.2
  · rintro ⟨instr, hinstr, hi⟩
    exact ⟨(List.getElem?_eq_some_iff.mp hinstr).1, instr, hinstr, hi⟩

theorem step_unmatched (hcloses : instr.closes) (hnone : s.opened = []) :
    s.step n instr = { s with unmatched := n :: s.unmatched } := by
  rw [step, if_pos hcloses, hnone]

/-- The brackets after each open header climb by the number of headers above it. -/
def Stacked (after : Nat → List Bracket) (opened : List OpenBlock) : Prop :=
  ∀ above b below, opened = above ++ b :: below → Climbs (after b.header) above.length

variable {after after' : Nat → List Bracket} {opened : List OpenBlock} {b : OpenBlock}

theorem Stacked.push (h : Stacked after opened) (hnew : after' b.header = [])
    (hold : ∀ b ∈ opened, after' b.header = after b.header ++ [Bracket.opening]) : Stacked after' (b :: opened) := by
  intro above b' below heq
  cases above with
  | nil =>
    obtain ⟨rfl, rfl⟩ := cons.inj heq
    rw [hnew]
    exact balanced_nil
  | cons first above =>
    obtain ⟨rfl, rfl⟩ := cons.inj heq
    rw [hold b' (by simp)]
    exact (h above b' below rfl).concat_opening

theorem Stacked.pop (h : Stacked after (b :: opened))
    (hold : ∀ b ∈ opened, after' b.header = after b.header ++ [Bracket.closing]) : Stacked after' opened := by
  rintro above b' below rfl
  rw [hold b' (by simp)]
  exact (h (b :: above) b' below rfl).concat_closing

theorem Stacked.congr (h : Stacked after opened) (hold : ∀ b ∈ opened, after' b.header = after b.header) :
    Stacked after' opened := by
  rintro above b' below rfl
  rw [hold b' (by simp)]
  exact h above b' below rfl

/-- What the scan of the first `n` instructions says about brackets, given those after each open header. -/
structure Nested (instrs : List Instruction) (after : Nat → List Bracket) (n : Nat) (s : BlockScan) : Prop where
  stacked : Stacked after s.opened
  balanced : ∀ o c, (o, c) ∈ s.closed → Balanced (between instrs o c)
  /-- a header is open, or its block is closed -/
  known : ∀ i instr, i < n → instrs[i]? = some instr → instr.opens →
    (∃ b ∈ s.opened, b.header = i) ∨ ∃ c, (i, c) ∈ s.closed
  /-- a block inside a closed one is closed before it -/
  inside : ∀ o c, (o, c) ∈ s.closed → ∀ i instr, o < i → i < c → instrs[i]? = some instr → instr.opens →
    ∃ c', (i, c') ∈ s.closed ∧ c' < c

namespace Nested

variable {outer : List OpenBlock}

theorem empty : Nested instrs after 0 .empty := by
  constructor <;> simp [BlockScan.empty, Stacked]

theorem pop (h : Nested instrs (between instrs · n) n s) (hs : Sound instrs n n s) (hopened : s.opened = b :: outer) :
    Nested instrs (between instrs · n ++ [Bracket.closing]) n (s.popped b outer n) := by
  have hmem {o c : Nat} (hc : (o, c) ∈ (s.popped b outer n).closed) : o = b.header ∧ c = n ∨ (o, c) ∈ s.closed := by
    rcases mem_cons.mp hc with heq | hc
    · exact .inl (Prod.mk.inj heq)
    · exact .inr hc
  have hsorted := hs.opened_sorted
  rw [hopened, pairwise_cons] at hsorted
  constructor
  case stacked => exact (hopened ▸ h.stacked).pop fun _ _ => rfl
  case balanced =>
    intro o c hc
    rcases hmem hc with ⟨rfl, rfl⟩ | hc
    · exact h.stacked [] b outer hopened
    · exact h.balanced o c hc
  case known =>
    intro i instr hlt hinstr hopens
    rcases h.known i instr hlt hinstr hopens with ⟨b', hb', rfl⟩ | ⟨c, hc⟩
    · rcases mem_cons.mp (hopened ▸ hb') with rfl | hb'
      · exact .inr ⟨n, mem_cons_self⟩
      · exact .inl ⟨b', hb', rfl⟩
    · exact .inr ⟨c, mem_cons_of_mem _ hc⟩
  case inside =>
    intro o c hc i instr hlt hlt' hinstr hopens
    rcases hmem hc with ⟨rfl, rfl⟩ | hc
    · rcases h.known i instr hlt' hinstr hopens with ⟨b', hb', rfl⟩ | ⟨c', hc'⟩
      · -- no open header lies further inside than the innermost one
        rcases mem_cons.mp (hopened ▸ hb') with rfl | hb'
        · omega
        · have := hsorted.1 b' hb'
          omega
      · exact ⟨c', mem_cons_of_mem _ hc', (hs.closed_lt i c' hc').2.2⟩
    · obtain ⟨c', hc', hbefore⟩ := h.inside o c hc i instr hlt hlt' hinstr hopens
      exact ⟨c', mem_cons_of_mem _ hc', hbefore⟩

theorem push (h : Nested instrs after n s)
    (hold : ∀ b ∈ s.opened, between instrs b.header (n + 1) = after b.header ++ [Bracket.opening]) (instr : Instruction) :
    Nested instrs (between instrs · (n + 1)) (n + 1) (s.opening n instr) := by
  constructor
  case stacked =>
    rw [opened_opening]
    exact h.stacked.push (between_self instrs n) hold
  case balanced =>
    rw [closed_opening]
    exact h.balanced
  case known =>
    intro i instr' hlt hinstr' hopens
    rw [opened_opening, closed_opening]
    rcases Nat.lt_succ_iff_lt_or_eq.mp hlt with hlt | rfl
    · refine (h.known i instr' hlt hinstr' hopens).imp_left ?_
      rintro ⟨b', hb', rfl⟩
      exact ⟨b', mem_cons_of_mem _ hb', rfl⟩
    · exact .inl ⟨_, mem_cons_self, rfl⟩
  case inside =>
    rw [closed_opening]
    exact h.inside

theorem pass (h : Nested instrs after n s) (hold : ∀ b ∈ s.opened, between instrs b.header (n + 1) = after b.header)
    (hinstr : instrs[n]? = some instr) (hopens : instr.opens = false) :
    Nested instrs (between instrs · (n + 1)) (n + 1) s := by
  refine ⟨h.stacked.congr hold, h.balanced, fun i instr' hlt hinstr' hopens' => ?_, h.inside⟩
  rcases Nat.lt_succ_iff_lt_or_eq.mp hlt with hlt | rfl
  · exact h.known i instr' hlt hinstr' hopens'
  · obtain rfl := Option.mem_unique hinstr hinstr'
    rw [hopens] at hopens'
    cases hopens'

/-- One more instruction. A closing one without a block to close must not open one. -/
theorem step (h : Nested instrs (between instrs · n) n s) (hs : Sound instrs n n s) (hinstr : instrs[n]? = some instr)
    (hmarked : s.opened = [] → instr.closes → instr.opens = false) :
    Nested instrs (between instrs · (n + 1)) (n + 1) (s.step n instr) := by
  have hbetween (b : OpenBlock) (hb : b ∈ s.opened) :
      between instrs b.header (n + 1) = between instrs b.header n ++ instr.brackets :=
    between_succ (hs.opened_lt b hb) hinstr
  have hstep := stepped s n instr
  generalize s.step n instr = s' at hstep
  cases hstep with
  | unmatched hcloses hnone =>
    have hpassed := h.pass (by simp [hnone]) hinstr (hmarked hnone hcloses)
    exact ⟨hpassed.stacked, hpassed.balanced, hpassed.known, hpassed.inside⟩
  | @closed b outer hcloses hopens hsome =>
    refine (h.pop hs hsome).pass (fun b' hb' => ?_) hinstr hopens
    rw [hbetween b' (hsome ▸ mem_cons_of_mem b hb')]
    simp [brackets, hcloses, hopens]
  | @reopened b outer hcloses hopens hsome =>
    refine (h.pop hs hsome).push (fun b' hb' => ?_) instr
    rw [hbetween b' (hsome ▸ mem_cons_of_mem b hb')]
    simp [brackets, hcloses, hopens]
  | opened hcloses hopens =>
    refine h.push (fun b' hb' => ?_) instr
    rw [hbetween b' hb']
    simp [brackets, hcloses, hopens]
  | passed hcloses hopens =>
    refine h.pass (fun b' hb' => ?_) hinstr hopens
    rw [hbetween b' hb']
    simp [brackets, hcloses, hopens]

end Nested

/-- No closing instruction without a block to close opens one. -/
def Tidy (instrs : List Instruction) : Prop :=
  ∀ i instr, instrs[i]? = some instr → i ∈ (scan instrs).unmatched → instr.opens = false

theorem nested_upTo (htidy : Tidy instrs) (hle : n ≤ instrs.length) :
    Nested instrs (between instrs · n) n (upTo instrs n) := by
  refine upTo_induction (P := fun n s => Nested instrs (between instrs · n) n s) instrs .empty
    (fun n instr hinstr ih => ?_) hle
  have hlt : n < instrs.length := (List.getElem?_eq_some_iff.mp hinstr).1
  refine ih.step (sound_upTo (Nat.le_of_lt hlt)) hinstr fun hnone hcloses => ?_
  exact htidy n instr hinstr (mem_unmatched.mpr ⟨instr, hinstr, hcloses, hnone⟩)

theorem nested_scan (htidy : Tidy instrs) :
    Nested instrs (between instrs · instrs.length) instrs.length (scan instrs) :=
  upTo_length instrs ▸ nested_upTo htidy (Nat.le_refl _)

theorem mem_closed_iff (htidy : Tidy instrs) {o c : Nat} : (o, c) ∈ (scan instrs).closed ↔
    o < c ∧ (∃ header, instrs[o]? = some header ∧ header.opens) ∧ (∃ closer, instrs[c]? = some closer ∧ closer.closes) ∧
      Balanced (between instrs o c) := by
  have hsound := scan_sound instrs
  have hnested := nested_scan htidy
  constructor
  · intro hc
    exact ⟨(hsound.closed_lt o c hc).1, hsound.closed_header o c hc, hsound.closed_closer o c hc, hnested.balanced o c hc⟩
  · rintro ⟨hlt, ⟨header, hheader, hopens⟩, ⟨closer, hcloser, hcloses⟩, hbalanced⟩
    have hsize : c < instrs.length := (List.getElem?_eq_some_iff.mp hcloser).1
    rcases hnested.known o header (by omega) hheader hopens with ⟨b, hb, rfl⟩ | ⟨c', hc'⟩
    · -- a header that is still open at the end is not closed by any bracket
      obtain ⟨above, below, hopened⟩ := append_of_mem hb
      have hclimbs := hnested.stacked above b below hopened
      exact absurd (concat_closing_front hlt hsize hcloser hcloses) (hclimbs.not_front hbalanced)
    · obtain ⟨closer', hcloser', hcloses'⟩ := hsound.closed_closer o c' hc'
      have hlt' := (hsound.closed_lt o c' hc').1
      rcases Nat.lt_trichotomy c c' with hbefore | rfl | hafter
      · have hfront := concat_closing_front hlt hbefore hcloser hcloses
        exact absurd hfront ((hnested.balanced o c' hc').not_front hbalanced)
      · exact hc'
      · have hfront := concat_closing_front hlt' hafter hcloser' hcloses'
        exact absurd hfront (hbalanced.not_front (hnested.balanced o c' hc'))

/-! ### Instructions after marking -/

/-- The instructions of a program, with those marked that close nothing. -/
abbrev marked (instrs : List Instruction) : List Instruction :=
  Program.markUnmatched instrs (.ofList (scan instrs).unmatched)

theorem getElem?_marked (instrs : List Instruction) (i : Nat) : (marked instrs)[i]? = if i ∈ (scan instrs).unmatched then
      instrs[i]?.map fun instr => { instr with stmt := .invalid (.misplaced "\x7d".codes), opens := false, closes := true }
    else instrs[i]? := by
  rw [marked, Program.markUnmatched, getElem?_mapIdx]
  by_cases hi : i ∈ (scan instrs).unmatched
  · simp [hi]
  · simp [hi]

theorem upTo_marked (hle : n ≤ instrs.length) : BlockScan.upTo (marked instrs) n = BlockScan.upTo instrs n := by
  induction n with
  | zero => rfl
  | succ n ih =>
    have hinstr := getElem?_eq_getElem (Nat.lt_of_succ_le hle)
    have ih := ih (Nat.le_of_succ_le hle)
    have hat := getElem?_marked instrs n
    rw [hinstr] at hat
    by_cases hn : n ∈ (scan instrs).unmatched
    · rw [if_pos hn, Option.map_some] at hat
      obtain ⟨instr, hinstr', hcloses, hnone⟩ := mem_unmatched.mp hn
      rw [upTo_succ hat, upTo_succ hinstr', ih, step_unmatched rfl hnone, step_unmatched hcloses hnone]
    · rw [if_neg hn] at hat
      rw [upTo_succ hat, upTo_succ hinstr, ih]

theorem scan_marked (instrs : List Instruction) : scan (marked instrs) = scan instrs := by
  have hlength : (marked instrs).length = instrs.length := by simp [marked, Program.markUnmatched]
  rw [← upTo_length, ← upTo_length, hlength]
  exact upTo_marked (Nat.le_refl _)

theorem tidy_marked (instrs : List Instruction) : Tidy (marked instrs) := by
  intro i instr hinstr hi
  rw [scan_marked] at hi
  rw [getElem?_marked, if_pos hi] at hinstr
  obtain ⟨instr', -, rfl⟩ := Option.map_eq_some_iff.mp hinstr
  rfl

end BlockScan

/-! ### Programs -/

namespace Program

open BlockScan Instruction

variable {source : Text} {p : Program} {i o c : Nat} {instr : Instruction}

/-- The scan that the index of a program is made from. -/
def blocks (p : Program) : BlockScan := scan p.instructions.toList

/-- A program knows its blocks from the scan of its instructions. -/
structure Scanned (p : Program) : Prop where
  tidy : Tidy p.instructions.toList
  closed {o c : Nat} : p.closerOf[o]? = some c ↔ (o, c) ∈ p.blocks.closed
  stray {i : Nat} {instr : Instruction} : p.instructions[i]? = some instr → i ∈ p.blocks.unmatched →
    instr.stmt = .invalid (.misplaced "\x7d".codes)

theorem blocks_ofInstructions (lines : List Text) (instrs : List Instruction) :
    (ofInstructions lines instrs).blocks = scan instrs := scan_marked instrs

theorem scanned_ofInstructions (lines : List Text) (instrs : List Instruction) :
    (ofInstructions lines instrs).Scanned := by
  constructor
  case tidy => exact tidy_marked instrs
  case closed =>
    intro o c
    rw [blocks_ofInstructions]
    exact closerOf_iff lines instrs
  case stray =>
    intro i instr hinstr hi
    rw [blocks_ofInstructions] at hi
    rw [← Array.getElem?_toList] at hinstr
    change (marked instrs)[i]? = some instr at hinstr
    rw [getElem?_marked, if_pos hi] at hinstr
    obtain ⟨instr', -, rfl⟩ := Option.map_eq_some_iff.mp hinstr
    rfl

theorem scanned_load (h : load source = .ok p) : p.Scanned := by
  obtain ⟨instrs, -, rfl⟩ := load_eq_ok h
  exact scanned_ofInstructions _ instrs

theorem Scanned.inside (h : p.Scanned) (hblock : p.closerOf[o]? = some c) (hlt : o < i) (hlt' : i < c)
    (hinstr : p.instructions[i]? = some instr) (hopens : instr.opens) : ∃ c', p.closerOf[i]? = some c' ∧ c' < c := by
  rw [← Array.getElem?_toList] at hinstr
  obtain ⟨c', hc', hbefore⟩ := (nested_scan h.tidy).inside o c (h.closed.mp hblock) i instr hlt hlt' hinstr hopens
  exact ⟨c', h.closed.mpr hc', hbefore⟩

/-- What closes no block has become an error that opens none. -/
theorem Scanned.stray_of_unmatched (h : p.Scanned) (hindexed : p.Indexed) (hinstr : p.instructions[i]? = some instr)
    (hcloses : instr.closes) (hnone : p.openerOf[i]? = none) :
    instr.stmt = .invalid (.misplaced "\x7d".codes) ∧ instr.opens = false := by
  have hat : p.instructions.toList[i]? = some instr := by rw [Array.getElem?_toList, hinstr]
  have hi : i ∈ p.blocks.unmatched := by
    refine (closes_scan hat hcloses).resolve_right ?_
    rintro ⟨o, ho⟩
    rw [hindexed.opener_iff.mpr (h.closed.mpr ho)] at hnone
    cases hnone
  exact ⟨h.stray hinstr hi, h.tidy i instr hat hi⟩

/-- The index of blocks is bracket matching: a header is paired with a closing instruction exactly when the brackets
between them are balanced. The index is the same in both directions, blocks are nested or apart, where one may close
with the instruction that opens the next, and a closing instruction without a header is an error that opens nothing. -/
theorem blocks_match_brackets (h : load source = .ok p) :
    (∀ o c : Nat, p.closerOf[o]? = some c ↔ o < c ∧ (∃ header, p.instructions[o]? = some header ∧ header.opens) ∧
      (∃ closer, p.instructions[c]? = some closer ∧ closer.closes) ∧ Balanced (between p.instructions.toList o c)) ∧
    (∀ o c : Nat, p.openerOf[c]? = some o ↔ p.closerOf[o]? = some c) ∧
    (∀ o c o' c' : Nat, p.closerOf[o]? = some c → p.closerOf[o']? = some c' → o < o' → c ≤ o' ∨ c' < c) ∧
    ∀ (i : Nat) (instr : Instruction), p.instructions[i]? = some instr → instr.closes → p.openerOf[i]? = none →
      instr.stmt = .invalid (.misplaced "\x7d".codes) ∧ instr.opens = false := by
  have hscanned := scanned_load h
  have hindexed := indexed_load h
  refine ⟨fun o c => ?_, fun o c => hindexed.opener_iff, fun o c o' c' => hindexed.laminar,
    fun i instr => hscanned.stray_of_unmatched hindexed⟩
  simp only [hscanned.closed, ← Array.getElem?_toList]
  exact mem_closed_iff hscanned.tidy

/-- A clause without a conditional, a clause that closes one block and opens another, and a header that is never closed. -/
theorem blocks_match_brackets_clauses : ∃ p : Program,
    load "\x7d else \x7b\nif (a) \x7b\n\x7d else \x7b\nwhile (b) \x7b\n\x7d\n\x7d\nfunction f() \x7b".codes = .ok p ∧
      p.closerOf[1]? = some 2 ∧ p.closerOf[2]? = some 5 ∧ p.closerOf[6]? = none ∧
      Balanced (between p.instructions.toList 2 5) ∧
      ∃ instr, p.instructions[0]? = some instr ∧ instr.closes ∧ instr.stmt = .invalid (.misplaced "\x7d".codes) ∧
        instr.opens = false := by
  obtain ⟨p, hload, hp⟩ := eq_ok_of_any
    (r := load "\x7d else \x7b\nif (a) \x7b\n\x7d else \x7b\nwhile (b) \x7b\n\x7d\n\x7d\nfunction f() \x7b".codes)
    (P := fun p => p.closerOf[1]? == some 2 && p.closerOf[2]? == some 5 && p.closerOf[6]?.isNone &&
      p.openerOf[0]?.isNone && p.instructions[0]?.any (·.closes)) (by decide +kernel)
  simp only [Bool.and_eq_true, beq_iff_eq, Option.isNone_iff_eq_none, Option.any_eq_true] at hp
  obtain ⟨⟨⟨⟨hfirst, hsecond⟩, hunclosed⟩, hnone⟩, instr, hinstr, hcloses⟩ := hp
  obtain ⟨hiff, -, -, hstray⟩ := blocks_match_brackets hload
  exact ⟨p, hload, hfirst, hsecond, hunclosed, ((hiff 2 5).mp hsecond).2.2.2, instr, hinstr, hcloses,
    hstray 0 instr hinstr hcloses hnone⟩

end Program

end Stepwise
