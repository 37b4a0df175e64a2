import Mathlib.Logic.Relation
import Stepwise.Proofs.Move

/-!
# How frames are nested

The frames of an activation stand for blocks inside each other, and control is inside the innermost of them.
`Move.placed` says that this is kept by everything that an instruction can do. `Move.enters` says how control gets into
a block: through its header, unless the header also closes a block, which a jump ahead can pass over.
-/

namespace Stepwise

variable {s : Stmt}

theorem Stmt.eq_noop {s : Stmt} (h : s.isNoop) : s = .noop := by
  cases s <;> first | rfl | cases h

namespace Program

variable {p : Program} {lo hi o c i j k last : Nat} {instr : Instruction} {e : Nat}

/-! ### Regions -/

/-- A stretch of instructions that no block leaves. Control may stand at `hi`, which is past the end of the program or
closes the block around the region. -/
structure Region (p : Program) (lo hi : Nat) : Prop where
  bounded : hi ≤ p.size
  closed {o c : Nat} : p.closerOf[o]? = some c → lo ≤ o → o < hi → c < hi
  closing {instr : Instruction} : p.instructions[hi]? = some instr → instr.closes

theorem Indexed.region_all (h : p.Indexed) : p.Region 0 p.size where
  bounded := Nat.le_refl _
  closed hblock _ _ := (h.block_lt hblock).2
  closing hinstr := by
    have := (Array.getElem?_eq_some_iff.mp hinstr).1
    exact absurd this (Nat.lt_irrefl _)

theorem Indexed.region_block (h : p.Indexed) (hblock : p.closerOf[o]? = some c) : p.Region (o + 1) c where
  bounded := Nat.le_of_lt (h.block_lt hblock).2
  closed {o' c'} hblock' hle hlt := by
    rcases h.laminar hblock hblock' hle with hout | hin
    · omega
    · exact hin
  closing {instr} hinstr := by
    obtain ⟨instr', hinstr', hcloses⟩ := h.closer hblock
    rw [hinstr] at hinstr'
    exact Option.some.inj hinstr' ▸ hcloses

theorem Indexed.noop_flags (h : p.Indexed) (hinstr : p.instructions[i]? = some instr) (hnoop : instr.stmt.isNoop) :
    instr.opens = false ∧ instr.closes = false := by
  have hstmt := Stmt.eq_noop hnoop
  refine ⟨(h.proper hinstr).noop hstmt, Bool.eq_false_iff.mpr fun hcloses => ?_⟩
  rcases (h.proper hinstr).closing hcloses with hs | ⟨_, hs⟩ | ⟨_, hs⟩ <;> rw [hstmt] at hs <;> cases hs

theorem Follows.le (h : p.Follows c j) : c ≤ j := by
  cases h with
  | here => exact Nat.le_refl _
  | after _ _ hlt _ => exact Nat.le_of_lt hlt

theorem Follows.otherwise (h : p.Follows c j) (hinstr : p.instructions[j]? = some instr) : instr.stmt.isOtherwise := by
  cases h with
  | here hfound hkind =>
    rw [hinstr] at hfound
    exact Option.some.inj hfound ▸ hkind
  | after hfound hkind _ _ =>
    rw [hinstr] at hfound
    rw [Option.some.inj hfound, hkind]
    rfl

theorem Region.clause (hr : p.Region lo hi) (h : p.Indexed) (hnext : p.nextClause[o]? = some j) (hlo : lo ≤ o)
    (hhi : o < hi) : j < hi := by
  obtain ⟨c, hblock, hfollows, -⟩ := h.clause hnext
  have hc := hr.closed hblock hlo hhi
  cases hfollows with
  | here => exact hc
  | @after j instr test hfound hkind hlt hbetween =>
    -- the end of the region closes a block, which neither the clause nor a no-op before it does
    refine Nat.lt_of_not_le fun hge => ?_
    rcases Nat.eq_or_lt_of_le hge with rfl | hlt'
    · have hcloses := hr.closing hfound
      rw [(h.proper hfound).otherwise hkind] at hcloses
      cases hcloses
    · obtain ⟨mid, hmid, hnoop⟩ := hbetween hi hc hlt'
      have hcloses := hr.closing hmid
      rw [(h.noop_flags hmid hnoop).2] at hcloses
      cases hcloses

theorem Indexed.lt_nextClause (h : p.Indexed) (hnext : p.nextClause[o]? = some j) : o < j := by
  obtain ⟨c, hblock, hfollows, -⟩ := h.clause hnext
  have := (h.block_lt hblock).1
  have := hfollows.le
  omega

/-- A block around the end of another one begins before it. -/
theorem Indexed.lt_of_around (h : p.Indexed) {b : Nat} (hb : p.closerOf[b]? = some e) (hblock : p.closerOf[o]? = some c)
    (hlt : o < e) (hlt' : e < c) : o < b := by
  rcases Nat.lt_trichotomy o b with hob | rfl | hbo
  · exact hob
  · rw [hb] at hblock
    have := Option.some.inj hblock
    omega
  · rcases h.laminar hb hblock hbo with hout | hin
    · omega
    · omega

theorem Indexed.nextClause_lt (h : p.Indexed) (hnext : p.nextClause[o]? = some j) :
    ∃ instr, p.instructions[j]? = some instr ∧ instr.stmt.isOtherwise := by
  obtain ⟨c, -, hfollows, -⟩ := h.clause hnext
  cases hfollows with
  | here hfound hkind => exact ⟨_, hfound, hkind⟩
  | after hfound hkind _ _ => exact ⟨_, hfound, by rw [hkind]; rfl⟩

theorem lt_size (hinstr : p.instructions[i]? = some instr) : i < p.size := (Array.getElem?_eq_some_iff.mp hinstr).1

/-- More fuel does not lead further than to the last clause. -/
theorem Indexed.lastClause_succ (h : p.Indexed) {fuel : Nat} (hfuel : p.size - i ≤ fuel) :
    p.lastClause (fuel + 1) i = p.lastClause fuel i := by
  induction fuel generalizing i with
  | zero =>
    rw [lastClause, lastClause]
    cases hnext : p.nextClause[i]? with
    | none => rfl
    | some j =>
      obtain ⟨instr, hinstr, -⟩ := h.nextClause_lt hnext
      have := lt_size hinstr
      have := h.lt_nextClause hnext
      omega
  | succ fuel ih =>
    rw [lastClause, lastClause]
    cases hnext : p.nextClause[i]? with
    | none => rfl
    | some j =>
      have := h.lt_nextClause hnext
      exact ih (by omega)

theorem Indexed.lastClause_next (h : p.Indexed) (hnext : p.nextClause[o]? = some j) :
    p.lastClause p.size o = p.lastClause p.size j := by
  have hlt := h.lt_nextClause hnext
  obtain ⟨instr, hinstr, -⟩ := h.nextClause_lt hnext
  have hsize := lt_size hinstr
  obtain ⟨fuel, hfuel⟩ : ∃ fuel, p.size = fuel + 1 := ⟨p.size - 1, by omega⟩
  have hfurther : p.lastClause (fuel + 1) j = p.lastClause fuel j := h.lastClause_succ (by omega)
  rw [hfuel, lastClause, hnext, hfurther]

theorem lastClause_of_none (hnext : p.nextClause[o]? = none) (fuel : Nat) : p.lastClause fuel o = o := by
  cases fuel with
  | zero => rfl
  | succ fuel => rw [lastClause, hnext]

/-- From clause to clause, to the last one. -/
inductive Chain (p : Program) : (o last : Nat) → Prop
  | last {o : Nat} (none : p.nextClause[o]? = none) : Chain p o o
  | next {o j last : Nat} (link : p.nextClause[o]? = some j) (rest : Chain p j last) : Chain p o last

theorem Indexed.chain (h : p.Indexed) (o : Nat) : p.Chain o (p.lastClause p.size o) := by
  induction hn : p.size - o using Nat.strongRecOn generalizing o with
  | ind n ih =>
    cases hnext : p.nextClause[o]? with
    | none =>
      rw [lastClause_of_none hnext]
      exact .last hnext
    | some j =>
      have hlt := h.lt_nextClause hnext
      obtain ⟨instr, hinstr, -⟩ := h.nextClause_lt hnext
      have hsize := lt_size hinstr
      rw [h.lastClause_next hnext]
      exact .next hnext (ih (p.size - j) (by omega) j rfl)

/-- The second clause is the first one or comes after it in the same conditional. -/
def Leads (p : Program) : Nat → Nat → Prop := Relation.ReflTransGen fun o j => p.nextClause[o]? = some j

theorem Leads.le (h : p.Leads i k) (hp : p.Indexed) : i ≤ k := by
  induction h with
  | refl => exact Nat.le_refl _
  | tail _ hnext ih => exact Nat.le_trans ih (Nat.le_of_lt (hp.lt_nextClause hnext))

theorem Leads.lt_of_region (h : p.Leads i k) (hp : p.Indexed) (hregion : p.Region lo hi) (hlo : lo ≤ i) (hhi : i < hi) :
    k < hi := by
  induction h with
  | refl => exact hhi
  | @tail k l hlead hnext ih => exact hregion.clause hp hnext (Nat.le_trans hlo (Leads.le hlead hp)) ih

theorem Chain.leads (h : p.Chain i last) : p.Leads i last ∧ p.nextClause[last]? = none := by
  induction h with
  | last hnone => exact ⟨.refl, hnone⟩
  | next hnext _ ih => exact ⟨.head hnext ih.1, ih.2⟩

theorem Chain.le (hchain : p.Chain o last) (h : p.Indexed) : o ≤ last := hchain.leads.1.le h

theorem Indexed.le_lastClause (h : p.Indexed) (i : Nat) : i ≤ p.lastClause p.size i := (h.chain i).le h

theorem Region.lastClause (hr : p.Region lo hi) (h : p.Indexed) (hlo : lo ≤ i) (hhi : i < hi) :
    i ≤ p.lastClause p.size i ∧ p.lastClause p.size i < hi :=
  ⟨h.le_lastClause i, (h.chain i).leads.1.lt_of_region h hr hlo hhi⟩

theorem Chain.last_cases (hchain : p.Chain i last) (h : p.Indexed) (hblock : p.closerOf[i]? = some c) :
    last = i ∨ c ≤ last := by
  cases hchain with
  | last => exact .inl rfl
  | next hnext hrest =>
    obtain ⟨c', hblock', hfollows, -⟩ := h.clause hnext
    obtain rfl := Option.mem_unique hblock hblock'
    exact .inr (Nat.le_trans hfollows.le (hrest.le h))

/-- A block that begins among the clauses of a conditional and ends after them has a header that closes a clause. -/
theorem Chain.closes_of_among (hchain : p.Chain i last) (h : p.Indexed) (hfinal : p.closerOf[last]? = some e)
    (hblock : p.closerOf[o]? = some c) (hio : i < o) (holast : o < last) (hec : e < c) :
    ∃ header, p.instructions[o]? = some header ∧ header.closes := by
  have hlast := (h.block_lt hfinal).1
  induction hchain with
  | last => omega
  | @next i j last hnext hrest ih =>
    obtain ⟨ci, hi, hfollows, -⟩ := h.clause hnext
    have hcj := hfollows.le
    have hjlast := hrest.le h
    rcases Nat.lt_trichotomy o j with hoj | rfl | hjo
    · -- between two clauses there is the end of the first one, and then no-ops
      rcases h.laminar hi hblock hio with hout | hin
      · cases hfollows with
        | here => omega
        | after _ _ _ hbetween =>
          rcases Nat.eq_or_lt_of_le hout with rfl | hlt
          · exact h.closer hi
          · obtain ⟨mid, hmid, hnoop⟩ := hbetween o hlt hoj
            obtain ⟨header, hheader, hopens⟩ := h.header hblock
            obtain rfl := Option.mem_unique hmid hheader
            rw [(h.noop_flags hmid hnoop).1] at hopens
            cases hopens
      · omega
    · rcases hrest.last_cases h hblock with heq | hle
      · omega
      · omega
    · exact ih hfinal hjo holast hlast

end Program

/-! ### Instructions that close nothing -/

/-- What an instruction that closes a block can be. -/
def Stmt.mayClose : Stmt → Bool
  | .close | .otherwise _ _ | .invalid _ => true
  | _ => false

theorem Stmt.mayClose_eq_false (h : s.isPlain || s.isFunction || s.isLoop || s.isBranch || s.isUnsupported) :
    s.mayClose = false := by
  cases s <;> first | rfl | cases h

theorem Stmt.isClause_of_isBranch (h : s.isBranch) : s.isClause := by
  cases s <;> first | rfl | cases h

theorem Stmt.isClause_of_isOtherwise (h : s.isOtherwise) : s.isClause := by
  cases s <;> first | rfl | cases h

theorem Instruction.Proper.closes_eq_false {instr : Instruction} (h : instr.Proper) (hkind : instr.stmt.mayClose = false) :
    instr.closes = false := by
  refine Bool.eq_false_iff.mpr fun hcloses => ?_
  rcases h.closing hcloses with hs | ⟨_, hs⟩ | ⟨_, hs⟩ <;> rw [hs] at hkind <;> cases hkind

theorem Stmt.isOtherwise_eq_false (h : s.mayClose = false) : s.isOtherwise = false := by
  cases s <;> first | rfl | cases h

/-! ### Frames -/

/-- The last place where control can stand inside a frame whose block is closed at `c`: a conditional waits for its next
clause. -/
def Frame.last (p : Program) (c : Nat) : Frame → Nat
  | .loop _ _ => c
  | .branch o _ => p.nextClause[o]?.getD c

/-- A frame agrees with its header, and a loop over items visits one of them. -/
def Frame.Fits (p : Program) : Frame → Prop
  | .loop o l => (∃ instr, p.instructions[o]? = some instr ∧ instr.stmt.isLoop) ∧ l.Visiting
  | .branch o _ => ∃ instr, p.instructions[o]? = some instr ∧ instr.stmt.isClause

/-- Frames inside each other in a region. Control stands from `first` to `last`, and what it opens before `stop` is inside
the innermost of them. -/
inductive Stacked (p : Program) (lo hi : Nat) : (frames : List Frame) → (first last stop : Nat) → Prop
  | base : Stacked p lo hi [] lo hi hi
  | frame {f : Frame} {fs : List Frame} {first last stop c : Nat} (outer : Stacked p lo hi fs first last stop)
      (block : p.closerOf[f.opener]? = some c) (fits : f.Fits p) (begins : first ≤ f.opener) (ends : f.last p c < stop) :
      Stacked p lo hi (f :: fs) (f.opener + 1) (f.last p c) c

/-- Control stands at `pos` inside the innermost of the frames. -/
def Placed (p : Program) (lo hi : Nat) (frames : List Frame) (pos : Nat) : Prop :=
  ∃ first last stop, Stacked p lo hi frames first last stop ∧ first ≤ pos ∧ pos ≤ last

/-- No function around `pos` begins inside the region. -/
def Outside (p : Program) (lo pos : Nat) : Prop :=
  ∀ o c instr, p.closerOf[o]? = some c → p.instructions[o]? = some instr → instr.stmt.isFunction → o < pos → pos < c →
    o < lo

section Stacked

variable {p : Program} {lo hi first last stop i o c j : Nat} {instr : Instruction} {f : Frame} {fs : List Frame}

theorem Frame.le_last (h : p.Indexed) (hblock : p.closerOf[f.opener]? = some c) : c ≤ f.last p c := by
  cases f with
  | loop o loop => exact Nat.le_refl _
  | branch o taken =>
    cases hnext : p.nextClause[o]? with
    | none => simp [Frame.last, hnext]
    | some j =>
      obtain ⟨c', hblock', hfollows, -⟩ := h.clause hnext
      rw [Frame.opener] at hblock
      rw [hblock] at hblock'
      obtain rfl := Option.some.inj hblock'
      simpa [Frame.last, hnext] using hfollows.le

theorem Frame.last_lt (h : p.Indexed) (hr : p.Region lo hi) (hblock : p.closerOf[f.opener]? = some c)
    (hlo : lo ≤ f.opener) (hhi : f.opener < hi) : f.last p c < hi := by
  have hc := hr.closed hblock hlo hhi
  cases f with
  | loop o loop => exact hc
  | branch o taken =>
    cases hnext : p.nextClause[o]? with
    | none => simpa [Frame.last, hnext] using hc
    | some j => simpa [Frame.last, hnext] using hr.clause h hnext hlo hhi

namespace Stacked

variable (hs : Stacked p lo hi fs first last stop) (h : p.Indexed) (hr : p.Region lo hi)

include hs h

theorem stop_le_last : stop ≤ last := by
  cases hs with
  | base => exact Nat.le_refl _
  | frame _ hblock _ _ _ => exact Frame.le_last h hblock

theorem within : lo ≤ first ∧ last ≤ hi := by
  induction hs with
  | base => exact ⟨Nat.le_refl _, Nat.le_refl _⟩
  | frame outer hblock _ hbegins hends ih =>
    have := outer.stop_le_last h
    omega

include hr in
theorem region : p.Region first stop := by
  cases hs with
  | base => exact hr
  | frame _ hblock _ _ _ => exact h.region_block hblock

theorem loopFrames :
    ∃ first' last' stop', Stacked p lo hi (Activation.loopFrames fs) first' last' stop' ∧ first' ≤ first ∧ last ≤ last' := by
  induction hs with
  | base => exact ⟨lo, hi, hi, .base, Nat.le_refl _, Nat.le_refl _⟩
  | @frame f fs first last stop c outer hblock hfits hbegins hends ih =>
    cases f with
    | loop o loop => exact ⟨_, _, _, .frame outer hblock hfits hbegins hends, Nat.le_refl _, Nat.le_refl _⟩
    | branch o taken =>
      obtain ⟨first', last', stop', hs', hfirst, hlast⟩ := ih
      have := outer.stop_le_last h
      exact ⟨first', last', stop', hs', by omega, by omega⟩

theorem lt_stop (hlast : i ≤ last) (hhi : i < hi) (hinstr : p.instructions[i]? = some instr) (hopens : instr.opens)
    (hcloses : instr.closes = false) (hkind : instr.stmt.isOtherwise = false) : i < stop := by
  cases hs with
  | base => exact hhi
  | @frame f fs first last _ _ outer hblock hfits hbegins hends =>
    have hne : i ≠ stop := by
      rintro rfl
      have := (h.region_block hblock).closing hinstr
      rw [hcloses] at this
      cases this
    cases f with
    | loop o loop => exact Nat.lt_of_le_of_ne hlast hne
    | branch o taken =>
      cases hnext : p.nextClause[o]? with
      | none =>
        simp only [Frame.last, hnext, Option.getD_none] at hlast
        exact Nat.lt_of_le_of_ne hlast hne
      | some j =>
        simp only [Frame.last, hnext, Option.getD_some] at hlast
        obtain ⟨c', hblock', hfollows, -⟩ := h.clause hnext
        rw [Frame.opener, hblock'] at hblock
        obtain rfl := Option.some.inj hblock
        have hnej : i ≠ j := by
          rintro rfl
          rw [hfollows.otherwise hinstr] at hkind
          cases hkind
        cases hfollows with
        | here => exact Nat.lt_of_le_of_ne hlast hne
        | after _ _ hlt hbetween =>
          -- past the end of the block only no-ops come before the next clause
          refine Nat.lt_of_not_le fun hge => ?_
          obtain ⟨mid, hmid, hnoop⟩ := hbetween i (by omega) (by omega)
          rw [hinstr] at hmid
          obtain rfl := Option.some.inj hmid
          rw [(h.noop_flags hinstr hnoop).1] at hopens
          cases hopens

/-- The instruction at the end of the innermost frame closes a block or is a further clause. -/
theorem lt_last (hlast : i ≤ last) (hhi : i < hi) (hinstr : p.instructions[i]? = some instr)
    (hstays : instr.closes → ∀ f ∈ fs.head?, ¬ f.EndsAt p i) (hkind : instr.stmt.isOtherwise = false) : i < last := by
  cases hs with
  | base => exact hhi
  | @frame f fs first last _ _ outer hblock hfits hbegins hends =>
    refine Nat.lt_of_le_of_ne hlast fun heq => ?_
    have ended (hi : i = stop) (hf : p.openerOf[i]? = some f.opener → f.EndsAt p i) : False :=
      hstays ((h.region_block hblock).closing (hi ▸ hinstr)) f rfl (hf (h.opener_iff.mpr (hi ▸ hblock)))
    cases f with
    | loop o loop => exact ended heq id
    | branch o taken =>
      cases hnext : p.nextClause[o]? with
      | none =>
        simp only [Frame.last, hnext, Option.getD_none] at heq
        exact ended heq fun hopener => ⟨hopener, hnext⟩
      | some j =>
        simp only [Frame.last, hnext, Option.getD_some] at heq
        obtain ⟨c', -, hfollows, -⟩ := h.clause hnext
        subst heq
        rw [hfollows.otherwise hinstr] at hkind
        cases hkind

theorem inLoop {loop : Loop} {outer : List Frame} (hfirst : first ≤ i) (hlast : i ≤ last)
    (hinside : Activation.loopFrames fs = .loop o loop :: outer) (hblock : p.closerOf[o]? = some c) :
    Stacked p lo hi (.loop o loop :: outer) (o + 1) c c ∧ o < i ∧ i ≤ c := by
  obtain ⟨first', last', stop', hs', hfirst', hlast'⟩ := hs.loopFrames h
  rw [hinside] at hs'
  cases hs' with
  | frame houter hblock' hfits hbegins hends =>
    obtain rfl := Option.mem_unique hblock hblock'
    simp only [Frame.opener, Frame.last] at hfirst' hlast'
    exact ⟨.frame houter hblock' hfits hbegins hends, by omega, by omega⟩

include hr

/-- The block of such an instruction is inside the innermost frame. -/
theorem block_lt (hfirst : first ≤ i) (hlast : i ≤ last) (hhi : i < hi) (hinstr : p.instructions[i]? = some instr)
    (hblock : p.closerOf[i]? = some c) (hkind : instr.stmt.mayClose = false) : i < stop ∧ c < stop := by
  obtain ⟨instr', hinstr', hopens⟩ := h.header hblock
  rw [hinstr] at hinstr'
  obtain rfl := Option.some.inj hinstr'
  have hlt := hs.lt_stop h hlast hhi hinstr hopens ((h.proper hinstr).closes_eq_false hkind)
    (Stmt.isOtherwise_eq_false hkind)
  exact ⟨hlt, (hs.region h hr).closed hblock hfirst hlt⟩

theorem push (hfirst : first ≤ f.opener) (hlast : f.opener ≤ last) (hhi : f.opener < hi)
    (hinstr : p.instructions[f.opener]? = some instr) (hblock : p.closerOf[f.opener]? = some c)
    (hkind : instr.stmt.mayClose = false) (hfits : f.Fits p) :
    Stacked p lo hi (f :: fs) (f.opener + 1) (f.last p c) c := by
  obtain ⟨hlt, -⟩ := hs.block_lt h hr hfirst hlast hhi hinstr hblock hkind
  exact .frame hs hblock hfits hfirst (Frame.last_lt h (hs.region h hr) hblock hfirst hlt)

end Stacked

theorem Stacked.pop (hs : Stacked p lo hi (f :: fs) first last stop) (h : p.Indexed) :
    ∃ first' last' stop', Stacked p lo hi fs first' last' stop' ∧ first' ≤ f.opener ∧ last < stop' ∧ stop' ≤ last' := by
  cases hs with
  | frame outer _ _ hbegins hends => exact ⟨_, _, _, outer, hbegins, hends, outer.stop_le_last h⟩

theorem Stacked.block_eq (hs : Stacked p lo hi (f :: fs) first last stop) :
    first = f.opener + 1 ∧ last = f.last p stop ∧ p.closerOf[f.opener]? = some stop ∧ f.Fits p := by
  cases hs with
  | frame _ hblock hfits _ _ => exact ⟨rfl, rfl, hblock, hfits⟩

theorem Stacked.further {taken : Bool} (hs : Stacked p lo hi (.branch o taken :: fs) first last stop) (h : p.Indexed)
    (hclause : p.prevClause[i]? = some o) :
    ∃ first' last' stop', Stacked p lo hi fs first' last' stop' ∧ first' ≤ i ∧ i < stop' ∧ stop' ≤ last' := by
  have hnext := h.clause_iff.mp hclause
  have := h.lt_nextClause hnext
  obtain ⟨first', last', stop', houter, hbegins, hends, hstop⟩ := hs.pop h
  obtain ⟨-, rfl, -, -⟩ := hs.block_eq
  simp only [Frame.opener] at hbegins
  simp only [Frame.last, hnext, Option.getD_some] at hends
  exact ⟨first', last', stop', houter, by omega, hends, hstop⟩

end Stacked

/-! ### Moves -/

section Move

variable {p : Program} {lo hi i next : Nat} {instr : Instruction} {skip : Option Nat} {fs fs' : List Frame}

/-- Control stays inside the innermost frame, and jumps ahead. -/
theorem Move.placed (hm : Move p i instr fs next skip fs') (h : p.Indexed) (hr : p.Region lo hi)
    (hplaced : Placed p lo hi fs i) (hhi : i < hi) (hinstr : p.instructions[i]? = some instr) :
    Placed p lo hi fs' (skip.getD next) ∧ next ≤ skip.getD next := by
  obtain ⟨first, last, stop, hs, hfirst, hlast⟩ := hplaced
  have hstop := hs.stop_le_last h
  -- a block that is opened here ends inside the innermost frame
  have opened {c : Nat} (hblock : p.closerOf[i]? = some c) (hkind : instr.stmt.mayClose = false) : i < c ∧ c < stop :=
    ⟨(h.block_lt hblock).1, (hs.block_lt h hr hfirst hlast hhi hinstr hblock hkind).2⟩
  have closed {c : Nat} (hblock : p.closerOf[i]? = some c) : i < c ∧ c ≤ (p.nextClause[i]?).getD c :=
    ⟨(h.block_lt hblock).1, Frame.le_last (f := .branch i true) h hblock⟩
  have branched {c : Nat} (hkind : instr.stmt.isBranch) (hblock : p.closerOf[i]? = some c) (taken : Bool) :=
    hs.push (f := .branch i taken) h hr hfirst hlast hhi hinstr hblock (Stmt.mayClose_eq_false (by simp [hkind]))
      ⟨instr, hinstr, Stmt.isClause_of_isBranch hkind⟩
  have further {o c : Nat} {outer : List Frame} (hkind : instr.stmt.isOtherwise) (hclause : p.prevClause[i]? = some o)
      (hblock : p.closerOf[i]? = some c) (hfs : fs = .branch o false :: outer) (taken : Bool) :
      Stacked p lo hi (.branch i taken :: outer) (i + 1) ((p.nextClause[i]?).getD c) c := by
    subst hfs
    obtain ⟨first', last', stop', houter, hbegins, hends, -⟩ := hs.further h hclause
    exact .frame (f := .branch i taken) houter hblock ⟨instr, hinstr, Stmt.isClause_of_isOtherwise hkind⟩ hbegins
      (Frame.last_lt (f := .branch i taken) h (houter.region h hr) hblock hbegins hends)
  cases hm with
  | forward hkind =>
    have hcloses := (h.proper hinstr).closes_eq_false (Stmt.mayClose_eq_false (by simp [hkind]))
    have hlt := hs.lt_last h hlast hhi hinstr (fun hc => by rw [hcloses] at hc; cases hc)
      (Stmt.isOtherwise_eq_false (Stmt.mayClose_eq_false (by simp [hkind])))
    exact ⟨⟨_, _, _, hs, Nat.le_succ_of_le hfirst, hlt⟩, Nat.le_refl _⟩
  | closeBlock hkind hstays =>
    have hlt := hs.lt_last h hlast hhi hinstr (fun _ => hstays) (by rw [hkind]; rfl)
    exact ⟨⟨_, _, _, hs, Nat.le_succ_of_le hfirst, hlt⟩, Nat.le_refl _⟩
  | passFunction hkind hblock | passLoop hkind hblock | passBranch hkind hblock | ignore hkind _ hblock =>
    obtain ⟨hlt, hend⟩ := opened hblock (Stmt.mayClose_eq_false (by simp [hkind]))
    exact ⟨⟨_, _, _, hs, by simp; omega, by simp; omega⟩, by simp; omega⟩
  | @enterLoop fs c loop hkind hblock hvisiting =>
    have hpush := hs.push (f := .loop i loop) h hr hfirst hlast hhi hinstr hblock
      (Stmt.mayClose_eq_false (by simp [hkind])) ⟨⟨instr, hinstr, hkind⟩, hvisiting⟩
    exact ⟨⟨_, _, _, hpush, Nat.le_refl _, (h.block_lt hblock).1⟩, Nat.le_refl _⟩
  | takeBranch hkind hblock =>
    obtain ⟨hlt, hle⟩ := closed hblock
    exact ⟨⟨_, _, _, branched hkind hblock true, Nat.le_refl _, Nat.lt_of_lt_of_le hlt hle⟩, Nat.le_refl _⟩
  | missBranch hkind hblock =>
    obtain ⟨hlt, hle⟩ := closed hblock
    exact ⟨⟨_, _, _, branched hkind hblock false, hlt, hle⟩, hlt⟩
  | @repeatLoop outer o loop loop' hkind hcloses hvisiting =>
    cases hs with
    | frame outer hblock hfits hbegins hends =>
      have hframe : Frame.Fits p (.loop o loop') := ⟨hfits.1, hvisiting hfits.2⟩
      exact ⟨⟨_, _, _, .frame outer hblock hframe hbegins hends, Nat.le_refl _, (h.block_lt hblock).1⟩, Nat.le_refl _⟩
  | endLoop hkind hcloses | endBranch hkind hcloses =>
    obtain ⟨first', last', stop', houter, hbegins, hends, hle⟩ := hs.pop h
    obtain ⟨rfl, rfl, -, -⟩ := hs.block_eq
    exact ⟨⟨_, _, _, houter, by simp; omega, by simp; omega⟩, Nat.le_refl _⟩
  | leave hkind hinside hblock =>
    obtain ⟨hs', hlt, hle⟩ := hs.inLoop h hfirst hlast hinside hblock
    obtain ⟨first', last', stop', houter, hbegins, hends, hle'⟩ := hs'.pop h
    simp only [Frame.opener] at hbegins
    exact ⟨⟨_, _, _, houter, by simp; omega, by simp; omega⟩, by simp; omega⟩
  | @again _ _ o c loop hkind hinside hblock =>
    obtain ⟨hs', hlt, hle⟩ := hs.inLoop h hfirst hlast hinside hblock
    -- the jump is not the brace at the end of the loop
    have hne : i ≠ c := by
      rintro rfl
      have hcloses := (h.region_block hblock).closing hinstr
      rw [(h.proper hinstr).closes_eq_false (Stmt.mayClose_eq_false (by simp [hkind]))] at hcloses
      cases hcloses
    exact ⟨⟨_, _, _, hs', by simp; omega, Nat.le_refl _⟩, by simp; omega⟩
  | passClauses hkind hclause hblock hfinal =>
    obtain ⟨first', last', stop', houter, hbegins, hends, hle'⟩ := hs.further h hclause
    have hregion := houter.region h hr
    obtain ⟨hle, hlast'⟩ := hregion.lastClause h hbegins hends
    have := hregion.closed hfinal (by omega) hlast'
    have := (h.block_lt hfinal).1
    exact ⟨⟨_, _, _, houter, by simp; omega, by simp; omega⟩, by simp; omega⟩
  | takeClause hkind hclause hblock =>
    obtain ⟨hlt, hle⟩ := closed hblock
    exact ⟨⟨_, _, _, further hkind hclause hblock rfl true, Nat.le_refl _, Nat.lt_of_lt_of_le hlt hle⟩, Nat.le_refl _⟩
  | missClause hkind hclause hblock =>
    obtain ⟨hlt, hle⟩ := closed hblock
    exact ⟨⟨_, _, _, further hkind hclause hblock rfl false, hlt, hle⟩, hlt⟩
  | passClause hkind hclause hblock hnone =>
    obtain ⟨first', last', stop', houter, hbegins, hends, hle'⟩ := hs.further h hclause
    have := (houter.region h hr).closed hblock hbegins hends
    have := (h.block_lt hblock).1
    exact ⟨⟨_, _, _, houter, by simp; omega, by simp; omega⟩, by simp; omega⟩

theorem Move.next_cases (hm : Move p i instr fs next skip fs') : next = i + 1 ∨
    skip = none ∧ ∃ o loop outer, fs = .loop o loop :: outer ∧ next = o + 1 ∧ p.openerOf[i]? = some o := by
  cases hm with
  | repeatLoop _ hcloses _ => exact .inr ⟨rfl, _, _, _, rfl, rfl, hcloses⟩
  | _ => exact .inl rfl

/-- Control gets into a block through its header, unless the header closes a block as well and is jumped over. -/
theorem Move.enters (hm : Move p i instr fs next skip fs') (h : p.Indexed) (hplaced : Placed p lo hi fs i) {o c : Nat}
    (hblock : p.closerOf[o]? = some c) (hlt : o < skip.getD next) (hlt' : skip.getD next < c) :
    (o ≤ i ∧ i ≤ c) ∨ (i < o ∧ ∃ header, p.instructions[o]? = some header ∧ header.closes) := by
  obtain ⟨first, last, stop, hs, hfirst, hlast⟩ := hplaced
  -- a jump to the end of a block that control is inside of, and past it
  have toEnd {b e : Nat} (hb : p.closerOf[b]? = some e) (hbi : b ≤ i) (hie : i ≤ e) (hoe : o < e) (hec : e < c) :
      o ≤ i ∧ i ≤ c := by
    have := h.lt_of_around hb hblock hoe hec
    omega
  have pastEnd {b e : Nat} (hb : p.closerOf[b]? = some e) (hbi : b ≤ i) (hie : i ≤ e) (hoe : o < e + 1)
      (hec : e + 1 < c) : (o ≤ i ∧ i ≤ c) ∨ (i < o ∧ ∃ header, p.instructions[o]? = some header ∧ header.closes) := by
    rcases Nat.eq_or_lt_of_le (Nat.le_of_lt_succ hoe) with rfl | hoe
    · rcases Nat.eq_or_lt_of_le hie with rfl | hio
      · exact .inl ⟨Nat.le_refl _, by omega⟩
      · exact .inr ⟨hio, h.closer hb⟩
    · exact .inl (toEnd hb hbi hie hoe (by omega))
  have here {b e : Nat} (hb : p.closerOf[b]? = some e) : b ≤ e := Nat.le_of_lt (h.block_lt hb).1
  cases hm with
  | forward | closeBlock | enterLoop | takeBranch | takeClause | endLoop | endBranch =>
    simp only [Option.getD_none] at hlt hlt'
    exact .inl (by omega)
  | repeatLoop hkind hcloses hvisiting =>
    simp only [Option.getD_none] at hlt hlt'
    have hb := h.opener_iff.mp hcloses
    rcases Nat.eq_or_lt_of_le (Nat.le_of_lt_succ hlt) with rfl | hlt
    · obtain rfl := Option.mem_unique hb hblock
      exact .inl ⟨here hb, Nat.le_refl _⟩
    · have := here hb
      rcases h.laminar hblock hb hlt with hout | hin
      · omega
      · exact .inl (by omega)
  | passFunction hkind hb | passLoop hkind hb | missBranch hkind hb | missClause hkind _ hb _ =>
    exact .inl (toEnd hb (Nat.le_refl _) (here hb) hlt hlt')
  | passBranch hkind hb | ignore hkind _ hb | passClause hkind _ hb _ =>
    exact pastEnd hb (Nat.le_refl _) (here hb) hlt hlt'
  | leave hkind hinside hb =>
    obtain ⟨-, hbi, hie⟩ := hs.inLoop h hfirst hlast hinside hb
    exact pastEnd hb (Nat.le_of_lt hbi) hie hlt hlt'
  | again hkind hinside hb =>
    obtain ⟨-, hbi, hie⟩ := hs.inLoop h hfirst hlast hinside hb
    exact .inl (toEnd hb (Nat.le_of_lt hbi) hie hlt hlt')
  | @passClauses outer o' c' e hkind hclause hb hfinal =>
    simp only [Option.getD_some] at hlt hlt'
    have hle := h.le_lastClause i
    have hend := (h.block_lt hfinal).1
    rcases Nat.eq_or_lt_of_le (Nat.le_of_lt_succ hlt) with rfl | hlt
    · exact .inr ⟨by omega, h.closer hfinal⟩
    · have := h.lt_of_around hfinal hblock hlt (by omega)
      by_cases hio : i < o
      · exact .inr ⟨hio, (h.chain i).closes_of_among h hfinal hblock hio this (by omega)⟩
      · exact .inl (by omega)

/-- A function that is not called is passed over. -/
theorem Move.function (hm : Move p i instr fs next skip fs') (hkind : instr.stmt.isFunction) :
    p.closerOf[i]? = some (skip.getD next) := by
  cases hm with
  | passFunction _ hblock => exact hblock
  | _ => cases hs : instr.stmt <;> simp_all [Stmt.isFunction, Stmt.isPlain, Stmt.isLoop, Stmt.isBranch, Stmt.isOtherwise,
      Stmt.isUnsupported]

theorem Move.outside (hm : Move p i instr fs next skip fs') (h : p.Indexed) (hr : p.Region lo hi)
    (hplaced : Placed p lo hi fs i) (hhi : i < hi) (hinstr : p.instructions[i]? = some instr) (hout : Outside p lo i) :
    Outside p lo (skip.getD next) := by
  intro o c header hblock hheader hkind hlt hlt'
  have hproper := h.proper hheader
  obtain ⟨-, hnext⟩ := hm.placed h hr hplaced hhi hinstr
  rcases hm.enters h hplaced hblock hlt hlt' with ⟨hoi, hic⟩ | ⟨-, header', hheader', hcloses⟩
  · rcases Nat.eq_or_lt_of_le hoi with rfl | hoi
    · -- at the header of the function
      obtain rfl := Option.mem_unique hinstr hheader
      have := Option.some.inj (hblock.symm.trans (hm.function hkind))
      omega
    rcases Nat.eq_or_lt_of_le hic with rfl | hic
    · -- at its end, from where only a loop goes back
      rcases hm.next_cases with rfl | ⟨rfl, o', loop, outer, rfl, rfl, hopener⟩
      · omega
      · obtain ⟨first, last, stop, hs, -⟩ := hplaced
        obtain ⟨-, -, -, ⟨loopHeader, hloop, hisLoop⟩, -⟩ := hs.block_eq
        have hopener' := h.opener_iff.mpr hblock
        obtain rfl := Option.mem_unique hopener hopener'
        obtain rfl := Option.mem_unique hloop hheader
        cases hs : loopHeader.stmt <;> simp [hs, Stmt.isFunction, Stmt.isLoop] at hkind hisLoop
    · exact hout o c header hblock hheader hkind hoi hic
  · obtain rfl := Option.mem_unique hheader hheader'
    rw [hproper.closes_eq_false (Stmt.mayClose_eq_false (by simp [hkind]))] at hcloses
    cases hcloses

end Move

end Stepwise
