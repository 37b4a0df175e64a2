import Stepwise.Proofs.Handlers

/-!
# Turns follow the structured evaluation

The turns of an activation, with its jumps and frames, follow the evaluation of the tree of statements: `traced_code` by
induction on the tree, with one lemma for each kind of statement.
-/

namespace Stepwise

open Exec

variable {m : Machine} {host host' : Host} {course : Course} {top rounds n i j o c next stop : Nat} {fs : List Frame}
  {w w' : World} {instr : Instruction}

/-- From wherever an activation begins as described, its turns follow the evaluation of a tree, up to `next`. -/
def Traced (m : Machine) (host host' : Host) (course : Course) (rounds : Nat) (start : Activation → Prop) (next : Nat)
    (fs : List Frame) (code : Code) : Prop :=
  ∀ w w' : World, w.Twin w' → start w.current →
    Simulates m host course rounds w (fun b w₁ => Landed m.program next fs b w₁.current)
      ((code.run m.limits.strict host' rounds !(Activation.loopFrames fs).isEmpty).outcome w')

/-- Whatever is simulated from `next` on is simulated from `i` on. -/
def Leads (m : Machine) (host : Host) (course : Course) (i : Nat) (fs : List Frame) (next : Nat) (fs' : List Frame) : Prop :=
  ∀ (n : Nat) (α : Type) (P : α → World → Prop) (x : Exec α),
    (∀ w w' : World, w.Twin w' → w.current.At next fs' → Simulates m host course n w P (x.outcome w')) →
    ∀ w w' : World, w.Twin w' → w.current.At i fs → Simulates m host course n w P (x.outcome w')

theorem Leads.refl : Leads m host course i fs i fs := fun _ _ _ _ h => h

theorem Leads.trans {fs₁ fs₂ fs₃ : List Frame} {k : Nat} (h : Leads m host course i fs₁ j fs₂)
    (h' : Leads m host course j fs₂ k fs₃) : Leads m host course i fs₁ k fs₃ :=
  fun n α P x hx => h n α P x (h' n α P x hx)

theorem Simulates.andThen {x rest : Exec Completion}
    (hx : Simulates m host course n w (fun b w₁ => Landed m.program next fs b w₁.current) (x.outcome w'))
    (hrest : ∀ w₁ w₁', w₁.Twin w₁' → w₁.current.At next fs →
      Simulates m host course n w₁ (fun b w₂ => Landed m.program stop fs b w₂.current) (rest.outcome w₁')) :
    Simulates m host course n w (fun b w₁ => Landed m.program stop fs b w₁.current)
      ((x >>= fun b => b.andThen rest).outcome w') := by
  refine hx.bind fun b w₁ w₁' htwin hlanded => ?_
  cases b with
  | normal => exact hrest w₁ w₁' htwin hlanded
  | jump jump => cases jump <;> exact .here htwin hlanded
  | returned => exact .here htwin hlanded

variable {p : Program}

theorem Fenced.mono (h : Fenced p stop fs) (hle : c ≤ stop) : Fenced p c fs where
  head hf hblock := Nat.le_trans hle (h.head hf hblock)
  loop hloop := by
    obtain ⟨c', hblock, hle'⟩ := h.loop hloop
    exact ⟨c', hblock, Nat.le_trans hle hle'⟩

theorem Fenced.branch (h : Fenced p stop fs) (hblock : p.closerOf[i]? = some c) (hle : c ≤ stop) (taken : Bool) :
    Fenced p c (.branch i taken :: fs) where
  head hf hblock' := by
    obtain rfl := Option.some.inj hf
    exact Nat.le_of_eq (Option.mem_unique hblock hblock')
  loop hloop := (h.mono hle).loop hloop

theorem fenced_loop (hblock : p.closerOf[i]? = some c) (inner : Loop) : Fenced p c (.loop i inner :: fs) where
  head hf hblock' := by
    obtain rfl := Option.some.inj hf
    exact Nat.le_of_eq (Option.mem_unique hblock hblock')
  loop hloop := by
    cases hloop
    exact ⟨c, hblock, Nat.le_refl c⟩

/-! ### Walking over statements -/

/-- What the walk over the statements from `i` up to `stop` knows. -/
structure Walk (p : Program) (i stop : Nat) : Prop where
  region : p.Region i stop
  level : p.Level i stop
  le : i ≤ stop

namespace Walk

variable (h : p.Indexed) (hp : p.WellFormed)
include h

theorem step (hwalk : Walk p i stop) (hlt : i < stop) (hinstr : p.instructions[i]? = some instr)
    (hclause : instr.stmt.isClause = false) : Walk p (i + 1) stop where
  region := ⟨hwalk.region.bounded, fun hb hlo hhi => hwalk.region.closed hb (Nat.le_of_succ_le hlo) hhi, hwalk.region.closing⟩
  level := hwalk.level.step h hinstr hclause
  le := hlt

include hp

theorem body (hblock : p.closerOf[i]? = some c) (hinstr : p.instructions[i]? = some instr) (hheader : instr.stmt.isHeader) :
    Walk p (i + 1) c :=
  ⟨h.region_block hblock, h.level_body hp hblock hinstr hheader, (h.block_lt hblock).1⟩

theorem after (hwalk : Walk p i stop) (hblock : p.closerOf[i]? = some c) (hlt : i < stop) {e : Nat}
    (hlast : p.closerOf[p.lastClause p.size i]? = some e) : e < stop ∧ Walk p (e + 1) stop := by
  obtain ⟨hle, hlt'⟩ := hwalk.region.lastClause h (Nat.le_refl i) hlt
  have hend := hwalk.region.closed hlast hle hlt'
  have hlate := (h.block_lt hlast).1
  refine ⟨hend, ⟨hwalk.region.bounded, fun hb hlo hhi => hwalk.region.closed hb (by omega) hhi, hwalk.region.closing⟩, ?_, hend⟩
  exact hwalk.level.chain h hp hblock hlast

theorem closerOf_eq (hinstr : p.instructions[i]? = some instr) (hheader : instr.stmt.isHeader) :
    p.closerOf[i]? = some (p.closer i) := by
  obtain ⟨c, hblock⟩ := hp.header_closed h hinstr hheader
  rw [Program.closer, hblock]
  rfl

/-- A block that is not part of a conditional: its end, its body, and what follows it. -/
theorem block (hwalk : Walk p i stop) (hlt : i < stop) (hinstr : p.instructions[i]? = some instr)
    (hheader : instr.stmt.isHeader) (hclause : instr.stmt.isClause = false) :
    p.closerOf[i]? = some (p.closer i) ∧ p.nextClause[i]? = none ∧ p.closer i < stop ∧ Walk p (i + 1) (p.closer i) ∧
      Walk p (p.closer i + 1) stop := by
  have hblock := closerOf_eq h hp hinstr hheader
  have hnone := h.nextClause_eq_none hinstr hclause
  have hafter := hwalk.after h hp hblock hlt (by rw [Program.lastClause_of_none hnone]; exact hblock)
  exact ⟨hblock, hnone, hafter.1, .body h hp hblock hinstr hheader, hafter.2⟩

end Walk

section Tree

variable {e : Nat} {taken : Bool} {body others rest : Code} (hosts : host.Echo m.limits host')
  (hc : course.Runs m.limits top) (h : m.program.Indexed) (hp : m.program.WellFormed)

include hc

/-! ### Instructions that the evaluation does not see -/

theorem leads_one (hlt : i < top) (hinstr : m.program.instructions[i]? = some instr)
    (hrun : ∀ w : World, w.current.Stands fs →
      (instr.run m.program m.limits.strict host i).outcome w = (.ok (i + 1), w)) :
    Leads m host course i fs (i + 1) fs := by
  intro n α P x hrest w w' htwin hat
  refine (Simulates.stutter hc htwin hat hlt hinstr (fun w₀ htwin₀ hstands => ?_) hrest).mono (Nat.le_succ n)
  exact ⟨i + 1, w₀, hrun w₀ hstands, htwin₀, hstands.at (i + 1)⟩

include h hp

theorem leads_close (hfence : Fenced m.program stop fs) (hlt : c < stop) (htop : stop ≤ top)
    (hblock : m.program.closerOf[o]? = some c) (hnone : m.program.nextClause[o]? = none) :
    Leads m host course c fs (c + 1) fs := by
  obtain ⟨instr, hinstr, hclose⟩ := hp.close_of_not_clause h hblock (by rw [hnone]; exact nofun)
  refine leads_one hc (by omega) hinstr fun w hstands => ?_
  rw [Instruction.run, hclose]
  exact run_close hstands hfence h hlt

/-- From the end of a clause to the next one, with the frame of the conditional. -/
theorem leads_clause (hblock : m.program.closerOf[o]? = some c) (hnext : m.program.nextClause[o]? = some j)
    (htop : j < top) {k : Nat} (hck : c ≤ k) (hkj : k ≤ j) :
    Leads m host course k (.branch o taken :: fs) j (.branch o taken :: fs) := by
  induction hd : j - k generalizing k with
  | zero =>
    obtain rfl : k = j := by omega
    exact .refl
  | succ d ih =>
    obtain ⟨instr, hinstr, hkind⟩ := Program.stmt_between h hp hblock hnext hck (by omega)
    refine Leads.trans (leads_one hc (by omega) hinstr fun w hstands => ?_) (ih (by omega) (by omega) (by omega))
    rcases hkind with hkind | hkind
    · have hnot : ¬ (m.program.openerOf[k]? = some o ∧ m.program.nextClause[o]?.isNone) := by
        rw [hnext]
        exact fun hboth => nomatch hboth.2
      simp only [Instruction.run, hkind, runClose, outcome_bind, outcome_get, hstands.frames, if_neg hnot, outcome_pure]
    · rw [Instruction.run, hkind]
      rfl

/-- From the end of a clause that has been taken past the end of the conditional. -/
theorem leads_past (hblock : m.program.closerOf[o]? = some c)
    (hlast : m.program.closerOf[m.program.lastClause m.program.size o]? = some e) (htop : e < top) :
    Leads m host course c (.branch o true :: fs) (e + 1) fs := by
  cases hnext : m.program.nextClause[o]? with
  | none =>
    rw [Program.lastClause_of_none hnext, hblock] at hlast
    obtain rfl := Option.some.inj hlast
    obtain ⟨instr, hinstr, hclose⟩ := hp.close_of_not_clause h hblock (by rw [hnext]; exact nofun)
    have hopener := h.opener_iff.mpr hblock
    intro n α P x hrest w w' htwin hat
    refine (Simulates.stutter hc htwin hat htop hinstr (fun w₀ htwin₀ hstands => ?_) hrest).mono (Nat.le_succ n)
    have hrun : (instr.run m.program m.limits.strict host c).outcome w₀ =
        (.ok (c + 1), { w₀ with current := { w₀.current with frames := w₀.current.frames.tail } }) := by
      simp only [Instruction.run, hclose, runClose, outcome_bind, outcome_get, hstands.frames, hopener, hnext,
        Option.isNone_none, and_self, if_true, popFrame, outcome_activation, outcome_pure]
    exact ⟨_, _, hrun, htwin₀.move rfl rfl, hstands.pop.at (c + 1)⟩
  | some j =>
    have hlt := (h.block_lt hlast).1
    have hlink := h.clause_iff.mpr hnext
    obtain ⟨instr, hinstr, hkind⟩ := h.nextClause_lt hnext
    obtain ⟨cj, hblockj⟩ := hp.header_closed h hinstr (Stmt.isHeader_of_isOtherwise hkind)
    obtain ⟨c', hblock', hfollows, -⟩ := h.clause hnext
    obtain rfl := Option.mem_unique hblock hblock'
    rw [h.lastClause_next hnext] at hlast hlt
    have hle := h.le_lastClause j
    refine Leads.trans (leads_clause hc h hp hblock hnext (by omega) (Nat.le_refl c) hfollows.le) ?_
    intro n α P x hrest w w' htwin hat
    refine (Simulates.stutter hc htwin hat (by omega) hinstr (fun w₀ htwin₀ hstands => ?_) hrest).mono (Nat.le_succ n)
    exact run_otherwise htwin₀ hstands (by omega) hlink hblockj hlast _ hkind

/-! ### Loops -/

include hosts

omit hp in
/-- A loop whose body is followed round by round. Each round takes at least the turn at its closing brace. -/
theorem repeat_simulates {closer : Instruction} (hblock : m.program.closerOf[o]? = some c) (htop : c < top)
    (hcloser : m.program.instructions[c]? = some closer) (hclose : closer.stmt = .close)
    (hbody : ∀ inner, Traced m host host' course rounds (·.At (o + 1) (.loop o inner :: fs)) c (.loop o inner :: fs) body)
    {r : Nat} (hr : r ≤ rounds) {inner : Loop} (htwin : w.Twin w') (hat : w.current.At (o + 1) (.loop o inner :: fs)) :
    Simulates m host course r w (fun b w₁ => Landed m.program (c + 1) fs b w₁.current)
      ((inner.repeat (fun l => closer.locate (l.goOn host')) (body.run m.limits.strict host' rounds true) r).outcome w') := by
  induction r generalizing inner w w' with
  | zero => exact .cut (.zero w)
  | succ r ih =>
    have hopener := h.opener_iff.mpr hblock
    -- the end of the body, reached in order or by a jump
    have hend {w₁ w₁' : World} {next : Option Loop → Exec Completion}
        (hsome : ∀ l, next (some l) =
          l.repeat (fun l => closer.locate (l.goOn host')) (body.run m.limits.strict host' rounds true) r)
        (hnone : next none = pure .normal) (htwin₁ : w₁.Twin w₁') (hat₁ : w₁.current.At c (.loop o inner :: fs)) :
        Simulates m host course (r + 1) w₁ (fun b w₂ => Landed m.program (c + 1) fs b w₂.current)
          ((closer.locate (inner.goOn host') >>= next).outcome w₁') := by
      refine Simulates.turn (Q := fun b w₂ => Repeated o c fs b w₂.current) hc htwin₁ hat₁ htop hcloser ?_ ?_
      · intro w₀ htwin₀ hstands _
        exact matched_goOn hosts htwin₀ hstands hopener _ hclose
      · intro b w₂ w₂' htwin₂ hrepeated
        cases b with
        | some inner' =>
          rw [hsome]
          exact ih (by omega) htwin₂ hrepeated
        | none =>
          rw [hnone]
          exact .here htwin₂ hrepeated
    refine ((hbody inner w w' htwin hat).mono hr).bind fun b w₁ w₁' htwin₁ hlanded => ?_
    cases b with
    | normal => exact hend (fun _ => rfl) rfl htwin₁ hlanded
    | returned => exact .here htwin₁ hlanded
    | jump jump =>
      cases jump
      all_goals
        obtain ⟨o', l, outer, c', hloop, hblock', hat₁⟩ := hlanded
        cases hloop
        obtain rfl := Option.mem_unique hblock hblock'
      · exact .here htwin₁ hat₁
      · exact hend (fun _ => rfl) rfl htwin₁ hat₁

/-! ### Statements -/

section Blocks

variable (hfence : Fenced m.program stop fs) (htop : stop ≤ top) (hinstr : m.program.instructions[i]? = some instr)
include hfence htop hinstr

theorem traced_simple (hlt : i < stop) (hheader : instr.stmt.isHeader = false)
    (hrest : Traced m host host' course rounds (·.At (i + 1) fs) stop fs rest) :
    Traced m host host' course rounds (·.At i fs) stop fs (.simple instr rest) := by
  intro w w' htwin hat
  refine (Simulates.turn (Q := fun b w₁ => Landed m.program (i + 1) fs b w₁.current) hc htwin hat (by omega) hinstr
    (fun w₀ htwin₀ hstands _ => ?_) fun b w₁ w₁' htwin₁ hlanded => ?_).mono (Nat.le_succ rounds)
  · exact matched_simple hosts htwin₀ hstands hfence h hp hlt _ hinstr hheader
  · exact Simulates.andThen (.here htwin₁ hlanded) hrest

variable (hlt : c < stop) (hblock : m.program.closerOf[i]? = some c) (hnone : m.program.nextClause[i]? = none)
  (hrest : Traced m host host' course rounds (·.At (c + 1) fs) stop fs rest)
include hlt hblock hnone hrest

omit hosts in
theorem traced_block (hstmt : instr.stmt = .block)
    (hbody : Traced m host host' course rounds (·.At (i + 1) fs) c fs body) :
    Traced m host host' course rounds (·.At i fs) stop fs (.block body rest) := by
  have hic := (h.block_lt hblock).1
  have hbegin : Leads m host course i fs (i + 1) fs := by
    refine leads_one hc (by omega) hinstr fun w _ => ?_
    rw [Instruction.run, hstmt]
    rfl
  refine hbegin _ _ _ _ fun w w' htwin hat => Simulates.andThen (hbody w w' htwin hat) ?_
  exact leads_close hc h hp hfence hlt htop hblock hnone _ _ _ _ hrest

omit hosts in
theorem traced_function {name : Text} {params : List Text} (hstmt : instr.stmt = .function name params) :
    Traced m host host' course rounds (·.At i fs) stop fs (.function rest) := by
  have hic := (h.block_lt hblock).1
  have hend := leads_close hc h hp hfence hlt htop hblock hnone _ _ _ _ hrest
  intro w w' htwin hat
  refine (Simulates.stutter hc htwin hat (by omega) hinstr (fun w₀ htwin₀ hstands => ?_) hend).mono (Nat.le_succ rounds)
  have hrun : (instr.run m.program m.limits.strict host i).outcome w₀ =
      (.ok (i + 1), { w₀ with current := { w₀.current with skip := some c } }) := by
    simp only [Instruction.run, hstmt, outcome_bind, outcome_blockEnd hblock, skipTo, outcome_activation, outcome_pure]
  exact ⟨_, _, hrun, htwin₀.move rfl rfl, Activation.at_skip rfl hstands.frames hstands.running hic⟩

theorem traced_loop {closer : Instruction} (hkind : instr.stmt.isLoop) (hcloser : m.program.instructions[c]? = some closer)
    (hbody : ∀ inner, Traced m host host' course rounds (·.At (i + 1) (.loop i inner :: fs)) c (.loop i inner :: fs) body) :
    Traced m host host' course rounds (·.At i fs) stop fs (.loop instr closer body rest) := by
  have hic := (h.block_lt hblock).1
  have hclose : closer.stmt = .close := by
    obtain ⟨closer', hcloser', hclose⟩ := hp.close_of_not_clause h hblock (by rw [hnone]; exact nofun)
    rw [hcloser] at hcloser'
    exact Option.some.inj hcloser' ▸ hclose
  intro w w' htwin hat
  refine (Simulates.turn (Q := fun b w₁ => Begun i c fs b w₁.current) hc htwin hat (by omega) hinstr
    (fun w₀ htwin₀ hstands _ => ?_) fun b w₁ w₁' htwin₁ hbegun => ?_).mono (Nat.le_succ rounds)
  · exact matched_beginLoop hosts htwin₀ hstands hic hblock _ hkind
  · cases b with
    | some inner =>
      refine Simulates.andThen ?_ hrest
      exact repeat_simulates hosts hc h hblock (by omega) hcloser hclose hbody (Nat.le_refl rounds) htwin₁ hbegun
    | none => exact leads_close hc h hp hfence hlt htop hblock hnone _ _ _ _ hrest w₁ w₁' htwin₁ hbegun

end Blocks

section Clauses

variable (hblock : m.program.closerOf[i]? = some c)
  (hlast : m.program.closerOf[m.program.lastClause m.program.size i]? = some e)
  (hbody : Traced m host host' course rounds (·.At (i + 1) (.branch i true :: fs)) c (.branch i true :: fs) body)
  (hothers : Traced m host host' course rounds (Missed m.program i c fs) (e + 1) fs others)
include hblock hlast hbody hothers

omit hosts in
/-- A clause that has been chosen or not, and what comes after the conditional. -/
theorem chosen_simulates (htop : e < top) (htwin : w.Twin w') (hchosen : Chosen m.program i c fs taken w.current) :
    Simulates m host course rounds w (fun b w₁ => Landed m.program (e + 1) fs b w₁.current)
      ((if taken then body.run m.limits.strict host' rounds !(Activation.loopFrames fs).isEmpty
        else others.run m.limits.strict host' rounds !(Activation.loopFrames fs).isEmpty).outcome w') := by
  cases taken with
  | false => exact hothers w w' htwin hchosen
  | true =>
    have hpast : Leads m host course c (.branch i true :: fs) (e + 1) fs := leads_past hc h hp hblock hlast htop
    rw [if_pos rfl, ← bind_pure (body.run m.limits.strict host' rounds !(Activation.loopFrames fs).isEmpty)]
    refine (hbody w w' htwin hchosen).bind fun b w₁ w₁' htwin₁ hlanded => ?_
    cases b with
    | normal => exact hpast _ _ _ _ (fun _ _ htwin₂ hat => .here htwin₂ hat) w₁ w₁' htwin₁ hlanded
    | jump jump => cases jump <;> exact .here htwin₁ hlanded
    | returned => exact .here htwin₁ hlanded

variable (hinstr : m.program.instructions[i]? = some instr)
include hinstr

theorem traced_branch {test : Expr} (hstmt : instr.stmt = .branch test) (hlt : e < stop) (htop : stop ≤ top)
    (hrest : Traced m host host' course rounds (·.At (e + 1) fs) stop fs rest) :
    Traced m host host' course rounds (·.At i fs) stop fs (.branch instr (some test) body others rest) := by
  have hic := (h.block_lt hblock).1
  have hle := h.le_lastClause i
  have hlt' := (h.block_lt hlast).1
  intro w w' htwin hat
  refine (Simulates.turn (Q := fun b w₁ => Chosen m.program i c fs b w₁.current) hc htwin hat (by omega) hinstr
    (fun w₀ htwin₀ hstands _ => ?_) fun b w₁ w₁' htwin₁ hchosen => ?_).mono (Nat.le_succ rounds)
  · exact matched_branch hosts htwin₀ hstands hic hblock _ hstmt
  · have hclauses := chosen_simulates hc h hp hblock hlast hbody hothers (by omega) htwin₁ hchosen
    cases b <;> exact Simulates.andThen hclauses hrest

theorem traced_clause {d : Nat} {test : Option Expr} {closes : Bool} (hstmt : instr.stmt = .otherwise test closes)
    (hblock' : m.program.closerOf[o]? = some d) (hnext : m.program.nextClause[o]? = some i) (htop : e < top) :
    Traced m host host' course rounds (Missed m.program o d fs) (e + 1) fs (.branch instr test body others .done) := by
  have hic := (h.block_lt hblock).1
  have hle := h.le_lastClause i
  have hlt := (h.block_lt hlast).1
  obtain ⟨d', hblock'', hfollows, -⟩ := h.clause hnext
  obtain rfl := Option.mem_unique hblock' hblock''
  intro w w' htwin hmissed
  simp only [Missed, hnext] at hmissed
  refine leads_clause hc h hp hblock' hnext (by omega) (Nat.le_refl d) hfollows.le _ _ _ _ ?_ w w' htwin hmissed
  intro w w' htwin hat
  refine (Simulates.turn (Q := fun b w₁ => Chosen m.program i c fs b w₁.current) hc htwin hat (by omega) hinstr
    (fun w₀ htwin₀ hstands _ => ?_) fun b w₁ w₁' htwin₁ hchosen => ?_).mono (Nat.le_succ rounds)
  · exact matched_otherwise hosts htwin₀ hstands hic (h.clause_iff.mpr hnext) hblock _ hstmt
  · have hclauses := chosen_simulates hc h hp hblock hlast hbody hothers htop htwin₁ hchosen
    cases b <;> exact Simulates.andThen hclauses fun _ _ htwin₂ hat₂ => .here htwin₂ hat₂

end Clauses

/-! ### Trees -/

/-- The turns of an activation follow its tree. -/
theorem traced_code (fuel : Nat) :
    (∀ i stop fs, Walk m.program i stop → Fenced m.program stop fs → stop ≤ top → stop - i < fuel →
      Traced m host host' course rounds (·.At i fs) stop fs (m.program.code fuel i stop)) ∧
    (∀ o c e stop fs, m.program.Region o stop → Fenced m.program stop fs → stop ≤ top → o < stop → stop - o ≤ fuel →
      m.program.closerOf[o]? = some c → m.program.closerOf[m.program.lastClause m.program.size o]? = some e →
      Traced m host host' course rounds (Missed m.program o c fs) (e + 1) fs (m.program.clauses fuel o)) := by
  induction fuel with
  | zero => exact ⟨fun i stop fs _ _ _ hfuel => by omega, fun o c e stop fs _ _ _ hlt hfuel => by omega⟩
  | succ fuel ih =>
    obtain ⟨ihcode, ihclauses⟩ := ih
    constructor
    · intro i stop fs hwalk hfence htop hfuel
      rw [Program.code]
      rcases Nat.lt_or_ge i stop with hlt | hge
      · have hbounded := hwalk.region.bounded
        obtain ⟨instr, hinstr⟩ : ∃ instr, m.program.instructions[i]? = some instr :=
          ⟨_, Array.getElem?_eq_getElem (Nat.lt_of_lt_of_le hlt hbounded)⟩
        rw [if_pos hlt, hinstr]
        dsimp only
        have hloop (hkind : instr.stmt.isLoop) (hheader : instr.stmt.isHeader) (hclause : instr.stmt.isClause = false) :
            Traced m host host' course rounds (·.At i fs) stop fs (.loop instr
              (m.program.instructions[m.program.closer i]?.getD instr) (m.program.code fuel (i + 1) (m.program.closer i))
              (m.program.code fuel (m.program.closer i + 1) stop)) := by
          obtain ⟨hblock, hnone, hcstop, hinside, hbehind⟩ := hwalk.block h hp hlt hinstr hheader hclause
          obtain ⟨closer, hcloser, -⟩ := h.closer hblock
          have hic := hinside.le
          have hrest := ihcode _ stop fs hbehind hfence htop (by omega)
          rw [hcloser]
          exact traced_loop hosts hc h hp hfence htop hinstr hcstop hblock hnone hrest hkind hcloser fun inner =>
            ihcode _ _ _ hinside (fenced_loop hblock inner) (by omega) (by omega)
        cases hstmt : instr.stmt with
        | block =>
          obtain ⟨hblock, hnone, hcstop, hinside, hbehind⟩ :=
            hwalk.block h hp hlt hinstr (by rw [hstmt]; rfl) (by rw [hstmt]; rfl)
          have hic := hinside.le
          have hbody := ihcode _ _ fs hinside (hfence.mono (by omega)) (by omega) (by omega)
          have hrest := ihcode _ stop fs hbehind hfence htop (by omega)
          exact traced_block hc h hp hfence htop hinstr hcstop hblock hnone hrest hstmt hbody
        | function name params =>
          obtain ⟨hblock, hnone, hcstop, hinside, hbehind⟩ :=
            hwalk.block h hp hlt hinstr (by rw [hstmt]; rfl) (by rw [hstmt]; rfl)
          have hic := hinside.le
          have hrest := ihcode _ stop fs hbehind hfence htop (by omega)
          exact traced_function hc h hp hfence htop hinstr hcstop hblock hnone hrest hstmt
        | loopFor | loopEach | loopWhile =>
          exact hloop (by rw [hstmt]; rfl) (by rw [hstmt]; rfl) (by rw [hstmt]; rfl)
        | branch test =>
          have hheader : instr.stmt.isHeader := by rw [hstmt]; rfl
          have hblock := Walk.closerOf_eq h hp hinstr hheader
          obtain ⟨e, hlast⟩ := (h.chain i).closed h hp hblock
          obtain ⟨hestop, hbehind⟩ := hwalk.after h hp hblock hlt hlast
          have hcstop := hwalk.region.closed hblock (Nat.le_refl i) hlt
          have hle := h.le_lastClause i
          have hlate := (h.block_lt hlast).1
          have hat : m.program.closer (m.program.lastClause m.program.size i) = e := by rw [Program.closer, hlast]; rfl
          have hbody := ihcode _ _ _ (.body h hp hblock hinstr hheader) (hfence.branch hblock (by omega) true) (by omega)
            (by omega)
          have hothers := ihclauses i _ e stop fs hwalk.region hfence htop hlt (by omega) hblock hlast
          simp only [hat]
          refine traced_branch hosts hc h hp hblock hlast hbody hothers hinstr hstmt hestop htop ?_
          exact ihcode _ stop fs hbehind hfence htop (by omega)
        | otherwise test closes =>
          have hnot := hwalk.level.not_otherwise h hp hinstr hlt
          rw [hstmt] at hnot
          cases hnot
        | _ =>
          refine traced_simple hosts hc h hp hfence htop hinstr hlt (by rw [hstmt]; rfl) ?_
          exact ihcode (i + 1) stop fs (hwalk.step h hlt hinstr (by rw [hstmt]; rfl)) hfence htop (by omega)
      · obtain rfl : i = stop := Nat.le_antisymm hwalk.le hge
        rw [if_neg (Nat.lt_irrefl i)]
        exact fun w w' htwin hat => .here htwin hat
    · intro o c e stop fs hregion hfence htop hlt hfuel hblock hlast
      rw [Program.clauses]
      cases hnext : m.program.nextClause[o]? with
      | none =>
        intro w w' htwin hmissed
        rw [Program.lastClause_of_none hnext, hblock] at hlast
        obtain rfl := Option.some.inj hlast
        simp only [Missed, hnext] at hmissed
        exact .here htwin hmissed
      | some j =>
        obtain ⟨instr, hinstr, hkind⟩ := h.nextClause_lt hnext
        obtain ⟨test, closes, hstmt⟩ := Stmt.eq_otherwise hkind
        have hheader := Stmt.isHeader_of_isOtherwise hkind
        have hblockj := Walk.closerOf_eq h hp hinstr hheader
        have hoj := h.lt_nextClause hnext
        have hjstop := hregion.clause h hnext (Nat.le_refl o) hlt
        have hcjstop := hregion.closed hblockj (by omega) hjstop
        rw [h.lastClause_next hnext] at hlast
        have hlastlt := (hregion.lastClause h (Nat.le_of_lt hoj) hjstop)
        have hestop := hregion.closed hlast (by omega) hlastlt.2
        have hbody := ihcode _ _ _ (.body h hp hblockj hinstr hheader) (hfence.branch hblockj (by omega) true) (by omega)
          (by omega)
        have hregionj : m.program.Region j stop :=
          ⟨hregion.bounded, fun hb hlo hhi => hregion.closed hb (by omega) hhi, hregion.closing⟩
        have hothers := ihclauses j _ e stop fs hregionj hfence htop hjstop (by omega) hblockj hlast
        simp only [hinstr, hstmt]
        exact traced_clause hosts hc h hp hblockj hlast hbody hothers hinstr hstmt hblock hnext (by omega)

theorem traced_tree (hwalk : Walk m.program i stop) (htop : stop ≤ top) (htwin : w.Twin w') (hat : w.current.At i []) :
    Simulates m host course rounds w (fun b w₁ => Landed m.program stop [] b w₁.current)
      (((m.program.tree i stop).run m.limits.strict host' rounds false).outcome w') := by
  have hbounded := hwalk.region.bounded
  have hfence : Fenced m.program stop [] := ⟨nofun, nofun⟩
  exact (traced_code hosts hc h hp _).1 i stop [] hwalk hfence htop (by omega) w w' htwin hat

end Tree

end Stepwise
