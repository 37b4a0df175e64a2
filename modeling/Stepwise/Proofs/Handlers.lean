import Stepwise.Proofs.BlockTree
import Stepwise.Proofs.Simulation

/-!
# Instructions and the statements they stand for

What one instruction does, with its jumps and frames, matches what the structured evaluation does at that place. Each
lemma also says where the activation stands after it.
-/

namespace Stepwise

open Exec

variable {l : Limits} {host host' : Host} {p : Program} {i c o j next stop : Nat} {fs : List Frame} {w w' w₁ : World}
  {instr : Instruction}

/-! ### Positions -/

/-- Where a completed statement leaves the activation, with the next statement at `next`: a jump has left the frames up
to the innermost loop, and goes past it or to its end. -/
def Landed (p : Program) (next : Nat) (fs : List Frame) : Completion → Activation → Prop
  | .normal, a => a.At next fs
  | .jump .leave, a => ∃ o l outer c, Activation.loopFrames fs = .loop o l :: outer ∧ p.closerOf[o]? = some c ∧
    a.At (c + 1) outer
  | .jump .again, a => ∃ o l outer c, Activation.loopFrames fs = .loop o l :: outer ∧ p.closerOf[o]? = some c ∧
    a.At c (.loop o l :: outer)
  | .returned, a => a.returned.isSome ∧ a.function.isSome

/-- The innermost frame and the innermost loop do not end before `stop`. -/
structure Fenced (p : Program) (stop : Nat) (fs : List Frame) : Prop where
  head {f : Frame} {c : Nat} : fs.head? = some f → p.closerOf[f.opener]? = some c → stop ≤ c
  loop {o : Nat} {l : Loop} {outer : List Frame} : Activation.loopFrames fs = .loop o l :: outer →
    ∃ c, p.closerOf[o]? = some c ∧ stop ≤ c

/-- A jump ahead, made when the next instruction is before its target. -/
theorem Activation.at_skip {a : Activation} (hskip : a.skip = some j) (hframes : a.frames = fs)
    (hrunning : a.returned = none) (hle : next ≤ j) : At { a with ip := next } j fs := by
  refine ⟨?_, hframes, hrunning⟩
  simp only [Activation.nextIndex, hskip]
  exact Nat.max_eq_right hle

theorem outcome_blockEnd (hblock : p.closerOf[i]? = some c) (w : World) :
    (liftM (p.blockEnd i) : Exec Nat).outcome w = (.ok c, w) := by
  rw [outcome_liftBlock, Program.blockEnd, hblock]

theorem loopFrames_cases (fs : List Frame) :
    Activation.loopFrames fs = [] ∨ ∃ o l outer, Activation.loopFrames fs = .loop o l :: outer := by
  induction fs with
  | nil => exact .inl rfl
  | cons f fs ih =>
    cases f with
    | loop o l => exact .inr ⟨o, l, fs, rfl⟩
    | branch o taken => exact ih

/-! ### Statements without a block -/

theorem matched_jump (htwin : w.Twin w') (hstands : w.current.Stands fs) (hfence : Fenced p stop fs) (hlt : i < stop) (jump : Jump) :
    Matched l (fun next b w₁ => Landed p (i + 1) fs b (w₁.goTo next).current) ((runJump p i jump).outcome w)
      ((jump.perform !(Activation.loopFrames fs).isEmpty).outcome w') := by
  unfold runJump
  rw [outcome_bind_ok (outcome_get w), hstands.frames]
  rcases loopFrames_cases fs with hnone | ⟨o, inner, outer, hloop⟩
  · rw [hnone]
    exact .fault htwin
  · obtain ⟨c, hblock, hle⟩ := hfence.loop hloop
    rw [hloop]
    cases jump <;> simp only [outcome_bind, outcome_activation, outcome_blockEnd hblock, skipTo, outcome_pure]
    all_goals
      refine .done (htwin.move rfl rfl) ⟨o, inner, outer, c, hloop, hblock, Activation.at_skip rfl rfl hstands.running ?_⟩
      omega

section

variable (hosts : host.Echo l host') (htwin : w.Twin w') (hstands : w.current.Stands fs) {test : Expr} {inner : Loop}

include hosts htwin hstands

theorem matched_return (e : Option Expr) :
    Matched l (fun next b w₁ => Landed p (i + 1) fs b (w₁.goTo next).current)
      ((do runReturn host e; return i + 1 : Exec Nat).outcome w) ((performReturn host' e).outcome w') := by
  have hvalue := Matched.built hosts (.evalOptional hosts.functions e) htwin
  rw [performReturn, runReturn, runReturn, bind_assoc, bind_assoc]
  refine hvalue.bind ?_
  rintro v _ w₁ w₁' htwin₁ ⟨rfl, hcurrent⟩
  have hstands₁ := hcurrent ▸ hstands
  simp only [outcome_bind, outcome_get, ← htwin₁.function]
  cases hfunction : w₁.current.function with
  | none =>
    have hrunning : w₁'.current.returned = none := htwin₁.returned ▸ hstands₁.running
    simp only [declare, outcome_modify, outcome_pure, hrunning]
    exact .done { htwin₁ with store := by rw [htwin₁.store] } (hstands₁.at (i + 1))
  | some f =>
    exact .done { htwin₁ with returned := rfl } ⟨rfl, by rw [World.goTo, hfunction]; rfl⟩

/-- An action or a declaration, after which the next instruction follows. -/
theorem matched_forward {x x' : Exec Unit} (hx : (Setting.plain host host').Safe () x x') :
    Matched l (fun next b w₁ => Landed p (i + 1) fs b (w₁.goTo next).current) ((do x; return i + 1 : Exec Nat).outcome w)
      ((do x'; return Completion.normal : Exec Completion).outcome w') := by
  refine (Matched.built hosts hx htwin).bind ?_
  rintro _ _ w₁ w₁' htwin₁ ⟨-, hcurrent⟩
  exact .done htwin₁ ((hcurrent ▸ hstands).at (i + 1))

theorem matched_guarded (hfence : Fenced p stop fs) (hlt : i < stop) (strict : Bool) {body : Guarded}
    (hstmt : instr.stmt = .guarded test body) :
    Matched l (fun next b w₁ => Landed p (i + 1) fs b (w₁.goTo next).current) ((runGuarded p host i test body).outcome w)
      ((instr.perform strict host' !(Activation.loopFrames fs).isEmpty).outcome w') := by
  unfold Instruction.perform
  rw [hstmt]
  refine (Matched.built hosts (.holds hosts.functions (some test)) htwin).bind ?_
  rintro holds _ w₁ w₁' htwin₁ ⟨rfl, hcurrent⟩
  have hstands₁ := hcurrent ▸ hstands
  cases holds with
  | false => exact .done htwin₁ (hstands₁.at (i + 1))
  | true =>
    cases body with
    | ret e => exact matched_return hosts htwin₁ hstands₁ e
    | jump jump => exact matched_jump htwin₁ hstands₁ hfence hlt jump
    | act a => exact matched_forward hosts htwin₁ hstands₁ (.action hosts.functions a)

omit hosts in
theorem matched_unsupported (hopens : instr.opens = false) (strict : Bool) (why : SyntaxError) :
    Matched l (fun next b w₁ => Landed p (i + 1) fs b (w₁.goTo next).current) ((runUnsupported p strict i instr why).outcome w)
      ((instr.warn strict why).outcome w') := by
  unfold runUnsupported Instruction.warn
  cases strict with
  | true => exact .fault htwin
  | false =>
    have hwarned (text : Text) : World.Twin { w with warnings := w.warnings.push text }
        { w' with warnings := w'.warnings.push text } := { htwin with warnings := by rw [htwin.warnings] }
    cases hblock : p.closerOf[i]? with
    | none => exact .done (hwarned _) (hstands.at (i + 1))
    | some c =>
      rw [hopens]
      exact .done (hwarned _) (hstands.at (i + 1))

omit hosts htwin in
theorem run_close (hfence : Fenced p stop fs) (h : p.Indexed) (hlt : i < stop) :
    (runClose p host i).outcome w = (.ok (i + 1), w) := by
  unfold runClose
  rw [outcome_bind_ok (outcome_get w), hstands.frames]
  have hstays {f : Frame} (hf : fs.head? = some f) : p.openerOf[i]? ≠ some f.opener := by
    intro hopener
    have := hfence.head hf (h.opener_iff.mp hopener)
    omega
  cases fs with
  | nil => rfl
  | cons f outer =>
    cases f with
    | loop o l =>
      have hnot : p.openerOf[i]? ≠ some o := hstays rfl
      simp only [if_neg hnot, outcome_pure]
    | branch o taken =>
      have hnot : ¬ (p.openerOf[i]? = some o ∧ p.nextClause[o]?.isNone) := fun hboth => hstays rfl hboth.1
      simp only [if_neg hnot, outcome_pure]

theorem matched_simple (hfence : Fenced p stop fs) (h : p.Indexed) (hp : p.WellFormed) (hlt : i < stop) (strict : Bool)
    (hinstr : p.instructions[i]? = some instr) (hheader : instr.stmt.isHeader = false) :
    Matched l (fun next b w₁ => Landed p (i + 1) fs b (w₁.goTo next).current) ((instr.run p strict host i).outcome w)
      ((instr.perform strict host' !(Activation.loopFrames fs).isEmpty).outcome w') := by
  have hvalid := hp.valid hinstr
  have hsupported := hp.supported hinstr
  unfold Instruction.run
  cases hstmt : instr.stmt with
  | noop =>
    simp only [Instruction.perform, hstmt]
    exact .done htwin (hstands.at (i + 1))
  | close =>
    simp only [Instruction.perform, hstmt]
    rw [run_close hstands hfence h hlt]
    exact .done htwin (hstands.at (i + 1))
  | ret e =>
    simp only [Instruction.perform, hstmt]
    exact matched_return hosts htwin hstands e
  | declare kind decls =>
    simp only [Instruction.perform, hstmt]
    exact matched_forward hosts htwin hstands (.declareAll hosts.functions kind decls)
  | act a =>
    simp only [Instruction.perform, hstmt]
    exact matched_forward hosts htwin hstands (.action hosts.functions a)
  | jump jump =>
    simp only [Instruction.perform, hstmt]
    exact matched_jump htwin hstands hfence hlt jump
  | guarded test body => exact matched_guarded hosts htwin hstands hfence hlt strict hstmt
  | unsupported why =>
    simp only [Instruction.perform, hstmt]
    exact matched_unsupported htwin hstands (hsupported (by rw [hstmt]; rfl)) strict why
  | invalid why =>
    rw [hstmt] at hvalid
    cases hvalid
  | _ =>
    rw [hstmt] at hheader
    cases hheader

/-! ### Loops -/

/-- A loop has begun at `i`, or its body is passed over. -/
def Begun (i c : Nat) (fs : List Frame) : Option Loop → Activation → Prop
  | some inner, a => a.At (i + 1) (.loop i inner :: fs)
  | none, a => a.At c fs

omit hosts htwin in
/-- The header of a loop has entered the body or jumped to its end. -/
theorem begun_enterLoop (hcurrent : w₁.current = w.current) (hlt : i < c) (inner : Loop) (enter : Bool) :
    ∃ w₂, (enterLoop i c inner enter).outcome w₁ = (.ok (i + 1), w₂) ∧ (∀ w₂', w₁.Twin w₂' → w₂.Twin w₂') ∧
      Begun i c fs (if enter then some inner else none) (w₂.goTo (i + 1)).current := by
  have hstands₁ := hcurrent ▸ hstands
  rw [outcome_enterLoop]
  refine ⟨_, rfl, ?_⟩
  cases enter with
  | true => exact ⟨fun _ htwin => htwin.move rfl rfl, (hstands₁.push _).at (i + 1)⟩
  | false => exact ⟨fun _ htwin => htwin.move rfl rfl, Activation.at_skip rfl hstands₁.frames hstands₁.running hlt⟩

theorem matched_tested (hlt : i < c) (inner : Loop) (test : Option Expr) :
    Matched l (fun next b w₁ => Begun i c fs b (w₁.goTo next).current)
      ((do enterLoop i c inner (← holds host test) : Exec Nat).outcome w)
      ((do return if ← holds host' test then some inner else none : Exec (Option Loop)).outcome w') := by
  refine (Matched.built hosts (.holds hosts.functions test) htwin).bind ?_
  rintro b _ w₁ w₁' htwin₁ ⟨rfl, hcurrent⟩
  obtain ⟨w₂, hrun, htwin₂, hbegun⟩ := begun_enterLoop hstands hcurrent hlt inner b
  rw [hrun]
  exact .done (htwin₂ _ htwin₁) hbegun

theorem matched_beginLoop (hlt : i < c) (hblock : p.closerOf[i]? = some c) (strict : Bool) (hkind : instr.stmt.isLoop) :
    Matched l (fun next b w₁ => Begun i c fs b (w₁.goTo next).current) ((instr.run p strict host i).outcome w)
      ((instr.stmt.beginLoop host').outcome w') := by
  unfold Instruction.run
  cases hstmt : instr.stmt with
  | loopWhile test =>
    simp only [runWhile, Stmt.beginLoop]
    rw [outcome_bind_ok (outcome_blockEnd hblock w)]
    exact matched_tested hosts htwin hstands hlt _ _
  | loopFor init test update =>
    simp only [runFor, Stmt.beginLoop]
    rw [outcome_bind_ok (outcome_blockEnd hblock w)]
    cases init with
    | none => exact matched_tested hosts htwin hstands hlt _ _
    | some init =>
      refine (Matched.built hosts (.forInit hosts.functions init) htwin).bind ?_
      rintro _ _ w₁ w₁' htwin₁ ⟨-, hcurrent⟩
      exact matched_tested hosts htwin₁ (hcurrent ▸ hstands) hlt _ _
  | loopEach decl name mode collection =>
    simp only [runEach, Stmt.beginLoop]
    rw [outcome_bind_ok (outcome_blockEnd hblock w)]
    refine (Matched.built hosts (.eval hosts.functions _ collection) htwin).bind ?_
    rintro v _ w₁ w₁' htwin₁ ⟨rfl, hcurrent₁⟩
    refine (Matched.built hosts (.loopItems mode v) htwin₁).bind ?_
    rintro items _ w₂ w₂' htwin₂ ⟨rfl, hcurrent₂⟩
    have hcurrent := hcurrent₂.trans hcurrent₁
    have hempty : (!items.isEmpty) = (items.get? 0).isSome := by
      rw [Sequence.isEmpty, Sequence.size_eq, Sequence.get?_eq]
      cases items.toList <;> rfl
    rw [hempty]
    cases items.get? 0 with
    | none =>
      obtain ⟨w₃, hrun, htwin₃, hbegun⟩ := begun_enterLoop hstands hcurrent hlt (.each items 0 name decl) false
      rw [Option.isSome_none, hrun]
      exact .done (htwin₃ _ htwin₂) hbegun
    | some first =>
      refine (Matched.built hosts (.bindItem name decl first) htwin₂).bind ?_
      rintro _ _ w₃ w₃' htwin₃ ⟨-, hcurrent₃⟩
      obtain ⟨w₄, hrun, htwin₄, hbegun⟩ :=
        begun_enterLoop hstands (hcurrent₃.trans hcurrent) hlt (.each items 0 name decl) true
      rw [Option.isSome_some, hrun]
      exact .done (htwin₄ _ htwin₃) hbegun
  | _ =>
    rw [hstmt] at hkind
    cases hkind

/-- A loop goes on in its body, or is left behind. -/
def Repeated (o c : Nat) (fs : List Frame) : Option Loop → Activation → Prop
  | some inner, a => a.At (o + 1) (.loop o inner :: fs)
  | none, a => a.At (c + 1) fs

omit hosts htwin hstands in
theorem matched_again (again : Bool) (htwin : w.Twin w') (hstands : w.current.Stands (.loop o inner :: fs)) :
    Matched l (fun next b w₁ => Repeated o c fs b (w₁.goTo next).current)
      ((do
        if again then return o + 1
        popFrame
        return c + 1 : Exec Nat).outcome w)
      ((return if again then some inner else none : Exec (Option Loop)).outcome w') := by
  cases again with
  | true => exact .done htwin (hstands.at (o + 1))
  | false => exact .done (htwin.move rfl rfl) (hstands.pop.at (c + 1))

omit hstands in
theorem matched_goOn (hstands : w.current.Stands (.loop o inner :: fs)) (hopener : p.openerOf[c]? = some o)
    (strict : Bool) (hstmt : instr.stmt = .close) :
    Matched l (fun next b w₁ => Repeated o c fs b (w₁.goTo next).current) ((instr.run p strict host c).outcome w)
      ((inner.goOn host').outcome w') := by
  have hrun : (instr.run p strict host c).outcome w = (loopBack host c o inner).outcome w := by
    simp only [Instruction.run, hstmt, runClose, outcome_bind, outcome_get, hstands.frames, hopener, if_true]
  rw [hrun]
  unfold loopBack Loop.goOn
  cases inner with
  | counted test update =>
    cases update with
    | none =>
      refine (Matched.built hosts (.holds hosts.functions test) htwin).bind ?_
      rintro again _ w₁ w₁' htwin₁ ⟨rfl, hcurrent⟩
      exact matched_again again htwin₁ (hcurrent ▸ hstands)
    | some a =>
      refine (Matched.built hosts (.action hosts.functions a) htwin).bind ?_
      rintro _ _ w₁ w₁' htwin₁ ⟨-, hcurrent₁⟩
      refine (Matched.built hosts (.holds hosts.functions test) htwin₁).bind ?_
      rintro again _ w₂ w₂' htwin₂ ⟨rfl, hcurrent₂⟩
      exact matched_again again htwin₂ (hcurrent₂.trans hcurrent₁ ▸ hstands)
  | whilst test =>
    refine (Matched.built hosts (.holds hosts.functions (some test)) htwin).bind ?_
    rintro again _ w₁ w₁' htwin₁ ⟨rfl, hcurrent⟩
    exact matched_again again htwin₁ (hcurrent ▸ hstands)
  | each items position name decl =>
    obtain ⟨a, hset, hnext, hfunction, hreturned⟩ : ∃ a : Activation,
        (setFrame (.loop o (.each items (position + 1) name decl))).outcome w = (.ok (), { w with current := a }) ∧
        a.Stands (.loop o (.each items (position + 1) name decl) :: fs) ∧ a.function = w.current.function ∧
        a.returned = w.current.returned := ⟨_, rfl, hstands.set _, rfl, rfl⟩
    have htwin₀ : World.Twin { w with current := a } w' := htwin.move hfunction hreturned
    dsimp only
    rw [outcome_bind_ok hset]
    cases items.get? (position + 1) with
    | none => exact matched_again false htwin₀ hnext
    | some v =>
      refine (Matched.built hosts (.bindItem name decl v) htwin₀).bind ?_
      rintro _ _ w₁ w₁' htwin₁ ⟨-, hcurrent⟩
      exact matched_again true htwin₁ (hcurrent ▸ hnext)

/-! ### Conditionals -/

/-- The clause at `o` is not taken: the next one is reached through the end of its block, or there is none. -/
def Missed (p : Program) (o c : Nat) (fs : List Frame) (a : Activation) : Prop :=
  match p.nextClause[o]? with
  | some _ => a.At c (.branch o false :: fs)
  | none => a.At (c + 1) fs

/-- The clause at `o` is taken or not. -/
def Chosen (p : Program) (o c : Nat) (fs : List Frame) (taken : Bool) (a : Activation) : Prop :=
  if taken then a.At (o + 1) (.branch o true :: fs) else Missed p o c fs a

theorem matched_branch (hlt : i < c) (hblock : p.closerOf[i]? = some c) (strict : Bool)
    (hstmt : instr.stmt = .branch test) :
    Matched l (fun next b w₁ => Chosen p i c fs b (w₁.goTo next).current) ((instr.run p strict host i).outcome w)
      ((holds host' (some test)).outcome w') := by
  have hrun : instr.run p strict host i = runBranch p host i test := by rw [Instruction.run, hstmt]
  have hright : (holds host' (some test)).outcome w' = (holds host' (some test) >>= pure).outcome w' := by rw [bind_pure]
  rw [hrun, hright, runBranch, outcome_bind_ok (outcome_blockEnd hblock w)]
  refine (Matched.built hosts (.holds hosts.functions (some test)) htwin).bind ?_
  rintro taken _ w₁ w₁' htwin₁ ⟨rfl, hcurrent⟩
  have hstands₁ := hcurrent ▸ hstands
  cases taken with
  | true => exact .done (htwin₁.move rfl rfl) ((hstands₁.push _).at (i + 1))
  | false =>
    cases hnext : p.nextClause[i]? with
    | none =>
      refine .done (htwin₁.move rfl rfl) ?_
      simp only [Chosen, Missed, hnext, Bool.false_eq_true, if_false]
      exact Activation.at_skip rfl hstands₁.frames hstands₁.running (by omega)
    | some j =>
      refine .done (htwin₁.move rfl rfl) ?_
      simp only [Chosen, Missed, hnext, Bool.false_eq_true, if_false]
      exact Activation.at_skip rfl (hstands₁.push _).frames hstands₁.running (by omega)

omit hstands in
/-- A further clause of a conditional of which none has been taken. -/
theorem matched_otherwise (hstands : w.current.Stands (.branch o false :: fs)) (hlt : j < c) (hlink : p.prevClause[j]? = some o)
    (hblock : p.closerOf[j]? = some c) (strict : Bool) {test : Option Expr} {closes : Bool}
    (hstmt : instr.stmt = .otherwise test closes) :
    Matched l (fun next b w₁ => Chosen p j c fs b (w₁.goTo next).current) ((instr.run p strict host j).outcome w)
      ((holds host' test).outcome w') := by
  have hrun : (instr.run p strict host j).outcome w =
      (do enterClause p host j c test; return j + 1 : Exec Nat).outcome w := by
    simp only [Instruction.run, hstmt, runOtherwise, outcome_bind, outcome_get, hstands.frames, hlink, bne_self_eq_false,
      Bool.false_eq_true, if_false, outcome_blockEnd hblock]
  have hright : (holds host' test).outcome w' = (holds host' test >>= pure).outcome w' := by rw [bind_pure]
  obtain ⟨a, hset, hnow, hfunction, hreturned⟩ : ∃ a : Activation,
      (setFrame (.branch j false)).outcome w = (.ok (), { w with current := a }) ∧
      a.Stands (.branch j false :: fs) ∧ a.function = w.current.function ∧ a.returned = w.current.returned :=
    ⟨_, rfl, hstands.set _, rfl, rfl⟩
  have htwin₀ : World.Twin { w with current := a } w' := htwin.move hfunction hreturned
  rw [hrun, hright, enterClause, bind_assoc, outcome_bind_ok hset, bind_assoc]
  refine (Matched.built hosts (.holds hosts.functions test) htwin₀).bind ?_
  rintro taken _ w₁ w₁' htwin₁ ⟨rfl, hcurrent⟩
  have hstands₁ : w₁.current.Stands (.branch j false :: fs) := hcurrent ▸ hnow
  cases taken with
  | true => exact .done (htwin₁.move rfl rfl) ((hstands₁.set _).at (j + 1))
  | false =>
    cases hnext : p.nextClause[j]? with
    | none =>
      refine .done (htwin₁.move rfl rfl) ?_
      simp only [Chosen, Missed, hnext, Bool.false_eq_true, if_false]
      exact Activation.at_skip rfl hstands₁.pop.frames hstands₁.running (by omega)
    | some k =>
      refine .done (htwin₁.move rfl rfl) ?_
      simp only [Chosen, Missed, hnext, Bool.false_eq_true, if_false]
      exact Activation.at_skip rfl hstands₁.frames hstands₁.running (by omega)

omit hosts hstands in
/-- A further clause of a conditional of which one has been taken: the rest of the conditional is passed over. -/
theorem run_otherwise {e : Nat} (hstands : w.current.Stands (.branch o true :: fs)) (hlt : j < e)
    (hlink : p.prevClause[j]? = some o) (hblock : p.closerOf[j]? = some c)
    (hlast : p.closerOf[p.lastClause p.size j]? = some e) (strict : Bool) (hkind : instr.stmt.isOtherwise) :
    ∃ next w₁, (instr.run p strict host j).outcome w = (.ok next, w₁) ∧ w₁.Twin w' ∧ (w₁.goTo next).current.At (e + 1) fs := by
  obtain ⟨test, closes, hstmt⟩ := Stmt.eq_otherwise hkind
  have hrun : (instr.run p strict host j).outcome w = (.ok (j + 1), { w with
      current := { w.current with frames := w.current.frames.tail, skip := some (e + 1) } }) := by
    simp only [Instruction.run, hstmt, runOtherwise, outcome_bind, outcome_get, hstands.frames, hlink, bne_self_eq_false,
      Bool.false_eq_true, if_false, if_true, outcome_blockEnd hblock, popFrame, outcome_activation, Program.chainEnd,
      outcome_blockEnd hlast, skipTo, outcome_pure]
  exact ⟨_, _, hrun, htwin.move rfl rfl, Activation.at_skip rfl hstands.pop.frames hstands.running (by omega)⟩

end

end Stepwise
