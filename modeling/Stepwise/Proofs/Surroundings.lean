import Stepwise.Proofs.BlockIndex
import Stepwise.Proofs.CustodyEval
import Stepwise.Proofs.Parallel

/-!
# What an execution leaves alone

Evaluating an expression, with all the calls in it, leaves the current activation and its callers as they are, and
executing an instruction leaves the callers and the function of the activation. Output and warnings are only ever
appended to, and steps of calls are only added to the count. All this holds also when the execution ends in a fault.
-/

namespace Stepwise

open List

theorem Array.extract_of_prefix {α : Type} {a b : Array α} (h : a.toList <+: b.toList) : b.extract 0 a.size = a := by
  apply Array.ext'
  rw [Array.toList_extract, extract_eq_take_drop, drop_zero, Nat.sub_zero]
  exact (prefix_iff_eq_take.mp h).symm

namespace World

variable {u v w w' : World}

/-- What stays while an expression is evaluated. -/
structure Around (w w' : World) : Prop where
  current : w'.current = w.current
  callers : w'.callers = w.callers
  output : w.output.toList <+: w'.output.toList
  warnings : w.warnings.toList <+: w'.warnings.toList
  steps : w.callSteps ≤ w'.callSteps

/-- What stays while an instruction is executed. -/
structure Beside (w w' : World) : Prop where
  function : w'.current.function = w.current.function
  callers : w'.callers = w.callers
  output : w.output.toList <+: w'.output.toList
  warnings : w.warnings.toList <+: w'.warnings.toList
  steps : w.callSteps ≤ w'.callSteps

/-- What stays while the count of steps can begin anew. -/
structure Apart (w w' : World) : Prop where
  function : w'.current.function = w.current.function
  callers : w'.callers = w.callers
  output : w.output.toList <+: w'.output.toList
  warnings : w.warnings.toList <+: w'.warnings.toList

theorem Around.refl (w : World) : Around w w := ⟨rfl, rfl, prefix_rfl, prefix_rfl, Nat.le_refl _⟩

theorem Around.trans (h : Around u v) (h' : Around v w) : Around u w :=
  ⟨h'.current.trans h.current, h'.callers.trans h.callers, h.output.trans h'.output, h.warnings.trans h'.warnings,
    Nat.le_trans h.steps h'.steps⟩

theorem Beside.refl (w : World) : Beside w w := ⟨rfl, rfl, prefix_rfl, prefix_rfl, Nat.le_refl _⟩

theorem Beside.trans (h : Beside u v) (h' : Beside v w) : Beside u w :=
  ⟨h'.function.trans h.function, h'.callers.trans h.callers, h.output.trans h'.output, h.warnings.trans h'.warnings,
    Nat.le_trans h.steps h'.steps⟩

theorem Apart.refl (w : World) : Apart w w := ⟨rfl, rfl, prefix_rfl, prefix_rfl⟩

theorem Apart.trans (h : Apart u v) (h' : Apart v w) : Apart u w :=
  ⟨h'.function.trans h.function, h'.callers.trans h.callers, h.output.trans h'.output, h.warnings.trans h'.warnings⟩

theorem Around.beside (h : Around w w') : Beside w w' :=
  ⟨by rw [h.current], h.callers, h.output, h.warnings, h.steps⟩

theorem Beside.apart (h : Beside w w') : Apart w w' := ⟨h.function, h.callers, h.output, h.warnings⟩

end World

open Exec World

variable {α β : Type} {host host' : Host} {warns : Text → Prop}

/-- The calls of a host leave alone what is around them. -/
def Host.Discreet (host : Host) : Prop :=
  ∀ name f args, host.function? name = some f → Keeps Around (host.call f args)

theorem Host.idle_discreet (functions : OrderedMap Function) : (Host.idle functions).Discreet :=
  fun _ _ _ _ => .of_const .refl fun _ => rfl

theorem Exec.Parallel.around (hhost : host.Discreet) {x x' : Exec α} (h : Parallel host host' x x') : Keeps Around x :=
  h.keeps .refl .trans (fun _ _ => ⟨rfl, rfl, prefix_rfl, prefix_rfl, Nat.le_refl _⟩)
    (fun _ _ => ⟨rfl, rfl, prefix_rfl, prefix_rfl, Nat.le_refl _⟩)
    (fun w line => ⟨rfl, rfl, by simp, prefix_rfl, Nat.le_refl _⟩) hhost

/-! ### Instructions -/

/-- What is said about a statement that is ignored. -/
def Instruction.warning (instr : Instruction) : Text :=
  "Line ".codes ++ Text.ofNat (instr.line + 1) ++ ": unsupported statement ignored: ".codes ++ instr.text

theorem Activation.loopFrames_suffix (frames : List Frame) : loopFrames frames <:+ frames := by
  induction frames with
  | nil => exact suffix_rfl
  | cons frame outer ih =>
    cases frame with
    | loop => exact suffix_rfl
    | branch => exact ih.trans (suffix_cons _ _)

/-- The index of the header. -/
def Frame.opener : Frame → Nat
  | .loop o _ => o
  | .branch o _ => o

/-- What an instruction may take for granted and what it may say: which blocks are known to be closed when an activation
is inside of them, which ones it may call unclosed, and which warnings it may give. -/
structure Scene where
  shut : Nat → Prop
  unclosed : UnclosedBlock → Prop
  warns : Text → Prop

/-- The activation is inside blocks only that are known to be closed. -/
def Scene.Inside (S : Scene) (a : Activation) : Prop := ∀ frame ∈ a.frames, S.shut frame.opener

/-- Two computations that are put together in the same way, apart from their hosts, from steps of expressions, changes
of the activation that leave its function alone, warnings, and complaints about blocks. The value is the one that may be
returned. -/
inductive Exec.Staged (S : Scene) (host host' : Host) : {α : Type} → Value → Exec α → Exec α → Prop
  | expr {α : Type} {v : Value} {x x' : Exec α}
      (h : ∀ (C : Custody) (g : C.Ledger), Setting.Safe ⟨C, host, host'⟩ g x x') : Staged S host host' v x x'
  /-- from now on another value may be returned -/
  | given {α : Type} {v : Value} {x x' : Exec Value} {f f' : Value → Exec α}
      (h : ∀ (C : Custody) (g : C.Ledger), Setting.Built ⟨C, host, host'⟩ g x x' C.Sees)
      (rest : ∀ u, Staged S host host' u (f u) (f' u)) : Staged S host host' v (x >>= f) (x' >>= f')
  | move {v : Value} {f : Activation → Activation} (function : ∀ a, (f a).function = a.function)
      (inside : ∀ a, S.Inside a → S.Inside (f a))
      (returned : ∀ a, (f a).returned = a.returned ∨ (f a).returned = some v) :
      Staged S host host' v (Exec.activation f) (Exec.activation f)
  | warn {v : Value} {line : Text} (warns : S.warns line) :
      Staged S host host' v (modify fun w => { w with warnings := w.warnings.push line })
        (modify fun w => { w with warnings := w.warnings.push line })
  | unclosed {α : Type} {v : Value} {b : UnclosedBlock} (unclosed : S.unclosed b) :
      Staged S host host' v (Exec.fail (.unclosedBlock b) : Exec α) (Exec.fail (.unclosedBlock b))
  | look {α : Type} {v : Value} {f f' : World → Exec α}
      (rest : ∀ w w', w.current = w'.current → S.Inside w.current → Staged S host host' v (f w) (f' w')) :
      Staged S host host' v (get >>= f) (get >>= f')
  | seq {α β : Type} {v : Value} {x x' : Exec α} {f f' : α → Exec β} (first : Staged S host host' v x x')
      (rest : ∀ a, Staged S host host' v (f a) (f' a)) : Staged S host host' v (x >>= f) (x' >>= f')

/-- Nothing is known of the blocks, and any of them may be called unclosed. -/
def Scene.free (warns : Text → Prop) : Scene := ⟨fun _ => True, fun _ => True, warns⟩

theorem Scene.inside_free (a : Activation) : (Scene.free warns).Inside a := fun _ _ => trivial

/-- The scene allows what the instruction at an index does. -/
structure Scene.Fits (S : Scene) (p : Program) (i : Nat) (instr : Instruction) (strict strict' : Bool) : Prop where
  shut {o c : Nat} : p.closerOf[o]? = some c → S.shut o
  frame {o : Nat} {b : UnclosedBlock} : S.shut o → p.blockEnd o = .error b → S.unclosed b
  own {b : UnclosedBlock} : instr.stmt.isHeader → p.blockEnd i = .error b → S.unclosed b
  chain {previous : Nat} {b : UnclosedBlock} : p.prevClause[i]? = some previous → p.chainEnd i = .error b → S.unclosed b
  warns {why : SyntaxError} : instr.stmt = .unsupported why → strict = strict' ∧ S.warns instr.warning

theorem Scene.fits_free {p : Program} {i : Nat} {instr : Instruction} {strict strict' : Bool}
    (h : ∀ {why}, instr.stmt = .unsupported why → strict = strict' ∧ warns instr.warning) :
    (Scene.free warns).Fits p i instr strict strict' :=
  ⟨fun _ => trivial, fun _ _ => trivial, fun _ _ => trivial, fun _ _ => trivial, h⟩

namespace Exec.Keeps

theorem seq {x : Exec α} {f : α → Exec β} (hx : Keeps Beside x) (hf : ∀ a, Keeps Beside (f a)) :
    Keeps Beside (x >>= f) := hx.bind .trans hf

theorem look {f : World → Exec α} (hf : ∀ w, Keeps Beside (f w)) : Keeps Beside (get >>= f) :=
  .seq (.of_const .refl fun _ => rfl) hf

end Exec.Keeps

namespace Exec.Staged

variable {S : Scene} {v : Value} {x x' : Exec α} {frame : Frame}

theorem beside (hhost : host.Discreet) (h : Staged (.free warns) host host' v x x') : Keeps Beside x := by
  induction h with
  | expr h => exact fun w => ((h .none ()).parallel.around hhost w).beside
  | given h _ hf => exact .seq (fun w => ((h .none ()).parallel.around hhost w).beside) hf
  | move h _ _ => exact fun _ => ⟨h _, rfl, prefix_rfl, prefix_rfl, Nat.le_refl _⟩
  | warn _ => exact fun _ => ⟨rfl, rfl, prefix_rfl, by simp, Nat.le_refl _⟩
  | unclosed _ => exact .of_const .refl fun _ => rfl
  | look _ ih => exact .look fun w => ih w w rfl (Scene.inside_free _)
  | seq _ _ hx hf => exact .seq hx hf

theorem done (a : α) : Staged S host host' v (pure a) (pure a) := .expr fun _ _ => .done trivial

theorem fail (c : Cause) (h : c.line = none) : Staged S host host' v (Exec.fail c : Exec α) (Exec.fail c) :=
  .expr fun _ _ => .fail c h

theorem ite (c : Prop) [Decidable c] {y y' : Exec α} (yes : Staged S host host' v x x')
    (no : Staged S host host' v y y') : Staged S host host' v (if c then x else y) (if c then x' else y') := by
  split
  · exact yes
  · exact no

theorem check (c : Prop) [Decidable c] {x : Exec PUnit} {rest rest' : PUnit → Exec α} (bad : Staged S host host' v x x)
    (good : Staged S host host' v (rest ⟨⟩) (rest' ⟨⟩)) :
    Staged S host host' v (if c then x >>= rest else rest ⟨⟩) (if c then x >>= rest' else rest' ⟨⟩) :=
  .ite c (.seq bad fun _ => good) good

theorem blockEnd {p : Program} {o : Nat} {f f' : Nat → Exec α} (bad : ∀ {b}, p.blockEnd o = .error b → S.unclosed b)
    (good : ∀ c, p.closerOf[o]? = some c → Staged S host host' v (f c) (f' c)) :
    Staged S host host' v (liftM (p.blockEnd o) >>= f) (liftM (p.blockEnd o) >>= f') := by
  unfold Program.blockEnd at bad ⊢
  cases hblock : p.closerOf[o]? with
  | some c => exact good c hblock
  | none =>
    rw [hblock] at bad
    exact .unclosed (bad rfl)

theorem skipTo (target : Nat) : Staged S host host' v (Exec.skipTo target) (Exec.skipTo target) :=
  .move (fun _ => rfl) (fun _ h => h) fun _ => .inl rfl

theorem popFrame : Staged S host host' v Exec.popFrame Exec.popFrame :=
  .move (fun _ => rfl) (fun _ h frame hframe => h frame (mem_of_mem_tail hframe)) fun _ => .inl rfl

theorem pushFrame (h : S.shut frame.opener) : Staged S host host' v (Exec.pushFrame frame) (Exec.pushFrame frame) :=
  .move (fun _ => rfl) (fun _ ha => forall_mem_cons.mpr ⟨h, ha⟩) fun _ => .inl rfl

theorem setFrame (h : S.shut frame.opener) : Staged S host host' v (Exec.setFrame frame) (Exec.setFrame frame) :=
  .move (fun _ => rfl) (fun _ ha => forall_mem_cons.mpr ⟨h, fun _ hf => ha _ (mem_of_mem_tail hf)⟩)
    fun _ => .inl rfl

theorem enterLoop {i : Nat} (h : S.shut i) (stop : Nat) (loop : Loop) (enter : Bool) :
    Staged S host host' v (Stepwise.enterLoop i stop loop enter) (Stepwise.enterLoop i stop loop enter) :=
  .ite _ (.seq (.pushFrame h) fun _ => .done _) (.seq (.skipTo _) fun _ => .done _)

section Instruction

variable {p : Program} {i : Nat} {instr : Instruction} {strict strict' : Bool}
  (fits : S.Fits p i instr strict strict') (same : host.functions = host'.functions)

include fits

theorem runJump (j : Jump) : Staged S host host' v (Stepwise.runJump p i j) (Stepwise.runJump p i j) := by
  refine .look fun w w' hcurrent hinside => ?_
  rw [← hcurrent]
  split
  · rename_i opener loop outer hframes
    have hsuffix : (.loop opener loop :: outer) <:+ w.current.frames := hframes ▸ Activation.loopFrames_suffix _
    have hshut (frame : Frame) (hframe : frame ∈ .loop opener loop :: outer) : S.shut frame.opener :=
      hinside frame (hsuffix.mem hframe)
    have hend : ∀ {b}, p.blockEnd opener = .error b → S.unclosed b := fits.frame (hshut _ mem_cons_self)
    cases j with
    | leave =>
      refine .seq (.move (fun _ => rfl) (fun _ _ frame hf => hshut frame (mem_cons_of_mem _ hf)) fun _ => .inl rfl)
        fun _ => .blockEnd hend fun _ _ => .seq (.skipTo _) fun _ => .done _
    | again =>
      exact .seq (.move (fun _ => rfl) (fun _ _ => hshut) fun _ => .inl rfl) fun _ => .blockEnd hend fun _ _ =>
        .seq (.skipTo _) fun _ => .done _
  · exact .fail _ (by cases j <;> rfl)

include same

omit fits in
theorem loopBack {opener : Nat} (h : S.shut opener) (loop : Loop) :
    Staged S host host' v (Stepwise.loopBack host i opener loop) (Stepwise.loopBack host' i opener loop) := by
  have goOn (again : Bool) : Staged S host host' v (if again then return opener + 1 else do Exec.popFrame; return i + 1)
      (if again then return opener + 1 else do Exec.popFrame; return i + 1) :=
    .ite _ (.done _) (.seq .popFrame fun _ => .done _)
  have tested (test : Option Expr) : Staged S host host' v (Exec.holds host test) (Exec.holds host' test) :=
    .expr fun _ _ => .holds same test
  cases loop with
  | counted test update =>
    cases update with
    | none => exact .seq (tested test) goOn
    | some a => exact .seq (.expr fun _ _ => .action same a) fun _ => .seq (tested test) goOn
  | whilst test => exact .seq (tested (some test)) goOn
  | each items position name decl =>
    refine .seq (.setFrame h) fun _ => ?_
    cases items.get? (position + 1) with
    | none => exact .seq (.done false) goOn
    | some v => exact .seq (.expr fun _ _ => .bindItem name decl v) fun _ => .seq (.done true) goOn

omit fits in
theorem runClose : Staged S host host' v (Stepwise.runClose p host i) (Stepwise.runClose p host' i) := by
  refine .look fun w w' hcurrent hinside => ?_
  rw [← hcurrent]
  split
  · rename_i o loop outer hframes
    have hshut : S.shut o := hinside (.loop o loop) (by rw [hframes]; exact mem_cons_self)
    exact .ite _ (loopBack same hshut loop) (.done _)
  · exact .ite _ (.seq .popFrame fun _ => .done _) (.done _)
  · exact .done _

omit fits in
theorem runReturn (e : Option Expr) : Staged S host host' v (Stepwise.runReturn host e) (Stepwise.runReturn host' e) := by
  refine .given (fun _ _ => .evalOptional same e) fun u => .look fun w w' hcurrent _ => ?_
  rw [← hcurrent]
  split
  · exact .expr fun _ _ => .declare _ _ _
  · exact .move (fun _ => rfl) (fun _ h => h) fun _ => .inr rfl

theorem runGuarded (test : Expr) (body : Guarded) :
    Staged S host host' v (Stepwise.runGuarded p host i test body) (Stepwise.runGuarded p host' i test body) := by
  refine .seq (.expr fun _ _ => .holds same (some test)) fun holds => .ite _ (.done _) ?_
  cases body with
  | ret e => exact .seq (runReturn same e) fun _ => .done _
  | jump j => exact runJump fits j
  | act a => exact .seq (.expr fun _ _ => .action same a) fun _ => .done _

section Header

variable (hheader : instr.stmt.isHeader)

include hheader

theorem runEach (decl : Option DeclKind) (name : Text) (mode : EachMode) (collection : Expr) :
    Staged S host host' v (Stepwise.runEach p host i decl name mode collection)
      (Stepwise.runEach p host' i decl name mode collection) := by
  refine .blockEnd (fits.own hheader) fun c hblock => .given (fun _ _ => .eval same _ collection) fun v =>
    .seq (.expr fun _ _ => .loopItems mode v) fun items => ?_
  cases items.get? 0 with
  | none => exact enterLoop (fits.shut hblock) _ _ _
  | some first => exact .seq (.expr fun _ _ => .bindItem name decl first) fun _ => enterLoop (fits.shut hblock) _ _ _

theorem runFor (init : Option ForInit) (test : Option Expr) (update : Option Action) :
    Staged S host host' v (Stepwise.runFor p host i init test update) (Stepwise.runFor p host' i init test update) := by
  refine .blockEnd (fits.own hheader) fun c hblock => ?_
  have tested : Staged S host host' v (do Stepwise.enterLoop i c (.counted test update) (← Exec.holds host test))
      (do Stepwise.enterLoop i c (.counted test update) (← Exec.holds host' test)) :=
    .seq (.expr fun _ _ => .holds same test) fun _ => enterLoop (fits.shut hblock) _ _ _
  cases init with
  | none => exact tested
  | some init => exact .seq (.expr fun _ _ => .forInit same init) fun _ => tested

theorem runWhile (test : Expr) :
    Staged S host host' v (Stepwise.runWhile p host i test) (Stepwise.runWhile p host' i test) :=
  .blockEnd (fits.own hheader) fun _ hblock => .seq (.expr fun _ _ => .holds same (some test)) fun _ =>
    enterLoop (fits.shut hblock) _ _ _

theorem runBranch (test : Expr) :
    Staged S host host' v (Stepwise.runBranch p host i test) (Stepwise.runBranch p host' i test) := by
  refine .blockEnd (fits.own hheader) fun c hblock => .seq (.expr fun _ _ => .holds same (some test)) fun _ =>
    .ite _ ?_ (.ite _ ?_ ?_)
  · exact .seq (.pushFrame (fits.shut hblock)) fun _ => .done _
  · exact .seq (.pushFrame (fits.shut hblock)) fun _ => .seq (.skipTo _) fun _ => .done _
  · exact .seq (.skipTo _) fun _ => .done _

omit hheader in
theorem enterClause {c : Nat} (hblock : p.closerOf[i]? = some c) (test : Option Expr) :
    Staged S host host' v (Stepwise.enterClause p host i c test) (Stepwise.enterClause p host' i c test) :=
  .seq (.setFrame (fits.shut hblock)) fun _ => .seq (.expr fun _ _ => .holds same test) fun _ =>
    .ite _ (.setFrame (fits.shut hblock)) <| .ite _ (.skipTo _) (.seq .popFrame fun _ => .skipTo _)

theorem runOtherwise (test : Option Expr) :
    Staged S host host' v (Stepwise.runOtherwise p host i test) (Stepwise.runOtherwise p host' i test) := by
  refine .look fun w w' hcurrent _ => ?_
  rw [← hcurrent]
  split
  · rename_i hprevious
    refine .check _ (.fail _ rfl) (.blockEnd (fits.own hheader) fun c hblock => .ite _ ?_ ?_)
    · exact .seq .popFrame fun _ => .blockEnd (fits.chain hprevious) fun _ _ => .seq (.skipTo _) fun _ => .done _
    · exact .seq (enterClause fits same hblock test) fun _ => .done _
  · exact .fail _ rfl

end Header

omit fits same in
theorem runUnsupported (strict : Bool) (why : SyntaxError) (hwarns : S.warns instr.warning) :
    Staged S host host' v (Stepwise.runUnsupported p strict i instr why) (Stepwise.runUnsupported p strict i instr why) := by
  unfold Stepwise.runUnsupported
  refine .check _ (.fail _ rfl) (.seq (.warn hwarns) fun _ => ?_)
  cases p.closerOf[i]? with
  | none => exact .done _
  | some c => exact .check _ (.skipTo _) (.done _)

theorem instruction : Staged S host host' v (instr.run p strict host i) (instr.run p strict' host' i) := by
  unfold Instruction.run
  have hheader {s : Stmt} (hstmt : instr.stmt = s) (h : s.isHeader) : instr.stmt.isHeader := hstmt ▸ h
  cases hstmt : instr.stmt with
  | noop => exact .done _
  | block => exact .done _
  | close => exact runClose same
  | otherwise test closes => exact runOtherwise fits same (hheader hstmt rfl) test
  | function name params =>
    exact .blockEnd (fits.own (hheader hstmt rfl)) fun _ _ => .seq (.skipTo _) fun _ => .done _
  | ret e => exact .seq (runReturn same e) fun _ => .done _
  | declare kind decls => exact .seq (.expr fun _ _ => .declareAll same kind decls) fun _ => .done _
  | act a => exact .seq (.expr fun _ _ => .action same a) fun _ => .done _
  | loopFor init test update => exact runFor fits same (hheader hstmt rfl) init test update
  | loopEach decl name mode collection => exact runEach fits same (hheader hstmt rfl) decl name mode collection
  | loopWhile test => exact runWhile fits same (hheader hstmt rfl) test
  | branch test => exact runBranch fits same (hheader hstmt rfl) test
  | guarded test body => exact runGuarded fits same test body
  | jump j => exact runJump fits j
  | unsupported why =>
    obtain ⟨rfl, hwarns⟩ := fits.warns hstmt
    exact runUnsupported strict why hwarns
  | invalid why => exact .fail _ rfl

end Instruction

end Exec.Staged

theorem Instruction.staged (same : host.functions = host'.functions) (p : Program) (i : Nat) (strict : Bool)
    (instr : Instruction) :
    Staged (.free fun _ => True) host host' .undefined (instr.run p strict host i) (instr.run p strict host' i) :=
  .instruction (Scene.fits_free fun _ => ⟨rfl, trivial⟩) same

theorem Instruction.run_beside (hhost : host.Discreet) (p : Program) (i : Nat) (strict : Bool) (instr : Instruction) :
    Keeps Beside (instr.run p strict host i) := (Instruction.staged rfl p i strict instr).beside hhost

theorem runUnsupported_beside (p : Program) (i : Nat) (strict : Bool) (instr : Instruction) (why : SyntaxError) :
    Keeps Beside (runUnsupported p strict i instr why) := by
  have h : Staged (.free fun _ => True) (.idle .empty) (.idle .empty) .undefined (runUnsupported p strict i instr why)
      (runUnsupported p strict i instr why) := .runUnsupported strict why trivial
  exact h.beside (Host.idle_discreet _)

end Stepwise
