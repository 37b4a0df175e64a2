import Stepwise.Proofs.Turn

/-!
# Two runs in lockstep

The same program can be run twice under conditions that differ a little: other limits, another treatment of statements
outside the language, a machine that keeps a tally. A `Pairing` says which worlds of the two runs match and by which
faults the first run may part from the second; `Follows` says of two computations that, begun in worlds that match, they
have the same result and end in worlds that match, unless the first one has parted. It is put together from the bottom:
expressions (`Follows.expr`), instructions (`Instruction.run_follows`), and bodies and calls.
-/

namespace Stepwise

open Exec World List

variable {α β : Type}

/-- How two runs are held against each other. Whether a fault is one by which the first run parts from the second may
depend on the warnings that the second one ends up with. -/
structure Pairing where
  alike : World → World → Prop
  parts : Fault → Array Text → Prop

/-- The two worlds differ at most in output and warnings. -/
structure World.Abreast (w w' : World) : Prop where
  store : w.store = w'.store
  random : w.random = w'.random
  current : w.current = w'.current
  callers : w.callers = w'.callers
  callSteps : w.callSteps = w'.callSteps

theorem World.Abreast.rfl {w : World} : Abreast w w := ⟨.refl _, .refl _, .refl _, .refl _, .refl _⟩

namespace Pairing

/-- What matches goes on matching while both runs do the same, and no fault by which they part is lost on its way out. -/
structure Fair (P : Pairing) : Prop where
  abreast {w w' : World} : P.alike w w' → Abreast w w'
  setStore {w w' : World} (s : Store) : P.alike w w' → P.alike { w with store := s } { w' with store := s }
  setRandom {w w' : World} (r : Twister) : P.alike w w' → P.alike { w with random := r } { w' with random := r }
  setCurrent {w w' : World} (a : Activation) : P.alike w w' → P.alike { w with current := a } { w' with current := a }
  later {f : Fault} {a b : Array Text} : a.toList <+: b.toList → P.parts f a → P.parts f b
  loud {e : Raised} {a : Array Text} : P.parts (.raised e) a → e.cause.kind ≠ .reference
  crosses {f : Fault} {a : Array Text} (line : Nat) (stack : Unit → List Text) :
    P.parts f a → P.parts (f.crossing line stack) a

/-- What matches goes on matching also when a call begins or ends. -/
structure Nested (P : Pairing) : Prop extends P.Fair where
  setCallers {w w' : World} (c : List Caller) : P.alike w w' → P.alike { w with callers := c } { w' with callers := c }

end Pairing

/-- Warnings are only appended to. -/
def World.Warier (w w' : World) : Prop := w.warnings.toList <+: w'.warnings.toList

/-- The second computation follows the first one until that parts from it. -/
structure Exec.Follows (P : Pairing) (x x' : Exec α) : Prop where
  appends : Keeps Warier x'
  meets : Meet P.alike (fun f w => P.parts f w.warnings) x x'

namespace Exec.Follows

variable {P : Pairing} {x x' : Exec α}

theorem of_const {r : Except Fault α} (h : ∀ w, x.outcome w = (r, w)) (h' : ∀ w, x'.outcome w = (r, w)) :
    Follows P x x' := ⟨.of_const (fun _ => prefix_rfl) h', .of_const h h'⟩

theorem done (a : α) : Follows P (pure a) (pure a) := .of_const (fun _ => rfl) fun _ => rfl

theorem fault (f : Fault) : Follows P (throw f : Exec α) (throw f) := .of_const (fun _ => rfl) fun _ => rfl

theorem fail (c : Cause) : Follows P (Exec.fail c : Exec α) (Exec.fail c) := .fault _

theorem ite (c : Prop) [Decidable c] {y y' : Exec α} (yes : Follows P x x') (no : Follows P y y') :
    Follows P (if c then x else y) (if c then x' else y') := by
  split
  · exact yes
  · exact no

section Fair

variable (hP : P.Fair)
include hP

theorem bind {f f' : α → Exec β} (hx : Follows P x x') (hf : ∀ a, Follows P (f a) (f' a)) :
    Follows P (x >>= f) (x' >>= f') where
  appends := .bind List.IsPrefix.trans hx.appends fun a => (hf a).appends
  meets := hx.meets.bind (fun a => (hf a).meets) fun a w _ => hP.later ((hf a).appends w)

theorem tryCatch {handle handle' : Fault → Exec α} (hx : Follows P x x') (hh : ∀ e, Follows P (handle e) (handle' e))
    (hpass : ∀ e w a, P.parts e a → ∃ e', ((handle e).outcome w).1 = .error e' ∧ P.parts e' a) :
    Follows P (tryCatch x handle) (tryCatch x' handle') where
  appends := .tryCatch List.IsPrefix.trans hx.appends fun e => (hh e).appends
  meets := hx.meets.tryCatch (fun e => (hh e).meets) (fun e w _ => hP.later ((hh e).appends w)) fun e w _ => hpass e w _

theorem look {f f' : World → Exec α} (hf : ∀ w w', Abreast w w' → Follows P (f w) (f' w')) :
    Follows P (get >>= f) (get >>= f') where
  appends := .bind List.IsPrefix.trans (.of_const (fun _ => prefix_rfl) fun _ => rfl) fun w' =>
    (hf w' w' .rfl).appends
  meets w w' hw := by
    exact (hf w w' (hP.abreast hw)).meets hw

theorem activation (f : Activation → Activation) : Follows P (Exec.activation f) (Exec.activation f) where
  appends _ := prefix_rfl
  meets w w' hw := by
    refine .inr ⟨rfl, ?_⟩
    simp only [outcome_activation, (hP.abreast hw).current]
    exact hP.setCurrent _ hw

theorem change (f : Store → Store) : Follows P (modify fun w => { w with store := f w.store })
    (modify fun w => { w with store := f w.store }) where
  appends _ := prefix_rfl
  meets w w' hw := by
    refine .inr ⟨rfl, ?_⟩
    simp only [outcome_modify, (hP.abreast hw).store]
    exact hP.setStore _ hw

theorem typeOf {x x' : Exec Value} (hx : Follows P x x') : Follows P (Eval.typeOf x) (Eval.typeOf x') := by
  refine tryCatch hP (hx.bind hP fun v => .of_const (fun _ => rfl) fun _ => rfl) ?_ ?_
  · intro e
    cases e with
    | raised e => by_cases hk : e.cause.kind = .reference <;> simp only [hk, if_true, if_false] <;>
        exact .of_const (fun _ => rfl) fun _ => rfl
    | breakdown b => exact .of_const (fun _ => rfl) fun _ => rfl
  · intro e w a he
    cases e with
    | raised e => exact ⟨.raised e, by simp [hP.loud he], he⟩
    | breakdown b => exact ⟨.breakdown b, rfl, he⟩

end Fair

end Exec.Follows

/-! ### Expressions -/

/-- The hosts of the two runs have the same functions, write lines alike and make calls that follow each other. -/
structure Pairing.Hosts (P : Pairing) (host host' : Host) : Prop where
  same : host.functions = host'.functions
  emit (line : Text) : Follows P (Exec.emit host.outputLimit line) (Exec.emit host'.outputLimit line)
  call (f : Function) (args : List Value) : Follows P (host.call f args) (host'.call f args)

variable {P : Pairing} {host host' : Host} {x x' : Exec α}

theorem Exec.Follows.expr (hP : P.Fair) (hosts : P.Hosts host host') (h : Parallel host host' x x') :
    Follows P x x' := by
  induction h with
  | done a => exact .done a
  | fault _ => exact .fault _
  | seq _ _ hx hf => exact hx.bind hP hf
  | look _ hf =>
    exact .look hP fun w w' h => hf w w' h.store h.random
  | change f => exact .change hP f
  | draw r => exact ⟨fun _ => prefix_rfl, fun _ _ hw => .inr ⟨rfl, hP.setRandom r hw⟩⟩
  | write line => exact hosts.emit line
  | typed _ hx => exact hx.typeOf hP
  | tidied f _ hx =>
    refine .tryCatch hP hx (fun e => (Follows.change hP f).bind hP fun _ => .fault e) fun e w a he => ?_
    exact ⟨e, rfl, he⟩
  | ask name args found => exact hosts.call _ args

/-! ### Instructions -/

namespace Exec.Follows

variable {x x' : Exec α}

theorem check (hP : P.Fair) (c : Prop) [Decidable c] {x x' : Exec PUnit} {rest rest' : PUnit → Exec α}
    (bad : Follows P x x') (good : Follows P (rest ⟨⟩) (rest' ⟨⟩)) :
    Follows P (if c then x >>= rest else rest ⟨⟩) (if c then x' >>= rest' else rest' ⟨⟩) :=
  .ite c (bad.bind hP fun _ => good) good

end Exec.Follows

theorem Exec.Follows.staged (hP : P.Fair) (hosts : P.Hosts host host') {v : Value}
    (h : Staged (.free fun _ => False) host host' v x x') : Follows P x x' := by
  induction h with
  | expr h => exact .expr hP hosts (h .none ()).parallel
  | given h _ hf => exact .bind hP (.expr hP hosts (h .none ()).parallel) hf
  | move _ _ _ => exact .activation hP _
  | warn h => exact h.elim
  | unclosed _ => exact .fail _
  | look _ ih => exact .look hP fun w w' h => ih w w' h.current (Scene.inside_free _)
  | seq _ _ hx hf => exact .bind hP hx hf

/-- Instructions follow each other, but for statements outside the language, which the runs may treat differently. -/
theorem Instruction.run_follows (hP : P.Fair) (hosts : P.Hosts host host') (p : Program) (i : Nat) (strict strict' : Bool)
    (instr : Instruction) (hsupported : ∀ why, instr.stmt ≠ .unsupported why) :
    Follows P (instr.run p strict host i) (instr.run p strict' host' i) := by
  have hstaged : Staged (.free fun _ => False) host host' .undefined (instr.run p strict host i)
      (instr.run p strict' host' i) := .instruction (Scene.fits_free fun h => absurd h (hsupported _)) hosts.same
  exact .staged hP hosts hstaged

/-! ### Statements outside the language -/

theorem Instruction.warning_ne_nil (instr : Instruction) : instr.warning ≠ [] := by
  have hline : "Line ".codes ≠ [] := by decide
  simp [Instruction.warning, hline]

theorem runUnsupported_follows (hP : P.Fair) (p : Program) (i : Nat) (strict : Bool) (instr : Instruction) (why : SyntaxError)
    (hwarn : ∀ {w w' : World} {t : Text}, t ≠ [] → P.alike w w' →
      P.alike { w with warnings := w.warnings.push t } { w' with warnings := w'.warnings.push t }) :
    Follows P (runUnsupported p strict i instr why) (runUnsupported p strict i instr why) := by
  have hpush : Follows P (modify fun w => { w with warnings := w.warnings.push instr.warning })
      (modify fun w => { w with warnings := w.warnings.push instr.warning }) := by
    refine ⟨fun w => ?_, fun _ _ hw => .inr ⟨rfl, hwarn instr.warning_ne_nil hw⟩⟩
    show w.warnings.toList <+: (w.warnings.push instr.warning).toList
    simp
  unfold runUnsupported
  refine .check hP _ (.fail _) (.bind hP hpush fun _ => ?_)
  cases p.closerOf[i]? with
  | none => exact .done _
  | some c => exact .check hP _ (.activation hP _) (.done _)

/-! ### Bodies and calls -/

/-- An instruction as it is executed: a fault that leaves it gets its line and the call stack. -/
def Exec.onLine (line : Nat) (x : Exec α) : Exec α :=
  tryCatch x fun fault => do
    let w ← get
    throw (fault.crossing line fun _ => w.callStack)

theorem Exec.heed_bind (passed : Except Breakdown Bool) (cause : Cause) (x : Exec α) :
    (do
      if ← passed then Exec.fail cause
      x) = (do if ← passed then Exec.fail cause) >>= fun _ => x := by
  rw [bind_assoc]
  refine bind_congr fun passed => ?_
  cases passed <;> simp

theorem Exec.emit_some (limit : Limit) (line : Text) :
    Exec.emit (some limit) line = (do
      let w ← get
      if ← limit.isReached w.output.size then Exec.fail (.outputLimit limit)
      modify fun w => { w with output := w.output.push line }) := rfl

theorem Exec.warnings_emit (limit : Option Limit) (line : Text) (w : World) :
    ((Exec.emit limit line).outcome w).2.warnings = w.warnings := by
  cases limit with
  | none => rfl
  | some limit =>
    simp only [Exec.emit, outcome_bind, outcome_get, outcome_liftBreakdown]
    rcases limit.isReached w.output.size with b | reached
    · rfl
    · cases reached <;> rfl

namespace Exec.Follows

variable {x x' : Exec α}

theorem onLine (hP : P.Fair) (line : Nat) (hx : Follows P x x') : Follows P (x.onLine line) (x'.onLine line) := by
  refine hx.tryCatch hP (fun e => .look hP fun w w' h => ?_) fun e w a he => ?_
  · rw [callStack, callStack, h.current, h.callers]
    exact .fault _
  · exact ⟨e.crossing line fun _ => w.callStack, rfl, hP.crosses line _ he⟩

/-- The two runs ask the same question, or the first one parts by the answer to its own. -/
theorem heed {passed passed' : Except Breakdown Bool} {cause cause' : Cause}
    (h : (passed = .ok true ∧ ∀ a, P.parts (.of cause) a) ∨ (passed = passed' ∧ (passed = .ok true → cause = cause'))) :
    Follows P (do if ← passed then Exec.fail cause) (do if ← passed' then Exec.fail cause') where
  appends w := by
    rcases passed' with b | passed'
    · exact prefix_rfl
    · cases passed' <;> exact prefix_rfl
  meets w w' hw := by
    rcases h with ⟨rfl, hparts⟩ | ⟨rfl, hcause⟩
    · exact .inl ⟨.of cause, rfl, hparts _⟩
    · rcases passed with b | passed
      · exact .inr ⟨rfl, hw⟩
      · cases passed with
        | false => exact .inr ⟨rfl, hw⟩
        | true =>
          rw [hcause rfl]
          exact .inr ⟨rfl, hw⟩

end Exec.Follows

namespace Machine

variable (hP : P.Fair) {m m' : Machine} {c c' : Course} {f : Function}
include hP

theorem execute_follows (hosts : P.Hosts host host') (hprogram : m.program = m'.program) (i : Nat)
    (hunsupported : ∀ instr why, m.program.instructions[i]? = some instr → instr.stmt = .unsupported why →
      Follows P (m.execute host i) (m'.execute host' i)) : Follows P (m.execute host i) (m'.execute host' i) := by
  cases hinstr : m.program.instructions[i]? with
  | none =>
    rw [execute, execute, ← hprogram, hinstr]
    exact .fault _
  | some instr =>
    by_cases hsupported : ∃ why, instr.stmt = .unsupported why
    · obtain ⟨why, hwhy⟩ := hsupported
      exact hunsupported instr why hinstr hwhy
    · have hrun := Instruction.run_follows hP hosts m.program i m.limits.strict m'.limits.strict instr
        fun why h => hsupported ⟨why, h⟩
      rw [execute, execute, ← hprogram, hinstr]
      exact hrun.onLine hP _

theorem unsupported_follows (hprogram : m.program = m'.program) (hstrict : m.limits.strict = m'.limits.strict)
    (hwarn : ∀ {w w' : World} {t : Text}, t ≠ [] → P.alike w w' →
      P.alike { w with warnings := w.warnings.push t } { w' with warnings := w'.warnings.push t })
    {i : Nat} {instr : Instruction} {why : SyntaxError} (found : m.program.instructions[i]? = some instr)
    (stmt : instr.stmt = .unsupported why) : Follows P (m.execute host i) (m'.execute host' i) := by
  have hrun : Follows P (instr.run m.program m.limits.strict host i) (instr.run m.program m.limits.strict host' i) := by
    simp only [Instruction.run, stmt]
    exact runUnsupported_follows hP m.program i m.limits.strict instr why hwarn
  rw [execute, execute, ← hprogram, ← hstrict, found]
  exact hrun.onLine hP _

theorem turn_follows (hended : ∀ a, c.ended a = c'.ended a) (hcharge : Follows P c.charge c'.charge)
    (hexecute : ∀ i, Follows P (m.execute host i) (m'.execute host' i)) :
    Follows P (m.turn host c) (m'.turn host' c') := by
  refine .bind hP (.activation hP _) fun _ => .look hP fun w w' h => ?_
  dsimp only
  rw [h.current, hended]
  refine .ite _ (.done _) (.bind hP hcharge fun _ => .bind hP (hexecute _) fun _ => ?_)
  exact .bind hP (.activation hP _) fun _ => .done _

/-- With less fuel the first run may run out of it. -/
theorem drive_follows (hturn : Follows P (m.turn host c) (m'.turn host' c')) {fuel fuel' : Nat} (hle : fuel ≤ fuel')
    (hspent : fuel < fuel' → ∀ a, P.parts (.breakdown .exhausted) a) :
    Follows P (m.drive host c fuel) (m'.drive host' c' fuel') := by
  induction fuel' generalizing fuel with
  | zero =>
    obtain rfl := Nat.le_zero.mp hle
    exact .fault _
  | succ fuel' ih =>
    cases fuel with
    | zero =>
      have happends := (ih (Nat.zero_le fuel') fun _ => hspent (Nat.succ_pos _)).appends
      refine ⟨.bind List.IsPrefix.trans hturn.appends fun again => ?_, fun _ _ _ => .inl ⟨_, rfl, hspent (Nat.succ_pos _) _⟩⟩
      cases again with
      | false => exact fun _ => prefix_rfl
      | true => exact happends
    | succ fuel =>
      have hrest := ih (Nat.le_of_succ_le_succ hle) fun hlt => hspent (Nat.succ_lt_succ hlt)
      exact .bind hP hturn fun again => .ite _ hrest (.done _)

end Machine

namespace Machine

variable (hP : P.Nested) {f : Function}
include hP

theorem enter_follows (args : List Value) : Follows P (enter f args) (enter f args) where
  appends _ := prefix_rfl
  meets w w' hw := by
    have h := hP.abreast hw
    refine .inr ⟨rfl, ?_⟩
    simp only [enter, outcome_modify, h.store, h.current, h.callers]
    exact hP.setCallers _ (hP.setCurrent _ (hP.setStore _ hw))

theorem leave_follows : Follows P leave leave where
  appends w := by
    show Warier w (leave.outcome w).2
    simp only [leave, outcome_modify]
    split <;> exact prefix_rfl
  meets w w' hw := by
    have h := hP.abreast hw
    refine .inr ⟨rfl, ?_⟩
    simp only [leave, outcome_modify, h.callers, h.store]
    cases w'.callers with
    | nil => exact hw
    | cons caller outer => exact hP.setCallers _ (hP.setCurrent _ (hP.setStore _ hw))

theorem called_follows (args : List Value) {body body' : Exec Value} (hbody : Follows P body body') :
    Follows P (called f args body) (called f args body') := by
  refine .bind hP.toFair (enter_follows hP args) fun _ => .bind hP.toFair ?_ fun v => .bind hP.toFair (leave_follows hP) fun _ => .done v
  refine hbody.tryCatch hP.toFair (fun e => .bind hP.toFair (leave_follows hP) fun _ => .fault e) fun e w a he => ?_
  exact ⟨e, rfl, he⟩

end Machine

/-! ### Calls along other courses -/

namespace Machine

variable {m : Machine}

/-- Run the body of a function along a course; the result is what it returned. -/
def finishAlong (m : Machine) (host : Host) (c : Course) : Exec Value := do
  m.drive host c (m.limits.callSteps.room - (← get).callSteps + 2)
  return (← get).current.returned.getD .undefined

/-- Call a function, with the bodies of functions driven along the given courses. -/
def callAlong (m : Machine) (course : Function → Course) (limit : Option Limit) : Nat → Function → List Value → Exec Value
  | 0, _, _ => throw (.breakdown .exhausted)
  | depth + 1, f, args => do
    if ← m.limits.callDepth.isPassed ((← get).callers.length + 1) then Exec.fail .callDepth
    called f args (m.finishAlong ⟨m.program.functions, m.callAlong course limit depth, limit⟩ (course f))

/-- What the expressions of the program find around them when bodies are driven along the given courses. -/
def hostAlong (m : Machine) (course : Function → Course) (limit : Option Limit) (depth : Nat) : Host :=
  ⟨m.program.functions, m.callAlong course limit depth, limit⟩

theorem finish_eq_finishAlong (host : Host) (f : Function) : m.finish host f = m.finishAlong host (m.bodyCourse f) := by
  refine bind_congr fun w => ?_
  rw [runBody_eq_drive]

theorem call_eq_callAlong (limit : Option Limit) (depth : Nat) : m.call limit depth = m.callAlong m.bodyCourse limit depth := by
  induction depth with
  | zero => rfl
  | succ depth ih =>
    funext f args
    rw [call_succ, callAlong, ih, finish_eq_finishAlong]

theorem bodyHost_eq_hostAlong (limit : Option Limit) (depth : Nat) :
    m.bodyHost limit depth = m.hostAlong m.bodyCourse limit depth := by
  rw [bodyHost, hostAlong, call_eq_callAlong]

end Machine

/-- The two machines execute the same program, and where one of them refuses to go on the other does so, too, or the
runs part. -/
structure Pairing.Machines (P : Pairing) (m m' : Machine) (course course' : Function → Course) (limit limit' : Option Limit) :
    Prop where
  program : m.program = m'.program
  emit (line : Text) : Follows P (Exec.emit limit line) (Exec.emit limit' line)
  depth (n : Nat) : Follows P (do if ← m.limits.callDepth.isPassed n then Exec.fail .callDepth)
    (do if ← m'.limits.callDepth.isPassed n then Exec.fail .callDepth)
  ended (f : Function) (a : Activation) : (course f).ended a = (course' f).ended a
  charge (f : Function) : Follows P (course f).charge (course' f).charge
  room : m.limits.callSteps.room ≤ m'.limits.callSteps.room
  spent : m.limits.callSteps.room < m'.limits.callSteps.room → ∀ a, P.parts (.breakdown .exhausted) a
  unsupported {host host' : Host} {i : Nat} {instr : Instruction} {why : SyntaxError}
    (found : m.program.instructions[i]? = some instr) (stmt : instr.stmt = .unsupported why) :
    Follows P (m.execute host i) (m'.execute host' i)

namespace Pairing.Machines

variable {m m' : Machine} {course course' : Function → Course} {limit limit' : Option Limit}
  (h : P.Machines m m' course course' limit limit')
include h

theorem execute (hP : P.Fair) (hosts : P.Hosts host host') (i : Nat) : Follows P (m.execute host i) (m'.execute host' i) :=
  Machine.execute_follows hP hosts h.program i fun _ _ => h.unsupported

theorem turn (hP : P.Fair) (hosts : P.Hosts host host') (f : Function) :
    Follows P (m.turn host (course f)) (m'.turn host' (course' f)) :=
  Machine.turn_follows hP (h.ended f) (h.charge f) (h.execute hP hosts)

theorem finish (hP : P.Fair) (hosts : P.Hosts host host') (f : Function) :
    Follows P (m.finishAlong host (course f)) (m'.finishAlong host' (course' f)) := by
  refine .look hP fun w w' hw => .bind hP ?_ fun _ => .look hP fun v v' hv => ?_
  · rw [hw.callSteps]
    have hroom := h.room
    refine Machine.drive_follows hP (h.turn hP hosts f) ?_ fun hlt => h.spent ?_
    · omega
    · omega
  · rw [hv.current]
    exact .done _

theorem hosts (hP : P.Nested) {depth depth' : Nat} (hle : depth ≤ depth')
    (hspent : depth < depth' → ∀ a, P.parts (.breakdown .exhausted) a) :
    P.Hosts (m.hostAlong course limit depth) (m'.hostAlong course' limit' depth') := by
  refine ⟨congrArg Program.functions h.program, h.emit, fun f args => ?_⟩
  show Follows P (m.callAlong course limit depth f args) (m'.callAlong course' limit' depth' f args)
  induction depth' generalizing depth f args with
  | zero =>
    obtain rfl := Nat.le_zero.mp hle
    exact .fault _
  | succ depth' ih =>
    have hrest {d : Nat} (hd : d ≤ depth') (hs : d < depth' → ∀ a, P.parts (.breakdown .exhausted) a) :
        P.Hosts (m.hostAlong course limit d) (m'.hostAlong course' limit' depth') :=
      ⟨congrArg Program.functions h.program, h.emit, ih hd hs⟩
    have hcalled {d : Nat} (hd : d ≤ depth') (hs : d < depth' → ∀ a, P.parts (.breakdown .exhausted) a) :=
      Machine.called_follows hP (f := f) args (h.finish hP.toFair (hrest hd hs) f)
    cases depth with
    | zero =>
      have happends := (hcalled (Nat.zero_le depth') fun _ => hspent (Nat.succ_pos _)).appends
      refine ⟨?_, fun _ _ _ => .inl ⟨_, rfl, hspent (Nat.succ_pos _) _⟩⟩
      refine .bind List.IsPrefix.trans (.of_const (fun _ => prefix_rfl) fun _ => rfl) fun w => ?_
      rw [Exec.heed_bind]
      exact .bind List.IsPrefix.trans (h.depth _).appends fun _ => happends
    | succ depth =>
      refine .look hP.toFair fun w w' hw => ?_
      rw [hw.callers, Exec.heed_bind, Exec.heed_bind]
      refine (h.depth (w'.callers.length + 1)).bind hP.toFair fun _ => hcalled (Nat.le_of_succ_le_succ hle) fun hlt => ?_
      exact hspent (Nat.succ_lt_succ hlt)

end Pairing.Machines

theorem Pairing.Machines.bodyHosts {m m' : Machine} {limit limit' : Option Limit}
    (h : P.Machines m m' m.bodyCourse m'.bodyCourse limit limit') (hP : P.Nested) {depth depth' : Nat} (hle : depth ≤ depth')
    (hspent : depth < depth' → ∀ a, P.parts (.breakdown .exhausted) a) :
    P.Hosts (m.bodyHost limit depth) (m'.bodyHost limit' depth') := by
  rw [Machine.bodyHost_eq_hostAlong, Machine.bodyHost_eq_hostAlong]
  exact h.hosts hP hle hspent

end Stepwise
