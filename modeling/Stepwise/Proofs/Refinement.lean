import Stepwise.Proofs.Commands
import Stepwise.Proofs.Statements
import Stepwise.Proofs.Tracing

/-!
# The machine refines the structured evaluation

The turns of a function body do what the evaluation of its tree does, unless they run out of steps; by induction on how
deep calls are nested, so do calls (`Machine.call_agrees`). Then the turns of the program do what the evaluation of the
whole tree does, and one ends when the other does.
-/

namespace Stepwise

open Exec

namespace Machine

variable {m : Machine} {host host' : Host} {c : Course} {f : Function} {limit : Option Limit} {rounds : Nat}
  {u v w w' : World} {r : Except Fault Unit} {k : Nat} {name : Text}

/-! ### Executions up to their end -/

/-- The turns from a world on come to an end, with a result and in a last world. -/
inductive Ends (m : Machine) (host : Host) (c : Course) : World → Except Fault Unit → World → Prop
  | past {u v : World} (last : (m.turn host c).outcome u = (.ok false, v)) : Ends m host c u (.ok ()) v
  | fault {u v : World} {fault : Fault} (last : (m.turn host c).outcome u = (.error fault, v)) :
      Ends m host c u (.error fault) v
  | next {u v w : World} {r : Except Fault Unit} (first : (m.turn host c).outcome u = (.ok true, v))
      (rest : Ends m host c v r w) : Ends m host c u r w

theorem Turns.ends (h : m.Turns host c k u v) (hends : m.Ends host c v r w) : m.Ends host c u r w := by
  induction h with
  | zero => exact hends
  | succ first _ ih => exact .next first (ih hends)

theorem turn_of_ended (hended : c.ended w.current.resolved = true) :
    (m.turn host c).outcome w = (.ok false, { w with current := w.current.resolved }) := by
  simp only [turn, outcome_bind, outcome_activation, outcome_get, hended, if_true, outcome_pure]

theorem Ends.drive (h : m.Ends host c u r w) : ∃ n, ∀ fuel, n ≤ fuel → (m.drive host c fuel).outcome u = (r, w) := by
  induction h with
  | past last =>
    refine ⟨1, fun fuel hle => ?_⟩
    obtain ⟨fuel, rfl⟩ := Nat.exists_eq_add_of_le' hle
    rw [Machine.drive, outcome_bind_ok last]
    rfl
  | fault last =>
    refine ⟨1, fun fuel hle => ?_⟩
    obtain ⟨fuel, rfl⟩ := Nat.exists_eq_add_of_le' hle
    rw [Machine.drive, outcome_bind_error last]
  | next first _ ih =>
    obtain ⟨n, hn⟩ := ih
    refine ⟨n + 1, fun fuel hle => ?_⟩
    obtain ⟨fuel, rfl⟩ := Nat.exists_eq_add_of_le' (Nat.le_of_add_left_le hle)
    rw [Machine.drive, outcome_bind_ok first]
    exact hn fuel (by omega)

theorem Ends.unique {r' : Except Fault Unit} (h : m.Ends host c u r w) (h' : m.Ends host c u r' w') : r = r' ∧ w = w' := by
  obtain ⟨n, hn⟩ := h.drive
  obtain ⟨n', hn'⟩ := h'.drive
  have hsame := (hn (max n n') (Nat.le_max_left n n')).symm.trans (hn' (max n n') (Nat.le_max_right n n'))
  exact ⟨congrArg Prod.fst hsame, congrArg Prod.snd hsame⟩

/-! ### The two courses -/

theorem mainCourse_runs (m : Machine) : m.mainCourse.Runs m.limits m.program.size where
  ended _ := decide_eq_true_iff
  charge _ := .inr ⟨0, rfl⟩

theorem bodyCourse_runs (m : Machine) (f : Function) : (m.bodyCourse f).Runs m.limits f.stop where
  ended {a} hrunning := by
    show (a.returned.isSome || decide (f.stop ≤ a.ip)) = true ↔ f.stop ≤ a.ip
    simp [hrunning]
  charge w := by
    have hcharge : (m.bodyCourse f).charge.outcome w = (do
        if ← m.limits.callSteps.isPassed (w.callSteps + 1) then Exec.fail (.callSteps f.name m.limits.callSteps) :
        Exec Unit).outcome { w with callSteps := w.callSteps + 1 } := rfl
    rw [hcharge, outcome_bind, outcome_liftBreakdown]
    cases hpassed : m.limits.callSteps.isPassed (w.callSteps + 1) with
    | error why => exact .inl ⟨.breakdown why, _, rfl, .inr ⟨w.callSteps + 1, hpassed⟩⟩
    | ok passed =>
      cases passed with
      | true => exact .inl ⟨.of (.callSteps f.name m.limits.callSteps), _, rfl, f.name, rfl⟩
      | false => exact .inr ⟨w.callSteps + 1, rfl⟩

section Tree

variable (h : m.program.Indexed) (hp : m.program.WellFormed)

include h hp

theorem main_simulates (rounds : Nat) (hosts : host.Echo m.limits host') (htwin : w.Twin w') (hmain : w.current = .main) :
    Simulates m host m.mainCourse rounds w (fun b w₁ => Landed m.program m.program.size [] b w₁.current)
      (((m.program.tree 0 m.program.size).run m.limits.strict host' rounds false).outcome w') := by
  have hwalk : Walk m.program 0 m.program.size := ⟨h.region_all, .zero _, Nat.zero_le _⟩
  exact traced_tree hosts m.mainCourse_runs h hp hwalk (Nat.le_refl _) htwin (hmain ▸ ⟨rfl, rfl, rfl⟩)

theorem body_simulates (hosts : host.Echo m.limits host') (hname : m.program.functions.get? name = some f)
    (htwin : w.Twin w') (hbody : w.current = .ofFunction f) :
    Simulates m host (m.bodyCourse f) rounds w (fun b w₁ => Landed m.program f.stop [] b w₁.current)
      (((m.program.tree (f.start + 1) f.stop).run m.limits.strict host' rounds false).outcome w') := by
  have hblock := h.function hname
  obtain ⟨instr, hinstr, hfunction⟩ := h.function_header hname
  have hwalk : Walk m.program (f.start + 1) f.stop := .body h hp hblock hinstr (Stmt.isHeader_of_isFunction hfunction)
  exact traced_tree hosts (m.bodyCourse_runs f) h hp hwalk (Nat.le_refl _) htwin (hbody ▸ ⟨rfl, rfl, rfl⟩)

end Tree

/-! ### The end of a simulation -/

theorem landed_nil {p : Program} {stop : Nat} {b : Completion} {a : Activation} (h : Landed p stop [] b a) :
    (b = .normal ∧ a.At stop []) ∨ (a.returned.isSome ∧ a.function.isSome) := by
  cases b with
  | normal => exact .inl ⟨rfl, h⟩
  | returned => exact .inr h
  | jump jump =>
    cases jump with
    | leave =>
      obtain ⟨o, l, outer, c, hloop, -⟩ := h
      cases hloop
    | again =>
      obtain ⟨o, l, outer, c, hloop, -⟩ := h
      cases hloop

theorem Turns.apart (hhost : host.Discreet) (hcharge : c.Counts) (h : m.Turns host c k u v) : World.Apart u v := by
  induction h with
  | zero w => exact .refl w
  | succ first _ ih => exact (apart_of_turn hhost hcharge first).trans ih

theorem Turns.drive_cases (h : m.Turns host c k u v) (fuel : Nat) :
    (∃ w, (m.drive host c fuel).outcome u = (.error (.breakdown .exhausted), w)) ∨
      ∃ left, (m.drive host c fuel).outcome u = (m.drive host c (left + 1)).outcome v := by
  rcases Nat.lt_or_ge k fuel with hlt | hge
  · obtain ⟨left, rfl⟩ := Nat.exists_eq_add_of_lt hlt
    exact .inr ⟨left, h.drive (left + 1)⟩
  · exact .inl (h.drive_exhausted hge)

/-- The driver matches what its turns simulate, when that is not cut off before the driver runs out of fuel. -/
theorem matched_drive {α : Type} {P : α → World → Prop} {o : Except Fault α × World}
    (h : Simulates m host c rounds w P o) (hends : ∀ a w₁, P a w₁ → c.ended w₁.current.resolved = true) {fuel : Nat}
    (hle : fuel ≤ rounds) : Matched m.limits (fun _ _ _ => True) ((m.drive host c fuel).outcome w) o := by
  have hspent : m.limits.Spent (.breakdown .exhausted) := .inl rfl
  cases h with
  | spent turns last spent =>
    rcases turns.drive_cases fuel with ⟨w₁, hdrive⟩ | ⟨left, hdrive⟩ <;> rw [hdrive]
    · exact .spent hspent
    · rw [drive, outcome_bind_error last]
      exact .spent spent
  | cut turns =>
    obtain ⟨w₁, hdrive⟩ := turns.drive_exhausted hle
    rw [hdrive]
    exact .spent hspent
  | fault turns last twin =>
    rcases turns.drive_cases fuel with ⟨w₁, hdrive⟩ | ⟨left, hdrive⟩ <;> rw [hdrive]
    · exact .spent hspent
    · rw [drive, outcome_bind_error last]
      exact .fault twin
  | done turns twin ends =>
    rcases turns.drive_cases fuel with ⟨w₁, hdrive⟩ | ⟨left, hdrive⟩ <;> rw [hdrive]
    · exact .spent hspent
    · rw [drive, outcome_bind_ok (turn_of_ended (hends _ _ ends))]
      exact .done (twin.move rfl rfl) trivial

/-! ### Calls -/

theorem matched_finish (h : m.program.Indexed) (hp : m.program.WellFormed) (hosts : host.Echo m.limits host')
    (hrounds : m.limits.callSteps.room + 2 ≤ rounds) (hname : m.program.functions.get? name = some f)
    (htwin : w.Twin w') (hbody : w.current = .ofFunction f) :
    Matched m.limits (fun a b _ => a = b) ((m.finish host f).outcome w) ((m.evalBody rounds host' f).outcome w') := by
  have hfuel : m.limits.callSteps.room - w.callSteps + 2 ≤ rounds := by omega
  have hdrive := matched_drive (body_simulates h hp hosts hname htwin hbody) (fun b w₁ hlanded => ?_) hfuel
  · rw [finish, outcome_bind_ok (outcome_get w), runBody_eq_drive, evalBody]
    refine hdrive.bind fun _ b w₁ w₁' htwin₁ _ => ?_
    show Matched m.limits _ (.ok (w₁.current.returned.getD .undefined), w₁) (.ok (w₁'.current.returned.getD .undefined), w₁')
    rw [htwin₁.returned]
    exact .done htwin₁ rfl
  · rcases landed_nil hlanded with ⟨-, hat⟩ | ⟨hreturned, -⟩
    · exact ((bodyCourse_runs m f).ended (a := w₁.current.resolved) hat.running).mpr (Nat.le_of_eq hat.next.symm)
    · show (w₁.current.returned.isSome || _) = true
      rw [hreturned, Bool.true_or]

theorem twin_enter (htwin : w.Twin w') (f : Function) (args : List Value) :
    ((enter f args).outcome w).2.Twin ((enter f args).outcome w').2 where
  store := by simp only [enter, outcome_modify, htwin.store]
  output := htwin.output
  warnings := htwin.warnings
  random := htwin.random
  function := rfl
  returned := rfl
  callers := by
    simp only [enter, outcome_modify, List.map_cons, Caller.trace, htwin.store, htwin.function, htwin.returned]
    exact congrArg _ htwin.callers

/-- What is seen of the callers is all that a call needs to come back. -/
theorem twin_leave (htwin : w.Twin w') : (leave.outcome w).2.Twin (leave.outcome w').2 := by
  have hcallers := htwin.callers
  rcases hw : w.callers with _ | ⟨caller, outer⟩ <;> rcases hw' : w'.callers with _ | ⟨caller', outer'⟩ <;>
    rw [hw, hw'] at hcallers
  · simpa only [leave, outcome_modify, hw, hw'] using htwin
  · cases hcallers
  · cases hcallers
  · obtain ⟨htrace, houter⟩ := List.cons.inj hcallers
    obtain ⟨hfunction, hreturned, hlocals⟩ : caller.activation.function = caller'.activation.function ∧
        caller.activation.returned = caller'.activation.returned ∧ caller.locals = caller'.locals := by
      simpa [Caller.trace] using htrace
    rw [outcome_leave hw, outcome_leave hw']
    exact ⟨by simp only [htwin.store, hlocals], htwin.output, htwin.warnings, htwin.random, hfunction, hreturned, houter⟩

theorem called_agrees {l : Limits} {args : List Value} {body body' : Exec Value}
    (h : Matched l (fun a b _ => a = b) (body.outcome ((enter f args).outcome w).2)
      (body'.outcome ((enter f args).outcome w').2)) :
    (∃ fault, ((called f args body).outcome w).1 = .error fault ∧ l.Spent fault) ∨
      ((called f args body).outcome w).1 = ((called f args body').outcome w').1 ∧
        ((called f args body).outcome w).2.Twin ((called f args body').outcome w').2 := by
  rw [outcome_called, outcome_called]
  generalize body.outcome _ = o at h ⊢
  generalize body'.outcome _ = o' at h ⊢
  cases h with
  | spent hspent => exact .inl ⟨_, rfl, hspent⟩
  | fault htwin => exact .inr ⟨rfl, twin_leave htwin⟩
  | done htwin hsame => exact .inr ⟨congrArg Except.ok hsame, twin_leave htwin⟩

/-- Calls do what the evaluation of the body as a tree does, unless they run out of steps. -/
theorem call_agrees (h : m.program.Indexed) (hp : m.program.WellFormed) (limit : Option Limit)
    (hrounds : m.limits.callSteps.room + 2 ≤ rounds) (depth : Nat)
    (hname : m.program.functions.get? name = some f) (args : List Value) :
    Agree m.limits.Spent World.Twin (m.call limit depth f args) (m.evalCall rounds limit depth f args) := by
  induction depth generalizing name f args with
  | zero => exact agree_iff.mpr (.of_const (fun _ => rfl) fun _ => rfl)
  | succ depth ih =>
    have hosts : (m.bodyHost limit depth).Echo m.limits (m.evalHost rounds limit depth) :=
      ⟨rfl, rfl, bodyHost_discreet, fun _ _ args found => ih found args⟩
    intro w w' htwin
    have hdepth : w.callers.length = w'.callers.length := by
      simpa using congrArg List.length htwin.callers
    have hcalled := matched_finish h hp hosts hrounds hname (twin_enter htwin f args) rfl
    rw [call_succ, evalCall]
    simp only [outcome_bind, outcome_get, outcome_liftBreakdown, hdepth]
    rcases m.limits.callDepth.isPassed (w'.callers.length + 1) with why | passed
    · exact .inr ⟨rfl, htwin⟩
    · cases passed with
      | true => exact .inr ⟨rfl, htwin⟩
      | false => exact called_agrees hcalled

theorem echo_call (h : m.program.Indexed) (hp : m.program.WellFormed) (limit : Option Limit)
    (hrounds : m.limits.callSteps.room + 2 ≤ rounds) (depth : Nat) :
    (m.bodyHost limit depth).Echo m.limits (m.evalHost rounds limit depth) where
  functions := rfl
  outputLimit := rfl
  discreet := bodyHost_discreet
  call _ _ args found := call_agrees h hp limit hrounds depth found args

/-! ### The whole program -/

/-- With enough rounds the structured evaluation has the given result, and ends in a world that looks like the last one. -/
def Evaluates (m : Machine) (limit : Option Limit) (w₀ : World) (r : Except Fault Unit) (w : World) : Prop :=
  ∃ n, ∀ rounds, n ≤ rounds →
    ∃ w', (m.evalMain rounds limit).outcome w₀ = (r.map fun _ => .normal, w') ∧ w.Twin w'

theorem Evaluates.resolved (h : m.Evaluates limit u r { w with current := w.current.resolved }) : m.Evaluates limit u r w := by
  obtain ⟨n, hn⟩ := h
  refine ⟨n, fun rounds hle => ?_⟩
  obtain ⟨w', heval, htwin⟩ := hn rounds hle
  exact ⟨w', heval, htwin.move rfl rfl⟩

section Program

variable (h : m.program.Indexed) (hp : m.program.WellFormed)

include h hp

theorem main_cases (limit : Option Limit) (hrounds : m.limits.callSteps.room + 2 ≤ rounds) (hmain : w.current = .main) :
    (∃ fault w₁, m.Ends (m.host limit) m.mainCourse w (.error fault) w₁ ∧ m.limits.Spent fault) ∨
      (∃ w₁ w', m.Turns (m.host limit) m.mainCourse rounds w w₁ ∧
        (m.evalMain rounds limit).outcome w = (.error (.breakdown .exhausted), w')) ∨
      ∃ r w₁ w', m.Ends (m.host limit) m.mainCourse w r w₁ ∧
        (m.evalMain rounds limit).outcome w = (r.map fun _ => .normal, w') ∧ w₁.Twin w' := by
  have hsimulates := main_simulates h hp rounds (echo_call h hp limit hrounds m.nesting) (.refl w) hmain
  rw [← evalMain] at hsimulates
  generalize (m.evalMain rounds limit).outcome w = o at hsimulates ⊢
  cases hsimulates with
  | spent turns last spent => exact .inl ⟨_, _, turns.ends (.fault last), spent⟩
  | cut turns => exact .inr (.inl ⟨_, _, turns, rfl⟩)
  | fault turns last twin => exact .inr (.inr ⟨_, _, _, turns.ends (.fault last), rfl, twin⟩)
  | @done k w₁ w' b turns twin ends =>
    have hapart := turns.apart (host_discreet limit) mainCourse_counts
    rcases landed_nil ends with ⟨rfl, hat⟩ | ⟨-, hfunction⟩
    · have hended : m.mainCourse.ended w₁.current.resolved = true :=
        (m.mainCourse_runs.ended (a := w₁.current.resolved) hat.running).mpr (Nat.le_of_eq hat.next.symm)
      exact .inr (.inr ⟨.ok (), _, _, turns.ends (.past (turn_of_ended hended)), rfl, twin.move rfl rfl⟩)
    · rw [hapart.function, hmain] at hfunction
      cases hfunction

theorem evaluates_of_ends (hmain : u.current = .main) (hends : m.Ends (m.host limit) m.mainCourse u r w)
    (hspent : ∀ fault, r = .error fault → ¬ m.limits.Spent fault) : m.Evaluates limit u r w := by
  obtain ⟨n, hdrive⟩ := hends.drive
  refine ⟨max n (m.limits.callSteps.room + 2), fun rounds hle => ?_⟩
  have hrounds : m.limits.callSteps.room + 2 ≤ rounds := by omega
  have hturn : n ≤ rounds := by omega
  rcases main_cases h hp limit hrounds hmain with ⟨fault, w₁, hends', hspent'⟩ | ⟨w₁, w', hturns, -⟩ |
    ⟨r', w₁, w', hends', heval, htwin⟩
  · obtain ⟨rfl, -⟩ := hends.unique hends'
    exact absurd hspent' (hspent fault rfl)
  · obtain ⟨w₂, hexhausted⟩ := hturns.drive_exhausted hturn
    rw [hdrive n (Nat.le_refl n)] at hexhausted
    exact absurd (.inl rfl) (hspent _ (congrArg Prod.fst hexhausted))
  · obtain ⟨rfl, rfl⟩ := hends.unique hends'
    exact ⟨w', heval, htwin⟩

theorem ends_of_eval (hrounds : m.limits.callSteps.room + 2 ≤ rounds) (hmain : u.current = .main)
    {b : Except Fault Completion} (heval : (m.evalMain rounds limit).outcome u = (b, w'))
    (hcut : b ≠ .error (.breakdown .exhausted)) :
    ∃ r w, m.Ends (m.host limit) m.mainCourse u r w ∧
      ((∃ fault, r = .error fault ∧ m.limits.Spent fault) ∨ b = (r.map fun _ => .normal) ∧ w.Twin w') := by
  rcases main_cases h hp limit hrounds hmain with ⟨fault, w₁, hends, hspent⟩ | ⟨w₁, w₂, -, hexhausted⟩ |
    ⟨r, w₁, w₂, hends, heval', htwin⟩
  · exact ⟨.error fault, w₁, hends, .inl ⟨fault, rfl, hspent⟩⟩
  · rw [heval] at hexhausted
    exact absurd (congrArg Prod.fst hexhausted) hcut
  · rw [heval] at heval'
    cases heval'
    exact ⟨r, w₁, hends, .inr ⟨rfl, htwin⟩⟩

end Program

/-- Whether the jump ahead has been made does not matter. -/
theorem Ends.of_resolved (h : m.Ends host c { u with current := u.current.resolved } r w) : m.Ends host c u r w := by
  cases h with
  | past last => exact .past last
  | fault last => exact .fault last
  | next first rest => exact .next first rest

theorem line_of_execute {i : Nat} {e : Raised} (h : (m.execute host i).outcome w = (.error (.raised e), w')) :
    e.line.isSome := by
  unfold execute at h
  split at h
  case h_2 => simp at h
  case h_1 instr _ =>
    rw [outcome_tryCatch] at h
    generalize (instr.run m.program m.limits.strict host i).outcome w = o at h
    rcases o with ⟨(⟨cause, place, labels⟩ | why) | next, w₁⟩
    · cases labels <;> cases h <;> rfl
    · cases h
    · cases h

end Machine

/-! ### Sessions -/

namespace Session

variable {s₀ s s' : Session} {b : Bool}

/-- The turns of the program that the session executes come to an end. -/
def Ends (s : Session) (r : Except Fault Unit) (w : World) : Prop :=
  s.machine.Ends s.host s.machine.mainCourse s.world r w

/-- Steps lead from the first session to the second one. -/
structure Passed (s₀ s : Session) : Prop where
  machine : s.machine = s₀.machine
  program : s.program = s₀.program
  settings : s.settings = s₀.settings
  complete : s.complete = true → s.program.size ≤ s.world.current.nextIndex
  running {r : Except Fault Unit} {w : World} : s.error = none → s.Ends r w → s₀.Ends r w
  failed {report : Report} : s.error = some report →
    ∃ e : Raised, s₀.Ends (.error (.raised e)) s.world ∧ e.cause = report.cause ∧ e.line = some report.line

theorem Passed.refl (hcomplete : s.complete = false) (herror : s.error = none) : Passed s s where
  machine := rfl
  program := rfl
  settings := rfl
  complete h := by rw [hcomplete] at h; cases h
  running _ hends := hends
  failed h := by rw [herror] at h; cases h

theorem Passed.step (hprogram : s₀.machine.program = s₀.program) (h : Passed s₀ s) (hrun : s.run step = (.ok b, s')) :
    Passed s₀ s' := by
  have hsame : s.machine.program = s.program := by rw [h.machine, h.program, hprogram]
  cases step_cases hrun with
  | refused error => exact h
  | told comes _ =>
    cases comes with
    | ended error past =>
      exact ⟨h.machine, h.program, h.settings, fun _ => past, fun _ hends => h.running error (.of_resolved hends),
        fun herror => absurd (error.symm.trans herror) nofun⟩
    | moved running executes world =>
      have hturn := turn_of_moved hsame running executes world
      exact ⟨h.machine, h.program, h.settings, of_decide_eq_true,
        fun _ hends => h.running running.error (.next hturn hends),
        fun herror => absurd (running.error.symm.trans herror) nofun⟩
    | @failed e w running executes =>
      have hline := Machine.line_of_execute executes
      refine ⟨h.machine, h.program, h.settings, fun hcomplete => ?_, nofun, fun herror => ?_⟩
      · exact absurd running.within (Nat.not_lt.mpr (h.complete hcomplete))
      · cases herror
        refine ⟨e, h.running running.error (.fault (turn_of_failed hsame running executes)), rfl, ?_⟩
        obtain ⟨line, hline⟩ := Option.isSome_iff_exists.mp hline
        rw [hline]
        rfl

theorem passed_stepTimes (hprogram : s₀.machine.program = s₀.program) (hcomplete : s₀.complete = false)
    (herror : s₀.error = none) {n : Nat} (hrun : s₀.run (stepTimes n) = (.ok (), s)) : Passed s₀ s :=
  (Keeps.stepTimes (P := Passed s₀) (.of_ok fun _ h _ _ hstep => h.step hprogram hstep) n).ok (.refl hcomplete herror) hrun

section Evaluates

variable (h : s₀.machine.program.Indexed) (hp : s₀.machine.program.WellFormed) (hmain : s₀.world.current = .main)
  (hpassed : Passed s₀ s)

include h hp hmain hpassed

theorem evaluates_of_complete (hprogram : s₀.machine.program = s₀.program) (herror : s.error = none)
    (hcomplete : s.complete = true) :
    s₀.machine.Evaluates (some s₀.settings.maxOutputLines) s₀.world (.ok ()) s.world := by
  have hended : s.machine.mainCourse.ended s.world.current.resolved = true := by
    have hpast := hpassed.complete hcomplete
    rw [hpassed.program, ← hprogram, ← hpassed.machine] at hpast
    exact decide_eq_true hpast
  have hends := hpassed.running herror (.past (Machine.turn_of_ended hended))
  exact (Machine.evaluates_of_ends h hp hmain hends nofun).resolved

theorem evaluates_of_failed {report : Report} (herror : s.error = some report)
    (hspent : ∀ name, report.cause ≠ .callSteps name s₀.machine.limits.callSteps) :
    ∃ e : Raised, e.cause = report.cause ∧ e.line = some report.line ∧
      s₀.machine.Evaluates (some s₀.settings.maxOutputLines) s₀.world (.error (.raised e)) s.world := by
  obtain ⟨e, hends, hcause, hline⟩ := hpassed.failed herror
  refine ⟨e, hcause, hline, Machine.evaluates_of_ends h hp hmain hends fun fault hfault => ?_⟩
  cases hfault
  rintro ⟨name, hspent'⟩
  exact hspent name (hcause.symm.trans hspent')

end Evaluates

end Session

/-- The turns of a well-formed program, and those of its functions, do what the structured evaluation of its statements
does, as long as calls do not run out of steps. -/
theorem turns_refine_structure {code : Text} {m : Machine} (hload : Program.load code = .ok m.program)
    (hp : m.program.WellFormed) (limit : Option Limit) :
    -- when the turns of the program come to an end, so does the evaluation
    (∀ (u w : World) (r : Except Fault Unit), u.current = .main → m.Ends (m.host limit) m.mainCourse u r w →
      (∀ fault, r = .error fault → ¬ m.limits.Spent fault) → m.Evaluates limit u r w) ∧
    -- when the evaluation comes to an end, so do the turns
    (∀ (u w' : World) (rounds : Nat) (b : Except Fault Completion), u.current = .main →
      m.limits.callSteps.room + 2 ≤ rounds → (m.evalMain rounds limit).outcome u = (b, w') →
      b ≠ .error (.breakdown .exhausted) → ∃ r w, m.Ends (m.host limit) m.mainCourse u r w ∧
        ((∃ fault, r = .error fault ∧ m.limits.Spent fault) ∨ b = (r.map fun _ => .normal) ∧ w.Twin w')) ∧
    -- function bodies, and calls of them
    (∀ (name : Text) (f : Function) (rounds depth : Nat), m.program.function? name = some f →
      m.limits.callSteps.room + 2 ≤ rounds →
      (∀ u : World, u.current = .ofFunction f →
        Matched m.limits (fun a b _ => a = b) ((m.finish (m.bodyHost limit depth) f).outcome u)
          ((m.evalBody rounds (m.evalHost rounds limit depth) f).outcome u)) ∧
      ∀ args, Agree m.limits.Spent World.Twin (m.call limit depth f args) (m.evalCall rounds limit depth f args)) ∧
    -- a session that makes step after step
    (∀ (settings : Settings) (s₀ s : Session) (n : Nat), settings.limits = m.limits →
      Session.create settings code = .ok s₀ → s₀.run (Session.stepTimes n) = (.ok (), s) →
      (s.error = none → s.complete = true → m.Evaluates (some settings.maxOutputLines) s₀.world (.ok ()) s.world) ∧
      ∀ report, s.error = some report → (∀ name, report.cause ≠ .callSteps name m.limits.callSteps) →
        ∃ e : Raised, e.cause = report.cause ∧ e.line = some report.line ∧
          m.Evaluates (some settings.maxOutputLines) s₀.world (.error (.raised e)) s.world) := by
  have h := Program.indexed_load hload
  refine ⟨?_, ?_, ?_, ?_⟩
  · intro u w r hmain hends hspent
    exact Machine.evaluates_of_ends h hp hmain hends hspent
  · intro u w' rounds b hmain hrounds heval hcut
    exact Machine.ends_of_eval h hp hrounds hmain heval hcut
  · intro name f rounds depth hname hrounds
    exact ⟨fun u hu => Machine.matched_finish h hp (Machine.echo_call h hp limit hrounds depth) hrounds hname (.refl u) hu,
      Machine.call_agrees h hp limit hrounds depth hname⟩
  · intro settings s₀ s n hlimits hcreate hrun
    obtain ⟨program, bound, seed, hload', -, -, rfl⟩ := Session.create_cases hcreate
    obtain rfl : m.program = program := Except.ok.inj (hload.symm.trans hload')
    obtain ⟨p, l⟩ := m
    obtain rfl : settings.limits = l := hlimits
    have hpassed := Session.passed_stepTimes rfl rfl rfl hrun
    exact ⟨Session.evaluates_of_complete h hp rfl hpassed rfl, fun _ => Session.evaluates_of_failed h hp rfl hpassed⟩

/-- A loop that is left by a jump, and a call that returns from inside a loop. -/
theorem turns_refine_structure_loops : ∃ (s₀ s : Session) (f : Function),
    Session.create .standard ("function f(n) \x7b\n  while (true) \x7b\n    if (n > 1) return n\n    n++\n  \x7d\n\x7d\n" ++
      "for (let k of [0, 9]) \x7b\n  if (k) \x7b\n    break\n  \x7d else \x7b\n    console.log(f(k))\n  \x7d\n\x7d").codes = .ok s₀ ∧
      s₀.run (Session.stepTimes 20) = (.ok (), s) ∧ s.complete = true ∧ s.error = none ∧ s.world.output = #["2".codes] ∧
      s₀.machine.Evaluates (some Settings.standard.maxOutputLines) s₀.world (.ok ()) s.world ∧
      s₀.machine.program.function? "f".codes = some f ∧
      Agree s₀.machine.limits.Spent World.Twin (s₀.machine.call none 1 f [.null])
        (s₀.machine.evalCall (s₀.machine.limits.callSteps.room + 2) none 1 f [.null]) := by
  obtain ⟨s₀, s, hcreate, hrun, hP⟩ := Session.exists_stepTimes .standard
    ("function f(n) \x7b\n  while (true) \x7b\n    if (n > 1) return n\n    n++\n  \x7d\n\x7d\n" ++
      "for (let k of [0, 9]) \x7b\n  if (k) \x7b\n    break\n  \x7d else \x7b\n    console.log(f(k))\n  \x7d\n\x7d").codes
    20 (fun s₀ s => s₀.machine.program.isWellFormed && (s₀.machine.program.function? "f".codes).isSome && s.complete &&
      s.error.isNone && decide (s.world.output = #["2".codes])) (by decide +kernel)
  simp only [Bool.and_eq_true, Option.isNone_iff_eq_none, decide_eq_true_eq] at hP
  obtain ⟨⟨⟨⟨hwell, hfunction⟩, hcomplete⟩, herror⟩, houtput⟩ := hP
  obtain ⟨f, hf⟩ := Option.isSome_iff_exists.mp hfunction
  obtain ⟨program, bound, seed, hload, -, -, rfl⟩ := Session.create_cases hcreate
  have hp := Program.wellFormed_of_check hwell
  obtain ⟨-, -, hcalls, -⟩ := turns_refine_structure (m := ⟨program, Settings.standard.limits⟩) hload hp none
  obtain ⟨-, -, -, hsession⟩ := turns_refine_structure (m := ⟨program, Settings.standard.limits⟩) hload hp none
  exact ⟨_, s, f, hcreate, hrun, hcomplete, herror, houtput, (hsession .standard _ s 20 rfl hcreate hrun).1 herror hcomplete, hf,
    (hcalls "f".codes f _ 1 hf (Nat.le_refl _)).2 [.null]⟩

end Stepwise
