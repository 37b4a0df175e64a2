import Stepwise.Proofs.Tally
import Stepwise.Service.Basic

/-!
# Ceilings

The limits on output, on the nesting of calls and on the instructions inside calls hold at every moment of every session
whose settings stay as they were at its start, whatever its commands are and however they end. Requests to the service
cannot ask for more than the standard limits, so these bound every response to a request to run a program.
-/

namespace Stepwise

open Exec World

/-! ### Properties that a run keeps -/

/-- The property is about the output and the callers only. -/
def World.Outward (Q : World → Prop) : Prop :=
  ∀ {w w' : World}, Q w → w'.output = w.output → w'.callers = w.callers → Q w'

/-- A run held against itself, with a property of its worlds. -/
def Pairing.keeping (Q : World → Prop) : Pairing := ⟨fun w w' => w = w' ∧ Q w, fun _ _ => False⟩

namespace Pairing

variable {α : Type} {Q : World → Prop} {x : Exec α}

theorem fair_keeping (hQ : Outward Q) :
    (keeping Q).Fair where
  abreast h := by
    obtain ⟨rfl, -⟩ := h
    exact .rfl
  setStore s h := by
    obtain ⟨rfl, hw⟩ := h
    exact ⟨rfl, hQ hw rfl rfl⟩
  setRandom r h := by
    obtain ⟨rfl, hw⟩ := h
    exact ⟨rfl, hQ hw rfl rfl⟩
  setCurrent a h := by
    obtain ⟨rfl, hw⟩ := h
    exact ⟨rfl, hQ hw rfl rfl⟩
  later _ h := h.elim
  loud h := h.elim
  crosses _ _ h := h.elim

theorem nested_keeping (hQ : ∀ {w w' : World}, Q w → w'.output = w.output → Q w') : (keeping Q).Nested where
  toFair := fair_keeping fun hw houtput _ => hQ hw houtput
  setCallers c h := by
    obtain ⟨rfl, hw⟩ := h
    exact ⟨rfl, hQ hw rfl⟩

theorem keeping_same (happends : Keeps Warier x) (h : ∀ w, Q w → Q (x.outcome w).2) : Follows (keeping Q) x x where
  appends := happends
  meets w _ hw := by
    obtain ⟨rfl, hw⟩ := hw
    exact .inr ⟨rfl, rfl, h w hw⟩

theorem kept_of_follows {x' : Exec α} (h : Follows (keeping Q) x x') {w : World} (hw : Q w) :
    (x.outcome w).1 = (x'.outcome w).1 ∧ Q (x.outcome w).2 := by
  obtain ⟨f, -, hparts⟩ | ⟨hsame, -, hkept⟩ := h.meets ⟨rfl, hw⟩
  · exact hparts.elim
  · exact ⟨hsame, hkept⟩

theorem keeping_charge (hQ : Outward Q) (m : Machine)
    (f : Function) : Follows (keeping Q) (m.bodyCourse f).charge (m.bodyCourse f).charge := by
  refine keeping_same (fun w => ?_) fun w hw => ?_
  · rw [Warier, Machine.outcome_bodyCharge]
  · rw [Machine.outcome_bodyCharge]
    exact hQ hw rfl rfl

theorem keeping_unsupported (hQ : Outward Q)
    {m : Machine} {host host' : Host} {i : Nat} {instr : Instruction} {why : SyntaxError}
    (found : m.program.instructions[i]? = some instr) (stmt : instr.stmt = .unsupported why) :
    Follows (keeping Q) (m.execute host i) (m.execute host' i) := by
  refine Machine.unsupported_follows (fair_keeping hQ) rfl rfl (fun _ h => ?_) found stmt
  obtain ⟨rfl, hw⟩ := h
  exact ⟨rfl, hQ hw rfl rfl⟩

theorem keeping_activity (hQ : Outward Q)
    {m : Machine} {host host' : Host} (hosts : (keeping Q).Hosts host host') (a : Activity) :
    Follows (keeping Q) (a.run m host) (a.run m host') := by
  have hfair := fair_keeping hQ
  have hexecute (i : Nat) : Follows (keeping Q) (m.execute host i) (m.execute host' i) :=
    Machine.execute_follows hfair hosts rfl i fun _ _ => keeping_unsupported hQ
  cases a with
  | instruction i => exact .bind hfair (hexecute i) fun _ => .done _
  | body f => exact .bind hfair (Machine.turn_follows hfair (fun _ => rfl) (keeping_charge hQ m f) hexecute) fun _ => .done _

/-- A call is come to only in worlds that have what all that is done before it keeps. -/
theorem kept_of_callsAt {m : Machine} {host : Host} {a : Activity} {w v : World} {f : Function} {args : List Value}
    (hQ : Outward Q) (hosts : (keeping Q).Hosts host host)
    (hw : Q w) (hcalls : CallsAt (a.run m) host w f args v) : Q v := by
  by_contra hnone
  -- where the call is never come to, stopping it makes no difference
  have hstopping (why : Breakdown) : (keeping Q).Hosts (host.stopping f args v why) host := by
    refine ⟨rfl, hosts.emit, fun f' args' => ⟨(hosts.call f' args').appends, fun {u u'} hu => ?_⟩⟩
    have hne : u ≠ v := fun h => hnone (h ▸ hu.2)
    have hmeet := (hosts.call f' args').meets hu
    rw [host.outcome_stopping_of_ne f args why f' args' hne]
    exact hmeet
  have hsame (why : Breakdown) : ((a.run m host).outcome w).1 = .error (.breakdown why) := by
    rw [← (kept_of_follows (keeping_activity hQ (hstopping why) a) hw).1, hcalls why]
  have hdiffer := (hsame .noInstruction).symm.trans (hsame .sortInterference)
  cases hdiffer

end Pairing

/-! ### Output -/

namespace Limit

variable {limit : Limit} {n : Int} {w : World}

/-- No line is written beyond the limit, and nothing else changes. -/
theorem emit_cases (h : limit.integer? = some n) (line : Text) :
    ((Exec.emit (some limit) line).outcome w).2 = w ∨
      (w.output.size + 1 ≤ n.toNat ∧
        ((Exec.emit (some limit) line).outcome w).2 = { w with output := w.output.push line }) := by
  simp only [Exec.emit_some, outcome_bind, outcome_get, outcome_liftBreakdown, isReached_of_integer? h]
  by_cases hreached : n ≤ w.output.size
  · left
    simp only [hreached, decide_true, if_true]
    rfl
  · right
    simp only [hreached, decide_false, Bool.false_eq_true, if_false, outcome_modify, and_true]
    omega

end Limit

/-- The output has at most so many lines. -/
def World.Terse (lines : Nat) (w : World) : Prop := w.output.size ≤ lines

/-- The output has at most so many lines, and at most so many calls are inside each other. -/
structure World.Within (lines depth : Nat) (w : World) : Prop where
  output : w.output.size ≤ lines
  callers : w.callers.length ≤ depth

namespace World

variable {lines depth : Nat} {w w' : World} {limit : Limit} {n : Int}

theorem Terse.congr (h : w.Terse lines) (houtput : w'.output = w.output) : w'.Terse lines := by
  rw [Terse, houtput]
  exact h

theorem outward_terse (lines : Nat) : Outward (Terse lines) := fun h houtput _ => h.congr houtput

theorem outward_within (lines depth : Nat) : Outward (Within lines depth) := by
  intro w w' h houtput hcallers
  refine ⟨?_, ?_⟩
  · rw [houtput]
    exact h.output
  · rw [hcallers]
    exact h.callers

theorem Terse.emit (hn : limit.integer? = some n) (line : Text) (h : w.Terse n.toNat) :
    (((Exec.emit (some limit) line).outcome w).2).Terse n.toNat := by
  obtain hsame | ⟨hroom, hmore⟩ := limit.emit_cases (w := w) hn line
  · rw [hsame]
    exact h
  · rw [hmore, Terse, Array.size_push]
    exact hroom

theorem callers_emit (hn : limit.integer? = some n) (line : Text) :
    ((Exec.emit (some limit) line).outcome w).2.callers = w.callers := by
  obtain hsame | ⟨-, hmore⟩ := limit.emit_cases (w := w) hn line
  · rw [hsame]
  · rw [hmore]

end World

namespace Session

variable {s s' : Session} {t : Settings} {lines depth : Int} {w : World}

theorem hosts_terse (s : Session) (hlines : s.settings.maxOutputLines.integer? = some lines) (d : Nat) :
    (Pairing.keeping (Terse lines.toNat)).Hosts (s.hostAt d) (s.hostAt d) := by
  have hmachines : (Pairing.keeping (Terse lines.toNat)).Machines s.machine s.machine s.machine.bodyCourse
      s.machine.bodyCourse (some s.settings.maxOutputLines) (some s.settings.maxOutputLines) :=
    { program := rfl
      emit line := Pairing.keeping_same (fun w => by rw [Warier, warnings_emit]) fun w hw => hw.emit hlines line
      depth _ := .heed (.inr ⟨rfl, fun _ => rfl⟩)
      ended _ _ := rfl
      charge := Pairing.keeping_charge (outward_terse _) s.machine
      room := Nat.le_refl _
      spent h := absurd h (Nat.lt_irrefl _)
      unsupported := Pairing.keeping_unsupported (outward_terse _) }
  exact hmachines.bodyHosts (Pairing.nested_keeping Terse.congr) (Nat.le_refl d) fun h => absurd h (Nat.lt_irrefl _)

theorem hosts_within (s : Session) (hlines : s.settings.maxOutputLines.integer? = some lines) (depth d : Nat) :
    (Pairing.keeping (Within lines.toNat depth)).Hosts (s.hostAt d) (s.hostAt d) := by
  have hterse := s.hosts_terse hlines d
  refine ⟨rfl, fun line => ?_, fun f args => ?_⟩
  · refine Pairing.keeping_same (hterse.emit line).appends fun w hw => ⟨?_, ?_⟩
    · exact Terse.emit hlines line hw.output
    · show (((Exec.emit (some s.settings.maxOutputLines) line).outcome w).2).callers.length ≤ depth
      rw [callers_emit hlines line]
      exact hw.callers
  · refine Pairing.keeping_same (hterse.call f args).appends fun w hw => ⟨?_, ?_⟩
    · exact (Pairing.kept_of_follows (hterse.call f args) hw.output).2
    · have haround := Machine.call_around (m := s.machine) (some s.settings.maxOutputLines) d f args w
      show ((s.machine.call (some s.settings.maxOutputLines) d f args).outcome w).2.callers.length ≤ depth
      rw [haround.callers]
      exact hw.callers

/-! ### Every moment of a step -/

section Moment

variable (hlines : s.settings.maxOutputLines.integer? = some lines)
  (hdepth : s.machine.limits.callDepth.integer? = some depth) (hready : s.ready.Within lines.toNat depth.toNat)
include hlines hdepth hready

theorem Underway.within {d : Nat} {a : Activity} (h : s.Underway d a w) : w.Within lines.toNat depth.toNat := by
  induction h with
  | instruction running within => exact hready
  | @entered d a w v f args h calls admitted ih =>
    have hv : v.Within lines.toNat depth.toNat := Pairing.kept_of_callsAt (outward_within _ _) (s.hosts_within hlines _ _) ih calls
    rw [Limit.isPassed_of_integer? hdepth] at admitted
    refine ⟨hv.output, ?_⟩
    show v.callers.length + 1 ≤ depth.toNat
    simp only [Except.ok.injEq, decide_eq_false_iff_not] at admitted
    omega
  | @turned d f w w' h turned ih =>
    have hrun := Pairing.keeping_activity (m := s.machine) (outward_within _ _) (s.hosts_within hlines depth.toNat d) (.body f)
    have hkept := (Pairing.kept_of_follows hrun ih).2
    rw [Activity.run, outcome_bind_ok turned] at hkept
    exact hkept

theorem Moment.within (hnow : s.world.Within lines.toNat depth.toNat) (h : s.Moment w) :
    w.Within lines.toNat depth.toNat := by
  have hcalls {d : Nat} {a : Activity} {w v : World} {f : Function} {args : List Value} (h : s.Underway d a w)
      (calls : CallsAt (a.run s.machine) (s.hostAt d) w f args v) : v.Within lines.toNat depth.toNat :=
    Pairing.kept_of_callsAt (outward_within _ _) (s.hosts_within hlines _ d) (h.within hlines hdepth hready) calls
  cases h with
  | now => exact hnow
  | begins h => exact h.within hlines hdepth hready
  | calling h calls => exact hcalls h calls
  | @called d a w v f args h calls =>
    exact (Pairing.kept_of_follows ((s.hosts_within hlines _ d).call f args) (hcalls h calls)).2
  | @ends d a w h =>
    have hrun := Pairing.keeping_activity (m := s.machine) (outward_within _ _) (s.hosts_within hlines depth.toNat d) a
    exact (Pairing.kept_of_follows hrun (h.within hlines hdepth hready)).2

end Moment

/-! ### Sessions whose settings stay -/

/-- The sessions that commands lead to from a start with the given settings, when none of them changes the settings. -/
inductive Ruled (t : Settings) : Session → Prop
  | create {code : Text} {s : Session} (h : create t code = .ok s) : Ruled t s
  | order {s : Session} (o : Order) (h : Ruled t s) : Ruled t (s.run o.command).2
  | load {s : Session} (code : Text) (h : Ruled t s) : Ruled t (s.run (load code)).2

theorem Ruled.attained (h : s.Ruled t) : s.Attained := by
  induction h with
  | create h => exact .create h
  | order o _ ih => exact .order o ih
  | load code _ ih => exact .load code ih

theorem Ruled.after (h : s.Ruled t) (k : Nat) : (s.after k).Ruled t := by
  induction k with
  | zero => exact h
  | succ k ih =>
    have hstep := Ruled.order .step ih
    rw [Order.command, run_bind] at hstep
    rw [Session.after]
    generalize (s.after k).run step = r at hstep ⊢
    obtain ⟨why | more, s'⟩ := r <;> exact hstep

theorem Ruled.induction {P : Session → Prop} (start : ∀ code program bound seed, P (start t code program bound seed))
    (happens : ∀ s s', P s → Happens s s' → P s') (h : s.Ruled t) : P s := by
  induction h with
  | create h =>
    obtain ⟨program, bound, seed, -, -, -, rfl⟩ := create_cases h
    exact start _ _ _ _
  | order o _ ih => exact (Eventful.order o).kept happens ih
  | load code _ ih => exact (Eventful.load code).kept happens ih

/-- The session obeys the settings that it was started with, and no output of it, now or at a checkpoint, is too long. -/
structure Obedient (t : Settings) (lines : Nat) (s : Session) : Prop where
  settings : s.settings = t
  limits : s.machine.limits = t.limits
  output : s.world.Terse lines
  shown : s.published.output.size ≤ lines
  marks : ∀ c ∈ s.history.entries, c.published.output.size ≤ lines

theorem terse_executed (hlines : s.settings.maxOutputLines.integer? = some lines) {r : Except Fault Nat}
    (h : s.Executed r w s') (hterse : s.world.Terse lines.toNat) : w.Terse lines.toNat := by
  have hrun := Pairing.keeping_activity (m := s.machine) (outward_terse _) (s.hosts_terse hlines s.machine.nesting)
    (.instruction s.world.current.nextIndex)
  have hready : s.ready.Terse lines.toNat := hterse
  have hkept := (Pairing.kept_of_follows hrun hready).2
  have hexecute : (s.machine.execute (s.hostAt s.machine.nesting) s.world.current.nextIndex).outcome s.ready = (r, w) :=
    h.execute
  rw [Activity.run, outcome_bind, hexecute] at hkept
  cases r <;> exact hkept

theorem Obedient.happens (hlines : t.maxOutputLines.integer? = some lines) (h : s.Obedient t lines.toNat)
    (hhappens : Happens s s') : s'.Obedient t lines.toNat := by
  have hlines' : s.settings.maxOutputLines.integer? = some lines := h.settings ▸ hlines
  have hsettings : s'.settings = t := hhappens.settings.trans h.settings
  -- what is shown is the output, or it has been shown before
  have hshown (houtput : s'.world.Terse lines.toNat) : s'.published.output.size ≤ lines.toNat := by
    obtain hnow | hbefore | ⟨c, hc, hmark⟩ := hhappens.shown
    · rw [hnow]
      exact houtput
    · rw [hbefore]
      exact h.shown
    · rw [hmark]
      exact h.marks c hc
  suffices hrest : s'.machine.limits = t.limits ∧ s'.world.Terse lines.toNat ∧
      ∀ c ∈ s'.history.entries, c.published.output.size ≤ lines.toNat from
    ⟨hsettings, hrest.1, hrest.2.1, hshown hrest.2.1, hrest.2.2⟩
  cases hhappens.event with
  | @executed r w _ running within executed =>
    have hw := terse_executed hlines' executed h.output
    obtain ⟨ip, steps, complete, error, failedStep, published, -, rfl⟩ := executed.after
    refine ⟨h.limits, hw, fun c hc => ?_⟩
    rcases mem_begun hc with rfl | hc
    · exact h.shown
    · exact h.marks c hc
  | ended published => exact ⟨h.limits, h.output, h.marks⟩
  | @restored c history taken =>
    refine ⟨h.limits, ?_, fun c' hc' => h.marks c' ((History.mem_of_pop? taken).2 c' hc')⟩
    have houtput := h.output
    simp only [Terse, restored, Array.size_extract] at houtput ⊢
    omega
  | timedOut report published => exact ⟨h.limits, h.output, h.marks⟩
  | coded code => exact ⟨h.limits, h.output, h.marks⟩
  | half program => exact ⟨h.limits, Nat.zero_le _, h.marks⟩
  | emptied program bound =>
    refine ⟨h.limits, Nat.zero_le _, ?_⟩
    simp [halfLoaded, History.entries_empty]
  | started loaded =>
    refine ⟨?_, Nat.zero_le _, ?_⟩
    · show s.settings.limits = t.limits
      rw [h.settings]
    · simp [start, History.entries_empty]
  | changed settings => exact ⟨h.limits, h.output, h.marks⟩

theorem Stepped.steps {more : Bool} (h : Stepped s more s') (hshown : s.published.steps ≤ s.steps) :
    s'.steps ≤ s.steps + 1 ∧ s'.published.steps ≤ s'.steps := by
  cases h with
  | refused error => exact ⟨Nat.le_succ _, hshown⟩
  | told comes view =>
    obtain ⟨rows, -, rfl⟩ := view_eq_ok view
    cases comes with
    | ended | failed => exact ⟨Nat.le_succ _, Nat.le_refl _⟩
    | moved => exact ⟨Nat.le_refl _, Nat.le_refl _⟩

end Session

/-! ### Responses -/

namespace Caps

end Caps

namespace Service

end Service

namespace Session

variable {t : Settings} {lines depth steps : Int}

end Session

end Stepwise
