import Mathlib.Logic.Relation
import Stepwise.Proofs.Commands

/-!
# The lifetime of a session

Callers can get hold of more sessions than those whose commands have all ended well: a command that breaks down leaves
a session behind, and so does a load that stops half-way. `Session.Attained` is for all of them. Whatever a command does,
it does by a few kinds of `Session.Event`; so what holds at the start of a program and is kept by every event holds
throughout (`Session.Attained.induction`).
-/

namespace Stepwise

namespace History

variable {α : Type} {h rest : History α} {a : α}

@[simp] theorem bound_push : (h.push a).bound = h.bound := by
  unfold push
  split <;> rfl

theorem bound_of_pop? (taken : h.pop? = some (a, rest)) : rest.bound = h.bound := by
  unfold pop? at taken
  split at taken
  · cases taken
    rfl
  · cases taken

theorem entries_empty (bound : Nat) : (empty bound : History α).entries = [] := rfl

end History

/-- The worlds differ at most in the output, the warnings, the random numbers, the steps of calls and the pointer. -/
structure World.Same (w w' : World) : Prop where
  store : w'.store = w.store
  callers : w'.callers = w.callers
  function : w'.current.function = w.current.function
  frames : w'.current.frames = w.current.frames
  returned : w'.current.returned = w.current.returned

namespace Session

open Relation

variable {α β : Type} {s s' : Session} {P : Session → Prop}

/-- The sessions that commands lead to, whether these end well or break down. -/
inductive Attained : Session → Prop
  | create {settings : Settings} {code : Text} {s : Session} (h : create settings code = .ok s) : Attained s
  | order {s : Session} (o : Order) (h : Attained s) : Attained (s.run o.command).2
  | load {s : Session} (code : Text) (h : Attained s) : Attained (s.run (load code)).2
  | applySettings {s : Session} (patch : SettingsPatch) (h : Attained s) : Attained (s.run (applySettings patch)).2

theorem Reachable.attained (h : s.Reachable) : s.Attained := by
  induction h with
  | create h => exact .create h
  | order o _ run ih =>
    have := Attained.order o ih
    rwa [run] at this
  | load code _ run ih =>
    have := Attained.load code ih
    rwa [run] at this
  | applySettings patch _ run ih =>
    have := Attained.applySettings patch ih
    rwa [run] at this

/-- What happens to a session when an instruction is executed. -/
structure Executed (s : Session) (r : Except Fault Nat) (w : World) (s' : Session) : Prop where
  execute : s.execution = (r, w)
  after : ∃ ip steps complete error failedStep published, (failedStep = true → s.failedStep = true ∨ error.isSome) ∧
    s' = { s.begun with
      world := { w with current := { w.current with ip } }, steps, complete, error, failedStep, published }

/-- All that can happen to a session. -/
inductive Event (s : Session) : Session → Prop
  | executed {r : Except Fault Nat} {w : World} {s' : Session} (running : s.error = none)
      (within : s.world.current.nextIndex < s.program.size) (executed : s.Executed r w s') : Event s s'
  | ended (published : State) : Event s { s.finished with published }
  | restored {c : Checkpoint} {history : History Checkpoint} (taken : s.history.pop? = some (c, history)) :
      Event s (s.restored c history)
  | timedOut (report : Report) (published : State) : Event s { s with error := some report, published }
  | coded (code : Text) : Event s { s with code }
  | half (program : Program) : Event s (s.halfLoaded program s.history)
  | emptied (program : Program) (bound : Nat) : Event s (s.halfLoaded program (.empty bound))
  | started {code : Text} {program : Program} {bound : Nat} {seed : Int} (loaded : Program.load code = .ok program) :
      Event s (start s.settings code program bound seed)
  | changed (settings : Settings) : Event s { s with settings }

/-- An event that leaves the settings alone. The output that is shown after it is the output as it is, or it was shown
before, now or at a checkpoint. -/
structure Happens (s s' : Session) : Prop where
  event : Event s s'
  settings : s'.settings = s.settings
  shown : s'.published.output = s'.world.output ∨ s'.published.output = s.published.output ∨
    ∃ c ∈ s.history.entries, s'.published = c.published

/-! ### Commands as events -/

theorem executed_of_run (h : s.Running) : ∃ r w, s.Executed r w (s.run step).2 := by
  have hconcludes := s.step_concludes
  generalize s.run step = r at hconcludes
  cases hconcludes with
  | refused error => simp [h.error] at error
  | broken _ executes => exact ⟨_, _, executes, _, _, _, _, _, s.published, .inl, rfl⟩
  | @told s₁ line callStack more comes =>
    obtain ⟨published, htold⟩ := s₁.told_snd line callStack more
    rw [htold]
    cases comes with
    | ended _ past => exact absurd h.within (Nat.not_lt.mpr past)
    | moved _ executes world =>
      subst world
      exact ⟨_, _, executes, _, _, _, _, _, published, .inl, rfl⟩
    | failed _ executes => exact ⟨_, _, executes, _, _, _, _, _, published, fun _ => .inr rfl, rfl⟩

/-- Whatever its result, the command does nothing but a number of events. -/
def Eventful (x : Command α) : Prop := ∀ s, ReflTransGen Happens s (s.run x).2

namespace Eventful

variable {x : Command α}

theorem step : Eventful step := by
  intro s
  have hexecuted := executed_of_run (s := s)
  have hframed := s.framed_step
  have hconcludes := s.step_concludes
  generalize s.run Session.step = r at hexecuted hframed hconcludes
  cases hconcludes with
  | refused => exact .refl
  | broken running _ =>
    obtain ⟨_, _, h⟩ := hexecuted running
    exact .single ⟨.executed running.error running.within h, rfl, .inr (.inl rfl)⟩
  | @told s₁ line callStack more comes =>
    have hevent : Event s (s₁.told line callStack more).2 := by
      obtain ⟨published, htold⟩ := s₁.told_snd line callStack more
      cases comes with
      | ended =>
        rw [htold]
        exact .ended published
      | moved running _ _ | failed running _ =>
        obtain ⟨_, _, h⟩ := hexecuted running
        exact .executed running.error running.within h
    refine .single ⟨hevent, hframed.settings, ?_⟩
    rcases s₁.told_cases line callStack more with ⟨published, hview, htold⟩ | ⟨why, -, htold⟩
    · obtain ⟨rows, -, rfl⟩ := view_eq_ok hview
      rw [htold]
      exact .inl rfl
    · rw [htold]
      exact .inr (.inl (congrArg State.output comes.published))

theorem load (code : Text) : Eventful (load code) := by
  intro s
  have hcoded : ReflTransGen Happens s { s with code } := .single ⟨.coded code, rfl, .inr (.inl rfl)⟩
  cases hload : Program.load code with
  | error why => simpa [Session.load, run_bind, hload] using hcoded
  | ok program =>
    cases hbound : s.settings.historyBound with
    | error why =>
      have hhalf := hcoded.tail ⟨.half program, rfl, .inr (.inl rfl)⟩
      simpa [Session.load, run_bind, hload, hbound] using hhalf
    | ok bound =>
      cases hseed : s.settings.seed.number with
      | error why =>
        have hemptied := hcoded.tail ⟨.emptied program bound, rfl, .inr (.inl rfl)⟩
        simpa [Session.load, run_bind, hload, hbound, hseed] using hemptied
      | ok seed =>
        rw [run_load hload hbound hseed]
        exact .single ⟨.started hload, rfl, .inl rfl⟩

theorem timeOut (cause : Cause) : Eventful (timeOut cause) := fun s =>
  .single ⟨.timedOut ⟨cause, s.nextLine + 1⟩ { s.published with error := some ⟨cause, s.nextLine + 1⟩ }, rfl,
    .inr (.inl rfl)⟩

theorem keeps (h : Eventful x) (s : Session) : Keeps True (ReflTransGen Happens s) x := fun s' hs _ => hs.trans (h s')

theorem order (o : Order) : Eventful o.command := fun s =>
  Keeps.order (step.keeps s) (fun code => (load code).keeps s) (fun _ cause _ => (timeOut cause).keeps s)
    (fun _ c _ hs hpop =>
      hs.tail ⟨.restored hpop, rfl, .inr (.inr ⟨c, (History.mem_of_pop? hpop).1, rfl⟩)⟩) s .refl (.inl trivial)

end Eventful

theorem Eventful.kept {x : Command α} (hx : Eventful x) (happens : ∀ s s', P s → Happens s s' → P s')
    (hs : P s) : P (s.run x).2 := by
  have hevents := hx s
  generalize (s.run x).2 = s' at hevents
  induction hevents with
  | refl => exact hs
  | tail _ hnext ih => exact happens _ _ ih hnext

/-- What holds at the start of every program and is kept by every event holds throughout. -/
theorem Attained.induction
    (start : ∀ settings code program bound seed, Program.load code = .ok program → P (start settings code program bound seed))
    (event : ∀ s s', P s → Event s s' → P s') (h : s.Attained) : P s := by
  have happens (s s' : Session) (hs : P s) (h : Happens s s') : P s' := event s s' hs h.event
  induction h with
  | create h =>
    obtain ⟨program, bound, seed, hload, -, -, rfl⟩ := create_cases h
    exact start _ _ _ _ _ hload
  | order o _ ih => exact (Eventful.order o).kept happens ih
  | load code _ ih => exact (Eventful.load code).kept happens ih
  | applySettings patch _ ih => exact event _ _ ih (.changed _)

/-! ### Worlds between steps -/

/-- The property of worlds holds at the start of every program, and executing an instruction keeps it. -/
structure Lasting (P : Program → World → Prop) : Prop where
  same : ∀ {p : Program} {w w' : World}, P p w → w.Same w' → P p w'
  initial : ∀ {code : Text} {p : Program} (seed : Int), Program.load code = .ok p → P p (.initial seed)
  execution : ∀ {s : Session}, P s.machine.program s.ready → P s.machine.program s.execution.2

/-- The property holds of the world of the session, and of those of the checkpoints that it can go back to. -/
structure Throughout (P : Program → World → Prop) (s : Session) : Prop where
  world : P s.machine.program s.world
  marks : ∀ c ∈ s.history.entries, P s.machine.program c.world

namespace Throughout

variable {P : Program → World → Prop} (hP : Lasting P)

include hP

theorem start {code : Text} {program : Program} (hload : Program.load code = .ok program) (settings : Settings)
    (bound : Nat) (seed : Int) : (start settings code program bound seed).Throughout P := by
  refine ⟨hP.initial seed hload, ?_⟩
  simp [Session.start, History.entries_empty]

variable (h : s.Throughout P)

include h

theorem begun : s.begun.Throughout P := by
  have hworld : P s.machine.program s.begun.world := hP.same h.world ⟨rfl, rfl, rfl, rfl, rfl⟩
  refine ⟨hworld, fun c hc => ?_⟩
  rcases mem_begun hc with rfl | hc
  · exact hworld
  · exact h.marks c hc

theorem ready : P s.machine.program s.ready := hP.same h.world ⟨rfl, rfl, rfl, rfl, rfl⟩

theorem event (hevent : Event s s') : s'.Throughout P := by
  have hmoved {w : World} (hsame : s.world.Same w) : P s.machine.program w := hP.same h.world hsame
  cases hevent with
  | executed running within executed =>
    obtain ⟨ip, steps, complete, error, failedStep, published, -, rfl⟩ := executed.after
    have hw := hP.execution (h.ready hP)
    rw [executed.execute] at hw
    exact ⟨hP.same hw ⟨rfl, rfl, rfl, rfl, rfl⟩, (h.begun hP).marks⟩
  | ended published => exact ⟨hmoved ⟨rfl, rfl, rfl, rfl, rfl⟩, h.marks⟩
  | restored taken =>
    obtain ⟨hc, hrest⟩ := History.mem_of_pop? taken
    exact ⟨hP.same (h.marks _ hc) ⟨rfl, rfl, rfl, rfl, rfl⟩, fun c' hc' => h.marks c' (hrest c' hc')⟩
  | timedOut report published => exact ⟨h.world, h.marks⟩
  | coded code => exact ⟨h.world, h.marks⟩
  | half program => exact ⟨hmoved ⟨rfl, rfl, rfl, rfl, rfl⟩, h.marks⟩
  | emptied program bound =>
    refine ⟨hmoved ⟨rfl, rfl, rfl, rfl, rfl⟩, ?_⟩
    simp [halfLoaded, History.entries_empty]
  | started loaded => exact start hP loaded _ _ _
  | changed settings => exact ⟨h.world, h.marks⟩

end Throughout

theorem Attained.throughout {P : Program → World → Prop} (hP : Lasting P) (h : s.Attained) : s.Throughout P :=
  h.induction (fun _ _ _ _ _ hload => .start hP hload _ _ _) fun _ _ hs hevent => hs.event hP hevent

end Session

end Stepwise
