import Stepwise.Proofs.Commands
import Stepwise.Proofs.Nesting
import Stepwise.Proofs.Statements

/-!
# The control state of an activation

Whatever the source text is, an activation that is about to execute an instruction stands inside the blocks of all its
frames, which are nested, and outside of all functions but its own. This holds for the program itself in every session,
and for the body of every function that is called. Control gets into a block through its header, unless the header also
closes the block before it.
-/

namespace Stepwise

/-- The control state of an activation makes sense. -/
structure Activation.Sound (p : Program) (a : Activation) : Prop where
  /-- control is in the program, or in the body of the function -/
  bounds : match a.function with
    | none => a.nextIndex ≤ p.size
    | some f => f.start < a.nextIndex ∧ a.nextIndex ≤ f.stop
  /-- every frame has a block, and control has not left it -/
  framed : ∀ f ∈ a.frames, ∃ c, p.closerOf[f.opener]? = some c ∧ f.opener < a.nextIndex ∧ a.nextIndex ≤ f.last p c
  /-- a frame is strictly inside the blocks of those further out -/
  nested : a.frames.Pairwise fun inner outer => outer.opener < inner.opener ∧
    ∃ c c', p.closerOf[inner.opener]? = some c ∧ p.closerOf[outer.opener]? = some c' ∧ inner.last p c < c'
  /-- a loop over items visits one of them -/
  visiting : ∀ o loop, .loop o loop ∈ a.frames → loop.Visiting
  /-- control is in no function but the one that is executed -/
  outside : ∀ o c instr, p.closerOf[o]? = some c → p.instructions[o]? = some instr → instr.stmt.isFunction →
    o < a.nextIndex → a.nextIndex < c → ∃ f, a.function = some f ∧ f.start = o
  /-- a jump ahead is not behind, and it is made next -/
  ahead : ∀ target, a.skip = some target → a.ip ≤ target ∧ a.nextIndex = target

variable {p : Program} {lo hi first last stop pos : Nat} {fs : List Frame} {a : Activation}

/-! ### Frames and their blocks -/

namespace Stacked

variable {f : Frame}

/-- The region that frames leave for what is opened next is inside the block of each of them. -/
theorem around (hs : Stacked p lo hi fs first last stop) (h : p.Indexed) (hf : f ∈ fs) :
    f.opener < first ∧ ∃ c, p.closerOf[f.opener]? = some c ∧ stop ≤ c := by
  induction hs with
  | base => cases hf
  | @frame g fs first last stop c outer hblock _ hbegins hends ih =>
    rcases List.mem_cons.mp hf with rfl | hf
    · exact ⟨Nat.lt_succ_self _, c, hblock, Nat.le_refl _⟩
    · obtain ⟨hlt, c', hblock', hle⟩ := ih hf
      have := Frame.le_last h hblock
      exact ⟨by omega, c', hblock', by omega⟩

theorem framed (hs : Stacked p lo hi fs first last stop) (h : p.Indexed) (hfirst : first ≤ pos) (hlast : pos ≤ last)
    (hf : f ∈ fs) : ∃ c, p.closerOf[f.opener]? = some c ∧ f.opener < pos ∧ pos ≤ f.last p c := by
  cases hs with
  | base => cases hf
  | @frame g fs first last stop c outer hblock _ hbegins hends =>
    rcases List.mem_cons.mp hf with rfl | hf
    · exact ⟨_, hblock, hfirst, hlast⟩
    · obtain ⟨hlt, c', hblock', hle⟩ := outer.around h hf
      have := Frame.le_last h hblock'
      exact ⟨c', hblock', by omega, by omega⟩

theorem nested (hs : Stacked p lo hi fs first last stop) (h : p.Indexed) :
    fs.Pairwise fun inner outer => outer.opener < inner.opener ∧
      ∃ c c', p.closerOf[inner.opener]? = some c ∧ p.closerOf[outer.opener]? = some c' ∧ inner.last p c < c' := by
  induction hs with
  | base => exact .nil
  | @frame g fs first last stop c outer hblock _ hbegins hends ih =>
    refine .cons (fun f hf => ?_) ih
    obtain ⟨hlt, c', hblock', hle⟩ := outer.around h hf
    exact ⟨by omega, c, c', hblock, hblock', by omega⟩

theorem fits (hs : Stacked p lo hi fs first last stop) (hf : f ∈ fs) : f.Fits p := by
  induction hs with
  | base => cases hf
  | frame outer _ hfits _ _ ih =>
    rcases List.mem_cons.mp hf with rfl | hf
    · exact hfits
    · exact ih hf

end Stacked

/-! ### What a turn keeps -/

/-- The control state of an activation in a region. -/
structure Activation.Tracked (p : Program) (lo hi : Nat) (a : Activation) : Prop where
  placed : Placed p lo hi a.frames a.nextIndex
  outside : Outside p lo a.nextIndex
  ahead : ∀ target, a.skip = some target → a.ip ≤ target

namespace Activation

variable {f : Function} {name : Text}

theorem nextIndex_eq (h : a.ip ≤ a.skip.getD a.ip) : a.nextIndex = a.skip.getD a.ip := by
  unfold nextIndex
  cases hskip : a.skip with
  | none => rfl
  | some target =>
    rw [hskip] at h
    exact Nat.max_eq_right h

theorem tracked_main (p : Program) : main.Tracked p 0 p.size :=
  ⟨⟨_, _, _, .base, Nat.le_refl _, Nat.zero_le _⟩, fun o _ _ _ _ _ hlt _ => absurd hlt (Nat.not_lt_zero o), nofun⟩

theorem tracked_ofFunction (h : p.Indexed) (hname : p.functions.get? name = some f) :
    (ofFunction f).Tracked p (f.start + 1) f.stop :=
  ⟨⟨_, _, _, .base, Nat.le_refl _, (h.block_lt (h.function hname)).1⟩, fun _ _ _ _ _ _ hlt _ => hlt, nofun⟩

theorem Tracked.resolved (h : a.Tracked p lo hi) : a.resolved.Tracked p lo hi := ⟨h.placed, h.outside, nofun⟩

theorem Tracked.sound (ht : a.Tracked p lo hi) (h : p.Indexed)
    (hbounds : lo ≤ a.nextIndex → a.nextIndex ≤ hi → match a.function with
      | none => a.nextIndex ≤ p.size
      | some f => f.start < a.nextIndex ∧ a.nextIndex ≤ f.stop)
    (houtside : ∀ o c instr, p.closerOf[o]? = some c → p.instructions[o]? = some instr → instr.stmt.isFunction →
      o < lo → a.nextIndex < c → ∃ f, a.function = some f ∧ f.start = o) : a.Sound p := by
  obtain ⟨first, last, stop, hs, hfirst, hlast⟩ := ht.placed
  have hwithin := hs.within h
  exact {
    bounds := hbounds (by omega) (by omega)
    framed := fun f hf => hs.framed h hfirst hlast hf
    nested := hs.nested h
    visiting := fun o loop hf => (hs.fits hf).2
    outside := fun o c instr hblock hinstr hkind hlt hlt' =>
      houtside o c instr hblock hinstr hkind (ht.outside o c instr hblock hinstr hkind hlt hlt') hlt'
    ahead := fun target hskip => by
      have hle := ht.ahead target hskip
      refine ⟨hle, ?_⟩
      rw [nextIndex_eq (by rw [hskip]; exact hle), hskip]
      rfl }

theorem Tracked.sound_main (ht : a.Tracked p 0 p.size) (h : p.Indexed) (hmain : a.function = none) : a.Sound p :=
  ht.sound h (by rw [hmain]; exact fun _ hle => hle) fun o c instr _ _ _ hlt => absurd hlt (Nat.not_lt_zero o)

/-- The body of a function. No function that is called is inside another one. -/
theorem Tracked.sound_body (ht : a.Tracked p (f.start + 1) f.stop) (h : p.Indexed)
    (hname : p.functions.get? name = some f) (hbody : a.function = some f) : a.Sound p := by
  refine ht.sound h ?_ fun o c instr hblock hinstr hkind hlt hlt' => ⟨f, hbody, ?_⟩
  · rw [hbody]
    exact fun hlo hhi => ⟨hlo, hhi⟩
  · obtain ⟨first, last, stop, hs, hfirst, hlast⟩ := ht.placed
    have hwithin := hs.within h
    refine Nat.le_antisymm (Nat.le_of_not_lt fun hstart => ?_) (Nat.le_of_lt_succ hlt)
    have hfalse := h.function_outermost hname hblock hstart (by omega) hinstr
    rw [hkind] at hfalse
    cases hfalse

end Activation

section Turn

open Exec World

variable {m : Machine} {host : Host} {c : Course} {w w' : World}

theorem Machine.turn_tracked (h : m.program.Indexed) (hr : m.program.Region lo hi) (hhost : host.Discreet)
    (hcharge : c.Counts) (hend : ∀ a, c.ended a = false → a.ip < hi)
    (ht : w.current.Tracked m.program lo hi) (hturn : (m.turn host c).outcome w = (.ok true, w')) :
    w'.current.Tracked m.program lo hi := by
  obtain ⟨hended, instr, hinstr, hmove⟩ := m.turn_move hhost hcharge hturn
  have hhi := hend _ hended
  obtain ⟨hplaced, hle⟩ := hmove.placed h hr ht.placed hhi hinstr
  have hnext := Activation.nextIndex_eq hle
  refine ⟨by rwa [hnext], by rw [hnext]; exact hmove.outside h hr ht.placed hhi hinstr ht.outside, ?_⟩
  intro target hskip
  rw [hskip] at hle
  exact hle

/-- The worlds in which an activation that began in `w₀` is about to take a turn. -/
inductive Machine.Visits (m : Machine) (host : Host) (c : Course) (w₀ : World) : World → Prop
  | start : Visits m host c w₀ w₀
  | turn {w w' : World} (h : Visits m host c w₀ w) (turn : (m.turn host c).outcome w = (.ok true, w')) :
      Visits m host c w₀ w'

end Turn

/-! ### The bodies of functions -/

section Body

open Exec World

variable {m : Machine} {limit : Option Limit} {depth : Nat} {name : Text} {f : Function} {args : List Value}
  {w₀ w w' : World}

theorem Machine.lt_of_not_ended (h : (m.bodyCourse f).ended a = false) : a.ip < f.stop := by
  simp only [bodyCourse, Bool.or_eq_false_iff, decide_eq_false_iff_not, Nat.not_le] at h
  exact h.2

/-- The worlds in which a call is about to execute an instruction of its function. -/
def Machine.InBody (m : Machine) (f : Function) (w : World) : Prop :=
  ∃ limit depth args w₀, m.Visits (m.bodyHost limit depth) (m.bodyCourse f) ((enter f args).outcome w₀).2 w

theorem Machine.InBody.tracked (h : m.program.Indexed) (hname : m.program.functions.get? name = some f)
    (hw : m.InBody f w) : w.current.function = some f ∧ w.current.Tracked m.program (f.start + 1) f.stop := by
  obtain ⟨limit, depth, args, w₀, hvisits⟩ := hw
  have hblock := h.function hname
  induction hvisits with
  | start => exact ⟨rfl, Activation.tracked_ofFunction h hname⟩
  | turn _ hturn ih =>
    obtain ⟨hfunction, ht⟩ := ih
    exact ⟨(apart_of_turn bodyHost_discreet bodyCourse_counts hturn).function.trans hfunction,
      turn_tracked h (h.region_block hblock) bodyHost_discreet bodyCourse_counts (fun _ => lt_of_not_ended) ht hturn⟩

end Body

/-! ### Sessions -/

/-- The program itself is tracked. -/
def World.InMain (p : Program) (w : World) : Prop := w.current.function = none ∧ w.current.Tracked p 0 p.size

/-- What holds of every session that commands lead to. -/
structure Session.Tracked (s : Session) : Prop where
  indexed : s.program.Indexed
  machine : s.machine.program = s.program
  world : s.error = none → s.world.InMain s.program
  history : ∀ c ∈ s.history.entries, c.world.InMain s.program

namespace Session

open Exec World

variable {s s' : Session} {b : Bool} {w : World}

theorem tracked_start {source : Text} {program : Program} (h : Program.load source = .ok program) (settings : Settings)
    (bound : Nat) (seed : Int) : (start settings source program bound seed).Tracked where
  indexed := Program.indexed_load h
  machine := rfl
  world _ := ⟨rfl, Activation.tracked_main program⟩
  history c hc := by
    cases hc

theorem turn_inMain (hs : s.Tracked) (hw : s.world.InMain s.program) (hturn : s.turn = (.ok true, w)) :
    w.InMain s.program := by
  have hindexed := hs.machine ▸ hs.indexed
  refine ⟨(Machine.apart_of_turn (Machine.host_discreet _) Machine.mainCourse_counts hturn).function.trans hw.1, ?_⟩
  have ht := hw.2
  rw [← hs.machine] at ht ⊢
  exact Machine.turn_tracked hindexed hindexed.region_all (Machine.host_discreet _) Machine.mainCourse_counts
    (fun a ha => by simpa [Machine.mainCourse] using ha) ht hturn

theorem keeps_tracked_step : Keeps False Tracked step := by
  refine .of_ok fun s hs b s' h => ?_
  -- the world that a step begins in is kept in the history
  have pushed (herror : s.error = none) : ∀ c ∈ s.begun.history.entries, c.world.InMain s.program := by
    intro c hc
    rcases mem_begun hc with rfl | hold
    · exact ⟨(hs.world herror).1, (hs.world herror).2.resolved⟩
    · exact hs.history c hold
  cases step_cases h with
  | refused => exact hs
  | told comes _ =>
    cases comes with
    | ended herror _ =>
      obtain ⟨hfunction, ht⟩ := hs.world herror
      exact ⟨hs.indexed, hs.machine, fun _ => ⟨hfunction, ht.resolved⟩, hs.history⟩
    | moved hrunning hexecutes hworld =>
      have hmain := turn_inMain hs (hs.world hrunning.error) (turn_of_moved hs.machine hrunning hexecutes hworld)
      exact ⟨hs.indexed, hs.machine, fun _ => hmain, pushed hrunning.error⟩
    | failed hrunning _ => exact ⟨hs.indexed, hs.machine, nofun, pushed hrunning.error⟩

theorem keeps_tracked_load (code : Text) : Keeps False Tracked (load code) := by
  refine .of_ok fun s _ _ s' h => ?_
  obtain ⟨program, bound, seed, hload, -, -, rfl⟩ := load_cases h
  exact tracked_start hload s.settings bound seed

theorem Reachable.tracked (h : s.Reachable) : s.Tracked := by
  induction h with
  | create h =>
    obtain ⟨program, bound, seed, hload, -, -, rfl⟩ := create_cases h
    exact tracked_start hload _ bound seed
  | @order s s' answer o _ hrun ih =>
    refine (Keeps.order keeps_tracked_step keeps_tracked_load ?_ ?_).ok ih hrun
    · exact fun _ _ _ _ hs _ => ⟨hs.indexed, hs.machine, nofun, hs.history⟩
    · intro s c history hs hpop
      obtain ⟨hc, hrest⟩ := History.mem_of_pop? hpop
      exact ⟨hs.indexed, hs.machine, fun _ => hs.history c hc, fun c' hc' => hs.history c' (hrest c' hc')⟩
  | load code _ hrun ih => exact (keeps_tracked_load code).ok ih hrun
  | applySettings patch _ hrun ih =>
    cases hrun
    exact ⟨ih.indexed, ih.machine, ih.world, ih.history⟩

end Session

/-! ### The main statements -/

/-- A turn sees a jump ahead only as the place where it begins. -/
theorem Machine.turn_resolved (m : Machine) (host : Host) (c : Course) (w : World) :
    (m.turn host c).outcome { w with current := w.current.resolved } = (m.turn host c).outcome w := by
  rfl

/-- In every session without an error, and whenever a call is about to execute an instruction of its function, the
control state makes sense. A jump ahead is made once: the turn after it begins at its target, where it is forgotten. -/
theorem control_state_sound :
    (∀ s : Session, s.Reachable → s.error = none →
      s.world.current.function = none ∧ s.world.current.Sound s.program) ∧
    (∀ (source : Text) (m : Machine) (name : Text) (f : Function) (w : World), Program.load source = .ok m.program →
      m.program.function? name = some f → m.InBody f w →
      w.current.function = some f ∧ w.current.Sound m.program) ∧
    ∀ (m : Machine) (host : Host) (c : Course) (w : World), w.current.resolved.skip = none ∧
      w.current.resolved.ip = w.current.nextIndex ∧
      (m.turn host c).outcome w = (m.turn host c).outcome { w with current := w.current.resolved } := by
  refine ⟨fun s hs herror => ?_, fun source m name f w hload hname hw => ?_, fun m host c w => ?_⟩
  · obtain ⟨hfunction, ht⟩ := hs.tracked.world herror
    exact ⟨hfunction, ht.sound_main hs.tracked.indexed hfunction⟩
  · have hindexed := Program.indexed_load hload
    obtain ⟨hfunction, ht⟩ := hw.tracked hindexed hname
    exact ⟨hfunction, ht.sound_body hindexed hname hfunction⟩
  · exact ⟨rfl, rfl, (m.turn_resolved host c w).symm⟩

/-- The state is not trivial: inside a loop of the program, and inside a loop of a function. -/
theorem control_state_sound_loops :
    (∃ s : Session, s.Reachable ∧ s.error = none ∧ s.world.current.frames.length = 1 ∧
      s.world.current.Sound s.program) ∧
    ∃ (m : Machine) (f : Function) (w : World), m.program.function? "f".codes = some f ∧ m.InBody f w ∧
      w.current.frames.length = 1 ∧ w.current.Sound m.program := by
  constructor
  · obtain ⟨s, hs, hP⟩ := Session.exists_reachable .standard "for (const x of [1, 2]) \x7b\n\x7d".codes [.step]
      (fun s => s.error.isNone && s.world.current.frames.length == 1) (by decide +kernel)
    simp only [Bool.and_eq_true, Option.isNone_iff_eq_none, beq_iff_eq] at hP
    exact ⟨s, hs, hP.1, hP.2, (control_state_sound.1 s hs hP.1).2⟩
  · obtain ⟨p, hp, hload⟩ := eq_ok_of_any
      (r := Program.load "function f(n) \x7b\n  while (n) \x7b\n  n = 0\n\x7d\n\x7d".codes) (P := fun p =>
        (p.function? "f".codes).any fun f =>
          let m : Machine := ⟨p, Settings.standard.limits⟩
          let w := ((Machine.enter f [.bool true]).outcome (.initial 0)).2
          let o := (m.turn (m.bodyHost none 0) (m.bodyCourse f)).outcome w
          o.1.toOption == some true && o.2.current.frames.length == 1) (by decide +kernel)
    obtain ⟨f, hf, hload⟩ := (Option.any_eq_true _ _).mp hload
    simp only [Bool.and_eq_true, beq_iff_eq] at hload
    obtain ⟨hresult, hframes⟩ := hload
    have hbody : Machine.InBody ⟨p, Settings.standard.limits⟩ f _ :=
      ⟨none, 0, _, _, .turn .start (eq_of_fst_eq (eq_ok_of_toOption hresult))⟩
    refine ⟨⟨p, _⟩, f, _, hf, hbody, hframes, ?_⟩
    exact (control_state_sound.2.1 _ ⟨p, _⟩ "f".codes f _ hp hf hbody).2

end Stepwise
