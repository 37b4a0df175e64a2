import Stepwise.Proofs.Definite
import Stepwise.Proofs.Turn

/-!
# Instructions and calls in custody

A computation is `Sound` when the world stays as some later ledger has it. Soundness also compares a computation with
another one, which has the same outcome unless the first one escapes. What is put together from steps that hand about
known references only is sound. So are instructions, which store copies only and return known values, and calls: they
bind their parameters to copies, so nothing that a body does depends on what its arguments referred to.
-/

namespace Stepwise

open Exec Machine

namespace Custody

variable {C : Custody} {g g' : C.Ledger} {host host' : Host} {α β : Type}

/-- The world is as some later ledger has it, and the result is good by that ledger. The other computation has the same
outcome, unless the first one escapes. -/
def Sound (C : Custody) (g : C.Ledger) (x x' : Exec α) (Q : C.Ledger → α → Prop) : Prop :=
  ∀ w, C.Kept g w → ∃ g', C.Later g g' ∧ C.Kept g' (x.outcome w).2 ∧ match (x.outcome w).1 with
    | .ok a => x'.outcome w = x.outcome w ∧ Q g' a
    | .error f => C.escape f ∨ (x'.outcome w = x.outcome w ∧ f ≠ .breakdown .exhausted)

/-- Nothing is said of the result. -/
def Safe (C : Custody) (g : C.Ledger) (x x' : Exec α) : Prop := C.Sound g x x' fun _ _ => True

namespace Sound

variable {x x' : Exec α} {f f' : α → Exec β} {Q Q' : C.Ledger → α → Prop} {R : C.Ledger → β → Prop}

theorem done {a : α} (h : Q g a) : C.Sound g (pure a) (pure a) Q := fun _ hw => ⟨g, C.later_refl g, hw, rfl, h⟩

theorem fault {e : Fault} (h : C.escape e ∨ e ≠ .breakdown .exhausted) : C.Sound g (throw e : Exec α) (throw e) Q :=
  fun _ hw => ⟨g, C.later_refl g, hw, h.imp_right fun h => ⟨rfl, h⟩⟩

theorem fail (c : Cause) : C.Sound g (Exec.fail c : Exec α) (Exec.fail c) Q := fault (.inr (Fault.of_ne_exhausted c))

theorem change {f : World → World} (h : ∀ w, C.Kept g w → C.Kept g (f w)) :
    C.Sound g (modify f) (modify f) fun g' _ => g' = g := fun w hw => ⟨g, C.later_refl g, h w hw, rfl, rfl⟩

theorem imp (h : C.Sound g x x' Q) (himp : ∀ g', C.Later g g' → ∀ a, Q g' a → Q' g' a) : C.Sound g x x' Q' := by
  intro w hw
  obtain ⟨g', hlater, hkept, hresult⟩ := h w hw
  refine ⟨g', hlater, hkept, ?_⟩
  split
  · have := by simpa only [*] using hresult
    exact ⟨this.1, himp g' hlater _ this.2⟩
  · simpa only [*] using hresult

theorem safe (h : C.Sound g x x' Q) : C.Safe g x x' := h.imp fun _ _ _ _ => trivial

theorem left (h : C.Sound g x x' Q) : C.Sound g x x Q := by
  intro w hw
  obtain ⟨g', hlater, hkept, hresult⟩ := h w hw
  refine ⟨g', hlater, hkept, ?_⟩
  split
  · have := by simpa only [*] using hresult
    exact ⟨rfl, this.2⟩
  · have := by simpa only [*] using hresult
    exact this.imp_right fun h => ⟨rfl, h.2⟩

theorem seq (hx : C.Sound g x x' Q) (hf : ∀ g', C.Later g g' → ∀ a, Q g' a → C.Sound g' (f a) (f' a) R) :
    C.Sound g (x >>= f) (x' >>= f') R := by
  intro w hw
  obtain ⟨g₁, hlater₁, hkept, h⟩ := hx w hw
  rw [outcome_bind, outcome_bind]
  rcases hr : x.outcome w with ⟨e | a, w'⟩
  · rw [hr] at h hkept
    refine ⟨g₁, hlater₁, hkept, ?_⟩
    rcases h with h | ⟨hsame, hfault⟩
    · exact .inl h
    · exact .inr ⟨by rw [hsame], hfault⟩
  · rw [hr] at h hkept
    obtain ⟨hsame, ha⟩ := h
    obtain ⟨g₂, hlater₂, hresult⟩ := hf g₁ hlater₁ a ha w' hkept
    rw [hsame]
    exact ⟨g₂, C.later_trans hlater₁ hlater₂, hresult⟩

theorem look {f f' : World → Exec α} (hf : ∀ w, C.Kept g w → C.Sound g (f w) (f' w) Q) :
    C.Sound g (get >>= f) (get >>= f') Q := by
  intro w hw
  rw [outcome_bind, outcome_bind, outcome_get]
  exact hf w hw w hw

theorem ite (c : Prop) [Decidable c] {y y' : Exec α} (yes : C.Sound g x x' Q) (no : C.Sound g y y' Q) :
    C.Sound g (if c then x else y) (if c then x' else y') Q := by
  split
  · exact yes
  · exact no

theorem compared {e : Except Breakdown α} (he : Definite e) (hf : ∀ a, C.Sound g (f a) (f' a) R) :
    C.Sound g (liftM e >>= f) (liftM e >>= f') R := by
  cases e with
  | ok a => exact hf a
  | error b =>
    refine fault (.inr fun h => he ?_)
    cases h
    rfl

theorem caught {handle handle' : Fault → Exec α} (hx : C.Sound g x x' Q)
    (hpass : ∀ e w, C.escape e → ∃ e', ((handle e).outcome w).1 = .error e' ∧ C.escape e')
    (hhandle : ∀ g', C.Later g g' → ∀ e, C.escape e ∨ e ≠ .breakdown .exhausted → C.Sound g' (handle e) (handle' e) Q) :
    C.Sound g (tryCatch x handle) (tryCatch x' handle') Q := by
  intro w hw
  obtain ⟨g₁, hlater₁, hkept, h⟩ := hx w hw
  rw [outcome_tryCatch, outcome_tryCatch]
  rcases hr : x.outcome w with ⟨e | a, w'⟩
  · rw [hr] at h hkept
    obtain ⟨g₂, hlater₂, hkept₂, hresult⟩ := hhandle g₁ hlater₁ e (h.imp_right And.right) w' hkept
    refine ⟨g₂, C.later_trans hlater₁ hlater₂, hkept₂, ?_⟩
    rcases h with h | ⟨hsame, -⟩
    · obtain ⟨e', he', hescape⟩ := hpass e w' h
      simp only [he']
      exact .inl hescape
    · rw [hsame]
      exact hresult
  · rw [hr] at h hkept
    exact ⟨g₁, hlater₁, hkept, by rw [h.1], h.2⟩

theorem crossed (line : Nat) (hx : C.Sound g x x' Q) :
    C.Sound g (tryCatch x fun e => do let w ← get; throw (e.crossing line fun _ => w.callStack))
      (tryCatch x' fun e => do let w ← get; throw (e.crossing line fun _ => w.callStack)) Q := by
  refine hx.caught (fun e w h => ⟨_, rfl, C.escape_crossing h⟩) fun _ _ e he => .look fun w _ => .fault ?_
  refine he.imp C.escape_crossing fun hfault hcrossed => hfault ?_
  rcases e with ⟨cause, place, _ | labels⟩ | b
  · cases hcrossed
  · cases hcrossed
  · exact hcrossed

/-- The type of a value, where a name that is not defined counts as undefined. -/
theorem typeOf {x x' : Exec Value} {Q : C.Ledger → Value → Prop} (hx : C.Sound g x x' Q) :
    C.Sound g (Eval.typeOf x) (Eval.typeOf x') C.Sees := by
  refine caught (.seq hx fun _ _ _ _ => .done nofun) (fun e w h => ?_) fun _ _ e he => ?_
  · -- what is caught is a reference error, and no escape is one
    cases e with
    | raised e => exact ⟨.raised e, by simp [C.escape_kind h], h⟩
    | breakdown b => exact ⟨.breakdown b, rfl, h⟩
  · cases e with
    | raised e => exact .ite _ (.done nofun) (.fault he)
    | breakdown b => exact .fault he

end Sound

/-- The two hosts know the same functions, and their calls are sound, whatever the arguments are. -/
structure Hosts (C : Custody) (host host' : Host) : Prop where
  functions : host.functions = host'.functions
  outputLimit : host.outputLimit = host'.outputLimit
  call : ∀ (g : C.Ledger) (name : Text) (f : Function) (args : List Value), host.function? name = some f →
    C.Sound g (host.call f args) (host'.call f args) C.Sees

theorem Hosts.left (hhosts : C.Hosts host host') : C.Hosts host host :=
  ⟨rfl, rfl, fun g name f args found => (hhosts.call g name f args found).left⟩

/-! ### Expressions and instructions -/

theorem Sound.emit (limit : Option Limit) (line : Text) :
    C.Sound g (Exec.emit limit line) (Exec.emit limit line) fun g' _ => g' = g := by
  have write : C.Sound g (modify fun w => { w with output := w.output.push line })
      (modify fun w => { w with output := w.output.push line }) fun g' _ => g' = g :=
    .change fun _ hw => C.aside hw rfl rfl rfl (Nat.le_refl _)
  refine .look fun w _ => ?_
  cases limit with
  | none => exact write
  | some limit => exact .compared (limit.definite_isReached _) fun _ => .ite _ (.seq (.fail _) fun _ _ _ (h : False) => h.elim) write

end Custody

/-- What is put together from steps that hand about known references is sound. -/
theorem Setting.Built.sound {α : Type} {S : Setting} {g : S.Ledger} {x x' : Exec α} {Q : S.Ledger → α → Prop}
    (hhosts : S.Hosts S.host S.host') (h : S.Built g x x' Q) : S.Sound g x x' Q := by
  induction h with
  | done h => exact .done h
  | fault native => exact .fault (.inr native.ne_exhausted)
  | seq _ _ hx hf => exact .seq hx hf
  | look _ hf => exact .look fun w hw => hf w w rfl rfl hw
  | step act acts native kept =>
    intro w hw
    rw [acts]
    rcases hact : act w.store with f | ⟨a, s⟩
    · exact ⟨_, S.later_refl _, hw, .inr ⟨rfl, (native _ f hact).ne_exhausted⟩⟩
    · obtain ⟨g', hlater, hkept, hQ⟩ := kept w a s hw hact
      exact ⟨g', hlater, hkept, rfl, hQ⟩
  | draw r => exact .change fun _ hw => S.aside hw rfl rfl rfl (Nat.le_refl _)
  | write line =>
    rw [hhosts.outputLimit]
    exact .emit _ line
  | typed _ hx => exact hx.typeOf
  | tidied tidy _ kept hx =>
    refine hx.caught (fun e w h => ⟨e, rfl, h⟩) fun g' hlater e he => .seq (.change (kept g' hlater)) fun _ _ _ _ => .fault he
  | ask name args found => exact hhosts.call _ name _ args found

namespace Custody

variable {C : Custody} {g g' : C.Ledger} {host host' : Host} {α : Type}

theorem Sound.activation {f : Activation → Activation} (h : ∀ a, (f a).returned = a.returned) :
    C.Sound g (Exec.activation f) (Exec.activation f) fun g' _ => g' = g :=
  .change fun w hw => C.moved hw fun b hb => C.returned hw (by rw [← h]; exact hb)

/-- What an instruction is put together from is sound, if what it may return is known. -/
theorem Sound.staged (hhosts : C.Hosts host host') {warns : Text → Prop} {v : Value} (hv : C.Sees g v) {x x' : Exec α}
    (h : Staged (.free warns) host host' v x x') : C.Safe g x x' := by
  induction h generalizing g with
  | expr h => exact (h C g).sound hhosts
  | given h _ hf => exact .seq ((h C g).sound hhosts) fun _ _ u hu => hf u hu
  | move _ _ hreturned =>
    refine safe (.change fun w hw => C.moved hw fun b hb => ?_)
    rcases hreturned w.current with h | h
    · exact C.returned hw (h ▸ hb)
    · exact hv b (Option.mem_unique h hb)
  | warn _ => exact safe (.change fun w hw => C.aside hw rfl rfl rfl (Nat.le_refl _))
  | unclosed _ => exact .fail _
  | look _ ih => exact .look fun w _ => ih w w rfl (Scene.inside_free _) hv
  | seq _ _ hx hf => exact .seq (hx hv) fun _ hlater a _ => hf a (hv.later hlater)

/-! ### Turns -/

variable {m : Machine} {f : Function} {w : World}

theorem Sound.execute (hhosts : C.Hosts host host') (i : Nat) : C.Safe g (m.execute host i) (m.execute host' i) := by
  unfold Machine.execute
  split
  · exact .crossed _ (.staged (v := .undefined) hhosts (fun _ h => by cases h) (Instruction.staged hhosts.functions _ i _ _))
  · exact .fault (.inr fun h => by cases h)

/-- A turn in which an instruction is executed passes a ledger after the count. -/
theorem Sound.turn {c : Course} {Q : C.Ledger → Prop} (hcharge : C.Sound g c.charge c.charge fun g' _ => Q g')
    (hexecute : ∀ g', C.Later g g' → Q g' → ∀ i, C.Safe g' (m.execute host i) (m.execute host' i)) :
    C.Sound g (m.turn host c) (m.turn host' c)
      fun g' moved => moved = true → ∃ g₁, C.Later g g₁ ∧ Q g₁ ∧ C.Later g₁ g' := by
  refine .seq (.activation fun _ => rfl) ?_
  rintro _ - - rfl
  refine .look fun w _ => ?_
  dsimp only
  split
  · exact .done nofun
  · refine .seq hcharge fun g₁ h₁ _ hQ => .seq (hexecute g₁ h₁ hQ _) fun g₂ h₂ next _ => ?_
    exact .seq (.activation fun _ => rfl) fun g₃ h₃ _ _ => .done fun _ => ⟨g₁, h₁, hQ, C.later_trans h₂ h₃⟩

theorem Sound.bodyCharge : C.Safe g (m.bodyCourse f).charge (m.bodyCourse f).charge :=
  .seq (.change fun _ hw => C.aside hw rfl rfl rfl (Nat.le_succ _)) fun _ _ _ _ => .look fun _ _ =>
    .compared (Limit.definite_isPassed _ _) fun _ => .ite _ (.fail _) (.done trivial)

theorem Sound.bodyTurn (hhosts : C.Hosts host host') :
    C.Safe g (m.turn host (m.bodyCourse f)) (m.turn host' (m.bodyCourse f)) :=
  (Sound.turn (Q := fun _ => True) .bodyCharge fun _ _ _ i => .execute hhosts i).safe

theorem Sound.result {x x' : Exec Unit} (hx : C.Safe g x x') :
    C.Sound g (do x; return (← get).current.returned.getD .undefined)
      (do x'; return (← get).current.returned.getD .undefined) C.Sees := by
  refine .seq hx fun g₁ _ _ _ => .look fun w hw => .done ?_
  cases hreturned : w.current.returned with
  | none => exact nofun
  | some v =>
    intro b hb
    have hv : v = .ref b := hb
    subst hv
    exact C.returned hw hreturned

/-! ### Calls -/

theorem exists_kept_declareEach (args : List Value) (params : List (Text × Nat)) (hw : C.Kept g w) :
    ∃ g', C.Later g g' ∧ C.Kept g'
      { w with store := params.foldl (fun s (param, i) => s.declare param (args.getD i .undefined) false) w.store } := by
  induction params generalizing g w with
  | nil => exact ⟨g, C.later_refl g, hw⟩
  | cons p params ih =>
    obtain ⟨g₁, h₁, hw₁⟩ := C.declared p.1 (args.getD p.2 .undefined) false hw
    obtain ⟨g₂, h₂, hw₂⟩ := ih hw₁
    exact ⟨g₂, C.later_trans h₁ h₂, hw₂⟩

theorem exists_kept_enter (f : Function) (args : List Value) (hw : C.Kept g w) :
    ∃ g', C.Later g g' ∧ C.Kept g' ((enter f args).outcome w).2 :=
  exists_kept_declareEach args f.params.zipIdx (C.opened f hw)

theorem backTo_of_callers {w' : World} (h : w'.callers = ⟨w.current, w.store.scope.inner⟩ :: w.callers) :
    (leave.outcome w').2 = w'.backTo w := by
  rw [outcome_leave h]
  rfl

/-- A call with a body that is sound once the parameters are bound. -/
theorem Sound.calledBody (f : Function) (args : List Value) {body body' : Exec Value}
    (hbeside : Exec.Keeps World.Beside body) (hbody : ∀ g', C.Later g g' → C.Sound g' body body' C.Sees) :
    C.Sound g (Machine.called f args body) (Machine.called f args body') C.Sees := by
  intro w hw
  obtain ⟨g₁, h₁, hentered⟩ := exists_kept_enter f args hw
  obtain ⟨g₂, h₂, hkept, hresult⟩ := hbody g₁ h₁ _ hentered
  -- whatever the body has called is over, so the caller that is found on leaving is the one put there on entering
  have hcallers : (body.outcome ((enter f args).outcome w).2).2.callers = ⟨w.current, w.store.scope.inner⟩ :: w.callers :=
    (hbeside ((enter f args).outcome w).2).callers
  rw [outcome_called, outcome_called, backTo_of_callers hcallers]
  refine ⟨g₂, C.later_trans h₁ h₂, C.closed hw (C.later_trans h₁ h₂) hkept hcallers, ?_⟩
  dsimp only
  split
  · rename_i v hv
    rw [hv] at hresult
    rw [hresult.1, hv, backTo_of_callers hcallers]
    exact ⟨rfl, hresult.2⟩
  · rename_i e he
    rw [he] at hresult
    refine hresult.imp_right fun h => ?_
    rw [h.1, he, backTo_of_callers hcallers]
    exact ⟨rfl, h.2⟩

theorem Sound.guardedCall {x x' : Exec Value} (hx : C.Sound g x x' C.Sees) :
    C.Sound g (do
        if ← m.limits.callDepth.isPassed ((← get).callers.length + 1) then Exec.fail .callDepth
        x) (do
        if ← m.limits.callDepth.isPassed ((← get).callers.length + 1) then Exec.fail .callDepth
        x') C.Sees :=
  .look fun _ _ => .compared (Limit.definite_isPassed _ _) fun _ => .ite _ (.seq (.fail _) fun _ _ _ (h : False) => h.elim) hx

section Escape

variable (hescape : C.escape (.breakdown .exhausted))

include hescape

theorem Sound.exhausted {x' : Exec α} {Q : C.Ledger → α → Prop} :
    C.Sound g (throw (.breakdown .exhausted)) x' Q := fun _ hw => ⟨g, C.later_refl g, hw, .inl hescape⟩

theorem Sound.drive (hhosts : C.Hosts host host') (fuel : Nat) :
    C.Safe g (m.drive host (m.bodyCourse f) fuel) (m.drive host' (m.bodyCourse f) fuel) := by
  induction fuel generalizing g with
  | zero => exact .exhausted hescape
  | succ fuel ih => exact .seq (.bodyTurn hhosts) fun _ _ _ _ => .ite _ ih (.done trivial)

theorem Sound.finish (hhosts : C.Hosts host host') : C.Sound g (m.finish host f) (m.finish host' f) C.Sees := by
  refine .look fun w _ => .result ?_
  rw [runBody_eq_drive, runBody_eq_drive]
  exact .drive hescape hhosts _

/-- When running out of fuel is an escape, calls are sound. -/
theorem Sound.call (limit : Option Limit) (depth : Nat) (f : Function) (args : List Value) :
    C.Sound g (m.call limit depth f args) (m.call limit depth f args) C.Sees := by
  induction depth generalizing g f args with
  | zero => exact .exhausted hescape
  | succ depth ih =>
    have hhosts : C.Hosts (m.bodyHost limit depth) (m.bodyHost limit depth) := ⟨rfl, rfl, fun _ _ f args _ => ih f args⟩
    exact .guardedCall (.calledBody f args (finish_beside bodyHost_discreet) fun _ _ => .finish hescape hhosts)

theorem hosts_bodyHost (limit : Option Limit) (depth : Nat) : C.Hosts (m.bodyHost limit depth) (m.bodyHost limit depth) :=
  ⟨rfl, rfl, fun _ _ f args _ => .call hescape limit depth f args⟩

end Escape

end Custody

end Stepwise
