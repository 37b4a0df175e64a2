import Stepwise.Proofs.Turn

/-!
# How control moves

An instruction that ends well tells which one is next, and may leave a jump ahead and change the frames of its
activation. `Move` lists all the ways in which this happens; `Instruction.run_move` says that there are no others.
-/

namespace Stepwise

/-- A loop over items is visiting one of them. -/
def Loop.Visiting : Loop → Prop
  | .each items position _ _ => position < items.size
  | _ => True

/-- The header of a loop. -/
def Stmt.isLoop : Stmt → Bool
  | .loopFor _ _ _ | .loopEach _ _ _ _ | .loopWhile _ => true
  | _ => false

/-- The first clause of a conditional. -/
def Stmt.isBranch : Stmt → Bool
  | .branch _ => true
  | _ => false

/-- A statement outside the language. -/
def Stmt.isUnsupported : Stmt → Bool
  | .unsupported _ => true
  | _ => false

/-- A statement that opens nothing, closes nothing and is not an error. -/
def Stmt.isPlain : Stmt → Bool
  | .noop | .block | .ret _ | .declare _ _ | .act _ | .guarded _ _ | .jump _ | .unsupported _ => true
  | _ => false

/-- The closing brace at `i` is where the loop goes back or the conditional is left. -/
def Frame.EndsAt (p : Program) (i : Nat) : Frame → Prop
  | .loop o _ => p.openerOf[i]? = some o
  | .branch o _ => p.openerOf[i]? = some o ∧ p.nextClause[o]? = none

/-- How control moves when instruction `i` is executed: the frames before, the next instruction, the jump ahead, and the
frames after. -/
inductive Move (p : Program) (i : Nat) (instr : Instruction) :
    (frames : List Frame) → (next : Nat) → (skip : Option Nat) → (frames' : List Frame) → Prop
  | forward {fs : List Frame} (kind : instr.stmt.isPlain) : Move p i instr fs (i + 1) none fs
  | closeBlock {fs : List Frame} (kind : instr.stmt = .close) (stays : ∀ f ∈ fs.head?, ¬ f.EndsAt p i) :
      Move p i instr fs (i + 1) none fs
  | passFunction {fs : List Frame} {c : Nat} (kind : instr.stmt.isFunction) (block : p.closerOf[i]? = some c) :
      Move p i instr fs (i + 1) (some c) fs
  | enterLoop {fs : List Frame} {c : Nat} {loop : Loop} (kind : instr.stmt.isLoop) (block : p.closerOf[i]? = some c)
      (visiting : loop.Visiting) : Move p i instr fs (i + 1) none (.loop i loop :: fs)
  | passLoop {fs : List Frame} {c : Nat} (kind : instr.stmt.isLoop) (block : p.closerOf[i]? = some c) :
      Move p i instr fs (i + 1) (some c) fs
  | repeatLoop {outer : List Frame} {o : Nat} {loop loop' : Loop} (kind : instr.stmt = .close)
      (closes : p.openerOf[i]? = some o) (visiting : loop.Visiting → loop'.Visiting) :
      Move p i instr (.loop o loop :: outer) (o + 1) none (.loop o loop' :: outer)
  | endLoop {outer : List Frame} {o : Nat} {loop : Loop} (kind : instr.stmt = .close)
      (closes : p.openerOf[i]? = some o) : Move p i instr (.loop o loop :: outer) (i + 1) none outer
  | takeBranch {fs : List Frame} {c : Nat} (kind : instr.stmt.isBranch) (block : p.closerOf[i]? = some c) :
      Move p i instr fs (i + 1) none (.branch i true :: fs)
  | missBranch {fs : List Frame} {c j : Nat} (kind : instr.stmt.isBranch) (block : p.closerOf[i]? = some c)
      (clause : p.nextClause[i]? = some j) : Move p i instr fs (i + 1) (some c) (.branch i false :: fs)
  | passBranch {fs : List Frame} {c : Nat} (kind : instr.stmt.isBranch) (block : p.closerOf[i]? = some c)
      (last : p.nextClause[i]? = none) : Move p i instr fs (i + 1) (some (c + 1)) fs
  | endBranch {outer : List Frame} {o : Nat} {taken : Bool} (kind : instr.stmt = .close)
      (closes : p.openerOf[i]? = some o) (last : p.nextClause[o]? = none) : Move p i instr (.branch o taken :: outer) (i + 1) none outer
  | passClauses {outer : List Frame} {o c e : Nat} (kind : instr.stmt.isOtherwise) (clause : p.prevClause[i]? = some o)
      (block : p.closerOf[i]? = some c) (final : p.closerOf[p.lastClause p.size i]? = some e) :
      Move p i instr (.branch o true :: outer) (i + 1) (some (e + 1)) outer
  | takeClause {outer : List Frame} {o c : Nat} (kind : instr.stmt.isOtherwise) (clause : p.prevClause[i]? = some o)
      (block : p.closerOf[i]? = some c) : Move p i instr (.branch o false :: outer) (i + 1) none (.branch i true :: outer)
  | missClause {outer : List Frame} {o c j : Nat} (kind : instr.stmt.isOtherwise) (clause : p.prevClause[i]? = some o)
      (block : p.closerOf[i]? = some c) (further : p.nextClause[i]? = some j) :
      Move p i instr (.branch o false :: outer) (i + 1) (some c) (.branch i false :: outer)
  | passClause {outer : List Frame} {o c : Nat} (kind : instr.stmt.isOtherwise) (clause : p.prevClause[i]? = some o)
      (block : p.closerOf[i]? = some c) (last : p.nextClause[i]? = none) :
      Move p i instr (.branch o false :: outer) (i + 1) (some (c + 1)) outer
  | leave {fs outer : List Frame} {o c : Nat} {loop : Loop} (kind : instr.stmt.isPlain)
      (inside : Activation.loopFrames fs = .loop o loop :: outer) (block : p.closerOf[o]? = some c) : Move p i instr fs (i + 1) (some (c + 1)) outer
  | again {fs outer : List Frame} {o c : Nat} {loop : Loop} (kind : instr.stmt.isPlain)
      (inside : Activation.loopFrames fs = .loop o loop :: outer) (block : p.closerOf[o]? = some c) : Move p i instr fs (i + 1) (some c) (.loop o loop :: outer)
  | ignore {fs : List Frame} {c : Nat} (kind : instr.stmt.isUnsupported) (opens : instr.opens)
      (block : p.closerOf[i]? = some c) : Move p i instr fs (i + 1) (some (c + 1)) fs

open Exec World

variable {host : Host} {p : Program} {i next : Nat} {instr : Instruction} {w w' : World}

/-! ### The parts of instructions -/

theorem blockEnd_eq_ok {stop : Nat} (h : (liftM (p.blockEnd i) : Exec Nat).outcome w = (.ok stop, w')) :
    p.closerOf[i]? = some stop ∧ w = w' := by
  rw [outcome_liftBlock, Program.blockEnd] at h
  cases hc : p.closerOf[i]? with
  | none => simp [hc] at h
  | some c =>
    simp only [hc, Prod.mk.injEq, Except.ok.injEq] at h
    exact ⟨by rw [h.1], h.2⟩

theorem current_eq_of_built {α : Type} {x : Exec α} {Q : Unit → α → Prop} {r : Except Fault α} (hhost : host.Discreet)
    (hx : (Setting.plain host host).Built () x x Q) (h : x.outcome w = (r, w')) : w'.current = w.current := by
  have := (hx.parallel.around hhost w).current
  rwa [h] at this

theorem outcome_enterLoop (stop : Nat) (loop : Loop) (enter : Bool) :
    (enterLoop i stop loop enter).outcome w =
      (.ok (i + 1), if enter then { w with current := { w.current with frames := .loop i loop :: w.current.frames } }
        else { w with current := { w.current with skip := some stop } }) := by
  cases enter <;> rfl

/-- The move from one world to another. -/
def Moves (p : Program) (i : Nat) (instr : Instruction) (w : World) (next : Nat) (w' : World) : Prop :=
  Move p i instr w.current.frames next w'.current.skip w'.current.frames

section Handlers

variable (hhost : host.Discreet) (hskip : w.current.skip = none) {loop : Loop} {test : Option Expr} {strict : Bool}

include hskip

theorem enterLoop_moves {stop : Nat} {enter : Bool} (kind : instr.stmt.isLoop)
    (hblock : p.closerOf[i]? = some stop) (h : (enterLoop i stop loop enter).outcome w = (.ok next, w'))
    (hvisiting : enter → loop.Visiting) : Moves p i instr w next w' := by
  rw [outcome_enterLoop, Prod.mk.injEq, Except.ok.injEq] at h
  obtain ⟨rfl, rfl⟩ := h
  cases enter with
  | false => exact .passLoop kind hblock
  | true =>
    simp only [Moves, if_true, hskip]
    exact .enterLoop kind hblock (hvisiting rfl)

include hhost

theorem runWhile_moves {test : Expr} (kind : instr.stmt = .loopWhile test)
    (h : (runWhile p host i test).outcome w = (.ok next, w')) : Moves p i instr w next w' := by
  obtain ⟨stop, _, hstop, h₁⟩ := bind_eq_ok h
  obtain ⟨hblock, rfl⟩ := blockEnd_eq_ok hstop
  obtain ⟨b, w₁, hb, h₂⟩ := bind_eq_ok h₁
  have hcurrent := current_eq_of_built hhost (.holds rfl (some test)) hb
  rw [Moves, ← hcurrent]
  exact enterLoop_moves (hcurrent ▸ hskip) (by rw [kind]; rfl) hblock h₂ fun _ => trivial

theorem runFor_moves {init : Option ForInit} {update : Option Action} (kind : instr.stmt = .loopFor init test update)
    (h : (runFor p host i init test update).outcome w = (.ok next, w')) : Moves p i instr w next w' := by
  -- the condition is reached with the activation that the header began with
  have tested {w₁ : World} {stop : Nat} (hblock : p.closerOf[i]? = some stop) (hcurrent : w₁.current = w.current)
      (h₁ : (do enterLoop i stop (.counted test update) (← Exec.holds host test) : Exec Nat).outcome w₁ = (.ok next, w')) :
      Moves p i instr w next w' := by
    obtain ⟨b, w₂, hb, h₂⟩ := bind_eq_ok h₁
    have hcurrent₂ := (current_eq_of_built hhost (.holds rfl test) hb).trans hcurrent
    rw [Moves, ← hcurrent₂]
    exact enterLoop_moves (hcurrent₂ ▸ hskip) (by rw [kind]; rfl) hblock h₂ fun _ => trivial
  obtain ⟨stop, _, hstop, h₁⟩ := bind_eq_ok h
  obtain ⟨hblock, rfl⟩ := blockEnd_eq_ok hstop
  cases init with
  | none => exact tested hblock rfl h₁
  | some init =>
    obtain ⟨_, w₂, hinit, h₂⟩ := bind_eq_ok h₁
    exact tested hblock (current_eq_of_built hhost (.forInit rfl init) hinit) h₂

theorem runEach_moves {decl : Option DeclKind} {name : Text} {mode : EachMode} {collection : Expr}
    (kind : instr.stmt = .loopEach decl name mode collection)
    (h : (runEach p host i decl name mode collection).outcome w = (.ok next, w')) : Moves p i instr w next w' := by
  obtain ⟨stop, _, hstop, h₁⟩ := bind_eq_ok h
  obtain ⟨hblock, rfl⟩ := blockEnd_eq_ok hstop
  obtain ⟨v, w₁, hv, h₂⟩ := bind_eq_ok h₁
  obtain ⟨items, w₂, hitems, h₃⟩ := bind_eq_ok h₂
  have hcurrent : w₂.current = w.current :=
    (current_eq_of_built hhost (.loopItems mode v) hitems).trans (current_eq_of_built hhost (.eval rfl _ collection) hv)
  have hvisiting : (!items.isEmpty) = true → (Loop.each items 0 name decl).Visiting := by
    simp only [Sequence.isEmpty, Loop.Visiting]
    grind
  have entered {w₃ : World} (hw₃ : w₃.current = w.current)
      (h₄ : (enterLoop i stop (.each items 0 name decl) !items.isEmpty).outcome w₃ = (.ok next, w')) :
      Moves p i instr w next w' := by
    rw [Moves, ← hw₃]
    exact enterLoop_moves (hw₃ ▸ hskip) (by rw [kind]; rfl) hblock h₄ hvisiting
  split at h₃
  · obtain ⟨_, w₃, hbind, h₄⟩ := bind_eq_ok h₃
    exact entered ((current_eq_of_built hhost (.bindItem name decl _) hbind).trans hcurrent) h₄
  · exact entered hcurrent h₃

theorem runBranch_moves {test : Expr} (kind : instr.stmt = .branch test)
    (h : (runBranch p host i test).outcome w = (.ok next, w')) : Moves p i instr w next w' := by
  have kind' : instr.stmt.isBranch := by rw [kind]; rfl
  obtain ⟨stop, _, hstop, h₁⟩ := bind_eq_ok h
  obtain ⟨hblock, rfl⟩ := blockEnd_eq_ok hstop
  obtain ⟨b, w₁, hb, h₂⟩ := bind_eq_ok h₁
  have hcurrent := current_eq_of_built hhost (.holds rfl (some test)) hb
  rw [Moves, ← hcurrent]
  cases b with
  | true =>
    cases h₂
    have hskip₁ : w₁.current.skip = none := hcurrent ▸ hskip
    rw [hskip₁]
    exact .takeBranch kind' hblock
  | false =>
    cases hc : p.nextClause[i]? with
    | none =>
      rw [hc] at h₂
      cases h₂
      exact .passBranch kind' hblock hc
    | some j =>
      rw [hc] at h₂
      cases h₂
      exact .missBranch kind' hblock hc

theorem runOtherwise_moves {closes : Bool} (kind : instr.stmt = .otherwise test closes)
    (h : (runOtherwise p host i test).outcome w = (.ok next, w')) : Moves p i instr w next w' := by
  have kind' : instr.stmt.isOtherwise := by rw [kind]; rfl
  obtain ⟨_, _, hget, h₁⟩ := bind_eq_ok h
  cases hget
  split at h₁
  case h_1 o taken outer previous hframes hprev =>
    by_cases ho : o = previous
    · subst ho
      simp only [bne_self_eq_false, Bool.false_eq_true, if_false] at h₁
      obtain ⟨stop, _, hstop, h₂⟩ := bind_eq_ok h₁
      obtain ⟨hblock, rfl⟩ := blockEnd_eq_ok hstop
      rw [Moves, hframes]
      cases taken with
      | true =>
        obtain ⟨_, w₁, hpop, h₃⟩ := bind_eq_ok h₂
        cases hpop
        obtain ⟨e, _, hend, h₄⟩ := bind_eq_ok h₃
        obtain ⟨hlast, rfl⟩ := blockEnd_eq_ok hend
        cases h₄
        simp only [hframes, List.tail_cons]
        exact .passClauses kind' hprev hblock hlast
      | false =>
        obtain ⟨_, w₁, henter, h₃⟩ := bind_eq_ok h₂
        cases h₃
        obtain ⟨_, _, hset, h₄⟩ := bind_eq_ok henter
        cases hset
        obtain ⟨b, w₂, hb, h₅⟩ := bind_eq_ok h₄
        have hcurrent : w₂.current = { w.current with frames := .branch i false :: outer } := by
          rw [current_eq_of_built hhost (.holds rfl test) hb]
          simp only [hframes, List.tail_cons]
        have hskip₂ : w₂.current.skip = none := by rw [hcurrent]; exact hskip
        cases b with
        | true =>
          cases h₅
          show Move p i instr _ _ w₂.current.skip (.branch i true :: w₂.current.frames.tail)
          rw [hskip₂, hcurrent]
          exact .takeClause kind' hprev hblock
        | false =>
          cases hc : p.nextClause[i]? with
          | none =>
            rw [hc] at h₅
            cases h₅
            show Move p i instr _ _ _ w₂.current.frames.tail
            rw [hcurrent]
            exact .passClause kind' hprev hblock hc
          | some j =>
            rw [hc] at h₅
            cases h₅
            show Move p i instr _ _ _ w₂.current.frames
            rw [hcurrent]
            exact .missClause kind' hprev hblock hc
    · simp [ho, outcome_bind] at h₁
  case h_2 => simp at h₁

theorem loopBack_moves {o : Nat} {outer : List Frame} (kind : instr.stmt = .close)
    (hframes : w.current.frames = .loop o loop :: outer) (hcloses : p.openerOf[i]? = some o) (h : (loopBack host i o loop).outcome w = (.ok next, w')) :
    Moves p i instr w next w' := by
  -- the decision is reached with frames in which at most the position of the loop has changed
  have decided {w₁ : World} {loop' : Loop} (again : Bool) (hskip₁ : w₁.current.skip = none)
      (hframes₁ : w₁.current.frames = .loop o loop' :: outer) (hvisiting : again → loop.Visiting → loop'.Visiting)
      (h₁ : (if again then return o + 1 else do Exec.popFrame; return i + 1 : Exec Nat).outcome w₁ = (.ok next, w')) :
      Moves p i instr w next w' := by
    rw [Moves, hframes]
    cases again with
    | true =>
      cases h₁
      rw [hskip₁, hframes₁]
      exact .repeatLoop kind hcloses (hvisiting rfl)
    | false =>
      cases h₁
      show Move p i instr _ _ w₁.current.skip w₁.current.frames.tail
      rw [hskip₁, hframes₁]
      exact .endLoop kind hcloses
  cases loop with
  | counted test update =>
    cases update with
    | none =>
      obtain ⟨b, w₁, hb, h₁⟩ := bind_eq_ok h
      have hcurrent := current_eq_of_built hhost (.holds rfl test) hb
      exact decided b (hcurrent ▸ hskip) (hcurrent ▸ hframes) (fun _ => id) h₁
    | some a =>
      obtain ⟨_, w₁, ha, h₁⟩ := bind_eq_ok h
      obtain ⟨b, w₂, hb, h₂⟩ := bind_eq_ok h₁
      have hcurrent :=
        (current_eq_of_built hhost (.holds rfl test) hb).trans (current_eq_of_built hhost (.action rfl a) ha)
      exact decided b (hcurrent ▸ hskip) (hcurrent ▸ hframes) (fun _ => id) h₂
  | whilst test =>
    obtain ⟨b, w₁, hb, h₁⟩ := bind_eq_ok h
    have hcurrent := current_eq_of_built hhost (.holds rfl (some test)) hb
    exact decided b (hcurrent ▸ hskip) (hcurrent ▸ hframes) (fun _ => id) h₁
  | each items position name decl =>
    obtain ⟨_, w₁, hset, h₁⟩ := bind_eq_ok h
    have hskip₁ : w₁.current.skip = none := by cases hset; exact hskip
    have hframes₁ : w₁.current.frames = .loop o (.each items (position + 1) name decl) :: outer := by
      cases hset
      simp only [hframes, List.tail_cons]
    cases hv : items.get? (position + 1) with
    | none =>
      rw [hv] at h₁
      exact decided false hskip₁ hframes₁ (by simp) h₁
    | some v =>
      rw [hv] at h₁
      obtain ⟨_, w₂, hbind, h₂⟩ := bind_eq_ok h₁
      have hcurrent := current_eq_of_built hhost (.bindItem name decl v) hbind
      refine decided true (hcurrent ▸ hskip₁) (hcurrent ▸ hframes₁) (fun _ _ => ?_) h₂
      simp only [Loop.Visiting, Sequence.size_eq]
      rw [Sequence.get?_eq] at hv
      exact (List.getElem?_eq_some_iff.mp hv).1

theorem runClose_moves (kind : instr.stmt = .close) (h : (runClose p host i).outcome w = (.ok next, w')) : Moves p i instr w next w' := by
  obtain ⟨_, _, hget, h₁⟩ := bind_eq_ok h
  cases hget
  have stays (hstays : ∀ f ∈ w.current.frames.head?, ¬ f.EndsAt p i) : Moves p i instr w (i + 1) w := by
    rw [Moves, hskip]
    exact .closeBlock kind hstays
  split at h₁
  case h_1 o loop outer hframes =>
    split at h₁
    case isTrue hcloses => exact loopBack_moves hhost hskip kind hframes hcloses h₁
    case isFalse hcloses =>
      cases h₁
      refine stays fun f hf => ?_
      rw [hframes, List.head?_cons, Option.mem_some_iff] at hf
      exact hf ▸ hcloses
  case h_2 o taken outer hframes =>
    split at h₁
    case isTrue hcloses =>
      cases h₁
      show Move p i instr _ _ w.current.skip w.current.frames.tail
      rw [hframes, hskip]
      exact .endBranch kind hcloses.1 (by simpa using hcloses.2)
    case isFalse hcloses =>
      cases h₁
      refine stays fun f hf => ?_
      rw [hframes, List.head?_cons, Option.mem_some_iff] at hf
      exact hf ▸ fun h => hcloses ⟨h.1, by simp [h.2]⟩
  case h_3 hframes =>
    cases h₁
    refine stays fun f hf => ?_
    simp [hframes] at hf

omit hhost hskip in
theorem runJump_moves {j : Jump} (kind : instr.stmt.isPlain) (h : (runJump p i j).outcome w = (.ok next, w')) : Moves p i instr w next w' := by
  obtain ⟨_, _, hget, h₁⟩ := bind_eq_ok h
  cases hget
  split at h₁
  case h_1 o loop outer hinside =>
    cases j with
    | leave =>
      obtain ⟨_, _, hset, h₂⟩ := bind_eq_ok h₁
      cases hset
      obtain ⟨c, _, hstop, h₃⟩ := bind_eq_ok h₂
      obtain ⟨hblock, rfl⟩ := blockEnd_eq_ok hstop
      cases h₃
      exact .leave kind hinside hblock
    | again =>
      obtain ⟨_, _, hset, h₂⟩ := bind_eq_ok h₁
      cases hset
      obtain ⟨c, _, hstop, h₃⟩ := bind_eq_ok h₂
      obtain ⟨hblock, rfl⟩ := blockEnd_eq_ok hstop
      cases h₃
      exact .again kind hinside hblock
  case h_2 => simp at h₁

omit hhost hskip in
/-- What changes neither frames nor the jump ahead goes to the following instruction. -/
theorem moves_forward (kind : instr.stmt.isPlain) (hskip : w'.current.skip = none) (hframes : w'.current.frames = w.current.frames) :
    Moves p i instr w (i + 1) w' := by
  rw [Moves, hskip, hframes]
  exact .forward kind

theorem runReturn_forward {e : Option Expr} (kind : instr.stmt.isPlain) (h : (runReturn host e).outcome w = (.ok (), w')) :
    Moves p i instr w (i + 1) w' := by
  obtain ⟨v, w₁, hv, h₁⟩ := bind_eq_ok h
  have hcurrent := current_eq_of_built hhost (.evalOptional rfl e) hv
  obtain ⟨_, _, hget, h₂⟩ := bind_eq_ok h₁
  cases hget
  have hskip₁ : w₁.current.skip = none := hcurrent ▸ hskip
  have hframes₁ : w₁.current.frames = w.current.frames := by rw [hcurrent]
  split at h₂ <;> cases h₂ <;> exact moves_forward kind hskip₁ hframes₁

theorem runGuarded_moves {test : Expr} {body : Guarded} (kind : instr.stmt.isPlain)
    (h : (runGuarded p host i test body).outcome w = (.ok next, w')) : Moves p i instr w next w' := by
  obtain ⟨b, w₁, hb, h₁⟩ := bind_eq_ok h
  have hcurrent := current_eq_of_built hhost (.holds rfl (some test)) hb
  rw [Moves, ← hcurrent]
  have hskip₁ : w₁.current.skip = none := hcurrent ▸ hskip
  cases b with
  | false =>
    cases h₁
    exact moves_forward kind hskip₁ rfl
  | true =>
    cases body with
    | ret e =>
      obtain ⟨_, w₂, hret, h₂⟩ := bind_eq_ok h₁
      cases h₂
      exact runReturn_forward hhost hskip₁ kind hret
    | jump j => exact runJump_moves kind h₁
    | act a =>
      obtain ⟨_, w₂, ha, h₂⟩ := bind_eq_ok h₁
      have hcurrent₂ := current_eq_of_built hhost (.action rfl a) ha
      cases h₂
      exact moves_forward kind (hcurrent₂ ▸ hskip₁) (by rw [hcurrent₂])

omit hhost in
theorem runUnsupported_moves {why : SyntaxError} (kind : instr.stmt = .unsupported why)
    (h : (runUnsupported p strict i instr why).outcome w = (.ok next, w')) : Moves p i instr w next w' := by
  cases strict with
  | true => simp [runUnsupported, outcome_bind] at h
  | false =>
    obtain ⟨_, _, hwarn, h₁⟩ := bind_eq_ok h
    cases hwarn
    cases hc : p.closerOf[i]? with
    | none =>
      rw [hc] at h₁
      cases h₁
      exact moves_forward (by rw [kind]; rfl) hskip rfl
    | some c =>
      rw [hc] at h₁
      by_cases hopens : instr.opens = true
      · simp only [hopens, if_true] at h₁
        cases h₁
        exact .ignore (by rw [kind]; rfl) hopens hc
      · simp only [hopens] at h₁
        cases h₁
        exact moves_forward (by rw [kind]; rfl) hskip rfl

theorem Instruction.run_move (h : (instr.run p strict host i).outcome w = (.ok next, w')) :
    Move p i instr w.current.frames next w'.current.skip w'.current.frames := by
  have simple {x : Exec Unit} (kind : instr.stmt.isPlain) (hx : (Setting.plain host host).Safe () x x)
      (h : (do x; return i + 1 : Exec Nat).outcome w = (.ok next, w')) : Moves p i instr w next w' := by
    obtain ⟨_, w₁, hdone, h₁⟩ := bind_eq_ok h
    have hcurrent := current_eq_of_built hhost hx hdone
    cases h₁
    exact moves_forward kind (hcurrent ▸ hskip) (by rw [hcurrent])
  unfold Instruction.run at h
  split at h
  case h_1 kind => cases h; exact moves_forward (by rw [kind]; rfl) hskip rfl
  case h_2 kind => cases h; exact moves_forward (by rw [kind]; rfl) hskip rfl
  case h_3 kind => exact runClose_moves hhost hskip kind h
  case h_4 test closes kind => exact runOtherwise_moves hhost hskip kind h
  case h_5 name params kind =>
    obtain ⟨c, _, hstop, h₁⟩ := bind_eq_ok h
    obtain ⟨hblock, rfl⟩ := blockEnd_eq_ok hstop
    cases h₁
    exact .passFunction (by rw [kind]; rfl) hblock
  case h_6 e kind =>
    obtain ⟨_, w₁, hret, h₁⟩ := bind_eq_ok h
    cases h₁
    exact runReturn_forward hhost hskip (by rw [kind]; rfl) hret
  case h_7 kind => exact simple (by rw [kind]; rfl) (.declareAll rfl _ _) h
  case h_8 kind => exact simple (by rw [kind]; rfl) (.action rfl _) h
  case h_9 kind => exact runFor_moves hhost hskip kind h
  case h_10 kind => exact runEach_moves hhost hskip kind h
  case h_11 kind => exact runWhile_moves hhost hskip kind h
  case h_12 kind => exact runBranch_moves hhost hskip kind h
  case h_13 kind => exact runGuarded_moves hhost hskip (by rw [kind]; rfl) h
  case h_14 kind => exact runJump_moves (by rw [kind]; rfl) h
  case h_15 kind => exact runUnsupported_moves hskip kind h
  case h_16 => simp at h

end Handlers

theorem Machine.turn_move {m : Machine} {c : Course} (hhost : host.Discreet) (hcharge : c.Counts)
    (h : (m.turn host c).outcome w = (.ok true, w')) :
    c.ended w.current.resolved = false ∧ ∃ instr, m.program.instructions[w.current.nextIndex]? = some instr ∧
      Move m.program w.current.nextIndex instr w.current.frames w'.current.ip w'.current.skip w'.current.frames := by
  obtain ⟨hended, w₁, w₂, next, hcurrent, hexecute, rfl⟩ := Machine.turn_eq_ok hcharge h
  obtain ⟨instr, hinstr, hrun⟩ := Machine.execute_eq_ok hexecute
  refine ⟨hended, instr, hinstr, ?_⟩
  have hmove := Instruction.run_move hhost (by rw [hcurrent]; rfl) hrun
  rw [hcurrent] at hmove
  exact hmove

end Stepwise
