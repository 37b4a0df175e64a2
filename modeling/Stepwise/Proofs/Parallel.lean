import Stepwise.Proofs.Custody

/-!
# Computations that differ only in their host

`Parallel host host' x x'` says that `x` and `x'` are put together in the same way from the steps of expressions, `x`
with the one host and `x'` with the other. Whatever relation between worlds the steps respect is then respected by `x`
and `x'` (`Parallel.agree`); with one host on both sides this gives what a computation keeps (`Parallel.keeps`). What is
`Built` is parallel: when nothing is kept track of, every reference is known.
-/

namespace Stepwise

/-- What expressions find around them keeps the condition and ends in no faults but those of the given kind, to which
the faults of the expressions themselves belong. -/
structure Host.Within (I : World → Prop) (Q : Fault → Prop) (host : Host) : Prop where
  native {f : Fault} : f.Native → Q f
  store {w : World} (s : Store) : I w → I { w with store := s }
  random {w : World} (r : Twister) : I w → I { w with random := r }
  emit (line : Text) : Exec.Within I Q (Exec.emit host.outputLimit line)
  call (name : Text) (f : Function) (args : List Value) : host.function? name = some f → Exec.Within I Q (host.call f args)

namespace Exec

/-- Two computations that are put together in the same way, apart from their hosts. -/
inductive Parallel (host host' : Host) : {α : Type} → Exec α → Exec α → Prop
  | done {α : Type} (a : α) : Parallel host host' (pure a) (pure a)
  | fault {α : Type} {f : Fault} (native : f.Native) : Parallel host host' (throw f : Exec α) (throw f)
  | seq {α β : Type} {x x' : Exec α} {f f' : α → Exec β} (first : Parallel host host' x x')
      (rest : ∀ a, Parallel host host' (f a) (f' a)) : Parallel host host' (x >>= f) (x' >>= f')
  /-- a look at the world sees no more of it than the store and the random source -/
  | look {α : Type} {f f' : World → Exec α}
      (rest : ∀ w w', w.store = w'.store → w.random = w'.random → Parallel host host' (f w) (f' w')) :
      Parallel host host' (get >>= f) (get >>= f')
  | change (f : Store → Store) :
      Parallel host host' (modify fun w => { w with store := f w.store }) (modify fun w => { w with store := f w.store })
  | draw (r : Twister) :
      Parallel host host' (modify fun w => { w with random := r }) (modify fun w => { w with random := r })
  | write (line : Text) : Parallel host host' (emit host.outputLimit line) (emit host'.outputLimit line)
  /-- the type of a name that is not defined is no fault -/
  | typed {x x' : Exec Value} (inner : Parallel host host' x x') :
      Parallel host host' (Eval.typeOf x) (Eval.typeOf x')
  /-- a fault passes after the store has been put in order -/
  | tidied {α : Type} {x x' : Exec α} (f : Store → Store) (inner : Parallel host host' x x') :
      Parallel host host'
        (tryCatch x fun e => do modify (fun w => { w with store := f w.store }); throw e)
        (tryCatch x' fun e => do modify (fun w => { w with store := f w.store }); throw e)
  | ask (name : Text) {f : Function} (args : List Value) (found : host.function? name = some f) :
      Parallel host host' (host.call f args) (host'.call f args)

variable {α β : Type} {escape : Fault → Prop} {R : World → World → Prop} {parts : Fault → World → Prop} {x : Exec α}

/-- Related worlds have the same store and random source, and stay related when these change in the same way. -/
structure Steady (R : World → World → Prop) : Prop where
  store {w w' : World} : R w w' → w.store = w'.store
  random {w w' : World} : R w w' → w.random = w'.random
  setStore {w w' : World} (s : Store) : R w w' → R { w with store := s } { w' with store := s }
  setRandom {w w' : World} (r : Twister) : R w w' → R { w with random := r } { w' with random := r }

namespace Meet

theorem change (hR : Steady R) (f : Store → Store) :
    Meet R parts (modify fun w => { w with store := f w.store }) (modify fun w => { w with store := f w.store }) := by
  intro w w' h
  right
  simp only [outcome_modify, true_and]
  rw [hR.store h]
  exact hR.setStore _ h

/-- Only a reference error is caught when a type is asked for, and the runs do not part by one. -/
theorem typeOf {x x' : Exec Value} (hpass : ∀ e w, parts (.raised e) w → e.cause.kind ≠ .reference)
    (h : Meet R parts x x') : Meet R parts (Eval.typeOf x) (Eval.typeOf x') := by
  refine tryCatch (h.bind (fun v => of_const (fun _ => rfl) fun _ => rfl) fun _ _ _ he => he) (fun e => ?_)
    (fun e' w e he => ?_) fun e w w' he => ?_
  · cases e with
    | raised e => by_cases hk : e.cause.kind = .reference <;> simp only [hk, if_true, if_false] <;>
        exact of_const (fun _ => rfl) fun _ => rfl
    | breakdown b => exact of_const (fun _ => rfl) fun _ => rfl
  · cases e' with
    | raised e' => by_cases hk : e'.cause.kind = .reference <;> simp only [hk, if_true, if_false] <;> exact he
    | breakdown b => exact he
  · cases e with
    | raised e => exact ⟨.raised e, by simp [hpass e w' he], he⟩
    | breakdown b => exact ⟨.breakdown b, rfl, he⟩

end Meet

/-- A line is written in both worlds or refused in both when they have the same output and the same limit. -/
theorem Agree.emit (limit : Option Limit) (line : Text) (houtput : ∀ {w w'}, R w w' → w.output = w'.output)
    (hpush : ∀ {w w'}, R w w' →
      R { w with output := w.output.push line } { w' with output := w'.output.push line }) :
    Agree escape R (emit limit line) (emit limit line) := by
  intro w w' h
  right
  have hpushed := hpush h
  cases limit with
  | none => exact ⟨rfl, hpushed⟩
  | some limit =>
    simp only [Exec.emit, outcome_bind, outcome_get, outcome_liftBreakdown, houtput h]
    rcases limit.isReached w'.output.size with b | reached
    · exact ⟨rfl, h⟩
    · cases reached
      · exact ⟨rfl, by simpa [houtput h] using hpushed⟩
      · exact ⟨rfl, h⟩

namespace Parallel

variable {host host' : Host} {x x' : Exec α}

theorem agree (hR : Steady R) (hpass : ∀ e : Raised, escape (.raised e) → e.cause.kind ≠ .reference)
    (hemit : ∀ line, Agree escape R (emit host.outputLimit line) (emit host'.outputLimit line))
    (hcall : ∀ name f args, host.function? name = some f → Agree escape R (host.call f args) (host'.call f args))
    (h : Parallel host host' x x') : Agree escape R x x' := by
  refine agree_iff.mpr ?_
  induction h with
  | done a => exact .of_const (fun _ => rfl) fun _ => rfl
  | fault _ => exact .of_const (fun _ => rfl) fun _ => rfl
  | seq _ _ hx hf => exact hx.bind hf fun _ _ _ he => he
  | look _ hf =>
    intro w w' h
    simp only [outcome_bind, outcome_get]
    exact hf w w' (hR.store h) (hR.random h) h
  | change f => exact .change hR f
  | draw r => exact fun _ _ h => .inr ⟨rfl, hR.setRandom r h⟩
  | write line => exact agree_iff.mp (hemit line)
  | typed _ hx => exact hx.typeOf fun e _ => hpass e
  | tidied f _ hx =>
    refine hx.tryCatch (fun e => ?_) (fun _ _ _ he => he) fun e w w' he => ⟨e, rfl, he⟩
    exact (Meet.change hR f).bind (fun _ => .of_const (fun _ => rfl) fun _ => rfl) fun _ _ _ he => he
  | ask name args found => exact agree_iff.mp (hcall name _ args found)

theorem within {I : World → Prop} {Q : Fault → Prop} (hhost : host.Within I Q) (h : Parallel host host' x x') :
    Within I Q x := by
  induction h with
  | done a => exact .done a
  | fault native => exact .fault (hhost.native native)
  | seq _ _ hx hf => exact .seq hx hf
  | look _ hf => exact .look fun w _ => hf w w rfl rfl
  | change f => exact .change fun _ => hhost.store _
  | draw r => exact .change fun _ => hhost.random r
  | write line => exact hhost.emit line
  | typed _ hx =>
    refine .handle (.seq hx fun _ => .done _) fun e he => ?_
    cases e with
    | raised e => exact .ite _ (.done _) (.fault he)
    | breakdown why => exact .fault he
  | tidied f _ hx => exact .handle hx fun e he => .seq (.change fun _ => hhost.store _) fun _ => .fault he
  | ask name args found => exact hhost.call name _ args found

theorem keeps (hrefl : ∀ w, R w w) (htrans : ∀ {u v w}, R u v → R v w → R u w)
    (hstore : ∀ w s, R w { w with store := s }) (hrandom : ∀ w r, R w { w with random := r })
    (hwrite : ∀ w line, R w { w with output := w.output.push line })
    (hcall : ∀ name f args, host.function? name = some f → Keeps R (host.call f args))
    (h : Parallel host host' x x') : Keeps R x := .of_within hrefl fun w => h.within {
  native _ := trivial
  store s hw := htrans hw (hstore _ s)
  random r hw := htrans hw (hrandom _ r)
  emit line := .emit (fun _ hw => htrans hw (hwrite _ line)) (fun _ _ => trivial) fun _ _ _ _ _ => trivial
  call name f args found := (hcall name f args found).within htrans w }

end Parallel

/-- What comes second matters only for what the first can result in. -/
theorem bind_congr_of_ok {f f' : α → Exec β} (h : ∀ w a, (x.outcome w).1 = .ok a → f a = f' a) :
    x >>= f = x >>= f' := by
  funext w
  show (x >>= f).outcome w = (x >>= f').outcome w
  rw [outcome_bind, outcome_bind]
  rcases hr : x.outcome w with ⟨e | a, w'⟩
  · rfl
  · show (f a).outcome w' = (f' a).outcome w'
    rw [h w a (by rw [hr])]

/-- Where a handler only throws, what is not caught results from the computation. -/
theorem ok_of_rethrown {handle : Fault → Exec α} {w : World} {a : α}
    (hthrow : ∀ e w', ((handle e).outcome w').1 ≠ .ok a) (h : ((tryCatch x handle).outcome w).1 = .ok a) :
    (x.outcome w).1 = .ok a := by
  rw [outcome_tryCatch] at h
  rcases hr : x.outcome w with ⟨e | a', w'⟩
  · rw [hr] at h
    exact absurd h (hthrow e w')
  · rw [hr] at h
    exact h

end Exec

/-- Nothing is kept track of. -/
def Custody.none : Custody where
  Ledger := Unit
  Later _ _ := True
  Kept _ _ := True
  Known _ _ := True
  Holds _ _ _ := True
  escape _ := False
  later_refl _ := trivial
  later_trans _ _ := trivial
  known_later _ _ := trivial
  holds_later _ _ := trivial
  known_of_holds _ := trivial
  held _ _ _ _ := trivial
  bound _ _ _ := trivial
  returned _ _ := trivial
  extended _ _ _ _ := ⟨(), trivial, trivial, fun _ _ _ => ⟨trivial, fun _ _ => trivial⟩⟩
  allocated _ _ := ⟨(), trivial, trivial, trivial⟩
  rewritten _ _ _ _ _ := trivial
  declared _ _ _ _ := ⟨(), trivial, trivial⟩
  assigned _ _ := ⟨(), trivial, trivial⟩
  moved _ _ := trivial
  aside _ _ _ _ _ := trivial
  opened _ _ := trivial
  closed _ _ _ _ := trivial
  escape_crossing h := h
  escape_kind h := h.elim

/-- The two hosts, with nothing kept track of. -/
def Setting.plain (host host' : Host) : Setting := ⟨.none, host, host'⟩

namespace Setting.Built

open Exec

variable {host host' : Host} {g : (plain host host').Ledger} {α : Type} {x x' : Exec α}
  {Q : (plain host host').Ledger → α → Prop}

/-- What either computation results in is good. -/
theorem good_of_ok (h : (plain host host').Built g x x' Q) :
    ∀ w a, (x.outcome w).1 = .ok a ∨ (x'.outcome w).1 = .ok a → Q g a := by
  induction h with
  | done result =>
    rintro w a (⟨⟨⟩⟩ | ⟨⟨⟩⟩) <;> exact result
  | fault _ => rintro w a (⟨⟨⟩⟩ | ⟨⟨⟩⟩)
  | seq _ _ ihx ihf =>
    rintro w b (h | h) <;> obtain ⟨a, w', hx, hf⟩ := bind_eq_ok (eq_of_fst_eq h)
    · exact ihf () trivial a (ihx w a (.inl (by rw [hx]))) w' b (.inl (by rw [hf]))
    · exact ihf () trivial a (ihx w a (.inr (by rw [hx]))) w' b (.inr (by rw [hf]))
  | look _ ih =>
    exact fun w => ih w w rfl rfl trivial w
  | @step _ _ x Q act acts _ kept =>
    have hgood (w : World) (a : _) (h : (x.outcome w).1 = .ok a) : Q () a := by
      rw [acts] at h
      rcases hact : act w.store with e | ⟨a', s⟩
      · rw [hact] at h
        cases h
      · rw [hact] at h
        cases h
        obtain ⟨_, -, -, hQ⟩ := kept w _ s trivial hact
        exact hQ
    exact fun w a h => hgood w a (h.elim id id)
  | draw r => exact fun _ _ _ => rfl
  | write line => exact fun _ _ _ => rfl
  | typed _ _ => exact fun _ _ _ _ _ => trivial
  | tidied tidy _ _ ih =>
    exact fun w a h => ih w a (h.imp (ok_of_rethrown (by rintro _ _ ⟨⟩)) (ok_of_rethrown (by rintro _ _ ⟨⟩)))
  | ask _ _ _ => exact fun _ _ _ _ _ => trivial

/-- What is put together from steps that hand about known references is parallel, whatever is known. -/
theorem parallel (h : (plain host host').Built g x x' Q) : Parallel host host' x x' := by
  induction h with
  | done _ => exact .done _
  | fault native => exact .fault native
  | @seq α β _ x x' f f' Q _ first _ ihx ihf =>
    classical
    have hgood := first.good_of_ok
    -- a result that is not good does not come up, so it does not matter what would come after it
    let cut (f : α → Exec β) (a : α) : Exec β := if Q () a then f a else throw (.breakdown .integerTooLarge)
    have hx : x >>= f = x >>= cut f := bind_congr_of_ok fun w a ha => (if_pos (hgood w a (.inl ha))).symm
    have hx' : x' >>= f' = x' >>= cut f' := bind_congr_of_ok fun w a ha => (if_pos (hgood w a (.inr ha))).symm
    rw [hx, hx']
    refine .seq ihx fun a => ?_
    by_cases ha : Q () a
    · simp only [cut, if_pos ha]
      exact ihf () trivial a ha
    · simp only [cut, if_neg ha]
      exact .fault (.mishap .integerTooLarge)
  | look _ ih => exact .look fun w w' hs hr => ih w w' hs hr trivial
  | @step _ _ x _ act acts native _ =>
    have hx : x = (do
        let r ← (liftM (act (← get).store) : Exec _)
        modify fun w => { w with store := r.2 }
        return r.1) := by
      funext w
      show x.outcome w = Exec.outcome _ w
      rw [acts, outcome_bind, outcome_get]
      dsimp only
      rw [outcome_bind, outcome_liftExcept]
      cases act w.store <;> rfl
    rw [hx]
    refine .look fun w w' hs _ => ?_
    rw [hs]
    cases hact : act w'.store with
    | error f => exact .fault (native _ f hact)
    | ok r => exact .seq (.done r) fun r => .seq (.change fun _ => r.2) fun _ => .done _
  | draw r => exact .draw r
  | write line => exact .write line
  | typed _ ih => exact .typed ih
  | tidied tidy _ _ ih => exact .tidied tidy ih
  | ask name args found => exact .ask name args found

end Setting.Built

end Stepwise
