import Stepwise.Machine.World

/-!
# Outcomes of computations

A computation in a world is a function: it takes a world to a result, or a fault, and the world it has reached by then.
Two notions compare computations. One `Keeps` a relation when it ends in a world that is related to the one it began
in. Two computations `Agree` up to a set of faults when, begun in related worlds, they have the same result and end in
related worlds, unless the first one ends in one of those faults.
-/

namespace Stepwise

section Results

variable {ε α : Type} {r : Except ε α} {β : Type} {f : α → Except ε β}

theorem eq_ok_of_isOk (h : r.isOk) : ∃ a, r = .ok a := by
  cases r with
  | ok a => exact ⟨a, rfl⟩
  | error e => cases h

theorem eq_ok_of_toOption {a : α} (h : r.toOption = some a) : r = .ok a := by
  cases r with
  | ok b => exact congrArg Except.ok (Option.some.inj h)
  | error e => cases h

theorem eq_ok_of_any {P : α → Bool} (h : r.toOption.any P) : ∃ a, r = .ok a ∧ P a := by
  cases r with
  | ok a => exact ⟨a, rfl, h⟩
  | error e => cases h

theorem eq_ok_of_bind {b : β} (h : r >>= f = .ok b) : ∃ a, r = .ok a ∧ f a = .ok b := by
  cases r with
  | ok a => exact ⟨a, rfl, h⟩
  | error e => cases h

theorem mapM_eq_ok_iff {l : List α} {bs : List β} : l.mapM f = .ok bs ↔ l.map f = bs.map .ok := by
  induction l generalizing bs with
  | nil => cases bs <;> simp [pure, Except.pure]
  | cons a l ih =>
    rw [List.mapM_cons, List.map_cons]
    constructor
    · intro h
      obtain ⟨b, hb, h⟩ := eq_ok_of_bind h
      obtain ⟨rest, hrest, h⟩ := eq_ok_of_bind h
      cases h
      rw [hb, ih.1 hrest, List.map_cons]
    · intro h
      cases bs with
      | nil => cases h
      | cons b rest =>
        rw [List.map_cons, List.cons.injEq] at h
        rw [h.1, ih.2 h.2]
        rfl

theorem eq_of_fst_eq {σ : Type} {o : Except ε α × σ} (h : o.1 = r) : o = (r, o.2) := Prod.ext h rfl

end Results

namespace Exec

variable {α β : Type} {x : Exec α} {f : α → Exec β} {w w' : World}

/-- The result and the last world of a computation. -/
def outcome (x : Exec α) (w : World) : Except Fault α × World := x.run.run w

/-! ### The outcome of each construct -/

@[simp] theorem outcome_pure (a : α) (w : World) : (pure a : Exec α).outcome w = (.ok a, w) := rfl

@[simp] theorem outcome_throw (f : Fault) (w : World) : (throw f : Exec α).outcome w = (.error f, w) := rfl

@[simp] theorem outcome_fail (c : Cause) (w : World) : (fail c : Exec α).outcome w = (.error (.of c), w) := rfl

@[simp] theorem outcome_get (w : World) : (get : Exec World).outcome w = (.ok w, w) := rfl

@[simp] theorem outcome_modify (f : World → World) (w : World) :
    (modify f : Exec Unit).outcome w = (.ok (), f w) := rfl

@[simp] theorem outcome_activation (f : Activation → Activation) (w : World) :
    (activation f).outcome w = (.ok (), { w with current := f w.current }) := rfl

theorem outcome_bind (x : Exec α) (f : α → Exec β) (w : World) :
    (x >>= f).outcome w = match x.outcome w with
      | (.ok a, w') => (f a).outcome w'
      | (.error e, w') => (.error e, w') := by
  show ((x >>= f).run).run w = _
  simp only [ExceptT.run_bind, StateT.run_bind, outcome]
  rcases x.run.run w with ⟨a | e, w'⟩ <;> rfl

theorem outcome_bind_ok {a : α} (h : x.outcome w = (.ok a, w')) : (x >>= f).outcome w = (f a).outcome w' := by
  rw [outcome_bind, h]

theorem outcome_bind_error {e : Fault} (h : x.outcome w = (.error e, w')) : (x >>= f).outcome w = (.error e, w') := by
  rw [outcome_bind, h]

theorem bind_eq_ok {w'' : World} {b : β} (h : (x >>= f).outcome w = (.ok b, w'')) :
    ∃ a w', x.outcome w = (.ok a, w') ∧ (f a).outcome w' = (.ok b, w'') := by
  rw [outcome_bind] at h
  rcases hx : x.outcome w with ⟨e | a, w'⟩
  · rw [hx] at h
    simp at h
  · rw [hx] at h
    exact ⟨a, w', rfl, h⟩

theorem outcome_tryCatch (x : Exec α) (handle : Fault → Exec α) (w : World) :
    (tryCatch x handle).outcome w = match x.outcome w with
      | (.ok a, w') => (.ok a, w')
      | (.error e, w') => (handle e).outcome w' := by
  show (ExceptT.run (ExceptT.tryCatch x handle)).run w = _
  simp only [ExceptT.tryCatch, ExceptT.run_mk, StateT.run_bind, outcome]
  show (StateT.run x.run w >>= fun p => _ : Id _) = _
  rcases StateT.run x.run w with ⟨a | e, w'⟩ <;> rfl

theorem outcome_liftExcept (e : Except Fault α) (w : World) : (liftM e : Exec α).outcome w = (e, w) := by
  cases e <;> rfl

theorem outcome_liftBreakdown (e : Except Breakdown α) (w : World) :
    (liftM e : Exec α).outcome w = match e with
      | .ok a => (.ok a, w)
      | .error b => (.error (.breakdown b), w) := by
  cases e <;> rfl

theorem outcome_liftCause (e : Except Cause α) (w : World) :
    (liftM e : Exec α).outcome w = match e with
      | .ok a => (.ok a, w)
      | .error c => (.error (.of c), w) := by
  cases e <;> rfl

theorem outcome_liftBlock (e : Except UnclosedBlock α) (w : World) :
    (liftM e : Exec α).outcome w = match e with
      | .ok a => (.ok a, w)
      | .error b => (.error (.of (.unclosedBlock b)), w) := by
  cases e <;> rfl

/-! ### What a computation keeps -/

/-- Begun where the condition holds, the computation keeps it and ends in no faults but those of the given kind. -/
def Within (I : World → Prop) (Q : Fault → Prop) (x : Exec α) : Prop :=
  ∀ w, I w → I (x.outcome w).2 ∧ ∀ f, (x.outcome w).1 = .error f → Q f

namespace Within

variable {I : World → Prop} {Q Q' : Fault → Prop} {x : Exec α} {f : α → Exec β}

theorem done (a : α) : Within I Q (pure a : Exec α) := fun _ hw => ⟨hw, nofun⟩

theorem fault {f : Fault} (h : Q f) : Within I Q (throw f : Exec α) := by
  intro w hw
  refine ⟨hw, ?_⟩
  rintro _ ⟨⟩
  exact h

theorem change {f : World → World} (h : ∀ w, I w → I (f w)) : Within I Q (modify f : Exec Unit) :=
  fun w hw => ⟨h w hw, nofun⟩

theorem seq (hx : Within I Q x) (hf : ∀ a, Within I Q (f a)) : Within I Q (x >>= f) := by
  intro w hw
  have h := hx w hw
  rw [outcome_bind]
  generalize x.outcome w = r at h ⊢
  rcases r with ⟨e | a, w'⟩
  · refine ⟨h.1, ?_⟩
    rintro _ ⟨⟩
    exact h.2 e rfl
  · exact hf a w' h.1

theorem look {f : World → Exec α} (hf : ∀ w, I w → Within I Q (f w)) : Within I Q (get >>= f) := fun w hw => hf w hw w hw

theorem ite (c : Prop) [Decidable c] {y : Exec α} (yes : Within I Q x) (no : Within I Q y) :
    Within I Q (if c then x else y) := by
  split
  · exact yes
  · exact no

theorem handle {recover : Fault → Exec α} (hx : Within I Q' x) (hrecover : ∀ e, Q' e → Within I Q (recover e)) :
    Within I Q (tryCatch x recover) := by
  intro w hw
  have h := hx w hw
  rw [outcome_tryCatch]
  generalize x.outcome w = r at h ⊢
  rcases r with ⟨e | a, w'⟩
  · exact hrecover e (h.2 e rfl) w' h.1
  · exact ⟨h.1, nofun⟩

theorem compared {e : Except Breakdown α} (hfail : ∀ why, e = .error why → Q (.breakdown why))
    (hf : ∀ a, Within I Q (f a)) : Within I Q (liftM e >>= f) := by
  cases e with
  | ok a => exact hf a
  | error why => exact .fault (hfail why rfl)

theorem emit {limit : Option Limit} {line : Text} (hpush : ∀ w, I w → I { w with output := w.output.push line })
    (hlimit : ∀ l, limit = some l → Q (.of (.outputLimit l)))
    (hfail : ∀ l, limit = some l → ∀ n why, l.isReached n = .error why → Q (.breakdown why)) :
    Within I Q (emit limit line) := by
  cases limit with
  | none => exact .look fun _ _ => .change hpush
  | some limit =>
    exact .look fun w _ => .compared (hfail limit rfl _) fun _ =>
      .ite _ (.seq (.fault (hlimit limit rfl)) fun _ => .change hpush) (.change hpush)

end Within

/-- The last world of the computation is related to the one it began in, also when it ends in a fault. -/
def Keeps (R : World → World → Prop) (x : Exec α) : Prop := ∀ w, R w (x.outcome w).2

namespace Keeps

variable {R : World → World → Prop} {x : Exec α}

theorem of_const (hrefl : ∀ w, R w w) {r : World → Except Fault α} (h : ∀ w, x.outcome w = (r w, w)) :
    Keeps R x := fun w => by rw [h]; exact hrefl w

theorem of_within (hrefl : ∀ w, R w w) (h : ∀ w, Within (R w) (fun _ => True) x) : Keeps R x := fun w => (h w w (hrefl w)).1

theorem within (h : Keeps R x) (htrans : ∀ {u v w}, R u v → R v w → R u w) (w : World) : Within (R w) (fun _ => True) x :=
  fun _ hw => ⟨htrans hw (h _), fun _ _ => trivial⟩

theorem bind (htrans : ∀ {u v w}, R u v → R v w → R u w) (hx : Keeps R x)
    (hf : ∀ a, Keeps R (f a)) : Keeps R (x >>= f) := by
  intro w
  have h := hx w
  rw [outcome_bind]
  generalize x.outcome w = r at h ⊢
  rcases r with ⟨e | a, w'⟩
  · exact h
  · exact htrans h (hf a w')

theorem tryCatch {handle : Fault → Exec α} (htrans : ∀ {u v w}, R u v → R v w → R u w) (hx : Keeps R x)
    (hh : ∀ e, Keeps R (handle e)) : Keeps R (tryCatch x handle) := by
  intro w
  have h := hx w
  rw [outcome_tryCatch]
  generalize x.outcome w = r at h ⊢
  rcases r with ⟨e | a, w'⟩
  · exact htrans h (hh e w')
  · exact h

end Keeps

/-! ### Computations that agree -/

/-- Begun in related worlds, the two computations have the same result and end in related worlds, unless the first one
ends in a fault by which it parts from the second one. -/
def Meet (R : World → World → Prop) (parts : Fault → World → Prop) (x x' : Exec α) : Prop :=
  ∀ ⦃w w'⦄, R w w' → (∃ f, (x.outcome w).1 = .error f ∧ parts f (x'.outcome w').2) ∨
    ((x.outcome w).1 = (x'.outcome w').1 ∧ R (x.outcome w).2 (x'.outcome w').2)

namespace Meet

variable {R : World → World → Prop} {parts : Fault → World → Prop} {x x' : Exec α}

theorem of_const {r : Except Fault α} (h : ∀ w, x.outcome w = (r, w)) (h' : ∀ w, x'.outcome w = (r, w)) :
    Meet R parts x x' := by
  intro w w' hR
  rw [h, h']
  exact .inr ⟨rfl, hR⟩

theorem bind {f' : α → Exec β} (hx : Meet R parts x x') (hf : ∀ a, Meet R parts (f a) (f' a))
    (hlater : ∀ a w e, parts e w → parts e ((f' a).outcome w).2) : Meet R parts (x >>= f) (x' >>= f') := by
  intro w w' hR
  have h := hx hR
  rw [outcome_bind, outcome_bind]
  generalize x.outcome w = r at h ⊢
  generalize x'.outcome w' = r' at h ⊢
  obtain ⟨r, v⟩ := r
  obtain ⟨r', v'⟩ := r'
  obtain ⟨e, he, hparts⟩ | ⟨hsame, halike⟩ := h
  · -- the first run has parted, and the second one goes on or not
    cases he
    refine .inl ⟨e, rfl, ?_⟩
    cases r' with
    | error e' => exact hparts
    | ok a => exact hlater a v' e hparts
  · cases hsame
    cases r with
    | error e => exact .inr ⟨rfl, halike⟩
    | ok a => exact hf a halike

theorem tryCatch {handle handle' : Fault → Exec α} (hx : Meet R parts x x') (hh : ∀ e, Meet R parts (handle e) (handle' e))
    (hlater : ∀ e' w e, parts e w → parts e ((handle' e').outcome w).2)
    (hpass : ∀ e w w', parts e w' → ∃ f, ((handle e).outcome w).1 = .error f ∧ parts f w') :
    Meet R parts (tryCatch x handle) (tryCatch x' handle') := by
  intro w w' hR
  have h := hx hR
  rw [outcome_tryCatch, outcome_tryCatch]
  generalize x.outcome w = r at h ⊢
  generalize x'.outcome w' = r' at h ⊢
  obtain ⟨r, v⟩ := r
  obtain ⟨r', v'⟩ := r'
  obtain ⟨e, he, hparts⟩ | ⟨hsame, halike⟩ := h
  · cases he
    obtain ⟨f, hf, hparting⟩ := hpass e v v' hparts
    refine .inl ⟨f, hf, ?_⟩
    cases r' with
    | error e' => exact hlater e' v' f hparting
    | ok a => exact hparting
  · cases hsame
    cases r with
    | error e => exact hh e halike
    | ok a => exact .inr ⟨rfl, halike⟩

end Meet

/-- Begun in related worlds, the two computations have the same result and end in related worlds, unless the first one
ends in a fault of the given set. -/
def Agree (escape : Fault → Prop) (R : World → World → Prop) (x x' : Exec α) : Prop :=
  ∀ w w', R w w' →
    (∃ f, (x.outcome w).1 = .error f ∧ escape f) ∨
      ((x.outcome w).1 = (x'.outcome w').1 ∧ R (x.outcome w).2 (x'.outcome w').2)

theorem agree_iff {escape : Fault → Prop} {R : World → World → Prop} {x' : Exec α} :
    Agree escape R x x' ↔ Meet R (fun f _ => escape f) x x' := ⟨fun h w w' => h w w', fun h _ _ hR => h hR⟩

end Exec

end Stepwise
