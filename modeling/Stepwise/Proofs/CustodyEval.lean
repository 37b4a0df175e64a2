import Stepwise.Proofs.CustodyBuiltin

/-!
# Expressions in custody

The value of an expression refers to nothing but what is known: what a variable in scope refers to, what a known cell
holds, what has been made on the way, and what calls return. What a statement stores is copied first.
-/

namespace Stepwise

open List

/-! ### What operators give and what is read from a cell -/

/-- The result, if there is one, is no reference. -/
def Plain (e : Except Breakdown Value) : Prop := ∀ r, e = .ok r → r.isRef = false

namespace Plain

theorem done {v : Value} (hv : v.isRef = false) : Plain (pure v) := by
  rintro _ ⟨⟩
  exact hv

theorem bind {α : Type} {x : Except Breakdown α} {f : α → Except Breakdown Value} (hf : ∀ a, Plain (f a)) :
    Plain (x >>= f) := by
  intro r hr
  cases x with
  | error b => cases hr
  | ok a => exact hf a r hr

end Plain

namespace Heap

variable {key : Text} {r v : Value} {h : Heap}

theorem plain_addValues (h : Heap) (a b : Value) : Plain (h.addValues a b) := by
  refine .bind fun a => .bind fun b => ?_
  split
  · exact .bind fun _ => .done rfl
  · exact .bind fun _ => .done rfl
  · exact .bind fun _ => .bind fun _ => .bind fun _ => .done rfl

theorem plain_arithmetic (h : Heap) (op : ArithOp) (a b : Value) : Plain (h.arithmetic op a b) := by
  cases op with
  | add => exact h.plain_addValues a b
  | _ => exact .bind fun _ => .bind fun _ => .bind fun _ => .done rfl

theorem plain_binary (h : Heap) (op : BinaryOp) (a b : Value) : Plain (h.binary op a b) := by
  unfold binary
  split
  · exact h.plain_arithmetic _ a b
  · exact .bind fun _ => .done rfl
  · exact .done rfl
  · exact .bind fun _ => .done rfl

theorem sequenceProperty_eq_ok {length : Nat} {item? : Nat → Option Value}
    (h : sequenceProperty length item? key = .ok r) : r.isRef = false ∨ ∃ i, item? i = some r := by
  unfold sequenceProperty at h
  split at h
  · cases h
    exact .inl rfl
  · split at h
    · rcases hi : indexOf key with b | i
      · rw [hi] at h
        cases h
      · rw [hi] at h
        cases h
        cases hr : item? i with
        | none => exact .inl (by rfl)
        | some r => exact .inr ⟨i, by exact hr⟩
    · cases h
      exact .inl rfl

/-- An item is stored in the array as it is or in the array filled up. -/
theorem storeItem_eq_ok {h' : Heap} {a : Nat} {items : Sequence Value} {i : Nat}
    (hstore : h.storeItem a items i v = .ok h') :
    ∃ h₁, (h₁ = h ∨ h₁ = h.setItems a (filledUp items (i + 1)) true) ∧
      h' = (h₁.copy v).2.modifyItems a (·.set i (h₁.copy v).1) false := by
  unfold storeItem at hstore
  by_cases hmax : i ≥ maxArrayLength
  · rw [if_pos hmax] at hstore
    cases hstore
  · rw [if_neg hmax] at hstore
    cases hstore
    refine ⟨_, ?_, rfl⟩
    split
    · exact .inl rfl
    · exact .inr rfl

theorem property_eq_ok (hr : h.property v key = .ok r) :
    r.isRef = false ∨ ∃ a c, v = .ref a ∧ h.cell? a = some c ∧ r ∈ c.values := by
  unfold property at hr
  split at hr
  · refine .inl ((sequenceProperty_eq_ok hr).elim id ?_)
    rintro ⟨i, hi⟩
    obtain ⟨c, -, rfl⟩ := Option.map_eq_some_iff.mp hi
    rfl
  · split at hr
    · rename_i harray
      obtain ⟨rfl, growths, hcell⟩ := array?_eq_some harray
      refine (sequenceProperty_eq_ok hr).imp_right ?_
      rintro ⟨i, hi⟩
      rw [Sequence.get?_eq] at hi
      exact ⟨_, .array _ growths, rfl, hcell, mem_of_getElem? hi⟩
    · rename_i entries _ hobject
      obtain ⟨rfl, hcell⟩ := object?_eq_some hobject
      cases hr
      cases hget : entries.get? key with
      | none => exact .inl (by rfl)
      | some r => exact .inr ⟨_, .object entries, rfl, hcell, OrderedMap.mem_values_of_get? hget⟩
    · cases hr
      exact .inl rfl

end Heap

namespace Custody

variable {C : Custody} {g g' : C.Ledger} {m : Method}

theorem sees_of_plain {v : Value} (hv : v.isRef = false) : C.Sees g v := by
  rintro b rfl
  cases hv

theorem SeesAll.zip {keys : List Text} {vs : List Value} (hvs : C.SeesAll g vs) :
    C.SeesAll g ((keys.zip vs).map Prod.snd) := by
  intro v hv
  obtain ⟨e, he, rfl⟩ := mem_map.mp hv
  exact hvs e.2 (of_mem_zip he).2

/-- What is called works on known cells. -/
def ReachesCallee (C : Custody) (g : C.Ledger) : Eval.Callee → Prop
  | .method m => C.Reaches g m
  | _ => True

theorem Reaches.later (hm : C.Reaches g m) (h : C.Later g g') : C.Reaches g' m := by
  cases m with
  | array m a => exact C.known_later h hm
  | _ => trivial

theorem ReachesCallee.later {callee : Eval.Callee} (hcallee : C.ReachesCallee g callee) (h : C.Later g g') :
    C.ReachesCallee g' callee := by
  cases callee with
  | method m => exact Reaches.later hcallee h
  | _ => trivial

theorem reaches_find? {h : Heap} {receiver : Value} {name : Text} (hreceiver : C.Sees g receiver)
    (hm : Method.find? h receiver name = some m) : C.Reaches g m := by
  unfold Method.find? at hm
  split at hm
  · obtain ⟨_, -, rfl⟩ := Option.map_eq_some_iff.mp hm
    trivial
  · obtain ⟨_, -, rfl⟩ := Option.map_eq_some_iff.mp hm
    trivial
  · split at hm
    · obtain ⟨_, -, rfl⟩ := Option.map_eq_some_iff.mp hm
      exact hreceiver _ rfl
    · obtain ⟨_, -, rfl⟩ := Option.map_eq_some_iff.mp hm
      trivial
  · cases hm

/-! ### Stores -/

theorem OwnsAll.filledUp {a : Nat} {xs : Sequence Value} (hxs : C.OwnsAll g a xs.toList) (length : Nat) :
    C.OwnsAll g a (Heap.filledUp xs length).toList := by
  intro v hv
  rw [Heap.filledUp, Sequence.toList_append, Sequence.toList_replicate, mem_append] at hv
  rcases hv with hv | hv
  · exact hxs v hv
  · rw [eq_of_mem_replicate hv]
    exact nofun

section Cell

variable {w : World} {a : Nat} {xs : Sequence Value} {v : Value} {h : Heap}

theorem exists_kept_copy (hw : C.Kept g w) (ha : C.Known g a) (v : Value) :
    ∃ g', C.Later g g' ∧ C.Kept g' { w with store.heap := (w.store.heap.copy v).2 } ∧
      C.Owns g' a (w.store.heap.copy v).1 := by
  obtain ⟨hext, hfresh⟩ := w.store.heap.extends_copy v
  obtain ⟨g', hlater, hkept, hnew⟩ :=
    exists_kept_extended hw hext (forall_mem_singleton.mpr hfresh) (some a) (by rintro _ ⟨⟩; exact ha)
  exact ⟨g', hlater, hkept, (hnew _ (mem_singleton_self _)).2 a rfl⟩

theorem kept_setItems (hw : C.Kept g w) (ha : C.Known g a) (hxs : C.OwnsAll g a xs.toList)
    (grown : Bool) : C.Kept g { w with store.heap := w.store.heap.setItems a xs grown } :=
  kept_modifyItems hw ha (fun _ _ => hxs) grown

/-- An array is filled up first when the position lies beyond its end, and only then the copy is made. -/
theorem exists_kept_storeItem (hw : C.Kept g w) (ha : C.Known g a)
    (hxs : C.OwnsAll g a xs.toList) {i : Nat} (hstore : w.store.heap.storeItem a xs i v = .ok h) :
    ∃ g', C.Later g g' ∧ C.Kept g' { w with store.heap := h } := by
  obtain ⟨h₁, hfilled, rfl⟩ := Heap.storeItem_eq_ok hstore
  have hkept₁ : C.Kept g { w with store.heap := h₁ } := by
    rcases hfilled with rfl | rfl
    · exact hw
    · exact kept_setItems hw ha (hxs.filledUp _) true
  obtain ⟨g', hlater, hkept, howns⟩ := exists_kept_copy hkept₁ ha v
  refine ⟨g', hlater, kept_modifyItems hkept (C.known_later hlater ha) (fun ys hys y hy => ?_) false⟩
  rw [Sequence.toList_set] at hy
  rcases mem_or_eq_of_mem_set hy with hy | rfl
  · exact hys y hy
  · exact howns

theorem kept_setLength (hw : C.Kept g w) (ha : C.Known g a) (hxs : C.OwnsAll g a xs.toList)
    (length : Nat) : C.Kept g { w with store.heap := w.store.heap.setLength a xs length } := by
  unfold Heap.setLength
  split
  · refine kept_setItems hw ha (fun v hv => hxs v ?_) false
    rw [Sequence.toList_take] at hv
    exact mem_of_mem_take hv
  · exact kept_setItems hw ha (hxs.filledUp _) true

theorem exists_kept_putEntry (hw : C.Kept g w) (ha : C.Known g a) {entries : OrderedMap Value}
    (hentries : C.OwnsAll g a entries.values) (key : Text) (v : Value) :
    ∃ g', C.Later g g' ∧
      C.Kept g' { w with store.heap := (w.store.heap.copy v).2.set a (.object (entries.put key (w.store.heap.copy v).1)) } := by
  obtain ⟨g', hlater, hkept, howns⟩ := exists_kept_copy hw ha v
  refine ⟨g', hlater, C.rewritten (w := ((Exec.copy v).outcome w).2) hkept (C.known_later hlater ha) rfl
    (fun b hb => ?_) fun c hc b hb => ?_⟩
  · rw [Heap.cell?_set, if_neg hb]
    rfl
  · rw [Heap.cell?_set, if_pos rfl] at hc
    cases hc
    rcases OrderedMap.mem_values_put hb with hb | hb
    · exact howns b hb.symm
    · exact C.holds_later hlater (hentries _ hb b rfl)

theorem exists_kept_storeProperty (hw : C.Kept g w) {object : Value} (hobject : C.Sees g object) {key : Text}
    (hstore : w.store.heap.storeProperty object key v = .ok h) :
    ∃ g', C.Later g g' ∧ C.Kept g' { w with store.heap := h } := by
  unfold Heap.storeProperty at hstore
  split at hstore
  · cases hstore
  · split at hstore
    · rename_i harray
      obtain ⟨rfl, growths, hcell⟩ := Heap.array?_eq_some harray
      have ha := hobject _ rfl
      have hxs := ownsAll_values hw ha hcell
      split at hstore
      · rcases hi : Heap.indexOf key with b | i
        · rw [hi] at hstore
          cases hstore
        · rw [hi] at hstore
          exact exists_kept_storeItem hw ha hxs hstore
      · split at hstore
        · rcases hlength : w.store.heap.lengthOf v with e | length
          · rw [hlength] at hstore
            cases hstore
          · rw [hlength] at hstore
            cases hstore
            exact ⟨g, C.later_refl g, kept_setLength hw ha hxs length⟩
        · cases hstore
          exact ⟨g, C.later_refl g, hw⟩
    · rename_i hobject?
      obtain ⟨rfl, hcell⟩ := Heap.object?_eq_some hobject?
      cases hstore
      have ha := hobject _ rfl
      exact exists_kept_putEntry hw ha (ownsAll_values hw ha hcell) key v
    · cases hstore
      exact ⟨g, C.later_refl g, hw⟩

end Cell

end Custody

namespace Setting

open Custody

variable {C : Setting} {g g' : C.Ledger}

/-! ### Properties and spreads -/

theorem Keeps.namespaceOf (x : Text) : C.Keeps g (Eval.namespace? x) fun _ => True :=
  .look fun w w' hs _ _ => by rw [hs]; exact .ite _ (.done ⟨rfl, trivial⟩) (.done ⟨rfl, trivial⟩)

theorem Keeps.property {v : Value} (hv : C.Sees g v) (key : Text) : C.Keeps g (Eval.property v key) (C.Sees g) := by
  refine .heap fun w hw => .liftFault (w.store.heap.only_readProperty v key) fun r hr => ?_
  unfold Heap.readProperty at hr
  split at hr
  · cases hr
  · cases hproperty : w.store.heap.property v key with
    | error b =>
      rw [hproperty] at hr
      cases hr
    | ok r' =>
      rw [hproperty] at hr
      cases hr
      rcases Heap.property_eq_ok hproperty with hplain | ⟨a, c, rfl, hcell, hmem⟩
      · exact sees_of_plain hplain
      · exact (ownsAll_values hw (hv a rfl) hcell _ hmem).sees

theorem Built.spread (described : Text) (v : Value) :
    C.Built g (Eval.spread described v) (Eval.spread described v) C.SeesAll := by
  refine .heap fun w _ => ?_
  split
  · exact .seq (.copyTogether _) fun _ _ _ hvs => .done hvs
  · exact .done (seesAll_characters _)
  · exact .fail _ rfl

theorem Built.spreadEntries (v : Value) :
    C.Built g (Eval.spreadEntries v) (Eval.spreadEntries v) fun g' entries => C.SeesAll g' (entries.map Prod.snd) := by
  refine .heap fun w _ => ?_
  split
  · exact .seq (.copyEach _) fun _ _ _ hvs => .done hvs.zip
  · exact .seq (.copyTogether _) fun _ _ _ hvs => .done hvs.zip
  · exact .done (seesAll_characters _).zip
  · exact .done .nil

/-! ### Callees -/

theorem Keeps.methodOf {receiver : Value} (hreceiver : C.Sees g receiver) (name described : Text) :
    C.Keeps g (Eval.methodOf receiver name described) (C.ReachesCallee g) := by
  unfold Eval.methodOf
  refine .check _ (.fail _ rfl) <| .heap fun w _ => ?_
  dsimp only
  split
  · exact .done trivial
  · rename_i hfound _
    exact .done (reaches_find? hreceiver hfound)
  · exact .fail _ rfl

theorem Keeps.staticOf (nsName : Text) (ns : Namespace) (name : Text) :
    C.Keeps g (Eval.staticOf nsName ns name) (C.ReachesCallee g) := by
  unfold Eval.staticOf
  split
  · exact .done trivial
  · exact .fail _ rfl

theorem Built.unary (op : UnaryOp) (v : Value) : C.Built g (Eval.unary op v) (Eval.unary op v) C.Sees := by
  cases op with
  | not => exact .next (.convert v.ranged_truthy) fun _ _ => .done nofun
  | minus => exact .next (.toNumber v) fun n _ => .next (.convert n.ranged_neg) fun _ _ => .done nofun
  | plus => exact .next (.toNumber v) fun _ _ => .done nofun
  | typeof => exact .done nofun

section Functions

variable (same : C.host.functions = C.host'.functions) {callee : Eval.Callee}

include same

theorem function?_eq (x : Text) : C.host.function? x = C.host'.function? x := by
  simp only [Host.function?, same]

theorem isFunction_eq (x : Text) : C.host.isFunction x = C.host'.isFunction x := by
  simp only [Host.isFunction, function?_eq same]

theorem Built.name (x : Text) : C.Built g (Eval.name C.host x) (Eval.name C.host' x) C.Sees := by
  refine .look fun w w' hs _ hw => ?_
  rw [← hs, isFunction_eq same]
  split
  · rename_i b hb
    exact .done fun a ha => C.bound hw hb ha
  · split
    · exact .done nofun
    · refine .ite _ (.done nofun) ?_
      split
      · refine .newObject ?_
        rw [map_map]
        exact seesAll_map _ fun _ => rfl
      · exact .fail _ rfl

theorem Built.calleeOfName (x : Text) :
    C.Built g (Eval.calleeOfName C.host x) (Eval.calleeOfName C.host' x) C.ReachesCallee := by
  refine .look fun w w' hs _ _ => ?_
  rw [hs, isFunction_eq same]
  split
  · split
    · exact .done trivial
    · exact .fail _ rfl
  · exact .ite _ (.done trivial) (.fail _ rfl)

/-- A built-in function that is called back itself gets an index as second argument, and then does not call back. -/
theorem Built.invokeWithin_index (depth depth' : Nat) (x : Text) (v : Value) (i : Nat) :
    C.Built g (C.host.invokeWithin (depth + 1) x [v, .int i]) (C.host'.invokeWithin (depth' + 1) x [v, .int i]) C.Sees := by
  unfold Host.invokeWithin
  rw [← function?_eq same]
  split
  case h_1 f found => exact .ask x _ found
  case h_2 =>
    split
    · exact .builtin_of _ (.arrayFrom_index _ _ v _)
    · exact .fail _ rfl

/-- Two calls inside each other are enough, and more are not made. -/
theorem Built.invokeWithin (depth depth' : Nat) (x : Text) (args : List Value) :
    C.Built g (C.host.invokeWithin (depth + 2) x args) (C.host'.invokeWithin (depth' + 2) x args) C.Sees := by
  have inner (g' : C.Ledger) (f : Text) (v : Value) (i : Nat) :=
    Built.invokeWithin_index (g := g') same depth depth' f v i
  have hfrom (source mapper : Value) :
      C.Built g (Collection.arrayFrom (C.host.invokeWithin (depth + 1)) source mapper)
        (Collection.arrayFrom (C.host'.invokeWithin (depth' + 1)) source mapper) C.Sees := by
    refine .seq (.itemsFrom source) fun g₁ _ xs hxs => ?_
    cases mapper with
    | undefined => exact .newArray hxs
    | _ =>
      exact .next (.function _) fun f _ => .seq (.mapM (fun h hv => hv.later h) _ fun g₂ _ p => inner g₂ f p.1 p.2)
        fun _ _ _ hvs => .newList hvs
  unfold Host.invokeWithin
  rw [← function?_eq same]
  split
  case h_1 f found => exact .ask x _ found
  case h_2 =>
    split
    · exact .builtin_of _ (hfrom _ _)
    · exact .fail _ rfl

theorem Built.invoke (g : C.Ledger) (x : Text) (args : List Value) :
    C.Built g (C.host.invoke x args) (C.host'.invoke x args) C.Sees := .invokeWithin same 1 1 x args

theorem Built.callOf (hcallee : C.ReachesCallee g callee) {args : List Value}
    (hargs : C.SeesAll g args) : C.Built g (Eval.callOf C.host callee args) (Eval.callOf C.host' callee args) C.Sees := by
  cases callee with
  | function f => exact .invoke same g f args
  | builtin b => exact .builtin_of b (.arrayFrom (Built.invoke same) _ _)
  | method m => exact .method (Built.invoke same) hcallee hargs

theorem Built.called (hcallee : C.ReachesCallee g callee) {args args' : Exec (List Value)}
    (hargs : C.Built g args args' C.SeesAll) :
    C.Built g (args >>= Eval.callOf C.host callee) (args' >>= Eval.callOf C.host' callee) C.Sees :=
  .seq hargs fun _ h₁ _ hvs => .callOf same (hcallee.later h₁) hvs

end Functions

/-! ### Expressions -/

mutual

theorem Built.eval (same : C.host.functions = C.host'.functions) (g : C.Ledger) : (e : Expr) →
    C.Built g (e.eval C.host) (e.eval C.host') C.Sees
  | .num _ | .text _ | .bool _ | .null | .undefined => .done nofun
  | .template parts => .seq (Built.evalParts same g parts) fun _ _ _ _ => .done nofun
  | .name x => .name same x
  | .array items => .seq (Built.evalItems same g items) fun _ _ _ hvs => .newList hvs
  | .object entries => .seq (Built.evalEntries same g entries) fun _ _ _ hvs => .newObject hvs
  | .member e key => by
    have inner := Built.eval same g e
    have read {g' : C.Ledger} {v : Value} (hv : C.Sees g' v) :
        C.Built g' (Eval.property v key) (Eval.property v key) C.Sees := .of_keeps (.property hv key) fun _ h => h
    cases e with
    | name x =>
      refine .next (.namespaceOf x) fun ns _ => ?_
      cases ns with
      | some ns =>
        refine .done ?_
        unfold Eval.namespaceMember
        split
        · exact nofun
        · split <;> exact nofun
      | none => exact .seq inner fun _ _ _ hv => read hv
    | _ => exact .seq inner fun _ _ _ hv => read hv
  | .index e key =>
    .seq (Built.eval same g e) fun g₁ _ _ hv => .seq (Built.eval same g₁ key) fun _ h₂ k _ =>
      .heap fun w _ => .next (.convert (w.store.heap.ranged_propertyKey k)) fun key _ =>
        .of_keeps (.property (hv.later h₂) key) fun _ h => h
  | .call e args => by
    have given (g' : C.Ledger) := Built.evalArgs same g' args
    cases e with
    | member e key =>
      have inner := Built.eval same g e
      cases e with
      | name x =>
        refine .next (.namespaceOf x) fun ns _ => ?_
        cases ns with
        | some ns => exact .next (.staticOf _ _ _) fun _ hcallee => .called same hcallee (given _)
        | none =>
          exact .seq inner fun _ _ _ hv => .next (.methodOf hv _ _) fun _ hcallee => .called same hcallee (given _)
      | _ => exact .seq inner fun _ _ _ hv => .next (.methodOf hv _ _) fun _ hcallee => .called same hcallee (given _)
    | name x => exact .seq (.calleeOfName same x) fun _ _ _ hcallee => .called same hcallee (given _)
    | _ =>
      refine .seq (Built.eval same g _) fun g₁ _ v _ => ?_
      cases v with
      | function f =>
        have hcallee : C.ReachesCallee g₁ (.function f) := trivial
        exact .called same hcallee (given _)
      | _ => exact .fail _ rfl
  | .unary op e => by
    have inner := Built.eval same g e
    cases op with
    | typeof => exact .typed inner
    | _ => exact .seq inner fun _ _ _ _ => .unary _ _
  | .binary op left right =>
    .seq (Built.eval same g left) fun g₁ _ a _ => .seq (Built.eval same g₁ right) fun _ _ b _ =>
      .heap fun w _ => .of_keeps (.liftTo (w.store.heap.ranged_binary op a b).mishap (w.store.heap.plain_binary op a b))
        fun _ hplain => sees_of_plain hplain
  | .logical op left right =>
    .seq (Built.eval same g left) fun g₁ _ a ha => .next (.convert (Eval.ranged_shortCuts op a)) fun _ _ =>
      .ite _ (.done ha) (Built.eval same g₁ right)
  | .cond test yes no =>
    .seq (Built.eval same g test) fun g₁ _ v _ => .next (.convert v.ranged_truthy) fun _ _ =>
      .ite _ (Built.eval same g₁ yes) (Built.eval same g₁ no)

theorem Built.evalParts (same : C.host.functions = C.host'.functions) (g : C.Ledger) : (parts : List Part) →
    C.Safe g (Stepwise.evalParts C.host parts) (Stepwise.evalParts C.host' parts)
  | [] => .done trivial
  | .text _ :: rest => .seq (Built.evalParts same g rest) fun _ _ _ _ => .done trivial
  | .code e :: rest =>
    .seq (Built.eval same g e) fun g₁ _ _ _ => .next (.toChars _) fun _ _ =>
      .seq (Built.evalParts same g₁ rest) fun _ _ _ _ => .done trivial

theorem Built.evalItems (same : C.host.functions = C.host'.functions) (g : C.Ledger) : (items : List Item) →
    C.Built g (Stepwise.evalItems C.host items) (Stepwise.evalItems C.host' items) C.SeesAll
  | [] => .done .nil
  | .single e :: rest =>
    .seq (Built.eval same g e) fun _ _ v _ => .seq (.copy v) fun g₂ _ _ hv =>
      .seq (Built.evalItems same g₂ rest) fun _ h₃ _ hvs => .done (.cons (hv.later h₃) hvs)
  | .spread e :: rest =>
    .seq (Built.eval same g e) fun _ _ _ _ => .seq (.spread _ _) fun g₂ _ _ hfront =>
      .seq (Built.evalItems same g₂ rest) fun _ h₃ _ hvs => .done ((hfront.later h₃).append hvs)

theorem Built.evalArgs (same : C.host.functions = C.host'.functions) (g : C.Ledger) : (args : List Item) →
    C.Built g (Stepwise.evalArgs C.host args) (Stepwise.evalArgs C.host' args) C.SeesAll
  | [] => .done .nil
  | .single e :: rest =>
    .seq (Built.eval same g e) fun g₁ _ _ hv =>
      .seq (Built.evalArgs same g₁ rest) fun _ h₂ _ hvs => .done (.cons (hv.later h₂) hvs)
  | .spread e :: rest =>
    .seq (Built.eval same g e) fun _ _ _ _ => .seq (.spread _ _) fun g₂ _ _ hfront =>
      .seq (Built.evalArgs same g₂ rest) fun _ h₃ _ hvs => .done ((hfront.later h₃).append hvs)

theorem Built.evalEntries (same : C.host.functions = C.host'.functions) (g : C.Ledger) : (entries : List Entry) →
    C.Built g (Stepwise.evalEntries C.host entries) (Stepwise.evalEntries C.host' entries)
      fun g' entries => C.SeesAll g' (entries.map Prod.snd)
  | [] => .done .nil
  | .property _ e :: rest =>
    .seq (Built.eval same g e) fun _ _ v _ => .seq (.copy v) fun g₂ _ _ hv =>
      .seq (Built.evalEntries same g₂ rest) fun _ h₃ _ hvs => .done (.cons (hv.later h₃) hvs)
  | .computed key e :: rest =>
    .seq (Built.eval same g key) fun g₁ _ k _ =>
      .heap fun w _ => .next (.convert (w.store.heap.ranged_propertyKey k)) fun _ _ =>
        .seq (Built.eval same g₁ e) fun _ _ v _ => .seq (.copy v) fun g₃ _ _ hv =>
          .seq (Built.evalEntries same g₃ rest) fun _ h₄ _ hvs => .done (.cons (hv.later h₄) hvs)
  | .spread e :: rest =>
    .seq (Built.eval same g e) fun _ _ v _ => .seq (.spreadEntries v) fun g₂ _ _ hfront =>
      .seq (Built.evalEntries same g₂ rest) fun _ h₃ _ hvs => .done (by
        rw [List.map_append]
        exact (hfront.later h₃).append hvs)

end

/-! ### Stores -/

theorem Built.storeProperty {object : Value} (hobject : C.Sees g object) (key : Text) (v : Value) :
    C.Safe g (Exec.storeProperty object key v) (Exec.storeProperty object key v) := by
  refine .step (fun s => do return ((), { s with heap := ← s.heap.storeProperty object key v })) (fun w => ?_)
    (fun s => .bind (s.heap.only_storeProperty object key v) fun _ => .pure _) fun w _ s hw hs => ?_
  · simp only [Exec.storeProperty, Exec.heap, Exec.outcome_bind, Exec.outcome_get, Exec.outcome_pure,
      Exec.outcome_liftExcept]
    cases w.store.heap.storeProperty object key v <;> rfl
  · obtain ⟨h, hstore, hs⟩ := eq_ok_of_bind hs
    cases hs
    obtain ⟨g', hlater, hkept⟩ := exists_kept_storeProperty hw hobject hstore
    exact ⟨g', hlater, hkept, trivial⟩

theorem Built.declare (x : Text) (v : Value) (constant : Bool) :
    C.Safe g (Exec.declare x v constant) (Exec.declare x v constant) := by
  refine .step (fun s => .ok ((), s.declare x v constant)) (fun _ => rfl) (fun _ => .ok _) ?_
  rintro w _ _ hw ⟨⟩
  obtain ⟨g', hlater, hkept⟩ := C.declared x v constant hw
  exact ⟨g', hlater, hkept, trivial⟩

theorem Built.assign (x : Text) (v : Value) : C.Safe g (Exec.assign x v) (Exec.assign x v) := by
  refine .step (fun s => ((s.assign x v).mapError .of).map ((), ·)) (fun w => ?_) (fun s => ?_) fun w _ s hw hs => ?_
  · simp only [Exec.assign, Exec.outcome_bind, Exec.outcome_get, Exec.outcome_liftCause]
    cases w.store.assign x v <;> rfl
  · have honly := s.only_assign x v
    cases hassign : s.assign x v with
    | ok s' => exact .ok _
    | error c => exact .error (.error (honly c hassign))
  · cases hassign : w.store.assign x v with
    | error c => rw [hassign] at hs; cases hs
    | ok s' =>
      rw [hassign] at hs
      cases hs
      obtain ⟨g', hlater, hkept⟩ := C.assigned hw hassign
      exact ⟨g', hlater, hkept, trivial⟩

/-! ### Actions and conditions -/

theorem Keeps.iterable (v : Value) : C.Keeps g (Exec.iterable v) fun _ => True := by
  refine .heap fun w _ => ?_
  split
  · exact .done trivial
  · exact .done trivial
  · exact .seq (.toText _) fun _ _ => .fail _ rfl

theorem Built.bind (b : Binder) (constant : Bool) (v : Value) : C.Safe g (b.bind constant v) (b.bind constant v) := by
  cases b with
  | name x => exact .declare x v constant
  | pattern names =>
    refine .next (.iterable v) fun items _ => .forM _ fun g₁ _ x => ?_
    cases hx : x.1 with
    | none => simp only [hx]; exact .done trivial
    | some y => simp only [hx]; exact .declare _ _ _

theorem Built.bindItem (x : Text) (decl : Option DeclKind) (v : Value) :
    C.Safe g (Exec.bindItem x decl v) (Exec.bindItem x decl v) := by
  cases decl with
  | none => exact .assign x v
  | some kind => exact .declare x v _

theorem Built.loopItems (mode : EachMode) (v : Value) : C.Safe g (loopItems mode v) (loopItems mode v) := by
  cases mode with
  | items => exact .of_keeps (.iterable v) fun _ _ => trivial
  | keys => exact .ite _ (.done trivial) (.next (.keys v) fun _ _ => .done trivial)

section Actions

variable (same : C.host.functions = C.host'.functions)

include same

theorem Built.store (t : Target) (v : Value) : C.Safe g (t.store C.host v) (t.store C.host' v) := by
  cases t with
  | name x => exact .assign x v
  | index e key =>
    exact .seq (.eval same g e) fun g₁ _ _ hobject => .seq (.eval same g₁ key) fun _ h₂ k _ =>
      .heap fun w _ => .next (.convert (w.store.heap.ranged_propertyKey k)) fun _ _ =>
        .storeProperty (hobject.later h₂) _ _
  | member e key => exact .seq (.eval same g e) fun _ _ _ hobject => .storeProperty hobject _ _

theorem Built.action (a : Action) : C.Safe g (a.run C.host) (a.run C.host') := by
  cases a with
  | assign t e => exact .seq (.eval same g e) fun _ _ _ _ => .store same t _
  | destructure targets e =>
    exact .seq (.eval same g e) fun _ _ _ _ => .next (.iterable _) fun _ _ => .seq (.copyTogether _) fun _ _ _ _ =>
      .forM _ fun _ _ _ => .store same _ _
  | update increment t =>
    exact .seq (.eval same g _) fun _ _ _ _ => .next (.toNumber _) fun _ _ => .heap fun w _ =>
      .next (.convert (w.store.heap.ranged_arithmetic _ _ _)) fun _ _ => .store same t _
  | compound op t e =>
    exact .seq (.eval same g _) fun g₁ _ _ _ => .seq (.eval same g₁ e) fun _ _ _ _ => .heap fun w _ =>
      .next (.convert (w.store.heap.ranged_arithmetic _ _ _)) fun _ _ => .store same t _
  | evaluate e => exact .seq (.eval same g e) fun _ _ _ _ => .done trivial

theorem Built.evalOptional (e : Option Expr) :
    C.Built g (Stepwise.evalOptional C.host e) (Stepwise.evalOptional C.host' e) C.Sees := by
  cases e with
  | none => exact .done nofun
  | some e => exact .eval same g e

theorem Built.declareAll (kind : DeclKind) (decls : List Declarator) :
    C.Safe g (Stepwise.declareAll C.host kind decls) (Stepwise.declareAll C.host' kind decls) :=
  .forM decls fun _ _ _ => .seq (.evalOptional same _) fun _ _ _ _ => .bind _ _ _

theorem Built.forInit (init : ForInit) : C.Safe g (init.run C.host) (init.run C.host') := by
  cases init with
  | declare kind decls => exact .declareAll same kind decls
  | act a => exact .action same a

theorem Built.holds (test : Option Expr) : C.Safe g (Exec.holds C.host test) (Exec.holds C.host' test) := by
  cases test with
  | none => exact .done trivial
  | some e => exact .seq (.eval same g e) fun _ _ v _ => .of_keeps (.convert v.ranged_truthy) fun _ _ => trivial

end Actions

end Setting

end Stepwise
