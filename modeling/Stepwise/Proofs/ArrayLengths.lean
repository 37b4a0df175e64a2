import Stepwise.Proofs.Growth
import Stepwise.Proofs.Spelling

/-!
# How long arrays get

No array should have `Heap.maxArrayLength` items or more. Stores of the length, `Array.from` of an object with a length,
`map`, `filter` and `slice` hold to that. The others put items together without asking: whether they leave an array too
long is decided by the number of items that they ask for (`Building.demand`), and by nothing else
(`Building.arrays_stay_short_iff`).
-/

namespace Stepwise

open Exec List

variable {α : Type} {E : Nat → Prop} {n : Nat} {w w' : World} {v source : Value}

/-! ### Arrays from other values -/

theorem Double.Parts.truncate_lt {p : Double.Parts} (hn : 0 < n)
    (h : compareScaled p.signed p.exponent n 0 = .lt) : p.truncate < n := by
  obtain ⟨negative, mantissa, exponent⟩ := p
  cases negative with
  | true =>
    -- what is negative is cut to zero at most
    have hcut : (Parts.mk true mantissa exponent).truncate ≤ 0 := by
      show -((if 0 ≤ exponent then mantissa * pow2 exponent.toNat else mantissa / pow2 (-exponent).toNat : Nat) : Int) ≤ 0
      omega
    omega
  | false =>
    rw [compareScaled, Std.compare_eq_lt] at h
    show ((if 0 ≤ exponent then mantissa * pow2 exponent.toNat else mantissa / pow2 (-exponent).toNat : Nat) : Int) < n
    replace h : (mantissa : Int) * (pow2 (exponent - min exponent 0).toNat : Nat) <
      (n : Int) * (pow2 (0 - min exponent 0).toNat : Nat) := h
    rw [← Int.natCast_mul, ← Int.natCast_mul, Int.ofNat_lt] at h
    rw [Int.ofNat_lt]
    rcases Int.le_total 0 exponent with hexponent | hexponent
    · rw [Int.min_eq_right hexponent, Int.sub_zero, Int.sub_self] at h
      rw [if_pos hexponent]
      simpa [pow2] using h
    · rw [Int.min_eq_left hexponent, Int.sub_self, Int.zero_sub] at h
      have hcut : mantissa / pow2 (-exponent).toNat < n :=
        Nat.div_lt_of_lt_mul (by rw [Nat.mul_comm]; simpa [pow2] using h)
      split
      · obtain rfl : exponent = 0 := by omega
        simpa [pow2] using hcut
      · exact hcut

theorem Num.toNat_truncate_lt {x : Num} (hn : 0 < n) (h : x.lt (.int n)) {k : Int} (hk : x.truncate = .ok k) :
    k.toNat < n := by
  have hlt : x.compare? (.int n) = some .lt := beq_iff_eq.mp h
  cases x with
  | int m =>
    cases hk
    rw [compare?_int, Option.some_inj, Std.compare_eq_lt] at hlt
    omega
  | float x =>
    replace hlt : (Double.quantity x).compare? (.finite n 0) = some .lt := hlt
    cases hparts : Double.parts? x with
    | none =>
      simp only [Num.truncate, hparts] at hk
      cases hk
    | some p =>
      simp only [Num.truncate, hparts] at hk
      simp only [Double.quantity, hparts] at hlt
      cases hk
      have := Double.Parts.truncate_lt hn (Option.some.inj hlt)
      omega

theorem liftBreakdown_eq_ok {e : Except Breakdown α} {a : α}
    (h : (liftM e : Exec α).outcome w = (.ok a, w')) : e = .ok a := by
  cases e with
  | ok b =>
    cases h
    rfl
  | error why => cases h

theorem lt_of_claimedLength
    (hrun : (Collection.claimedLength v).outcome w = (.ok n, w')) : n < Heap.maxArrayLength := by
  obtain ⟨length, w₁, -, hrun⟩ := bind_eq_ok hrun
  obtain ⟨nan, w₂, -, hrun⟩ := bind_eq_ok hrun
  split at hrun
  · cases hrun
    exact maxArrayLength_pos
  · split at hrun
    · cases hrun
    · rename_i hlt
      obtain ⟨cut, w₃, hcut, hrun⟩ := bind_eq_ok hrun
      cases hrun
      exact Num.toNat_truncate_lt maxArrayLength_pos (by simpa using hlt) (liftBreakdown_eq_ok hcut)

theorem Exec.Reads.claimedLength (v : Value) : Exec.Reads (Collection.claimedLength v) :=
  .seq (.toNumber _) fun _ => .seq (.liftBreakdown _) fun _ => .ite _ (.done _) <|
    .ite _ (.seq (.fail _) fun _ => .seq (.liftBreakdown _) fun _ => .done _) (.seq (.liftBreakdown _) fun _ => .done _)

/-- The number of items that a text stands for. -/
def Value.textLength : Value → Nat
  | .text s => s.size
  | _ => 0

theorem Exec.Yields.itemsFrom (hsource : source.Apart E) :
    Exec.Yields E (Collection.itemsFrom source) fun xs => (∀ v ∈ xs.toList, v.Apart E) ∧
      (xs.toList.length < Heap.maxArrayLength ↔ source.textLength < Heap.maxArrayLength) := by
  refine .seq .heap fun h hh => ?_
  split
  · rename_i a xs harray
    obtain ⟨rfl, n, hcell⟩ := Heap.array?_eq_some harray
    have hxs := hh.items (hsource a rfl) hcell
    -- copies of the items of an array are no more than its items
    intro w ys w' hw hrun
    obtain ⟨hkept, hys, hlength⟩ := Exec.Yields.copyTogether hxs.apart w ys w' hw hrun
    refine ⟨hkept, hys, iff_of_true ?_ maxArrayLength_pos⟩
    rw [hlength]
    exact hxs.length
  · rename_i a entries hobject _
    obtain ⟨rfl, -⟩ := Heap.object?_eq_some hobject
    split
    · -- a length that is claimed has been checked
      intro w ys w' hw hrun
      obtain ⟨n, w₁, hclaimed, hnew⟩ := bind_eq_ok hrun
      have hn := lt_of_claimedLength hclaimed
      obtain rfl : w₁ = w := by rw [← (Exec.Reads.claimedLength _).still w, hclaimed]
      cases hnew
      dsimp only
      rw [Sequence.toList_replicate, length_replicate]
      refine ⟨hw.kept, fun v hv => ?_, iff_of_true hn maxArrayLength_pos⟩
      rw [eq_of_mem_replicate hv]
      rintro _ ⟨⟩
    · exact .done ⟨forall_mem_nil _, Iff.rfl⟩
  · rename_i s _ _
    refine .done ⟨apart_characters s, ?_⟩
    rw [length_characters]
    exact Iff.rfl
  · rename_i v _ _ _ htext _ _
    refine .done ⟨forall_mem_nil _, iff_of_true maxArrayLength_pos ?_⟩
    cases v with
    | text s => exact absurd rfl (htext s)
    | _ => exact maxArrayLength_pos

theorem kept_arrayFrom_iff {invoke : Callback} {mapper : Value} (hw : w.store.heap.Short E) (hsource : source.Apart E)
    (hcalm : ∀ f xs w₁, mapper = .function f → (Collection.itemsFrom source).outcome w = (.ok xs, w₁) →
      Exec.Calm E (fun p => invoke f [p.1, .int p.2]) (fun _ => Exec.single) xs.toList.zipIdx w₁)
    (hrun : (Collection.arrayFrom invoke source mapper).outcome w = (.ok v, w')) :
    Heap.Kept E w.store.heap w'.store.heap ↔ source.textLength < Heap.maxArrayLength := by
  obtain ⟨xs, w₁, hitems, hrun⟩ := bind_eq_ok hrun
  obtain ⟨hkept, hxs, hlength⟩ := Exec.Yields.itemsFrom hsource w xs w₁ hw hitems
  rw [← hlength]
  split at hrun
  · exact kept_newArray_iff hkept hxs hrun
  · obtain ⟨f, w₂, hfunction, hrest⟩ := bind_eq_ok hrun
    obtain ⟨hf, rfl⟩ := function_eq_ok hfunction
    obtain ⟨ys, w₃, hgather, hnew⟩ := bind_eq_ok hrest
    rw [mapM_eq_gather] at hgather
    obtain ⟨hkept', hys⟩ :=
      gather_eq_ok (fun p _ u hu => Exec.Yields.single hu) hkept.short (hcalm f xs w₂ hf hitems) hgather
    obtain ⟨hleast, hmost⟩ := length_gather (fun p u w₄ us w₅ hmade => length_of_single hmade) hgather
    rw [← Sequence.toList_ofList ys] at hys
    rw [kept_newArray_iff (hkept.trans hkept') hys hnew, Sequence.toList_ofList]
    rw [Nat.one_mul, length_zipIdx] at hleast
    rw [length_zipIdx] at hmost
    rw [Nat.le_antisymm hmost hleast]

/-- The items that an array literal gets from the value of one of its items. -/
def Item.contents (item : Item) (v : Value) : Exec (List Value) :=
  match item with
  | .single _ => do return [← Exec.copy v]
  | .spread e => Eval.spread e.describe v

theorem evalItems_eq_gather (host : Host) (items : List Item) :
    evalItems host items = Exec.gather (fun item => item.value.eval host) Item.contents items := by
  induction items with
  | nil => rfl
  | cons item items ih =>
    cases item with
    | single e =>
      rw [evalItems, ih]
      rfl
    | spread e =>
      rw [evalItems, ih]
      rfl

theorem Exec.Yields.spread (hv : v.Apart E) (described : Text) :
    Exec.Yields E (Eval.spread described v) fun vs => ∀ u ∈ vs, u.Apart E := by
  refine .seq .heap fun h hh => ?_
  split
  · rename_i a xs harray
    obtain ⟨rfl, n, hcell⟩ := Heap.array?_eq_some harray
    exact .seq (.copyTogether (hh.items (hv a rfl) hcell).apart) fun ys hys => .done hys.1
  · exact .done (apart_characters _)
  · exact .fail _

theorem Exec.Yields.contents (item : Item) (hv : v.Apart E) :
    Exec.Yields E (item.contents v) fun vs => ∀ u ∈ vs, u.Apart E := by
  cases item with
  | single e => exact .seq (.copy hv) fun _ hu => .done (forall_mem_singleton.mpr hu)
  | spread e => exact .spread hv _

theorem kept_literal_iff {host : Host} {items : List Item} (hw : w.store.heap.Short E)
    (hcalm : Exec.Calm E (fun item => item.value.eval host) Item.contents items w)
    (hrun : ((Expr.array items).eval host).outcome w = (.ok v, w')) :
    ∃ vs w₁, (evalItems host items).outcome w = (.ok vs, w₁) ∧
      (Heap.Kept E w.store.heap w'.store.heap ↔ vs.length < Heap.maxArrayLength) := by
  obtain ⟨vs, w₁, hitems, hnew⟩ := bind_eq_ok hrun
  refine ⟨vs, w₁, hitems, ?_⟩
  rw [evalItems_eq_gather] at hitems
  obtain ⟨hkept, hvs⟩ := gather_eq_ok (fun item _ u hu => Exec.Yields.contents item hu) hw hcalm hitems
  rw [← Sequence.toList_ofList vs] at hvs
  rw [kept_newArray_iff hkept hvs hnew, Sequence.toList_ofList]

/-- The pieces that a text is split into. -/
def TextMethod.pieces (s : Chars) (args : List Value) : Exec (Sequence Value) :=
  match Argument.nth args 0 with
  | .undefined => return .singleton (.text s)
  | v => do
    let separator ← Exec.toText v
    return if separator.isEmpty then Collection.characters s
      else .ofList ((s.toText.splitOn separator).map fun piece => .text piece.packed)

theorem runSplit_eq (s : Chars) (args : List Value) :
    TextMethod.runSplit s args = TextMethod.pieces s args >>= Exec.newArray := by
  unfold TextMethod.runSplit TextMethod.pieces
  cases Argument.nth args 0 with
  | undefined => rfl
  | _ =>
    rw [bind_assoc]
    refine bind_congr fun separator => ?_
    split <;> rfl

theorem Exec.Yields.pieces (s : Chars) (args : List Value) :
    Exec.Yields E (TextMethod.pieces s args) fun xs => ∀ v ∈ xs.toList, v.Apart E := by
  have htext (piece : Chars) : (Value.text piece).Apart E := by rintro _ ⟨⟩
  unfold TextMethod.pieces
  split
  · exact .done (forall_mem_singleton.mpr (htext s))
  · refine .seq (.reads (.toText _)) fun separator _ => .done ?_
    split
    · exact apart_characters s
    · intro v hv
      rw [Sequence.toList_ofList] at hv
      obtain ⟨piece, -, rfl⟩ := mem_map.mp hv
      exact htext _

theorem kept_runSplit_iff {s : Chars} {args : List Value} (hw : w.store.heap.Short E)
    (hrun : (TextMethod.runSplit s args).outcome w = (.ok v, w')) :
    ∃ xs w₁, (TextMethod.pieces s args).outcome w = (.ok xs, w₁) ∧
      (Heap.Kept E w.store.heap w'.store.heap ↔ xs.toList.length < Heap.maxArrayLength) := by
  rw [runSplit_eq] at hrun
  obtain ⟨xs, w₁, hpieces, hnew⟩ := bind_eq_ok hrun
  obtain ⟨hkept, hxs⟩ := Exec.Yields.pieces s args w xs w₁ hw hpieces
  exact ⟨xs, w₁, hpieces, kept_newArray_iff hkept hxs hnew⟩

/-! ### Operations that make arrays or lengthen them -/

/-- The methods that make an array or lengthen one. -/
def ArrayMethod.builds (m : ArrayMethod) : Bool := m ∈ [.push, .unshift, .slice, .splice, .concat, .map, .filter]

/-- The methods among them that call a function for each item. -/
def ArrayMethod.visits (m : ArrayMethod) : Bool := m ∈ [.map, .filter]

/-- How many items a method puts into one array without asking whether they are too many. -/
def ArrayMethod.demand (m : ArrayMethod) (a : Addr) (args : List Value) : Exec Nat := do
  let xs ← ArrayMethod.items a
  match m with
  | .push | .unshift => return xs.size + args.length
  | .splice => return xs.size - (← ArrayMethod.spliced args xs.size).2 + (args.drop 2).length
  | .concat => return xs.size + (← Exec.heap).joinedLength args
  | _ => return 0

/-- Operations that make arrays or lengthen them. -/
inductive Building
  /-- an assignment to a property: an item of an array, its length, or something else -/
  | store (object : Value) (key : Text) (v : Value)
  /-- an array literal, which may spread other values -/
  | literal (items : List Item)
  | arrayOf (args : List Value)
  | arrayFrom (args : List Value)
  | method (m : ArrayMethod) (a : Addr) (args : List Value)
  | split (s : Chars) (args : List Value)

namespace Building

/-- Perform the operation. -/
def run (host : Host) : Building → Exec Value
  | .store object key v => do
    Exec.storeProperty object key v
    return v
  | .literal items => (Expr.array items).eval host
  | .arrayOf args => Builtin.apply host.outputLimit host.invoke .arrayOf args
  | .arrayFrom args => Builtin.apply host.outputLimit host.invoke .arrayFrom args
  | .method m a args => m.run host.invoke a args
  | .split s args => TextMethod.run .split s args

/-- How many items the operation puts into one array without asking whether they are too many. -/
def demand (host : Host) : Building → Exec Nat
  | .store object key _ => do (← Exec.heap).storeDemand object key
  | .literal items => return (← evalItems host items).length
  | .arrayOf args => return args.length
  | .arrayFrom args => return (Argument.nth args 0).textLength
  | .method m a args => m.demand a args
  | .split s args => return (← TextMethod.pieces s args).size

/-- The operands are on the heap, apart from the set, and a method that builds arrays is called on one. -/
def Operands (E : Nat → Prop) (h : Heap) : Building → Prop
  | .store object _ v => (∀ a, object = .ref a → ¬ E a ∧ a < h.next) ∧ v.Apart E
  | .literal _ => True
  | .arrayOf args => ∀ v ∈ args, v.Apart E
  | .arrayFrom args => (Argument.nth args 0).Apart E
  | .method m a args => m.builds ∧ (¬ E a ∧ a < h.next ∧ ∃ xs n, h.cell? a = some (.array xs n)) ∧
      ∀ v ∈ args, ∀ b, v = .ref b → ¬ E b ∧ b < h.next
  | .split _ _ => True

/-- Whatever else is run for the items, the items of a literal or a callback, keeps arrays short. -/
def Calm (E : Nat → Prop) (host : Host) (w : World) : Building → Prop
  | .literal items => Exec.Calm E (fun item => item.value.eval host) Item.contents items w
  | .arrayFrom args => ∀ f xs w₁, Argument.nth args 1 = .function f →
      (Collection.itemsFrom (Argument.nth args 0)).outcome w = (.ok xs, w₁) →
      Exec.Calm E (fun p => host.invoke f [p.1, .int p.2]) (fun _ => Exec.single) xs.toList.zipIdx w₁
  | .method m a args => m.visits → ∀ f xs n, Argument.nth args 0 = .function f →
      w.store.heap.cell? a = some (.array xs n) →
      Exec.Calm E (fun p => host.invoke f [p.1, .int p.2, .ref a]) m.made xs.toList.zipIdx w
  | _ => True

variable {host : Host} {w w' : World} {v : Value}

theorem kept_store_iff {object u : Value} {key : Text} (hw : w.store.heap.Short E)
    (hop : (store object key u).Operands E w.store.heap) (hrun : ((store object key u).run host).outcome w = (.ok v, w')) :
    ∃ n, ((store object key u).demand host).outcome w = (.ok n, w) ∧
      (Heap.Kept E w.store.heap w'.store.heap ↔ n < Heap.maxArrayLength) := by
  obtain ⟨_, w₁, hstore, hrest⟩ := bind_eq_ok hrun
  cases hrest
  rw [Exec.storeProperty, outcome_bind_ok (outcome_heap w)] at hstore
  obtain ⟨h', w₂, hlift, hset⟩ := bind_eq_ok hstore
  obtain ⟨hstored, rfl⟩ := Prod.mk.inj hlift
  cases hset
  obtain ⟨n, hdemand, hkept⟩ := Heap.kept_storeProperty_iff hw hop.1 hop.2 hstored
  refine ⟨n, ?_, hkept⟩
  rw [demand, outcome_bind_ok (outcome_heap w), outcome_liftBreakdown, hdemand]

theorem kept_method_iff {m : ArrayMethod} {a : Addr} {args : List Value} (hw : w.store.heap.Short E)
    (hop : (method m a args).Operands E w.store.heap) (hcalm : (method m a args).Calm E host w)
    (hrun : (m.run host.invoke a args).outcome w = (.ok v, w')) :
    ∃ n w₁, (m.demand a args).outcome w = (.ok n, w₁) ∧
      (Heap.Kept E w.store.heap w'.store.heap ↔ n < Heap.maxArrayLength) := by
  obtain ⟨hbuilds, ⟨ha, hlt, xs, n, hcell⟩, hargs⟩ := hop
  have hapart : ∀ u ∈ args, u.Apart E := fun u hu b hb => (hargs u hu b hb).1
  have hknown : ∀ u ∈ args, ∀ b, u = .ref b → b < w.store.heap.next := fun u hu b hb => (hargs u hu b hb).2
  rw [ArrayMethod.demand, outcome_bind_ok (outcome_items hcell), Sequence.size_eq]
  cases m with
  | push => exact ⟨_, _, rfl, kept_runPush_iff hw ha hapart hcell hlt hrun⟩
  | unshift => exact ⟨_, _, rfl, kept_runUnshift_iff hw ha hapart hcell hlt hrun⟩
  | splice =>
    obtain ⟨r, hspliced, hkept⟩ := kept_runSplice_iff hw ha hapart hcell hlt hrun
    rw [Sequence.size_eq] at hspliced
    rw [outcome_bind_ok hspliced]
    exact ⟨_, _, rfl, hkept⟩
  | concat => exact ⟨_, _, rfl, kept_runConcat_iff hw ha hapart hknown hcell hrun⟩
  | slice =>
    exact ⟨0, _, rfl, iff_of_true (Exec.Yields.runSlice ha w v w' hw hrun).1 maxArrayLength_pos⟩
  | map =>
    have hvisits := fun f hf => hcalm rfl f xs n hf hcell
    exact ⟨0, _, rfl, iff_of_true (kept_runVisit (.inl rfl) hw ha hcell hvisits hrun) maxArrayLength_pos⟩
  | filter =>
    have hvisits := fun f hf => hcalm rfl f xs n hf hcell
    exact ⟨0, _, rfl, iff_of_true (kept_runVisit (.inr rfl) hw ha hcell hvisits hrun) maxArrayLength_pos⟩
  | _ => cases hbuilds

/-- Whether an operation that ends well leaves an array too long is decided by the number of items that it puts into one
array without asking, and by nothing else. That number is zero for what asks (lengths, `Array.from` of an object) and
for what adds no items (`slice`, `map`, `filter`). -/
theorem arrays_stay_short_iff {op : Building} (hw : w.store.heap.Short E) (hop : op.Operands E w.store.heap)
    (hcalm : op.Calm E host w) (hrun : (op.run host).outcome w = (.ok v, w')) :
    ∃ n w₁, (op.demand host).outcome w = (.ok n, w₁) ∧
      (Heap.Kept E w.store.heap w'.store.heap ↔ n < Heap.maxArrayLength) := by
  cases op with
  | store object key u =>
    obtain ⟨n, hdemand, hkept⟩ := kept_store_iff hw hop hrun
    exact ⟨n, w, hdemand, hkept⟩
  | literal items =>
    obtain ⟨vs, w₁, hitems, hkept⟩ := kept_literal_iff hw hcalm hrun
    exact ⟨vs.length, w₁, outcome_bind_ok hitems, hkept⟩
  | arrayOf args =>
    obtain ⟨xs, w₁, hcopy, hnew⟩ := bind_eq_ok hrun
    cases hcopy
    have hargs : ∀ u ∈ (Sequence.ofList args).toList, u.Apart E := by rwa [Sequence.toList_ofList]
    obtain ⟨hkept, hxs, hlength⟩ := hw.copyTogether hargs
    refine ⟨args.length, w, rfl, (kept_newArray_iff hkept hxs hnew).trans ?_⟩
    rw [hlength, Sequence.toList_ofList]
  | arrayFrom args => exact ⟨_, w, rfl, kept_arrayFrom_iff hw hop hcalm hrun⟩
  | method m a args => exact kept_method_iff hw hop hcalm hrun
  | split s args =>
    obtain ⟨xs, w₁, hpieces, hkept⟩ := kept_runSplit_iff hw hrun
    rw [← Sequence.size_eq] at hkept
    exact ⟨xs.size, w₁, outcome_bind_ok hpieces, hkept⟩

section Alone

variable {xs : Sequence Value}

/-- A world with one array, at address zero. -/
def alone (xs : Sequence Value) : World := { World.initial 0 with store.heap := (Heap.empty.allocArray xs).2 }

theorem cell?_alone (xs : Sequence Value) (a : Nat) :
    (alone xs).store.heap.cell? a = if a = 0 then some (.array xs 0) else none := by
  refine (Heap.cell?_alloc _ _ a).trans ?_
  congr 1

theorem short_alone (hxs : ShortItems (fun _ => False) xs.toList) : (alone xs).store.heap.Short fun _ => False := by
  refine ⟨fun a ha => ha.elim, fun a c _ hcell => ?_⟩
  rw [cell?_alone] at hcell
  split at hcell
  · cases hcell
    exact hxs
  · cases hcell

theorem operands_alone {m : ArrayMethod} {args : List Value} (hm : m.builds) (hargs : ∀ v ∈ args, ∀ b, v ≠ .ref b) :
    (method m 0 args).Operands (fun _ => False) (alone xs).store.heap :=
  ⟨hm, ⟨id, Nat.one_pos, xs, 0, cell?_alone xs 0⟩, fun v hv b hb => absurd hb (hargs v hv b)⟩

end Alone

theorem arrays_stay_short_iff_filter :
    ∃ v w', ((method .filter 0 [.function "Boolean".codes]).run (Host.idle .empty)).outcome
        (alone (.ofList [.int 0, .int 1])) = (.ok v, w') ∧
      Heap.Kept (fun _ => False) (alone (.ofList [.int 0, .int 1])).store.heap w'.store.heap := by
  have hshort : (alone (.ofList [.int 0, .int 1])).store.heap.Short fun _ => False := by
    refine short_alone ⟨fun v _ a _ => id, ?_⟩
    decide
  have hcalm : (method .filter 0 [.function "Boolean".codes]).Calm (fun _ => False) (Host.idle .empty)
      (alone (.ofList [.int 0, .int 1])) := by
    rintro - f xs n ⟨⟩ hcell
    cases hcell
    rintro v w₁ ⟨⟩
    refine ⟨⟨hshort.kept, fun _ _ => id⟩, ?_⟩
    rintro vs w₂ ⟨⟩ v w₃ ⟨⟩
    exact ⟨⟨hshort.kept, fun _ _ => id⟩, fun _ _ _ => trivial⟩
  have hoperands : (method .filter 0 [.function "Boolean".codes]).Operands (fun _ => False)
      (alone (.ofList [.int 0, .int 1])).store.heap := by
    refine operands_alone rfl (forall_mem_singleton.mpr ?_)
    rintro _ ⟨⟩
  refine ⟨_, _, rfl, ?_⟩
  obtain ⟨n, w₁, hdemand, hkept⟩ := arrays_stay_short_iff hshort hoperands hcalm rfl
  cases hdemand
  exact hkept.mpr maxArrayLength_pos

/-- An array with one item less than too many gets too long when one more is added. -/
theorem push_overfills_array : ∃ w v w', Heap.Short (fun _ => False) w.store.heap ∧
    (method .push 0 [.int 1]).Operands (fun _ => False) w.store.heap ∧
    ((method .push 0 [.int 1]).run (Host.idle .empty)).outcome w = (.ok v, w') ∧
    ¬ Heap.Kept (fun _ => False) w.store.heap w'.store.heap := by
  have hlength : (Sequence.replicate (Heap.maxArrayLength - 1) Value.undefined).toList.length =
      Heap.maxArrayLength - 1 := by rw [Sequence.toList_replicate, length_replicate]
  have hshort : (alone (.replicate (Heap.maxArrayLength - 1) .undefined)).store.heap.Short fun _ => False := by
    refine short_alone ⟨fun v _ a _ => id, ?_⟩
    rw [hlength]
    decide
  have hone : ∀ v ∈ [Value.int 1], ∀ b, v ≠ .ref b := by
    refine forall_mem_singleton.mpr ?_
    rintro _ ⟨⟩
  refine ⟨alone (.replicate (Heap.maxArrayLength - 1) .undefined), _, _, hshort, operands_alone rfl hone, rfl, ?_⟩
  have hapart : ∀ v ∈ [Value.int 1], v.Apart fun _ => False := fun _ _ _ _ => id
  intro hkept
  have hlast := (kept_runPush_iff hshort id hapart (cell?_alone _ 0) Nat.one_pos rfl).mp hkept
  rw [hlength] at hlast
  exact absurd hlast (by decide)

end Building

end Stepwise
