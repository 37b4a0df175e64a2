import Stepwise.Proofs.Custody

/-!
# Built-in functions in custody

Every built-in function and method hands out known references only: it copies what it stores, and what it hands out
without a copy was held by the array it works on. The arguments need not be known, except where they come back as a
result.
-/

namespace Stepwise

open List

namespace Custody

variable {C : Custody} {g g' : C.Ledger} {α : Type} {a : Nat} {w : World} {xs : Sequence Value}

/-! ### Cells -/

theorem ownsAll_values {c : Cell} (hw : C.Kept g w) (ha : C.Known g a)
    (hc : w.store.heap.cell? a = some c) : C.OwnsAll g a c.values := by
  intro v hv b hb
  subst hb
  exact C.held hw ha hc hv

theorem kept_modifyItems (hw : C.Kept g w) (ha : C.Known g a) {f : Sequence Value → Sequence Value}
    (hf : ∀ xs : Sequence Value, C.OwnsAll g a xs.toList → C.OwnsAll g a (f xs).toList) (grown : Bool) :
    C.Kept g { w with store.heap := w.store.heap.modifyItems a f grown } := by
  refine C.rewritten hw ha rfl (fun b hb => by rw [Heap.cell?_modifyItems, if_neg hb]) fun c hc b hb => ?_
  rw [Heap.cell?_modifyItems, if_pos rfl] at hc
  obtain ⟨old, hold, rfl⟩ := Option.map_eq_some_iff.mp hc
  cases old with
  | array xs growths => exact hf xs (ownsAll_values hw ha hold) _ hb b rfl
  | object entries => exact C.held hw ha hold hb

/-- Cells that are added without changing others, some of which are to be held by a known one. -/
theorem exists_kept_extended (hw : C.Kept g w) {h : Heap} (hext : w.store.heap.Extends h) {vs : List Value}
    (hfresh : Copying.AllFresh w.store.heap h vs) (holder : Option Nat) (hholder : ∀ a ∈ holder, C.Known g a) :
    ∃ g', C.Later g g' ∧ C.Kept g' { w with store.heap := h } ∧ ∀ v ∈ vs, C.Sees g' v ∧ ∀ a ∈ holder, C.Owns g' a v := by
  obtain ⟨g', hlater, hkept, hnew⟩ := C.extended holder hw hext hholder
  refine ⟨g', hlater, hkept, fun v hv => ⟨fun b hb => ?_, fun a ha b hb => ?_⟩⟩
  · obtain ⟨hle, hlt⟩ := hfresh v hv b hb
    exact (hnew b hle hlt).1
  · obtain ⟨hle, hlt⟩ := hfresh v hv b hb
    exact (hnew b hle hlt).2 a ha

/-- The method works on known cells. -/
def Reaches (C : Custody) (g : C.Ledger) : Method → Prop
  | .array _ a => C.Known g a
  | _ => True

theorem seesAll_characters (s : Chars) : C.SeesAll g (Collection.characters s).toList := by
  rw [Collection.characters, Sequence.toList_map]
  exact seesAll_map _ fun _ => rfl

theorem OwnsAll.replaceSlice {new : Sequence Value} (hxs : C.OwnsAll g a xs.toList) (hnew : C.OwnsAll g a new.toList)
    (start stop : Nat) : C.OwnsAll g a (xs.replaceSlice start stop new).toList := by
  intro v hv
  rw [Sequence.toList_replaceSlice, mem_append, mem_append] at hv
  rcases hv with (hv | hv) | hv
  · exact hxs v (mem_of_mem_take hv)
  · exact hnew v hv
  · exact hxs v (mem_of_mem_drop hv)

theorem SeesAll.slice (hxs : C.SeesAll g xs.toList) (start stop : Nat) : C.SeesAll g (xs.slice start stop).toList := by
  intro v hv
  rw [Sequence.toList_slice] at hv
  exact hxs v (mem_of_mem_take (mem_of_mem_drop hv))

end Custody

namespace Setting

open Custody

variable {C : Setting} {g g' : C.Ledger} {α : Type} {a : Nat} {visit visit' : Value → Nat → Exec Value}

namespace Keeps

theorem toChars (v : Value) : C.Keeps g (Exec.toChars v) fun _ => True :=
  .heap fun w _ => .convert (w.store.heap.ranged_toChars v)

theorem toText (v : Value) : C.Keeps g (Exec.toText v) fun _ => True :=
  .heap fun w _ => .convert (w.store.heap.ranged_toText v)

theorem toNumber (v : Value) : C.Keeps g (Exec.toNumber v) fun _ => True :=
  .heap fun w _ => .convert (w.store.heap.ranged_toNumber v)

theorem items (ha : C.Known g a) : C.Keeps g (ArrayMethod.items a) fun xs => C.OwnsAll g a xs.toList := by
  refine .heap fun w hw => .done ?_
  cases hfound : w.store.heap.array? (.ref a) with
  | none => exact nofun
  | some found =>
    obtain ⟨href, growths, hcell⟩ := Heap.array?_eq_some hfound
    cases href
    exact ownsAll_values hw ha hcell

theorem modifyItems (ha : C.Known g a) {f : Sequence Value → Sequence Value}
    (hf : ∀ xs : Sequence Value, C.OwnsAll g a xs.toList → C.OwnsAll g a (f xs).toList) (grown : Bool) :
    C.Keeps g (ArrayMethod.modifyItems a f grown) fun _ => True :=
  .change fun _ hw => kept_modifyItems hw ha hf grown

theorem setItems (ha : C.Known g a) {xs : Sequence Value} (hxs : C.OwnsAll g a xs.toList) (grown : Bool) :
    C.Keeps g (ArrayMethod.setItems a xs grown) fun _ => True :=
  .change fun _ hw => kept_modifyItems hw ha (fun _ _ => hxs) grown

end Keeps

namespace Built

theorem extend {f : Heap → α × Heap} (refs : α → List Value)
    (hf : ∀ h : Heap, h.Extends (f h).2 ∧ Copying.AllFresh h (f h).2 (refs (f h).1)) (holder : Option Nat)
    (hholder : ∀ a ∈ holder, C.Known g a) :
    C.Built g (Exec.withHeap f) (Exec.withHeap f)
      fun g' r => ∀ v ∈ refs r, C.Sees g' v ∧ ∀ a ∈ holder, C.Owns g' a v := by
  refine .step (fun s => .ok ((f s.heap).1, { s with heap := (f s.heap).2 })) (fun _ => rfl) (fun _ => .ok _) ?_
  rintro w _ _ hw ⟨⟩
  obtain ⟨hext, hfresh⟩ := hf w.store.heap
  exact exists_kept_extended hw hext hfresh holder hholder

theorem copy (v : Value) : C.Built g (Exec.copy v) (Exec.copy v) C.Sees := by
  have hcopy (h : Heap) : h.Extends (h.copy v).2 ∧ Copying.AllFresh h (h.copy v).2 [(h.copy v).1] :=
    ⟨(h.extends_copy v).1, forall_mem_singleton.mpr (h.extends_copy v).2⟩
  exact (extend (fun v => [v]) hcopy none nofun).imp fun _ _ _ h => (h _ (mem_singleton_self _)).1

theorem copyFor (ha : C.Known g a) (v : Value) : C.Built g (Exec.copy v) (Exec.copy v) fun g' v' => C.Owns g' a v' := by
  have hcopy (h : Heap) : h.Extends (h.copy v).2 ∧ Copying.AllFresh h (h.copy v).2 [(h.copy v).1] :=
    ⟨(h.extends_copy v).1, forall_mem_singleton.mpr (h.extends_copy v).2⟩
  refine (extend (fun v => [v]) hcopy (some a) ?_).imp fun _ _ _ h => (h _ (mem_singleton_self _)).2 a rfl
  rintro _ ⟨⟩
  exact ha

theorem copyTogether (vs : Sequence Value) :
    C.Built g (Exec.withHeap (·.copyTogether vs)) (Exec.withHeap (·.copyTogether vs))
      fun g' vs' => C.SeesAll g' vs'.toList :=
  (extend Sequence.toList (fun h => h.extends_copyTogether vs) none nofun).imp fun _ _ _ h v hv => (h v hv).1

theorem copyEach (vs : List Value) :
    C.Built g (Exec.withHeap (·.copyEach vs)) (Exec.withHeap (·.copyEach vs)) C.SeesAll :=
  (extend id (fun h => h.extends_copyEach vs) none nofun).imp fun _ _ _ h v hv => (h v hv).1

theorem copyEachFor (ha : C.Known g a) (vs : List Value) :
    C.Built g (Exec.withHeap (·.copyEach vs)) (Exec.withHeap (·.copyEach vs)) fun g' vs' => C.OwnsAll g' a vs' := by
  refine (extend id (fun h => h.extends_copyEach vs) (some a) ?_).imp fun _ _ _ h v hv => (h v hv).2 a rfl
  rintro _ ⟨⟩
  exact ha

theorem load (d : Datum) : C.Built g (Exec.withHeap (·.load d)) (Exec.withHeap (·.load d)) C.Sees := by
  have hload (h : Heap) : h.Extends (h.load d).2 ∧ Copying.AllFresh h (h.load d).2 [(h.load d).1] :=
    ⟨(h.extends_load d).1, forall_mem_singleton.mpr (h.extends_load d).2⟩
  exact (extend (fun v => [v]) hload none nofun).imp fun _ _ _ h => (h _ (mem_singleton_self _)).1

theorem alloc {c : Cell} (hc : C.SeesAll g c.values) :
    C.Built g (Exec.withHeap (·.alloc c)) (Exec.withHeap (·.alloc c)) C.Sees := by
  refine .step (fun s => .ok ((s.heap.alloc c).1, { s with heap := (s.heap.alloc c).2 })) (fun _ => rfl) (fun _ => .ok _) ?_
  rintro w _ _ hw ⟨⟩
  obtain ⟨g', hlater, hkept, hknown⟩ := C.allocated hw fun b hb => hc _ hb b rfl
  refine ⟨g', hlater, hkept, ?_⟩
  rintro _ ⟨⟩
  exact hknown

theorem newArray {xs : Sequence Value} (hxs : C.SeesAll g xs.toList) :
    C.Built g (Exec.newArray xs) (Exec.newArray xs) C.Sees := alloc (c := .array xs 0) hxs

theorem newList {xs : List Value} (hxs : C.SeesAll g xs) :
    C.Built g (Exec.newArray (.ofList xs)) (Exec.newArray (.ofList xs)) C.Sees := by
  apply newArray
  rw [Sequence.toList_ofList]
  exact hxs

theorem newObject {entries : List (Text × Value)} (h : C.SeesAll g (entries.map Prod.snd)) :
    C.Built g (Exec.withHeap (·.allocObject (.ofList entries))) (Exec.withHeap (·.allocObject (.ofList entries))) C.Sees :=
  alloc (c := .object (.ofList entries)) fun v hv => h v (OrderedMap.mem_values_ofList hv)

end Built

/-! ### Arguments and collections -/

theorem Keeps.integer (args : List Value) (i : Nat) (absent : Int) :
    C.Keeps g (Argument.integer args i absent) fun _ => True := by
  unfold Argument.integer
  split
  · exact .done trivial
  · refine .seq (.toNumber _) fun n _ => .seq (.convertTo n.ranged_isNaN) fun nan hnan => ?_
    cases nan with
    | true => exact .done trivial
    | false => exact .seq (.convert n.ranged_isInfinite) fun _ _ => .ite _ (.done trivial) (.lift (Num.only_truncate hnan))

theorem Keeps.function (v : Value) : C.Keeps g (Argument.function v) fun _ => True := by
  unfold Argument.function
  split
  · exact .done trivial
  · exact .seq (.toText _) fun _ _ => .fail _ rfl

theorem Keeps.range (args : List Value) (first length : Nat) :
    C.Keeps g (ArrayMethod.range args first length) fun _ => True :=
  .seq (.integer _ _ _) fun _ _ => .seq (.integer _ _ _) fun _ _ => .done trivial

theorem Keeps.keys (v : Value) : C.Keeps g (Collection.keys v) fun _ => True :=
  .heap fun w _ => by
    split
    · exact .done trivial
    · exact .done trivial
    · exact .done trivial
    · exact .ite _ (.fail _ rfl) (.done trivial)

theorem Built.values (v : Value) :
    C.Built g (Collection.values v) (Collection.values v) fun g' vs => C.SeesAll g' vs.toList :=
  .heap fun w _ => by
    split
    · exact .copyTogether _
    · refine .seq (.copyEach _) fun _ _ vs hvs => .done ?_
      rw [Sequence.toList_ofList]
      exact hvs
    · exact .done (seesAll_characters _)
    · exact .ite _ (.fail _ rfl) (.done nofun)

theorem Built.entries (v : Value) : C.Built g (Collection.entries v) (Collection.entries v) C.SeesAll := by
  refine .next (.keys v) fun ks _ => .seq (.values v) fun g₁ _ vs hvs => ?_
  -- each value of the list is paired with its key, so that it stays known while arrays are made for the others
  suffices hpairs : ∀ pairs : List (Text × Value), ∀ g₂, C.Later g₁ g₂ → C.SeesAll g₂ (pairs.map Prod.snd) →
      C.Built g₂ (pairs.mapM fun e => Exec.newArray (.ofList [.text e.1.packed, e.2]))
        (pairs.mapM fun e => Exec.newArray (.ofList [.text e.1.packed, e.2])) C.SeesAll from
    hpairs _ g₁ (C.later_refl _) fun v hv => by
      obtain ⟨e, he, rfl⟩ := mem_map.mp hv
      exact hvs e.2 (of_mem_zip he).2
  intro pairs
  induction pairs with
  | nil => exact fun g₂ _ _ => .done .nil
  | cons p pairs ih =>
    intro g₂ hlater hsees
    rw [mapM_cons]
    obtain ⟨hv, hrest⟩ : C.Sees g₂ p.2 ∧ C.SeesAll g₂ (pairs.map Prod.snd) := forall_mem_cons.mp hsees
    refine .seq (.newList (.cons nofun (.cons hv .nil))) fun g₃ h₃ made hmade => ?_
    refine .seq (ih g₃ (C.later_trans hlater h₃) (hrest.later h₃)) fun g₄ h₄ rest hrest => ?_
    exact .done (.cons (hmade.later h₄) hrest)

theorem Keeps.claimedLength (v : Value) : C.Keeps g (Collection.claimedLength v) fun _ => True := by
  refine .seq (.toNumber v) fun n _ => .seq (.convertTo n.ranged_isNaN) fun nan hnan => ?_
  cases nan with
  | true => exact .done trivial
  | false =>
    exact .ite _ (.done trivial) (.check _ (.fail _ rfl) (.seq (.lift (Num.only_truncate hnan)) fun _ _ => .done trivial))

theorem Built.itemsFrom (source : Value) :
    C.Built g (Collection.itemsFrom source) (Collection.itemsFrom source) fun g' vs => C.SeesAll g' vs.toList :=
  .heap fun w _ => by
    split
    · exact .copyTogether _
    · split
      · refine .next (.claimedLength _) fun n _ => .done (seesAll_of_plain fun v hv => ?_)
        rw [Sequence.toList_replicate] at hv
        rw [eq_of_mem_replicate hv]
        rfl
      · exact .done nofun
    · exact .done (seesAll_characters _)
    · exact .done nofun

/-! ### Texts, numbers and objects -/

namespace Built

theorem runSplit (s : Chars) (args : List Value) :
    C.Built g (TextMethod.runSplit s args) (TextMethod.runSplit s args) C.Sees := by
  unfold TextMethod.runSplit
  split
  · exact .newArray (.cons nofun .nil)
  · exact .next (.toText _) fun _ _ => .ite _ (.newArray (seesAll_characters _)) (.newList (seesAll_map _ fun _ => rfl))

theorem runRepeat (s : Chars) (args : List Value) :
    C.Built g (TextMethod.runRepeat s args) (TextMethod.runRepeat s args) C.Sees :=
  .next (.integer _ _ _) fun _ _ => .check _ (.fail _ rfl) <| .check _ (.fail _ rfl) <| .check _ (.fault (.mishap .repeatSize)) (.done nofun)

theorem runPad (atStart : Bool) (s : Chars) (args : List Value) :
    C.Built g (TextMethod.runPad atStart s args) (TextMethod.runPad atStart s args) C.Sees := by
  refine .next (.integer _ _ _) fun width _ => ?_
  cases Argument.nth args 1 with
  | undefined => exact .next (.value _) fun fill _ => .ite _ (.done nofun) (.check _ (.fail _ rfl) (.done nofun))
  | _ => exact .next (.toChars _) fun fill _ => .ite _ (.done nofun) (.check _ (.fail _ rfl) (.done nofun))

theorem textMethod (m : TextMethod) (s : Chars) (args : List Value) :
    C.Built g (m.run s args) (m.run s args) C.Sees := by
  cases m with
  | toLower | toUpper | trim | toText => exact .done nofun
  | split => exact runSplit s args
  | charAt => exact .next (.integer _ _ _) fun _ _ => .done nofun
  | charCodeAt =>
    refine .next (.integer _ _ _) fun i _ => ?_
    cases TextMethod.character? s i <;> exact .done nofun
  | substring | slice => exact .next (.integer _ _ _) fun _ _ => .next (.integer _ _ _) fun _ _ => .done nofun
  | indexOf => exact .next (.toChars _) fun _ _ => .next (.integer _ _ _) fun _ _ => .done nofun
  | includes | startsWith | endsWith => exact .next (.toChars _) fun _ _ => .done nofun
  | repeated => exact runRepeat s args
  | pad atStart => exact runPad atStart s args
  | replace => exact .next (.toChars _) fun _ _ => .next (.toChars _) fun _ _ => .done nofun
  | concat => exact .next (.mapM args fun v _ => .toChars v) fun _ _ => .done nofun
  | «at» =>
    refine .next (.integer _ _ _) fun i _ => ?_
    cases TextMethod.character? s (if i < 0 then i + s.size else i) <;> exact .done nofun

theorem numberMethod (m : NumberMethod) (n : Num) (args : List Value) :
    C.Built g (m.run n args) (m.run n args) C.Sees := by
  cases m with
  | toFixed =>
    refine .next (.integer _ _ _) fun places _ => .check _ (.fail _ rfl) <| .next (.convert n.ranged_toFloat) fun x _ => ?_
    cases Double.parts? x with
    | none => exact .next (.convert n.ranged_format) fun _ _ => .done nofun
    | some p => exact .done nofun
  | toText =>
    have format : C.Built g (do return Value.text (← n.format).packed) (do return Value.text (← n.format).packed) C.Sees :=
      .next (.convert n.ranged_format) fun _ _ => .done nofun
    refine .next (.integer _ _ _) fun radix _ => .ite _ format <| .next (.convertTo n.ranged_isIntegral) fun integral hn => ?_
    cases integral with
    | false => exact format
    | true =>
      exact .ite _ format <| .check _ (.fail _ rfl) <| .next (.lift (Num.only_truncate_of_isIntegral hn)) fun _ _ =>
        .done nofun

theorem objectMethod (m : ObjectMethod) (v : Value) (args : List Value) :
    C.Built g (m.run v args) (m.run v args) C.Sees := by
  cases m with
  | hasOwnProperty => exact .next (.toText _) fun _ _ => .heap fun _ _ => .done nofun
  | toText => exact .next (.toChars _) fun _ _ => .done nofun

end Built

/-! ### Arrays -/

section Array

variable (ha : C.Known g a)

include ha

theorem Built.pushEach (vs : List Value) : C.Safe g (ArrayMethod.pushEach a vs) (ArrayMethod.pushEach a vs) := by
  induction vs generalizing g with
  | nil => exact .done trivial
  | cons v vs ih =>
    refine .seq (.copyFor ha v) fun g₁ h₁ v' hv' => .next (.modifyItems (C.known_later h₁ ha) ?_ _) fun _ _ =>
      ih (C.known_later h₁ ha)
    intro xs hxs
    rw [Sequence.toList_push]
    exact forall_mem_append.mpr ⟨hxs, forall_mem_singleton.mpr hv'⟩

theorem Built.fillEach (v : Value) (positions : List Nat) :
    C.Safe g (ArrayMethod.fillEach a v positions) (ArrayMethod.fillEach a v positions) := by
  induction positions generalizing g with
  | nil => exact .done trivial
  | cons i rest ih =>
    refine .seq (.copyFor ha v) fun g₁ h₁ v' hv' => .next (.modifyItems (C.known_later h₁ ha) ?_ _) fun _ _ =>
      ih (C.known_later h₁ ha)
    intro xs hxs y hy
    rw [Sequence.toList_set] at hy
    rcases mem_or_eq_of_mem_set hy with hy | rfl
    · exact hxs y hy
    · exact hv'

theorem Built.replaceRange (start stop : Nat) (vs : List Value) :
    C.Safe g (ArrayMethod.replaceRange a start stop vs) (ArrayMethod.replaceRange a start stop vs) := by
  refine .seq (.copyEachFor ha vs) fun g₁ h₁ copies hcopies => .next (.items (C.known_later h₁ ha)) fun xs hxs => ?_
  refine .of_keeps (.setItems (C.known_later h₁ ha) (hxs.replaceSlice ?_ start stop) _) fun _ _ => trivial
  rw [Sequence.toList_ofList]
  exact hcopies

theorem Built.runSplice (args : List Value) :
    C.Built g (ArrayMethod.runSplice a args) (ArrayMethod.runSplice a args) C.Sees := by
  refine .next (.items ha) fun xs hxs => .next (.integer _ _ _) fun start _ => ?_
  have cut (start count : Nat) : C.Built g
      (ArrayMethod.replaceRange a start (start + count) (args.drop 2) >>= fun _ => Exec.newArray (xs.slice start (start + count)))
      (ArrayMethod.replaceRange a start (start + count) (args.drop 2) >>= fun _ => Exec.newArray (xs.slice start (start + count)))
      C.Sees :=
    .seq (.replaceRange ha _ _ _) fun g₁ h₁ _ _ => .newArray ((hxs.sees.later h₁).slice _ _)
  exact .ite _ (.next (.value _) fun _ _ => cut _ _)
    (.next (.integer _ _ _) fun _ _ => .next (.value _) fun _ _ => cut _ _)

theorem Built.runFill (args : List Value) :
    C.Built g (ArrayMethod.runFill a args) (ArrayMethod.runFill a args) C.Sees := by
  have self {g' : C.Ledger} (h : C.Later g g') : C.Sees g' (.ref a) := by
    rintro _ ⟨⟩
    exact C.known_later h ha
  refine .next (.items ha) fun xs _ => .next (.range _ _ _) fun bounds _ => ?_
  dsimp only
  split
  · exact .seq (.fillEach ha _ _) fun _ h₁ _ _ => .done (self h₁)
  · rename_i hplain
    refine .ite _ (.next (.modifyItems ha (fun ys hys => hys.replaceSlice ?_ _ _) _) fun _ _ => .done (self (C.later_refl g)))
      (.done (self (C.later_refl g)))
    intro v hv b hb
    rw [Sequence.toList_replicate] at hv
    rw [← eq_of_mem_replicate hv, hb] at hplain
    exact absurd rfl hplain

theorem Built.runConcat (args : List Value) :
    C.Built g (ArrayMethod.runConcat a args) (ArrayMethod.runConcat a args) C.Sees := by
  refine .next (.items ha) fun xs _ => .seq (.copyTogether xs) fun g₁ h₁ front hfront => ?_
  refine .seq (.mapM (R := fun g' (ys : Sequence Value) => C.SeesAll g' ys.toList) (fun h hys => hys.later h) args
    fun g' _ v => .heap fun w _ => ?_) fun g₂ h₂ parts hparts => .newArray ?_
  · cases w.store.heap.array? v with
    | none => exact .seq (.copy v) fun _ _ v' hv' => .done (.cons hv' .nil)
    | some found => exact .copyTogether _
  · rw [Sequence.toList_append, Sequence.toList_concat]
    refine (hfront.later h₂).append fun v hv => ?_
    obtain ⟨l, hl, hvl⟩ := mem_flatten.mp hv
    obtain ⟨ys, hys, rfl⟩ := mem_map.mp hl
    exact hparts ys hys v hvl

theorem Built.runJoin (args : List Value) :
    C.Built g (ArrayMethod.runJoin a args) (ArrayMethod.runJoin a args) C.Sees := by
  have joined (xs : List Value) :
      C.Keeps g (xs.mapM fun v => if v.isNullish then pure .empty else Exec.toChars v) fun _ => True :=
    (Keeps.mapM xs fun v _ => .ite _ (.done trivial) (.toChars v)).imp fun _ _ => trivial
  unfold ArrayMethod.runJoin
  cases Argument.nth args 0 with
  | undefined =>
    exact .next (.value _) fun _ _ => .next (.items ha) fun xs _ => .next (joined xs.toList) fun _ _ => .done nofun
  | _ =>
    exact .next (.toChars _) fun _ _ => .next (.items ha) fun xs _ => .next (joined xs.toList) fun _ _ => .done nofun

theorem Keeps.sortByText : C.Keeps g (ArrayMethod.sortByText a) fun _ => True := by
  have key (v : Value) : C.Keeps g (ArrayMethod.sortKey v) fun _ => True := by
    cases v with
    | undefined => exact .done trivial
    | _ => exact .seq (.toText _) fun _ _ => .done trivial
  refine .seq (.items ha) fun xs hxs => ?_
  refine .seq (.mapM (R := fun k => C.Owns g a k.2) xs.toList fun v hv => .seq (key v) fun _ _ => .done (hxs v hv))
    fun keyed hkeyed => .setItems ha ?_ _
  intro v hv
  rw [Sequence.toList_ofList] at hv
  obtain ⟨k, hk, rfl⟩ := mem_map.mp hv
  exact hkeyed k (mem_mergeSort.mp hk)

end Array

/-! ### Callbacks -/

theorem Built.filtered (visits : ∀ g v i, C.Safe g (visit v i) (visit' v i)) (xs : List (Value × Nat)) :
    C.Built g (ArrayMethod.filtered visit xs) (ArrayMethod.filtered visit' xs) C.SeesAll := by
  induction xs generalizing g with
  | nil => exact .done .nil
  | cons x xs ih =>
    refine .seq (visits g x.1 x.2) fun _ _ answer _ => .next (.convert answer.ranged_truthy) fun _ _ => .ite _ ?_ ih
    exact .seq (.copy _) fun _ _ _ hv => .seq ih fun _ h₂ _ hvs => .done (.cons (hv.later h₂) hvs)

theorem Built.firstWhere (visits : ∀ g v i, C.Safe g (visit v i) (visit' v i)) (wanted : Bool) {xs : Sequence Value}
    (hxs : C.SeesAll g xs.toList) (count : Nat) :
    C.Built g (ArrayMethod.firstWhere visit wanted xs count) (ArrayMethod.firstWhere visit' wanted xs count)
      fun g' found => ∀ r ∈ found, C.Sees g' r.1 := by
  induction count generalizing g with
  | zero => exact .done nofun
  | succ count ih =>
    dsimp only [ArrayMethod.firstWhere]
    cases hv : xs.get? (xs.size - (count + 1)) with
    | none => exact .done nofun
    | some v =>
      refine .seq (visits g v _) fun g₁ h₁ answer _ => .next (.convert answer.ranged_truthy) fun _ _ =>
        .ite _ (.done ?_) (ih (hxs.later h₁))
      rintro _ ⟨⟩
      rw [Sequence.get?_eq] at hv
      exact (hxs.later h₁) v (mem_of_getElem? hv)

section Callback

variable {invoke invoke' : Callback} (call : ∀ g name args, C.Built g (invoke name args) (invoke' name args) C.Sees)
  {args : List Value}

include call

theorem Built.answerAll (f : Text) (ha : C.Known g a) {s : Sorting Value (List Value)} {items : List Value}
    (hitems : C.OwnsAll g a items) (hs : s.Arranges items (List.Perm · items)) :
    C.Built g (ArrayMethod.answerAll invoke f a s) (ArrayMethod.answerAll invoke' f a s) fun g' vs => C.OwnsAll g' a vs := by
  induction s generalizing g with
  | done sorted => exact .done fun v hv => hitems v (hs.mem_iff.mp hv)
  | ask x y now next ih =>
    have before : C.Safe g (ArrayMethod.comesBefore invoke f x y) (ArrayMethod.comesBefore invoke' f x y) :=
      .seq (call g f [x, y]) fun _ _ _ _ => .next (.toNumber _) fun n _ => .next (.convert n.ranged_isNaN) fun _ _ =>
        .ite _ (.done trivial) (.done trivial)
    refine .seq (.tidied (fun s => { s with heap := s.heap.setItems a (.ofList (now ())) false }) before fun g₁ h₁ w hw => ?_) fun g₁ h₁ answer _ => ?_
    · refine kept_modifyItems hw (C.known_later h₁ ha) (fun _ _ v hv => ?_) false
      rw [Sequence.toList_ofList] at hv
      exact (hitems v (hs.1.2.2.mem_iff.mp hv)).later h₁
    · exact ih answer (C.known_later h₁ ha) (fun v hv => (hitems v hv).later h₁) (hs.2 answer)

theorem Built.sortByAnswers (f : Text) (ha : C.Known g a) :
    C.Safe g (ArrayMethod.sortByAnswers invoke f a) (ArrayMethod.sortByAnswers invoke' f a) := by
  refine .next (.items ha) fun xs hxs => .heap fun w _ => .next (.setItems ha .nil _) fun _ _ => ?_
  -- whatever the answers are, the items go back into the array that they were taken from
  refine .seq (.answerAll call f ha hxs (Sorting.arranges_sort _)) fun g₁ h₁ sorted hsorted => ?_
  refine .heap fun w₁ _ => .next (.setItems (C.known_later h₁ ha) ?_ _) fun _ _ => .ite _ (.fault (.mishap .sortInterference)) (.done trivial)
  rw [Sequence.toList_ofList]
  exact hsorted

theorem Built.runSort (ha : C.Known g a) (args : List Value) :
    C.Built g (ArrayMethod.runSort invoke a args) (ArrayMethod.runSort invoke' a args) C.Sees := by
  have self {g' : C.Ledger} (h : C.Later g g') : C.Sees g' (.ref a) := by
    rintro _ ⟨⟩
    exact C.known_later h ha
  unfold ArrayMethod.runSort
  cases Argument.nth args 0 with
  | undefined => exact .next (.sortByText ha) fun _ _ => .done (self (C.later_refl g))
  | _ => exact .next (.function _) fun f _ => .seq (.sortByAnswers call f ha) fun _ h₁ _ _ => .done (self h₁)

theorem Built.folded (f : Text) {acc : Value} (hacc : C.Sees g acc) (xs : List (Value × Nat)) :
    C.Built g (ArrayMethod.folded (fun acc v i => invoke f [acc, v, .int i, .ref a]) acc xs)
      (ArrayMethod.folded (fun acc v i => invoke' f [acc, v, .int i, .ref a]) acc xs) C.Sees := by
  induction xs generalizing g acc with
  | nil => exact .done hacc
  | cons x xs ih => exact .seq (call _ _ _) fun _ _ _ hv => ih hv

theorem Built.runReduce (ha : C.Known g a) (hargs : C.SeesAll g args) :
    C.Built g (ArrayMethod.runReduce invoke a args) (ArrayMethod.runReduce invoke' a args) C.Sees := by
  refine .next (.function _) fun f _ => .next (.items ha) fun xs hxs => ?_
  split
  · exact .folded call f (hargs _ (by simp)) _
  · rename_i first i rest _ hrest
    have hmem : (first, i) ∈ xs.toList.zipIdx := by rw [hrest]; exact mem_cons_self
    exact .folded call f (hxs.sees first (fst_mem_of_mem_zipIdx hmem)) _
  · exact .fail _ rfl

theorem Built.runVisit (m : ArrayMethod) (ha : C.Known g a) (args : List Value) :
    C.Built g (ArrayMethod.runVisit invoke m a args) (ArrayMethod.runVisit invoke' m a args) C.Sees := by
  refine .next (.function _) fun f _ => .next (.items ha) fun xs hxs => ?_
  have visits (g' : C.Ledger) (v : Value) (i : Nat) := call g' f [v, .int i, .ref a]
  have found (wanted : Bool) := Built.firstWhere (fun g' v i => (visits g' v i).safe) wanted hxs.sees xs.size
  cases m with
  | map =>
    exact .seq (.mapM (fun h hv => hv.later h) _ fun g₁ _ p => visits g₁ p.1 p.2) fun _ _ _ hvs => .newList hvs
  | filter => exact .seq (.filtered (fun g' v i => (visits g' v i).safe) _) fun _ _ _ hvs => .newList hvs
  | find =>
    refine .seq (found true) fun g₁ _ r hr => .done ?_
    cases r with
    | none => exact nofun
    | some r => exact hr r rfl
  | findIndex =>
    refine .seq (found true) fun g₁ _ r _ => .done ?_
    cases r <;> exact nofun
  | anyItem | allItems => exact .seq (found _) fun _ _ _ _ => .done nofun
  | _ => exact .seq (.forM _ fun g₁ _ p => .seq (visits g₁ p.1 p.2) fun _ _ _ _ => .done trivial) fun _ _ _ _ => .done nofun

theorem Built.arrayMethod (m : ArrayMethod) (ha : C.Known g a) (hargs : C.SeesAll g args) :
    C.Built g (m.run invoke a args) (m.run invoke' a args) C.Sees := by
  cases m with
  | push =>
    exact .next (.modifyItems ha (fun _ hxs => hxs) _) fun _ _ => .seq (.pushEach ha _) fun _ h₁ _ _ =>
      .next (.items (C.known_later h₁ ha)) fun _ _ => .done nofun
  | pop =>
    refine .next (.items ha) fun xs hxs => ?_
    cases hv : xs.get? (xs.size - 1) with
    | none => exact .done nofun
    | some v =>
      rw [Sequence.get?_eq] at hv
      refine .next (.setItems ha (fun v hv => hxs v ?_) _) fun _ _ => .done (hxs v (mem_of_getElem? hv)).sees
      rw [Sequence.toList_take] at hv
      exact mem_of_mem_take hv
  | shift =>
    refine .next (.items ha) fun xs hxs => ?_
    cases hv : xs.get? 0 with
    | none => exact .done nofun
    | some v =>
      rw [Sequence.get?_eq] at hv
      refine .next (.setItems ha (fun v hv => hxs v ?_) _) fun _ _ => .done (hxs v (mem_of_getElem? hv)).sees
      rw [Sequence.toList_drop] at hv
      exact mem_of_mem_drop hv
  | unshift =>
    exact .seq (.replaceRange ha _ _ _) fun _ h₁ _ _ => .next (.items (C.known_later h₁ ha)) fun _ _ => .done nofun
  | slice =>
    exact .next (.items ha) fun _ _ => .next (.range _ _ _) fun _ _ => .seq (.copyTogether _) fun _ _ _ hvs => .newArray hvs
  | splice => exact .runSplice ha args
  | concat => exact .runConcat ha args
  | join => exact .runJoin ha args
  | indexOf =>
    refine .next (.items ha) fun xs _ => .next (.integer _ _ _) fun i _ => ?_
    dsimp only
    split <;> exact .done nofun
  | includes =>
    exact .next (.items ha) fun xs _ => .next (.convert (ArrayMethod.ranged_anySame _ xs _)) fun _ _ => .done nofun
  | reverse =>
    refine .next (.modifyItems ha (fun xs hxs v hv => hxs v ?_) _) fun _ _ => .done ?_
    · rw [Sequence.toList_reverse] at hv
      exact mem_reverse.mp hv
    · rintro _ ⟨⟩
      exact ha
  | sort => exact .runSort call ha args
  | fill => exact .runFill ha args
  | «at» =>
    refine .next (.items ha) fun xs hxs => .next (.integer _ _ _) fun i _ => .done ?_
    generalize (if i < 0 then i + xs.size else i) = index
    split
    · exact nofun
    · rw [Sequence.get?_eq, ← getD_eq_getElem?_getD]
      exact sees_getD hxs.sees _
  | toText => exact .next (.toChars _) fun _ _ => .done nofun
  | reduce => exact .runReduce call ha hargs
  | map | filter | forEach | find | findIndex | anyItem | allItems =>
    simp only [ArrayMethod.run]
    exact .runVisit call _ ha args

theorem Built.method {m : Method} (hm : C.Reaches g m) (hargs : C.SeesAll g args) :
    C.Built g (m.run invoke args) (m.run invoke' args) C.Sees := by
  cases m with
  | array m a => exact .arrayMethod call m hm hargs
  | text m s => exact .textMethod m s args
  | number m n => exact .numberMethod m n args
  | object m v => exact .objectMethod m v args

theorem Built.arrayFrom (source mapper : Value) :
    C.Built g (Collection.arrayFrom invoke source mapper) (Collection.arrayFrom invoke' source mapper) C.Sees := by
  refine .seq (.itemsFrom source) fun g₁ _ xs hxs => ?_
  cases mapper with
  | undefined => exact .newArray hxs
  | _ =>
    exact .next (.function _) fun f _ => .seq (.mapM (fun h hv => hv.later h) _ fun g₂ _ p => call g₂ f _) fun _ _ _ hvs =>
      .newList hvs

end Callback

/-! ### Built-in functions -/

/-- With an index as its second argument no array is made from a collection: the index is no function. -/
theorem Built.arrayFrom_index (invoke invoke' : Callback) (source : Value) (n : Num) :
    C.Built g (Collection.arrayFrom invoke source (.num n)) (Collection.arrayFrom invoke' source (.num n)) C.Sees :=
  .seq (.itemsFrom source) fun _ _ _ _ => .next (P := fun _ => False) (.seq (.toText _) fun _ _ => .fail _ rfl) nofun

/-- The only built-in function that calls back makes an array from a collection. -/
theorem Built.builtin_of {invoke invoke' : Callback} (b : Builtin) {args : List Value}
    (hfrom : C.Built g (Collection.arrayFrom invoke (Argument.nth args 0) (Argument.nth args 1))
      (Collection.arrayFrom invoke' (Argument.nth args 0) (Argument.nth args 1)) C.Sees) :
    C.Built g (b.apply C.host.outputLimit invoke args) (b.apply C.host'.outputLimit invoke' args) C.Sees := by
  have tested (test : Float → Bool) (v : Value) :
      C.Built g (Builtin.testNumber test v) (Builtin.testNumber test v) C.Sees := by
    cases v with
    | num n => exact .next (.convert n.ranged_toFloat) fun _ _ => .done nofun
    | _ => exact .done nofun
  cases b with
  | parseInt =>
    refine .next (.toText _) fun text _ => .next (.integer _ _ _) fun radix _ => .ite _ (.done nofun) <|
      .next (.lift (Numeral.only_leadingInteger _ _)) fun n _ => ?_
    cases n with
    | none => exact .done nofun
    | some n => exact .next (.convert (Num.ranged_normalize _)) fun _ _ => .done nofun
  | parseFloat => exact .next (.toText _) fun _ _ => .done nofun
  | toNumber => exact .ite _ (.done nofun) (.next (.toNumber _) fun _ _ => .done nofun)
  | toText => exact .ite _ (.done nofun) (.next (.toChars _) fun _ _ => .done nofun)
  | toBool => exact .next (.convert (Value.ranged_truthy _)) fun _ _ => .done nofun
  | isNaN | isFinite => exact .next (.toNumber _) fun _ _ => tested _ _
  | log =>
    exact .heap fun w _ => .next (.mapM args fun v _ => .convert (Datum.ranged_consoleText _)) fun _ _ =>
      .seq (.write _) fun _ _ _ _ => .done nofun
  | math f => exact .next (.toNumber _) fun n _ => .next (.convert (f.ranged_apply n)) fun _ _ => .done nofun
  | pow =>
    exact .next (.toNumber _) fun m _ => .next (.toNumber _) fun n _ => .next (.convert (Num.ranged_pow m n)) fun _ _ =>
      .done nofun
  | atan2 =>
    exact .next (.toNumber _) fun m _ => .next (.toNumber _) fun n _ => .next (.convert (Num.ranged_atan2 m n)) fun _ _ =>
      .done nofun
  | extreme =>
    exact .next (.mapM args fun v _ => .toNumber v) fun _ _ => .next (.convert (Num.ranged_extreme _ _)) fun _ _ => .done nofun
  | hypot =>
    exact .next (.mapM args fun v _ => .toNumber v) fun _ _ => .next (.convert (Num.ranged_hypot _)) fun _ _ => .done nofun
  | random => exact .look fun w w' _ hr _ => by rw [hr]; exact .seq (.draw _) fun _ _ _ _ => .done nofun
  | keys => exact .next (.keys _) fun _ _ => .newList (seesAll_map _ fun _ => rfl)
  | values => exact .seq (.values _) fun _ _ _ hvs => .newArray hvs
  | entries => exact .seq (.entries _) fun _ _ _ hvs => .newList hvs
  | isArray => exact .heap fun _ _ => .done nofun
  | arrayFrom => exact hfrom
  | arrayOf => exact .seq (.copyTogether _) fun _ _ _ hvs => .newArray hvs
  | stringify =>
    refine .heap fun w _ => .next (.convert (Datum.ranged_stringify _)) fun s _ => ?_
    cases s <;> exact .done nofun
  | parseJson =>
    refine .next (.toText _) fun text _ => ?_
    split
    · exact .load _
    · exact .fault (.mishap .unexplainedJson)
    · exact .fail _ rfl
  | isInteger | isNaNNumber => exact tested _ _

end Setting

end Stepwise
