import Stepwise.Eval.Expr
import Stepwise.Proofs.Computation
import Stepwise.Proofs.Likeness
import Stepwise.Proofs.Rereading

/-!
# Reading back what is written

The expression that the text of a datum spells builds the datum on the heap and does nothing else (`Writing.Sound.builds`).
So a datum that is written and read again is the datum again, except for what cannot be written.
-/

namespace Stepwise

open List

/-- The world with another heap. -/
def World.onHeap (w : World) (heap : Heap) : World := { w with store.heap := heap }

namespace Exec

variable {α β : Type} {w : World} {x : Exec α} {good : Heap → α → Prop}

/-- The computation only adds cells to the heap, and its result is good on the heap that it ends with. -/
def Builds (w : World) (x : Exec α) (good : Heap → α → Prop) : Prop :=
  ∃ r heap, x.outcome w = (.ok r, w.onHeap heap) ∧ w.store.heap.Keeps heap ∧ good heap r

namespace Builds

theorem done {r : α} (h : good w.store.heap r) : Builds w (pure r) good := ⟨r, w.store.heap, rfl, .refl _, h⟩

theorem bind {f : α → Exec β} {good' : Heap → β → Prop} (hx : Builds w x good)
    (hf : ∀ r heap, good heap r → Builds (w.onHeap heap) (f r) fun heap' b => heap.Keeps heap' → good' heap' b) :
    Builds w (x >>= f) good' := by
  obtain ⟨r, heap, hrun, hkeeps, hr⟩ := hx
  obtain ⟨b, heap', hrun', hkeeps', hb⟩ := hf r heap hr
  refine ⟨b, heap', ?_, hkeeps.trans hkeeps', hb hkeeps'⟩
  rw [outcome_bind_ok hrun, hrun']
  rfl

theorem withHeap {f : Heap → α × Heap} (hkeeps : w.store.heap.Keeps (f w.store.heap).2)
    (h : good (f w.store.heap).2 (f w.store.heap).1) : Builds w (Exec.withHeap f) good := ⟨_, _, rfl, hkeeps, h⟩

theorem copy {v : Value} {d : Datum} (hv : w.store.heap.Shows w.store.heap.next v d) :
    Builds w (Exec.copy v) fun heap v' => heap.Shows heap.next v' d :=
  .withHeap (Heap.shows_copy hv).1 (Heap.shows_copy hv).2

end Builds

end Exec

namespace Writing

open Exec

variable {host : Host} {x : Writing}

theorem builds_items {items : List Writing} (hitems : ∀ x ∈ items, ∀ w,
    Builds w (x.expr.eval host) fun heap v => heap.Shows heap.next v x.datum) (w : World) :
    Builds w (evalItems host (items.map fun x => .single x.expr)) fun heap vs => heap.AllShow vs (items.map datum) := by
  induction items generalizing w with
  | nil => exact .done .nil
  | cons x items ih =>
    have ih := ih fun x hx => hitems x (mem_cons_of_mem _ hx)
    -- the copy of the first item goes on showing it while the others are built
    refine .bind (hitems x mem_cons_self w) fun v heap hv => ?_
    refine .bind (.copy hv) fun v' heap₁ hv' => .bind (ih _) fun vs heap₂ hvs => .done fun _ hkeeps _ => ?_
    exact .cons (hv'.keeps hkeeps) hvs

theorem builds_entries {entries : List (Text × Writing)} (hentries : ∀ e ∈ entries, ∀ w,
    Builds w (e.2.expr.eval host) fun heap v => heap.Shows heap.next v e.2.datum) (w : World) :
    Builds w (evalEntries host (entries.map fun e => .property e.1 e.2.expr)) fun heap es =>
      es.map Prod.fst = entries.map Prod.fst ∧ heap.AllShow (es.map Prod.snd) (entries.map fun e => e.2.datum) := by
  induction entries generalizing w with
  | nil => exact .done ⟨rfl, .nil⟩
  | cons e entries ih =>
    have ih := ih fun e he => hentries e (mem_cons_of_mem _ he)
    refine .bind (hentries e mem_cons_self w) fun v heap hv => ?_
    refine .bind (.copy hv) fun v' heap₁ hv' => .bind (ih _) fun es heap₂ hes => .done fun _ hkeeps _ => ?_
    exact ⟨congrArg (e.1 :: ·) hes.1, .cons (hv'.keeps hkeeps) hes.2⟩

theorem outcome_eval_minus {n : Nat} (h : n < Num.safeLimit) (w : World) :
    (Expr.eval host (.unary .minus (.num (.int n)))).outcome w = (.ok (.num (.int (-n))), w) := by
  have hoperand : (Expr.eval host (.num (.int n))).outcome w = (.ok (.num (.int n)), w) := rfl
  have hread : w.store.heap.read (.num (.int n)) = .num (.int n) := Heap.readTo_of_not_isRef rfl _ _ w.store.heap
  have hnumber : (Exec.toNumber (.num (.int n))).outcome w = (.ok (.int n), w) := by
    change (liftM (w.store.heap.read (.num (.int n))).toNumber : Exec Num).outcome w = _
    rw [hread]
    rfl
  have hneg : (Num.int n).neg = .ok (.int (-n)) := if_pos (by rw [Int.natAbs_neg]; exact h)
  have hresult : (liftM (Num.int n).neg : Exec Num).outcome w = (.ok (.int (-n)), w) := by
    rw [hneg]
    rfl
  change (Expr.eval host (.num (.int n)) >>= Eval.unary .minus).outcome w = _
  rw [outcome_bind_ok hoperand, Eval.unary, outcome_bind_ok hnumber, outcome_bind_ok hresult]
  rfl

/-- The expression of a datum builds the datum, whatever is in scope. -/
theorem Sound.builds (h : x.Sound) (host : Host) (w : World) :
    Builds w (x.expr.eval host) fun heap v => heap.Shows heap.next v x.datum := by
  induction h generalizing w with
  | null => exact .done (.plain rfl)
  | bool b => exact .done (.plain rfl)
  | natural small => exact .done (.plain rfl)
  | negative positive small => exact ⟨_, w.store.heap, outcome_eval_minus small w, .refl _, .plain rfl⟩
  | text s =>
    have hshown : (Datum.text s) = w.store.heap.readTo 0 (.text s.packed) := congrArg Datum.text (Text.toList_packed s).symm
    refine .done ?_
    rw [hshown]
    exact .plain rfl
  | array sound ih =>
    refine .bind (builds_items ih w) fun vs heap hvs => .withHeap (heap.keeps_alloc _) fun _ => ?_
    exact Heap.shows_alloc_array (by rw [Sequence.toList_ofList]; exact hvs) 0
  | @object entries distinct sound ih =>
    refine .bind (builds_entries ih w) fun es heap hes => .withHeap (heap.keeps_alloc _) fun _ => ?_
    have hlist : (OrderedMap.ofList es).toList = es := OrderedMap.toList_ofList (by rw [hes.1]; exact distinct)
    refine Heap.shows_alloc_object ?_ ?_
    · rw [OrderedMap.keys, hlist, hes.1, map_map]
      rfl
    · rw [OrderedMap.values, hlist, map_map]
      exact hes.2

end Writing

/-- What is written is undone by reading it: the text of a datum is parsed, and in every world the expression that it
spells evaluates to the datum without what cannot be written. A text is read back as itself. -/
theorem Datum.reads_back_canon :
    (∀ d : Datum, d.Portable → d.isAbsent = false → ∃ text e, d.stringify = .ok (some text) ∧ Expr.parse text = .ok e ∧
      ∀ (host : Host) (w : World), ∃ v heap, (e.eval host).outcome w = (.ok v, w.onHeap heap) ∧
        w.store.heap.Keeps heap ∧ heap.read v = d.canon) ∧
    ∀ s : Text, ∃ text, (Datum.text s).stringify = .ok (some text) ∧ Expr.parse text = .ok (.text (.ofText s)) := by
  refine ⟨fun d hportable hpresent => ?_, fun s => ⟨s.quoted, rfl, (Writing.Sound.text s).parse⟩⟩
  obtain ⟨x, hsound, hdatum, htext⟩ := hportable.written hpresent
  refine ⟨x.text, x.expr, htext, hsound.parse, fun host w => ?_⟩
  obtain ⟨v, heap, hrun, hkeeps, hshows⟩ := hsound.builds host w
  exact ⟨v, heap, hrun, hkeeps, hshows.read.trans hdatum⟩

/-- An object with a quoted key, a negative number, and parts that cannot be written. -/
theorem Datum.reads_back_canon_object :
    Portable (.object [("\"\n".codes, .array [.undefined, .num (.int (-3)), .text "*/".codes]), ("f".codes, .function [])]) ∧
    (isAbsent (.object [("\"\n".codes, .array [.undefined, .num (.int (-3)), .text "*/".codes]),
      ("f".codes, .function [])]) = false) ∧
    ∃ text e, stringify (.object [("\"\n".codes, .array [.undefined, .num (.int (-3)), .text "*/".codes]),
        ("f".codes, .function [])]) = .ok (some text) ∧
      Expr.parse text = .ok e ∧
      ∀ (host : Host) (w : World), ∃ v heap, (e.eval host).outcome w = (.ok v, w.onHeap heap) ∧
        w.store.heap.Keeps heap ∧
        heap.read v = .object [("\"\n".codes, .array [.null, .num (.int (-3)), .text "*/".codes])] := by
  have hitems : Portable (.array [.undefined, .num (.int (-3)), .text "*/".codes]) := by
    refine .array ?_
    simp only [forall_mem_cons]
    exact ⟨.undefined, .int (by decide), .text _, nofun⟩
  have hportable : Portable (.object [("\"\n".codes, .array [.undefined, .num (.int (-3)), .text "*/".codes]),
      ("f".codes, .function [])]) := by
    refine .object (by decide) ?_
    simp only [forall_mem_cons]
    exact ⟨hitems, .function [], nofun⟩
  exact ⟨hportable, rfl, reads_back_canon.1 _ hportable rfl⟩

end Stepwise
