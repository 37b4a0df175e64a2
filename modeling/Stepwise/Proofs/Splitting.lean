import Stepwise.Proofs.RoundTrip
import Stepwise.Proofs.ShortArrays
import Stepwise.Proofs.Statements

/-!
# Splitting and joining

A text is cut at the places where the separator is found, from left to right and without overlap. What is between them
does not hold the separator, and the pieces with the separator between them make up the text again. The empty separator
cuts between all code points. So joining what was split gives the text back (`Method.join_undoes_split`).
-/

namespace Stepwise

open List

namespace Text

variable {sep s : Text} {i : Nat}

/-! ### The pieces of a text -/

theorem not_infix_of_findFirst? (hsep : sep ≠ []) (h : findFirst? sep s = none) : ¬ sep <:+: s := by
  rw [findFirst?_eq hsep, findIdx?_eq_none_iff] at h
  intro hinfix
  obtain ⟨t, hsep, hs⟩ := infix_iff_prefix_suffix.mp hinfix
  have hnot := h t ((mem_tails t s).mpr hs)
  rw [Bool.eq_false_iff, Ne, isPrefixOf_iff_prefix] at hnot
  exact hnot hsep

theorem cut_of_findFirst? (hsep : sep ≠ []) (h : findFirst? sep s = some i) :
    s = s.take i ++ (sep ++ s.drop (i + sep.length)) ∧ ¬ sep <:+: s.take i := by
  rw [findFirst?_eq hsep] at h
  obtain ⟨hi, hfound, hbefore⟩ := findIdx?_eq_some_iff_getElem.mp h
  rw [getElem_tails, isPrefixOf_iff_prefix] at hfound
  constructor
  · obtain ⟨rest, hrest⟩ := hfound
    rw [← drop_drop, ← hrest, drop_left, hrest, take_append_drop]
  · rintro ⟨front, back, hpiece⟩
    -- an occurrence inside the piece would have been found before
    have hlength := congrArg List.length hpiece
    have hpos := length_pos_of_ne_nil hsep
    simp only [length_append, length_take] at hlength
    have hnot := hbefore front.length (by omega)
    rw [getElem_tails, isPrefixOf_iff_prefix] at hnot
    refine hnot ⟨back ++ s.drop i, ?_⟩
    have hs : s = front ++ (sep ++ (back ++ s.drop i)) := by
      rw [← append_assoc, ← append_assoc, hpiece, take_append_drop]
    conv_rhs => rw [hs, drop_left]

theorem join_cons (sep first : Text) {rest : List Text} (h : rest ≠ []) :
    join sep (first :: rest) = first ++ (sep ++ join sep rest) := by
  obtain ⟨second, rest, rfl⟩ := exists_cons_of_ne_nil h
  simp [join, intercalate]

theorem join_characters (s : Text) : join [] (s.map fun c => [c]) = s := by
  induction s with
  | nil => rfl
  | cons c s ih =>
    cases s with
    | nil => rfl
    | cons d s => rw [map_cons, join_cons _ _ (by simp), ih, nil_append, singleton_append]

/-- With fuel for every code point, the pieces make up the text and none of them holds the separator. -/
theorem pieces_splitFrom (hsep : sep ≠ []) {fuel : Nat} (hfuel : s.length ≤ fuel) :
    join sep (splitFrom sep fuel [] s) = s ∧ ∀ piece ∈ splitFrom sep fuel [] s, ¬ sep <:+: piece := by
  induction fuel generalizing s with
  | zero =>
    obtain rfl := length_eq_zero_iff.mp (Nat.le_zero.mp hfuel)
    simpa [splitFrom, join] using hsep
  | succ fuel ih =>
    rw [splitFrom]
    split
    case h_1 hnone => simpa [join] using not_infix_of_findFirst? hsep hnone
    case h_2 i hi =>
      obtain ⟨hcut, hpiece⟩ := cut_of_findFirst? hsep hi
      have hpos := length_pos_of_ne_nil hsep
      obtain ⟨hjoin, hpieces⟩ := ih (s := s.drop (i + sep.length)) (by rw [length_drop]; omega)
      rw [splitFrom_append, reverse_singleton, singleton_append]
      constructor
      · rw [join_cons sep _ (splitFrom_ne_nil sep fuel [] _), hjoin, ← hcut]
      · exact forall_mem_cons.mpr ⟨hpiece, hpieces⟩

end Text

/-- The texts one behind the other, with the separator in front of each but the first. -/
theorem Chars.toList_join (sep : Chars) (pieces : List Chars) :
    (Chars.join sep pieces).toList = Text.join sep.toList (pieces.map Sequence.toList) := by
  cases pieces with
  | nil => rfl
  | cons first rest =>
    rw [Chars.join, Sequence.toList_concat]
    induction rest generalizing first with
    | nil => simp [Text.join]
    | cons second rest ih =>
      have hjoin : Text.join sep.toList ((first :: second :: rest).map Sequence.toList) =
          first.toList ++ (sep.toList ++ Text.join sep.toList ((second :: rest).map Sequence.toList)) :=
        Text.join_cons _ _ (cons_ne_nil _ _)
      rw [hjoin, ← ih]
      simp

/-! ### The methods -/

open Exec

namespace TextMethod

/-- The pieces that a text is cut into. -/
def segments (s sep : Chars) : List Chars :=
  if sep.toText.isEmpty then s.toText.map .singleton else (s.toText.splitOn sep.toText).map Text.packed

theorem join_segments (s sep : Chars) : (Chars.join sep (segments s sep)).toText = s.toText := by
  rw [Chars.toText, Chars.toList_join, segments]
  split
  case isTrue hempty =>
    have hnil : sep.toList = [] := isEmpty_iff.mp hempty
    rw [hnil, map_map]
    exact Text.join_characters s.toText
  case isFalse hsep =>
    have hpacked : Sequence.toList ∘ Text.packed = id := funext Text.toList_packed
    rw [map_map, hpacked, map_id]
    exact (Text.pieces_splitFrom (by simpa using hsep) (Nat.le_refl _)).1

theorem not_infix_of_mem_segments {s sep piece : Chars} (hsep : sep.toText ≠ []) (h : piece ∈ segments s sep) :
    ¬ sep.toText <:+: piece.toText := by
  rw [segments, if_neg (by simpa using hsep)] at h
  obtain ⟨t, ht, rfl⟩ := mem_map.mp h
  have hpiece := (Text.pieces_splitFrom hsep (Nat.le_refl _)).2 t ht
  rwa [← t.toList_packed] at hpiece

theorem outcome_split (w : World) (s sep : Chars) : ∃ items : Sequence Value,
    (TextMethod.split.run s [.text sep]).outcome w =
      (.ok (w.store.heap.allocArray items).1, w.onHeap (w.store.heap.allocArray items).2) ∧
    items.toList = (segments s sep).map .text := by
  have hrun : (TextMethod.split.run s [.text sep]).outcome w =
      (if sep.toText.isEmpty then Exec.newArray (Collection.characters s)
        else Exec.newArray (.ofList ((s.toText.splitOn sep.toText).map fun piece => .text piece.packed)) : Exec Value).outcome w :=
    rfl
  rw [hrun, segments]
  split
  · refine ⟨Collection.characters s, rfl, ?_⟩
    rw [Collection.characters, Sequence.toList_map, map_map]
    rfl
  · refine ⟨.ofList ((s.toText.splitOn sep.toText).map fun piece => .text piece.packed), rfl, ?_⟩
    rw [Sequence.toList_ofList, map_map]
    rfl

end TextMethod

namespace ArrayMethod

theorem outcome_join {w : World} {a g : Nat} {items : Sequence Value} {pieces : List Chars}
    (hcell : w.store.heap.cell? a = some (.array items g)) (hitems : items.toList = pieces.map .text) (invoke : Callback)
    (sep : Chars) : (ArrayMethod.join.run invoke a [.text sep]).outcome w = (.ok (.text (Chars.join sep pieces)), w) := by
  have htexts : ((pieces.map Value.text).mapM fun v => if v.isNullish then pure .empty else Exec.toChars v : Exec _).outcome w =
      (.ok pieces, w) := by
    clear hitems
    induction pieces with
    | nil => rfl
    | cons piece pieces ih =>
      have hpiece : (if (Value.text piece).isNullish then pure .empty else Exec.toChars (.text piece) : Exec Chars).outcome w =
        (.ok piece, w) := rfl
      rw [map_cons, mapM_cons, outcome_bind_ok hpiece, outcome_bind_ok ih]
      rfl
  have hseparator : (Exec.toChars (.text sep)).outcome w = (.ok sep, w) := rfl
  change (Exec.toChars (.text sep) >>= fun _ => ArrayMethod.items a >>= _).outcome w = _
  rw [outcome_bind_ok hseparator, outcome_bind_ok (outcome_items hcell), hitems, outcome_bind_ok htexts]
  rfl

end ArrayMethod

/-- Splitting a text by a separator makes a new array of texts, and joining that array with the same separator gives the
text back; the array holds its pieces, in which a separator that is not empty does not occur. -/
theorem Method.join_undoes_split (invoke : Callback) (w : World) (s sep : Chars) :
    ∃ (split join : Method) (a : Addr) (heap : Heap) (items : Sequence Value) (pieces : List Chars) (t : Chars),
      Method.find? w.store.heap (.text s) "split".codes = some split ∧
      (split.run invoke [.text sep]).outcome w = (.ok (.ref a), w.onHeap heap) ∧
      w.store.heap.Keeps heap ∧ heap.cell? a = some (.array items 0) ∧ items.toList = pieces.map .text ∧
      Method.find? heap (.ref a) "join".codes = some join ∧
      (join.run invoke [.text sep]).outcome (w.onHeap heap) = (.ok (.text t), w.onHeap heap) ∧ t.toText = s.toText ∧
      (sep.toText ≠ [] → ∀ piece ∈ pieces, ¬ sep.toText <:+: piece.toText) := by
  obtain ⟨items, hsplit, hitems⟩ := TextMethod.outcome_split w s sep
  have hcell : (w.store.heap.allocArray items).2.cell? w.store.heap.next = some (.array items 0) := by
    rw [Heap.allocArray, Heap.cell?_alloc, if_pos rfl]
  have harray : (w.store.heap.allocArray items).2.array? (.ref w.store.heap.next) = some (w.store.heap.next, items) := by
    rw [Heap.array?, hcell]
  refine ⟨.text .split s, .array .join w.store.heap.next, w.store.heap.next, (w.store.heap.allocArray items).2, items,
    TextMethod.segments s sep, _, ?_, hsplit, w.store.heap.keeps_alloc _, hcell, hitems, ?_,
    ArrayMethod.outcome_join hcell hitems invoke sep, TextMethod.join_segments s sep,
    fun hsep _ => TextMethod.not_infix_of_mem_segments hsep⟩
  · rfl
  · rw [Method.find?, harray]
    rfl

end Stepwise
