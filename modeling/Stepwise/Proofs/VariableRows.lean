import Stepwise.Proofs.Declarations
import Stepwise.Proofs.JsonRoundTrip
import Stepwise.Proofs.OutOfRange
import Stepwise.Proofs.SortMethod

/-!
# The rows of the variables panel

The panel has one row for each name that does not begin with two underscores. Rows are sorted by name without regard to
case, so the order in which the names were bound does not show. A row counts as changed when the value is written
otherwise than the value before; for data whose numbers are integers below the safe limit this tells exactly whether
they differ in what can be written (`Datum.kept`). There is one exception to all of this: the panel breaks down when one
of the values leads to an integer beyond the range of doubles (`Variables.rows_faithful_unless_out_of_range`).
-/

namespace Stepwise

open List

/-! ### What the change flag sees -/

/-- Data that are written differently are different, and the other way round. -/
theorem Writing.Sound.text_eq_iff {w w' : Writing} (h : w.Sound) (h' : w'.Sound) : w.text = w'.text ↔ w.datum = w'.datum := by
  constructor
  · intro htext
    obtain ⟨j, hj, hdatum⟩ := h.parseJson
    obtain ⟨j', hj', hdatum'⟩ := h'.parseJson
    rw [htext, hj', Except.ok.injEq] at hj
    rw [← hdatum, ← hdatum', hj]
  · intro hdatum
    have htext := h.stringify
    rw [hdatum, h'.stringify, Except.ok.injEq, Option.some.injEq] at htext
    exact htext.symm

namespace Datum

variable {d e : Datum}

/-- What is left of a datum when it is written: its canonical form, or nothing when it cannot be written. -/
def kept (d : Datum) : Option Datum := if d.isAbsent then none else some d.canon

theorem Portable.stringify_eq_iff (hd : d.Portable) (he : e.Portable) : d.stringify = e.stringify ↔ d.kept = e.kept := by
  cases hdabsent : d.isAbsent <;> cases heabsent : e.isAbsent
  · obtain ⟨w, hsound, hcanon, hw⟩ := hd.written hdabsent
    obtain ⟨w', hsound', hcanon', hw'⟩ := he.written heabsent
    simp [hw, hw', kept, hdabsent, heabsent, ← hcanon, ← hcanon', hsound.text_eq_iff hsound']
  · obtain ⟨w, -, -, hw⟩ := hd.written hdabsent
    simp [hw, stringify_of_isAbsent heabsent, kept, hdabsent, heabsent]
  · obtain ⟨w', -, -, hw'⟩ := he.written heabsent
    simp [stringify_of_isAbsent hdabsent, hw', kept, hdabsent, heabsent]
  · simp [stringify_of_isAbsent hdabsent, stringify_of_isAbsent heabsent, kept, hdabsent, heabsent]

theorem differs_eq_ok {b : Bool} (h : d.differs e = .ok b) : b = false ↔ d.stringify = e.stringify := by
  obtain ⟨s, hd, h⟩ := eq_ok_of_bind h
  obtain ⟨t, he, h⟩ := eq_ok_of_bind h
  cases h
  rw [← fingerprint, ← fingerprint, hd, he, bne_eq_false_iff_eq, Except.ok.injEq]

end Datum

/-! ### One row -/

namespace Variables

variable {current previous : Variables} {name : Text} {r : VariableRow} {rows : List VariableRow}

theorem changed_eq (current previous : Variables) (name : Text) :
    current.changed previous name = (current.datum name).differs (previous.datum name) := by
  rw [changed.eq_def]
  split
  case h_2 => rfl
  case h_1 s t hs ht =>
    have hquoted : s.toText.quoted = t.toText.quoted ↔ Datum.text s.toText = .text t.toText :=
      (Writing.Sound.text s.toText).text_eq_iff (.text t.toText)
    rw [datum, datum, hs, ht, Heap.read, Heap.read, Heap.readTo, Heap.readTo]
    refine congrArg Except.ok ?_
    rw [Bool.eq_iff_iff, bne_iff_ne, Bool.not_eq_true', ← Bool.not_eq_true, Sequence.same_iff, ne_eq, Option.some.injEq,
      hquoted, Datum.text.injEq]

theorem breaksIff_changed (current previous : Variables) (name : Text) :
    BreaksIff ((current.datum name).Overflows true ∨ (previous.datum name).Overflows true)
      (current.changed previous name) := by
  rw [changed_eq]
  exact (Datum.breaksIff_stringify _).bind fun _ _ => (Datum.breaksIff_stringify _).map _

theorem breaksIff_display (h : Heap) (v : Value) : BreaksIff ((h.read v).Overflows true) (display h v) := by
  cases v with
  | text s =>
    refine (BreaksIff.ok s).congr (iff_of_false id ?_)
    rw [Heap.read, Heap.readTo]
    rintro ⟨⟩
  | _ => exact (Datum.breaksIff_displayText _).map _

theorem row_of_not_isRef {v : Value} (hv : v.isRef = false) : current.row previous name v = do
    return ⟨name, ← display current.heap v, current.heap.displayType v, ← current.changed previous name⟩ := by
  cases v with
  | ref a => cases hv
  | _ => rfl

/-- Only an integer out of range, in the value or in the one before, keeps a row from being made. -/
theorem breaksIff_row (current previous : Variables) (name : Text) :
    BreaksIff ((current.datum name).Overflows true ∨ (previous.datum name).Overflows true)
      (current.row previous name (current.value name)) := by
  have hdatum : current.datum name = current.heap.read (current.value name) := rfl
  cases href : (current.value name).isRef with
  | true =>
    obtain ⟨a, ha⟩ := Value.eq_ref_of_isRef href
    rw [hdatum, ha]
    exact (Datum.breaksIff_stringify _).bind fun _ _ => (Datum.breaksIff_stringify _).map _
  | false =>
    have hdisplay := breaksIff_display current.heap (current.value name)
    rw [← hdatum] at hdisplay
    rw [row_of_not_isRef href]
    refine (hdisplay.bind fun _ _ => (breaksIff_changed current previous name).map _).congr ?_
    rw [← or_assoc, or_self]

theorem row_eq_ok (h : current.row previous name (current.value name) = .ok r) :
    r.name = name ∧ (r.changed = false ↔ (current.datum name).stringify = (previous.datum name).stringify) := by
  cases href : (current.value name).isRef with
  | true =>
    obtain ⟨a, ha⟩ := Value.eq_ref_of_isRef href
    have hdatum : current.datum name = current.heap.read (.ref a) := by rw [datum, ha]
    rw [ha] at h
    obtain ⟨s, hs, h⟩ := eq_ok_of_bind h
    obtain ⟨t, ht, h⟩ := eq_ok_of_bind h
    cases h
    rw [Datum.fingerprint, ← hdatum] at hs
    rw [Datum.fingerprint] at ht
    rw [hs, ht, bne_eq_false_iff_eq, Except.ok.injEq]
    exact ⟨rfl, .rfl⟩
  | false =>
    rw [row_of_not_isRef href, changed_eq] at h
    obtain ⟨s, -, h⟩ := eq_ok_of_bind h
    obtain ⟨b, hb, h⟩ := eq_ok_of_bind h
    cases h
    exact ⟨rfl, Datum.differs_eq_ok hb⟩

/-! ### All rows -/

/-- The names that have a row. -/
def shownNames (v : Variables) : List Text := v.layer.keys.filter isShown

theorem namedValues_eq (h : current.layer.keys.Nodup) :
    current.layer.namedValues = current.layer.keys.map fun name => (name, current.value name) := by
  rw [Layer.namedValues, OrderedMap.keys, map_map]
  refine map_congr_left fun e he => ?_
  have hget : current.layer.get? e.1 = some e.2 := (OrderedMap.get?_eq_some_iff h).2 he
  simp [value, hget]

theorem rows_eq (h : current.layer.keys.Nodup) : current.rows previous = do
    return sorted (← current.shownNames.mapM fun name => current.row previous name (current.value name)) := by
  rw [rows, namedValues_eq h, filter_map, mapM_map]
  rfl

/-! ### The order of rows -/

/-- The order of names: without regard to case, and by code points where that does not tell. -/
def Precedes (a b : Text) : Prop := a.toLower < b.toLower ∨ a.toLower = b.toLower ∧ a < b

theorem Precedes.trans {a b c : Text} (hab : Precedes a b) (hbc : Precedes b c) : Precedes a c := by
  rcases hab with hab | ⟨hab, hab'⟩ <;> rcases hbc with hbc | ⟨hbc, hbc'⟩
  · exact .inl (lt_trans hab hbc)
  · exact .inl (hbc ▸ hab)
  · exact .inl (hab ▸ hbc)
  · exact .inr ⟨hab.trans hbc, lt_trans hab' hbc'⟩

theorem Precedes.irrefl (a : Text) : ¬ Precedes a a := by
  rintro (h | ⟨-, h⟩) <;> exact lt_irrefl _ h

theorem lt_or_eq_or_gt (s t : Text) : s < t ∨ s = t ∨ t < s := by
  by_cases h : s < t
  · exact .inl h
  · exact .inr ((le_iff_lt_or_eq.1 (not_lt.1 h)).symm.imp_left Eq.symm)

theorem precedes_total (a b : Text) : a = b ∨ Precedes a b ∨ Precedes b a := by
  rcases lt_or_eq_or_gt a.toLower b.toLower with h | h | h
  · exact .inr (.inl (.inl h))
  · rcases lt_or_eq_or_gt a b with h' | h' | h'
    · exact .inr (.inl (.inr ⟨h, h'⟩))
    · exact .inl h'
    · exact .inr (.inr (.inr ⟨h.symm, h'⟩))
  · exact .inr (.inr (.inl h))

theorem rowLe_iff {s : VariableRow} :
    rowLe (r.name.toLower, r) (s.name.toLower, s) ↔ r.name = s.name ∨ Precedes r.name s.name := by
  rw [rowLe, Precedes]
  split
  case isTrue h =>
    have h : r.name.toLower = s.name.toLower := h
    rw [Text.le_iff_before_or_eq, h, and_iff_right rfl, or_iff_right (List.lt_irrefl _), or_comm]
  case isFalse h =>
    have h : r.name.toLower ≠ s.name.toLower := h
    have hname : r.name ≠ s.name := fun hname => h (congrArg Text.toLower hname)
    rw [Text.le_iff_before_or_eq, or_iff_left h, or_iff_right hname]
    exact ⟨.inl, fun hle => hle.resolve_right fun hand => h hand.1⟩

/-- The order in which rows are sorted. -/
def namesLe (r s : VariableRow) : Bool := rowLe (r.name.toLower, r) (s.name.toLower, s)

theorem namesLe_trans (r s t : VariableRow) (hrs : namesLe r s) (hst : namesLe s t) : namesLe r t := by
  rw [namesLe, rowLe_iff] at *
  rcases hrs with hrs | hrs
  · rwa [hrs]
  · rcases hst with hst | hst
    · exact .inr (hst ▸ hrs)
    · exact .inr (hrs.trans hst)

theorem namesLe_total (r s : VariableRow) : namesLe r s || namesLe s r := by
  rw [Bool.or_eq_true, namesLe, namesLe, rowLe_iff, rowLe_iff]
  rcases precedes_total r.name s.name with h | h | h
  · exact .inl (.inl h)
  · exact .inl (.inr h)
  · exact .inr (.inr h)

theorem sorted_eq_mergeSort (rows : List VariableRow) : sorted rows = rows.mergeSort namesLe := by
  have hsorted := map_mergeSort (r := namesLe) (s := rowLe) (f := fun r => (r.name.toLower, r)) (l := rows)
    fun _ _ _ _ => rfl
  rw [sorted, ← hsorted, map_map]
  exact map_id _

theorem perm_sorted (rows : List VariableRow) : (sorted rows).Perm rows := by
  rw [sorted_eq_mergeSort]
  exact mergeSort_perm _ _

theorem pairwise_sorted (h : (rows.map VariableRow.name).Nodup) :
    (sorted rows).Pairwise fun r s => Precedes r.name s.name := by
  have hle : (sorted rows).Pairwise (namesLe · ·) := by
    rw [sorted_eq_mergeSort]
    exact pairwise_mergeSort namesLe_trans namesLe_total rows
  have hne : (sorted rows).Pairwise fun r s => r.name ≠ s.name :=
    pairwise_map.1 (((perm_sorted rows).map _).nodup_iff.2 h)
  refine (hle.and hne).imp ?_
  rintro r s ⟨hle, hne⟩
  exact (rowLe_iff.1 hle).resolve_left hne

/-- Rows with different names are sorted in one way only. -/
theorem sorted_eq_of_perm {rows' : List VariableRow} (h : (rows.map VariableRow.name).Nodup) (hperm : rows.Perm rows') :
    sorted rows = sorted rows' := by
  refine List.Perm.eq_of_pairwise ?_ (pairwise_sorted h) (pairwise_sorted ((hperm.map _).nodup_iff.1 h))
    ((perm_sorted rows).trans (hperm.trans (perm_sorted rows').symm))
  intro r s _ _ hrs hsr
  exact absurd (hrs.trans hsr) (Precedes.irrefl _)

/-! ### The panel -/

theorem perm_of_map_ok {α ε : Type} {as bs : List α} (h : (as.map (Except.ok : α → Except ε α)).Perm (bs.map .ok)) :
    as.Perm bs := by
  have hsome := h.filterMap Except.toOption
  simpa [filterMap_map, Function.comp_def, Except.toOption] using hsome

theorem names_of_mapM {f : Text → Except Breakdown VariableRow} (hf : ∀ name r, f name = .ok r → r.name = name)
    {names : List Text} (h : names.map f = rows.map .ok) : rows.map VariableRow.name = names := by
  induction names generalizing rows with
  | nil => cases rows with
    | nil => rfl
    | cons r rows => cases h
  | cons name names ih => cases rows with
    | nil => cases h
    | cons r rows =>
      rw [map_cons, map_cons, cons.injEq] at h
      rw [map_cons, hf name r h.1, ih h.2]

theorem breaksIff_rows (previous : Variables) (h : current.layer.keys.Nodup) :
    BreaksIff (∃ name ∈ current.shownNames, (current.datum name).Overflows true ∨ (previous.datum name).Overflows true)
      (current.rows previous) := by
  rw [rows_eq h]
  exact (BreaksIff.mapM fun name _ => breaksIff_row current previous name).map _

theorem rows_eq_ok (h : current.layer.keys.Nodup) (hrows : current.rows previous = .ok rows) :
    ∃ made, rows = sorted made ∧ made.map VariableRow.name = current.shownNames ∧
      current.shownNames.map (fun name => current.row previous name (current.value name)) = made.map .ok := by
  rw [rows_eq h] at hrows
  obtain ⟨made, hmade, hrows⟩ := eq_ok_of_bind hrows
  cases hrows
  rw [mapM_eq_ok_iff] at hmade
  exact ⟨made, rfl, names_of_mapM (fun name r hr => (row_eq_ok hr).1) hmade, hmade⟩

/-! ### The order of the bindings -/

/-- The same variables, bound in another order. -/
structure Rearranged (v v' : Variables) : Prop where
  heap : v'.heap = v.heap
  bindings : v'.layer.namedValues.Perm v.layer.namedValues

variable {v v' : Variables}

theorem keys_eq_map_fst (v : Variables) : v.layer.keys = v.layer.namedValues.map Prod.fst := by
  rw [OrderedMap.keys, Layer.namedValues, map_map]
  rfl

theorem bound_iff (h : v.layer.keys.Nodup) {u : Value} :
    (v.layer.get? name).map (·.value) = some u ↔ (name, u) ∈ v.layer.namedValues := by
  simp [Option.map_eq_some_iff, OrderedMap.get?_eq_some_iff h, Layer.namedValues]

namespace Rearranged

variable (hv : v.Rearranged v')

include hv

theorem keys : v'.layer.keys.Perm v.layer.keys := by
  rw [keys_eq_map_fst, keys_eq_map_fst]
  exact hv.bindings.map _

theorem value (h : v.layer.keys.Nodup) : v'.value = v.value := by
  funext name
  refine congrArg (Option.getD · Value.undefined) (Option.ext fun u => ?_)
  rw [bound_iff (hv.keys.nodup_iff.2 h), bound_iff h, hv.bindings.mem_iff]

theorem datum (h : v.layer.keys.Nodup) : v'.datum = v.datum := by
  funext name
  rw [Variables.datum, Variables.datum, hv.heap, hv.value h]

theorem shownNames : v'.shownNames.Perm v.shownNames := hv.keys.filter _

end Rearranged

section

variable {current' previous' : Variables} (hc : current.Rearranged current') (hp : previous.Rearranged previous')
  (hcurrent : current.layer.keys.Nodup) (hprevious : previous.layer.keys.Nodup)

include hc hp hcurrent hprevious

theorem row_rearranged : current'.row previous' = current.row previous := by
  have hchanged : current'.changed previous' = current.changed previous := by
    funext name
    rw [changed_eq, changed_eq, hc.datum hcurrent, hp.datum hprevious]
  funext name value
  cases value with
  | ref a => rw [row, row, hc.heap, hp.datum hprevious]
  | _ => rw [row_of_not_isRef rfl, row_of_not_isRef rfl, hc.heap, hchanged]

theorem rows_rearranged : current'.rows previous' = current.rows previous := by
  have hcurrent' : current'.layer.keys.Nodup := hc.keys.nodup_iff.2 hcurrent
  have hbreaks' := breaksIff_rows previous' hcurrent'
  simp only [hc.shownNames.mem_iff, hc.datum hcurrent, hp.datum hprevious] at hbreaks'
  cases hrows : current.rows previous with
  | error why => exact (hbreaks' why).2 ((breaksIff_rows previous hcurrent why).1 hrows)
  | ok rows =>
    obtain ⟨rows', hrows'⟩ := hbreaks'.exists_ok ((breaksIff_rows previous hcurrent).not_of_ok hrows)
    obtain ⟨made, rfl, hnames, hmade⟩ := rows_eq_ok hcurrent hrows
    obtain ⟨made', rfl, -, hmade'⟩ := rows_eq_ok hcurrent' hrows'
    rw [hrows', Except.ok.injEq]
    rw [row_rearranged hc hp hcurrent hprevious, hc.value hcurrent] at hmade'
    refine (sorted_eq_of_perm ?_ (perm_of_map_ok (hmade ▸ hmade' ▸ hc.shownNames.symm.map _))).symm
    rw [hnames]
    exact hcurrent.filter _

end

/-! ### Main results -/

theorem mem_shownNames : name ∈ current.shownNames ↔ name ∈ current.layer.keys ∧ ¬ "__".codes <+: name := by
  rw [shownNames, mem_filter, isShown, Bool.not_eq_true', ← Bool.not_eq_true, isPrefixOf_iff_prefix]

/-- The panel breaks down exactly when a shown value, now or before, leads to an integer out of range. Otherwise there is
one row for each name that is shown, in strict order, and it has not changed just when the same of it can be written. The
order in which names were bound makes no difference. -/
theorem rows_faithful_unless_out_of_range (current previous : Variables) (hcurrent : current.layer.keys.Nodup)
    (hprevious : previous.layer.keys.Nodup) :
    (∀ why, current.rows previous = .error why ↔ why = .integerTooLarge ∧
      ∃ name, (name ∈ current.layer.keys ∧ ¬ "__".codes <+: name) ∧
        ((current.datum name).Overflows true ∨ (previous.datum name).Overflows true)) ∧
    (∀ rows, current.rows previous = .ok rows →
      (∀ name, name ∈ rows.map VariableRow.name ↔ name ∈ current.layer.keys ∧ ¬ "__".codes <+: name) ∧
      (rows.map VariableRow.name).Pairwise Precedes ∧
      ∀ r ∈ rows, current.row previous r.name (current.value r.name) = .ok r ∧
        ((current.datum r.name).Portable → (previous.datum r.name).Portable →
          (r.changed = false ↔ (current.datum r.name).kept = (previous.datum r.name).kept))) ∧
    ∀ current' previous' : Variables, current.Rearranged current' → previous.Rearranged previous' →
      current'.rows previous' = current.rows previous := by
  refine ⟨?_, ?_, fun current' previous' hc hp => rows_rearranged hc hp hcurrent hprevious⟩
  · intro why
    simpa only [mem_shownNames] using breaksIff_rows previous hcurrent why
  · intro rows hrows
    obtain ⟨made, rfl, hnames, hmade⟩ := rows_eq_ok hcurrent hrows
    have hperm := perm_sorted made
    refine ⟨fun name => ?_, ?_, fun r hr => ?_⟩
    · rw [(hperm.map _).mem_iff, hnames, mem_shownNames]
    · refine pairwise_map.2 (pairwise_sorted ?_)
      rw [hnames]
      exact hcurrent.filter _
    · obtain ⟨name, -, hrow⟩ := mem_map.1 (hmade ▸ mem_map_of_mem (hperm.mem_iff.1 hr))
      obtain ⟨rfl, hchanged⟩ := row_eq_ok hrow
      exact ⟨hrow, fun hd he => hchanged.trans (hd.stringify_eq_iff he)⟩

/-- A text that looks like an array is told from the array. -/
theorem rows_tell_text_from_array :
    ∃ (current previous : Variables) (rows : List VariableRow),
      current.datum "x".codes = .text "[1]".codes ∧ previous.datum "x".codes = .array [.num (.int 1)] ∧
      current.rows previous = .ok rows ∧ ∃ r ∈ rows, r.name = "x".codes ∧ r.changed = true := by
  let heap : Heap := (Heap.empty.allocArray (.ofList [.int 1])).2
  let current : Variables := ⟨.ofList [("x".codes, ⟨.text "[1]".codes.packed, false⟩)], heap⟩
  let previous : Variables := ⟨.ofList [("x".codes, ⟨.ref 0, false⟩)], heap⟩
  have hx : current.datum "x".codes = .text "[1]".codes := congrArg Datum.text (Text.toList_packed _)
  have hx' : previous.datum "x".codes = .array [.num (.int 1)] := rfl
  obtain ⟨hbreaks, hrows, -⟩ := rows_faithful_unless_out_of_range current previous (by decide) (by decide)
  have hok : ∃ rows, current.rows previous = .ok rows := by
    cases h : current.rows previous with
    | ok rows => exact ⟨rows, rfl⟩
    | error why =>
      obtain ⟨-, name, ⟨hname, -⟩, hover⟩ := (hbreaks why).1 h
      obtain rfl : name = "x".codes := mem_singleton.1 hname
      rw [hx, hx', Datum.overflows_array] at hover
      rcases hover with hover | ⟨d, hd, hover⟩
      · cases hover
      · obtain rfl := mem_singleton.1 hd
        exact absurd (Datum.overflows_num.1 hover) (by rw [Num.Overflows]; decide +kernel)
  obtain ⟨rows, hok⟩ := hok
  obtain ⟨hnames, -, heach⟩ := hrows rows hok
  obtain ⟨r, hr, hname⟩ := mem_map.1 ((hnames "x".codes).2 (by decide))
  refine ⟨current, previous, rows, hx, hx', hok, r, hr, hname, ?_⟩
  have hchanged := (heach r hr).2
  rw [hname, hx, hx'] at hchanged
  have hportable : (Datum.array [.num (.int 1)]).Portable := .array (by simpa using .int (by decide))
  refine Bool.eq_true_of_not_eq_false fun hfalse => ?_
  cases (hchanged (.text _) hportable).1 hfalse

/-- A variable with a large integer has no row, although it could be shown as infinity. -/
theorem rows_break_down_on_large_integer :
    (Variables.mk (.ofList [("x".codes, ⟨.num (.int (pow10 309)), false⟩)]) .empty).rows .none =
      .error .integerTooLarge := by
  have hover : (Num.int (pow10 309)).Overflows := by
    rw [Num.Overflows]
    decide +kernel
  refine (breaksIff_rows .none (by decide) _).2 ⟨rfl, "x".codes, by decide, .inl ?_⟩
  exact .num hover

end Variables

end Stepwise
