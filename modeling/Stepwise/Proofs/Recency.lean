import Mathlib.Data.List.Dedup
import Mathlib.Data.List.Induction
import Mathlib.Data.List.Perm.Subperm
import Stepwise.Proofs.Requests

/-!
# Least recently used

The log of a run says what came of each request, the latest first. It tells when a session was used last, and which
other sessions have been used since. The registry stands in the order of the last uses, and a session that is missing
although it has not been removed has given way to as many others as there is room for (`Service.Recent`). Both facts are
kept by every request.
-/

namespace Stepwise

open List

/-- The session that is used. -/
def Effect.used? : Effect → Option Text
  | .use id => some id
  | .nothing | .removal _ => none

/-- What has come of the requests of a run, the latest first. The time of a request is the number of those before it. -/
abbrev Log := List Effect

namespace Log

variable {a b : Text} {e : Effect} {log : Log} {s : Nat}

/-- The time of the last use of a session. -/
def lastUse (id : Text) : Log → Option Nat
  | [] => none
  | e :: earlier => if e = .use id then some earlier.length else lastUse id earlier

/-- The sessions, each of them once, that have been used since the last use of the given one. -/
def usedSince (id : Text) (log : Log) : List Text := ((log.takeWhile (· != .use id)).filterMap Effect.used?).dedup

theorem lastUse_use_self (a : Text) (log : Log) : lastUse a (.use a :: log) = some log.length := if_pos rfl

theorem lastUse_cons_of_ne (h : e ≠ .use a) (log : Log) : lastUse a (e :: log) = lastUse a log := if_neg h

theorem lastUse_lt_length (h : lastUse a log = some s) : s < log.length := by
  induction log with
  | nil => cases h
  | cons e log ih =>
    rw [lastUse] at h
    split at h
    case isTrue =>
      cases h
      exact Nat.lt_succ_self _
    case isFalse => exact Nat.lt_succ_of_lt (ih h)

theorem mem_usedSince_cons (h : e ≠ .use a) : b ∈ usedSince a (e :: log) ↔ e = .use b ∨ b ∈ usedSince a log := by
  have hgoes : (e != .use a) = true := bne_iff_ne.mpr h
  simp only [usedSince, mem_dedup, takeWhile_cons, hgoes, if_true]
  cases e with
  | use id => simp [Effect.used?, eq_comm]
  | nothing => simp [Effect.used?]
  | removal id => simp [Effect.used?]

theorem length_usedSince_le_cons (h : e ≠ .use a) (log : Log) :
    (usedSince a log).length ≤ (usedSince a (e :: log)).length := by
  have hsubset : usedSince a log ⊆ usedSince a (e :: log) := fun b hb => (mem_usedSince_cons h).mpr (.inr hb)
  exact (subperm_of_subset (nodup_dedup _) hsubset).length_le

theorem lastUse_of_mem_usedSince (ha : lastUse a log = some s) (hb : b ∈ usedSince a log) :
    ∃ t, lastUse b log = some t ∧ s < t := by
  induction log with
  | nil => cases ha
  | cons e log ih =>
    by_cases hself : e = .use a
    · simp [usedSince, hself] at hb
    · rw [lastUse_cons_of_ne hself] at ha
      by_cases hother : e = .use b
      · exact ⟨log.length, if_pos hother, lastUse_lt_length ha⟩
      · rw [lastUse_cons_of_ne hother]
        exact ih ha (((mem_usedSince_cons hself).mp hb).resolve_left hother)

end Log

namespace Service

open Registry Log

/-- What has come of the requests of a run. -/
def log (r : Registry) (requests : List Request) : Log := ((steps r requests).map Step.effect).reverse

variable {r r' : Registry} {q : Request} {history : Log} {a id : Text} {n : Nat}

/-- The registry stands in the order of the last uses, and what is missing was removed or has given way to as many
others as there is room for. -/
structure Recent (r : Registry) (history : Log) : Prop where
  sound : r.Sound
  used : ∀ a ∈ r.ids, (lastUse a history).isSome
  ordered : r.ids.Pairwise fun a b => b ∈ usedSince a history
  kept : ∀ a, .use a ∈ history → .removal a ∉ history → a ∈ r.ids ∨ r.capacity ≤ (usedSince a history).length

namespace Recent

theorem pass (h : Recent r history) {e : Effect} (he : e.used? = none) : Recent r (e :: history) := by
  have hne (a : Text) : e ≠ .use a := by
    rintro rfl
    cases he
  refine ⟨h.sound, fun a ha => ?_, h.ordered.imp fun hb => (mem_usedSince_cons (hne _)).mpr (.inr hb),
    fun a ha hremoval => ?_⟩
  · rw [lastUse_cons_of_ne (hne a)]
    exact h.used a ha
  · have hused : .use a ∈ history := (mem_cons.mp ha).resolve_left fun hsame => hne a hsame.symm
    obtain hid | hmany := h.kept a hused fun hmem => hremoval (mem_cons_of_mem _ hmem)
    · exact .inl hid
    · exact .inr (Nat.le_trans hmany (length_usedSince_le_cons (hne a) history))

theorem drop (h : Recent r history) (id : Text) : Recent (r.drop id) (.removal id :: history) := by
  have hpass : Recent r (.removal id :: history) := h.pass rfl
  refine ⟨h.sound.drop id, fun a ha => ?_, ?_, fun a ha hremoval => ?_⟩
  · rw [ids_drop] at ha
    exact hpass.used a (mem_of_mem_filter ha)
  · rw [ids_drop]
    exact hpass.ordered.filter _
  · have hother : a ≠ id := by
      rintro rfl
      exact hremoval mem_cons_self
    rw [ids_drop, mem_filter]
    exact (hpass.kept a ha hremoval).imp_left fun hid => ⟨hid, bne_iff_ne.mpr hother⟩

theorem ordered_use (h : Recent r history) (id : Text) :
    (r.ids.filter (· != id) ++ [id]).Pairwise fun a b => b ∈ usedSince a (.use id :: history) := by
  have hne {a : Text} (ha : a ∈ r.ids.filter (· != id)) : Effect.use id ≠ .use a := fun hsame =>
    bne_iff_ne.mp (mem_filter.mp ha).2 (Effect.use.inj hsame).symm
  rw [pairwise_append]
  refine ⟨?_, pairwise_singleton _ _, fun a ha b hb => ?_⟩
  · exact (h.ordered.filter _).imp_of_mem fun ha _ hb => (mem_usedSince_cons (hne ha)).mpr (.inr hb)
  · rw [mem_singleton.mp hb]
    exact (mem_usedSince_cons (hne ha)).mpr (.inl rfl)

/-- Who has to give way when a session is used has given way to all that are left. -/
theorem length_le_usedSince (h : Recent r history) (hsound : r'.Sound)
    (hids : r'.ids = (r.ids.filter (· != id) ++ [id]).drop n) (ha : a ∈ r.ids ∨ a = id) (hgone : a ∉ r'.ids) :
    n ≠ 0 ∧ r'.ids.length ≤ (usedSince a (.use id :: history)).length := by
  have hall : a ∈ r.ids.filter (· != id) ++ [id] := by
    by_cases hsame : a = id
    · simp [hsame]
    · simpa [hsame] using ha
  have hordered := h.ordered_use id
  rw [← take_append_drop n (r.ids.filter (· != id) ++ [id]), pairwise_append] at hordered
  rw [← take_append_drop n (r.ids.filter (· != id) ++ [id]), ← hids, mem_append] at hall
  have htaken : a ∈ (r.ids.filter (· != id) ++ [id]).take n := hall.resolve_right hgone
  refine ⟨fun hzero => by simp [hzero] at htaken, ?_⟩
  refine (subperm_of_subset hsound.distinct fun b hb => ?_).length_le
  exact hordered.2.2 a htaken b (hids ▸ hb)

theorem use (h : Recent r history) (hsound : r'.Sound) (hcapacity : r'.capacity = r.capacity)
    (hids : r'.ids = (r.ids.filter (· != id) ++ [id]).drop n) (hfull : n ≠ 0 → r'.capacity ≤ r'.ids.length) :
    Recent r' (.use id :: history) := by
  refine ⟨hsound, fun a ha => ?_, ?_, fun a ha hremoval => ?_⟩
  · by_cases hsame : a = id
    · rw [hsame, lastUse_use_self]
      rfl
    · have hid : a ∈ r.ids := by
        rw [hids] at ha
        simpa [hsame] using mem_of_mem_drop ha
      rw [lastUse_cons_of_ne fun hself => hsame (Effect.use.inj hself).symm]
      exact h.used a hid
  · rw [hids]
    exact (h.ordered_use id).sublist (drop_sublist _ _)
  · by_cases hhere : a ∈ r'.ids
    · exact .inl hhere
    · right
      by_cases hthere : a ∈ r.ids ∨ a = id
      · obtain ⟨hdropped, hmany⟩ := h.length_le_usedSince hsound hids hthere hhere
        exact Nat.le_trans (hfull hdropped) hmany
      · rw [not_or] at hthere
        have hne : Effect.use id ≠ .use a := fun hself => hthere.2 (Effect.use.inj hself).symm
        have hused : .use a ∈ history := (mem_cons.mp ha).resolve_left hne.symm
        have hmany := (h.kept a hused fun hmem => hremoval (mem_cons_of_mem _ hmem)).resolve_left hthere.1
        rw [hcapacity]
        exact Nat.le_trans hmany (length_usedSince_le_cons hne history)

/-- A new session is used for the first time; there is room for it or the registry is full afterwards. -/
theorem ids_add_eq (h : Recent r history) (hfresh : Fresh (r.serial + 1)) (s : Session) :
    (r.add s).2.ids = (r.ids.filter (· != idOf r.serial) ++ [idOf r.serial]).drop (r.ids.length + 1 - r.capacity) ∧
      (r.ids.length + 1 - r.capacity ≠ 0 → (r.add s).2.capacity ≤ (r.add s).2.ids.length) := by
  have hnew := h.sound.new hfresh
  have hsame : r.ids.filter (· != idOf r.serial) = r.ids :=
    filter_eq_self.mpr fun id hid => bne_iff_ne.mpr fun heq => hnew (heq ▸ hid)
  rw [hsame, ids_add hnew, capacity_add]
  refine ⟨rfl, fun hfull => ?_⟩
  rw [length_drop, length_append, length_singleton]
  omega

theorem handle (h : Recent r history) (hfresh : Fresh (handle r q).2.serial) :
    Recent (handle r q).2 (effect r q :: history) := by
  obtain ⟨heffect, hr⟩ | ⟨id, s, -, hid, heffect, hr⟩ | ⟨s, -, heffect, hr⟩ | ⟨id, -, -, heffect, hr⟩ := handle_cases r q
  · rw [hr, heffect]
    exact h.pass rfl
  · rw [hr, heffect]
    exact h.use (n := 0) (h.sound.place hid s) rfl (ids_place r id s) fun hzero => absurd rfl hzero
  · rw [hr] at hfresh
    obtain ⟨hids, hfull⟩ := h.ids_add_eq hfresh s
    rw [hr, heffect]
    exact h.use (h.sound.add hfresh s) rfl hids hfull
  · rw [hr, heffect]
    exact h.drop id

theorem times (h : Recent r history) :
    ∃ times : List Nat, r.ids.map (lastUse · history) = times.map some ∧ times.Pairwise (· < ·) := by
  have hsome (a : Text) (ha : a ∈ r.ids) : lastUse a history = some ((lastUse a history).getD 0) := by
    obtain ⟨s, hs⟩ := Option.isSome_iff_exists.mp (h.used a ha)
    rw [hs]
    rfl
  refine ⟨r.ids.map fun a => (lastUse a history).getD 0, ?_, ?_⟩
  · rw [map_map]
    exact map_congr_left hsome
  · rw [pairwise_map]
    refine h.ordered.imp_of_mem fun {a b} ha hb hlater => ?_
    obtain ⟨t, ht, hlt⟩ := lastUse_of_mem_usedSince (hsome a ha) hlater
    rw [ht]
    exact hlt

end Recent

/-- A body that asks for a session. -/
def sample : Json := .obj [("code", .str "let a = 1")]

end Service

end Stepwise
