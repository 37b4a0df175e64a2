import Stepwise.Proofs.Requests

/-!
# Sessions apart

What a request makes of the session that it is addressed to depends on that session alone, and no other request touches
it unless it has to give way to a new one. So a run of the service, looked at from one session, goes like the run that
consists of its own requests only (`Service.Alone`).
-/

namespace Stepwise

namespace Service

open Registry List

variable {r r' p : Registry} {q : Request} {id : Text} {s : Session} {k n : Nat}
  {requests : List Request}

namespace Step

/-- The request is addressed to the session or creates it. -/
def concerns (id : Text) (t : Step) : Bool := t.request.target? == some id || t.effect == .use id

/-- The session is there or is created, and is gone afterwards although the request does not remove it. -/
def Evicts (id : Text) (t : Step) : Prop :=
  (id ∈ t.before.ids ∨ t.effect = .use id) ∧ id ∉ t.after.ids ∧ t.effect ≠ .removal id

instance (id : Text) (t : Step) : Decidable (t.Evicts id) := inferInstanceAs (Decidable (_ ∧ _ ∧ _))

end Step

theorem find?_handle_of_not_concerned (h : r.Sound) (hfresh : Fresh (handle r q).2.serial)
    (hother : Step.concerns id ⟨r, q⟩ = false) (hkept : ¬ Step.Evicts id ⟨r, q⟩) :
    (handle r q).2.find? id = r.find? id := by
  rw [Step.concerns, Bool.or_eq_false_iff, beq_eq_false_iff_ne, beq_eq_false_iff_ne] at hother
  obtain ⟨htarget, huse⟩ := hother
  rw [Step.effect] at huse
  obtain ⟨-, hr⟩ | ⟨id', s, -, -, heffect, hr⟩ | ⟨s, -, heffect, hr⟩ | ⟨id', rfl, -, -, hr⟩ := handle_cases r q
  · rw [hr]
  · rw [hr, find?_place_of_ne r (fun hsame => huse (by rw [heffect, hsame]))]
  · rw [hr] at hfresh ⊢
    have hnew : id ≠ idOf r.serial := fun hsame => huse (by rw [heffect, hsame])
    by_cases hthere : id ∈ r.ids
    · have hstays : id ∈ (r.add s).2.ids := by
        by_contra hgone
        exact hkept ⟨.inl hthere, by rwa [Step.after, hr], by simp [Step.effect, heffect]⟩
      rw [find?_add (h.nodup_concat hfresh) s hstays, if_neg hnew]
    · have hgone : id ∉ (r.add s).2.ids := by
        intro hmem
        rw [ids_add (h.new hfresh)] at hmem
        obtain hmem | hmem := mem_append.mp (mem_of_mem_drop hmem)
        · exact hthere hmem
        · exact hnew (mem_singleton.mp hmem)
      rw [find?_eq_none_iff.mpr hthere, find?_eq_none_iff.mpr hgone]
  · rw [hr, find?_drop_of_ne r fun hsame => htarget (by rw [hsame]; rfl)]

/-- The registry `p` of a run with the requests of one session only, beside the registry `r` of the whole run: the
session is the same in both, and as long as it is not created, the run of its own has nothing but its id in store. -/
structure Alone (k : Nat) (r p : Registry) : Prop where
  sound : r.Sound
  capacity : p.capacity = r.capacity
  same : p.find? (idOf k) = r.find? (idOf k)
  waiting : r.serial ≤ k → p.entries = [] ∧ p.serial = k

namespace Alone

theorem other (h : Alone k r p) (hfresh : Fresh (handle r q).2.serial)
    (hother : Step.concerns (idOf k) ⟨r, q⟩ = false) (hkept : ¬ Step.Evicts (idOf k) ⟨r, q⟩) :
    Alone k (handle r q).2 p := by
  refine ⟨h.sound.handle hfresh, ?_, ?_, fun hwaiting => h.waiting (Nat.le_trans (serial_le_handle r q) hwaiting)⟩
  · rw [capacity_handle, h.capacity]
  · rw [find?_handle_of_not_concerned h.sound hfresh hother hkept, h.same]

end Alone

end Service

end Stepwise
