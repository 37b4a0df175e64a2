import Mathlib.Data.List.Nodup
import Mathlib.Data.List.Basic
import Stepwise.Proofs.Computation
import Stepwise.Service.Basic

/-!
# What requests do to the registry

A request asks for nothing of the registry, looks a session up, creates one or removes one (`Request.demand`), and what
comes of it is a use of a session, a removal or nothing (`Service.effect`). `Service.handle_cases` says for each of these
what the registry is afterwards. A run of the service is the list of its steps.
-/

namespace Stepwise

open List

namespace Registry

variable {r r' : Registry} {id id' : Text} {s : Session}

/-- The ids of the sessions, least recently used first. -/
def ids (r : Registry) : List Text := r.entries.map Prod.fst

/-- The first ids that are given out are all different. -/
def Fresh (n : Nat) : Prop := ∀ i < n, ∀ j < n, idOf i = idOf j → i = j

theorem Fresh.of_le {n m : Nat} (h : Fresh n) (hle : m ≤ n) : Fresh m :=
  fun i hi j hj => h i (Nat.lt_of_lt_of_le hi hle) j (Nat.lt_of_lt_of_le hj hle)

theorem find?_isSome_iff : (r.find? id).isSome ↔ id ∈ r.ids := by
  simp [find?, ids, lookup_isSome_iff]

theorem find?_eq_none_iff : r.find? id = none ↔ id ∉ r.ids := by
  rw [← find?_isSome_iff, Option.not_isSome_iff_eq_none]

@[simp] theorem ids_drop (r : Registry) (id : Text) : (r.drop id).ids = r.ids.filter (· != id) := by
  simp only [ids, drop, filter_map]
  rfl

@[simp] theorem ids_place (r : Registry) (id : Text) (s : Session) : (r.place id s).ids = r.ids.filter (· != id) ++ [id] := by
  rw [← ids_drop]
  simp [ids, place]

@[simp] theorem ids_shrink (r : Registry) : r.shrink.ids = r.ids.drop (r.ids.length - r.capacity) := by
  simp [ids, shrink]

@[simp] theorem capacity_drop (r : Registry) (id : Text) : (r.drop id).capacity = r.capacity := rfl

@[simp] theorem capacity_place (r : Registry) (id : Text) (s : Session) : (r.place id s).capacity = r.capacity := rfl

@[simp] theorem capacity_add (r : Registry) (s : Session) : (r.add s).2.capacity = r.capacity := rfl

@[simp] theorem serial_drop (r : Registry) (id : Text) : (r.drop id).serial = r.serial := rfl

@[simp] theorem serial_place (r : Registry) (id : Text) (s : Session) : (r.place id s).serial = r.serial := rfl

@[simp] theorem serial_add (r : Registry) (s : Session) : (r.add s).2.serial = r.serial + 1 := rfl

theorem ids_place_of_new (h : id ∉ r.ids) (s : Session) : (r.place id s).ids = r.ids ++ [id] := by
  rw [ids_place, filter_eq_self.mpr]
  intro id' hid'
  exact bne_iff_ne.mpr fun hsame => h (hsame ▸ hid')

theorem ids_add (h : idOf r.serial ∉ r.ids) (s : Session) :
    (r.add s).2.ids = (r.ids ++ [idOf r.serial]).drop (r.ids.length + 1 - r.capacity) := by
  have hplaced : ids { r.place (idOf r.serial) s with serial := r.serial + 1 } = r.ids ++ [idOf r.serial] :=
    ids_place_of_new h s
  change (shrink { r.place (idOf r.serial) s with serial := r.serial + 1 }).ids = _
  rw [ids_shrink, hplaced, length_append]
  rfl

theorem find?_drop_self (r : Registry) (id : Text) : (r.drop id).find? id = none := by
  rw [find?_eq_none_iff, ids_drop]
  simp

theorem find?_drop_of_ne (r : Registry) (h : id ≠ id') : (r.drop id').find? id = r.find? id := by
  simp only [find?, drop]
  induction r.entries with
  | nil => rfl
  | cons e entries ih =>
    by_cases he : e.1 = id'
    · have hother : (id == e.1) = false := beq_false_of_ne (he ▸ h)
      rw [filter_cons_of_neg (by simp [he]), ih, lookup_cons, hother]
    · rw [filter_cons_of_pos (by simpa using he), lookup_cons, lookup_cons, ih]

theorem find?_place_self (r : Registry) (id : Text) (s : Session) : (r.place id s).find? id = some s := by
  have hnone : (r.drop id).entries.lookup id = none := r.find?_drop_self id
  simp only [find?, place]
  rw [lookup_append, hnone, lookup_cons]
  simp

theorem find?_place_of_ne (r : Registry) (h : id ≠ id') (s : Session) : (r.place id' s).find? id = r.find? id := by
  have hdrop : (r.drop id').entries.lookup id = r.find? id := r.find?_drop_of_ne h
  have hother : (id == id') = false := beq_false_of_ne h
  simp only [find?, place]
  rw [lookup_append, hdrop, lookup_cons, hother]
  simp [find?]

theorem find?_shrink (hdistinct : r.ids.Nodup) (h : id ∈ r.shrink.ids) : r.shrink.find? id = r.find? id := by
  have hsplit := take_append_drop (r.entries.length - r.capacity) r.entries
  have hnone : (r.entries.take (r.entries.length - r.capacity)).lookup id = none := by
    rw [lookup_eq_none_iff]
    intro e he
    refine bne_iff_ne.mpr fun hsame => ?_
    rw [ids, ← hsplit, map_append] at hdistinct
    exact (nodup_append.mp hdistinct).2.2 e.1 (mem_map_of_mem he) id h hsame.symm
  calc r.shrink.find? id
    _ = (r.entries.drop (r.entries.length - r.capacity)).lookup id := rfl
    _ = r.entries.lookup id := by
        conv_rhs => rw [← hsplit, lookup_append, hnone]
        rfl

theorem find?_add (hdistinct : (r.ids ++ [idOf r.serial]).Nodup) (s : Session) (h : id ∈ (r.add s).2.ids) :
    (r.add s).2.find? id = if id = idOf r.serial then some s else r.find? id := by
  have hnew : idOf r.serial ∉ r.ids := fun hmem =>
    (nodup_append.mp hdistinct).2.2 _ hmem _ (mem_singleton_self _) rfl
  have hplaced : (r.place (idOf r.serial) s).ids.Nodup := by
    rw [ids_place_of_new hnew]
    exact hdistinct
  have hshrink := find?_shrink (r := { r.place (idOf r.serial) s with serial := r.serial + 1 }) hplaced h
  calc (r.add s).2.find? id
    _ = (r.place (idOf r.serial) s).find? id := hshrink
    _ = if id = idOf r.serial then some s else r.find? id := by
        split
        case isTrue hsame => rw [hsame, find?_place_self]
        case isFalse hother => rw [find?_place_of_ne r hother]

end Registry

/-! ### Demands and effects -/

/-- What a request asks of the registry. -/
inductive Demand
  | nothing
  | lookup (id : Text)
  | creation (s : Session)
  | removal (id : Text)

/-- What comes of a request. -/
inductive Effect
  | nothing
  | use (id : Text)
  | removal (id : Text)
  deriving DecidableEq

/-- The session that a body asks for, if there can be one. -/
def Service.requested? (body : Json) : Option Session :=
  (RunRequest.ofBody body).toOption.bind fun request => (newSession request).toOption

namespace Request

/-- The session that a request is addressed to. -/
def target? : Request → Option Text
  | .get id | .step id | .stepBack id | .runToEnd id | .reset id | .replaceCode id _ | .delete id => some id
  | .run _ | .create _ | .list => none

/-- What the request asks of the registry. A body is checked before anything is asked. -/
def demand : Request → Demand
  | .run _ | .list => .nothing
  | .create body => (Service.requested? body).elim .nothing .creation
  | .get id | .step id | .stepBack id | .runToEnd id | .reset id => .lookup id
  | .replaceCode id body => if (RunRequest.codeOfBody body).isOk then .lookup id else .nothing
  | .delete id => .removal id

end Request

namespace Service

open Registry

variable {α : Type} {r r' : Registry} {q : Request} {id : Text} {s : Session} {body : Json}

instance : LawfulBEq Text := inferInstanceAs (LawfulBEq (List CodePoint))

/-- What comes of a request: it uses the session that it creates or finds, or removes the one that it finds. -/
def effect (r : Registry) (q : Request) : Effect :=
  match q.demand with
  | .nothing => .nothing
  | .lookup id => if id ∈ r.ids then .use id else .nothing
  | .creation _ => .use (idOf r.serial)
  | .removal id => if id ∈ r.ids then .removal id else .nothing

/-- The response to a command that ended in the given way. -/
def reply : Except Breakdown α × Session → Response
  | (.ok _, s) => .ok (stateBody s.published)
  | (.error b, _) => .broken b

theorem command_of_none (c : Command α) (h : r.find? id = none) : command r id c = (.unknownSession id, r) := by
  rw [command, h]

theorem command_of_some (c : Command α) (h : r.find? id = some s) :
    command r id c = (reply (s.run c), r.place id (s.run c).2) := by
  rw [command, h]
  dsimp only
  rcases s.run c with ⟨result, s'⟩
  cases result with
  | ok a => rfl
  | error b => rfl

/-- The response to the creation of a session that is then found or not. -/
def welcome (id : Text) : Option Session → Response
  | some s => .ok (.obj [("session_id", .text id), ("state", stateBody s.published)])
  | none => .unknownSession id

theorem create_of_ok {request : RunRequest} (h : newSession request = .ok s) (r : Registry) :
    create r request = (welcome (idOf r.serial) ((r.add s).2.find? (idOf r.serial)), (r.add s).2) := by
  have hid : (r.add s).1 = idOf r.serial := rfl
  unfold create
  rw [h, ← hid]
  dsimp only
  cases (r.add s).2.find? (r.add s).1 with
  | none => rfl
  | some s' => rfl

theorem registry_create_of_none (h : requested? body = none) (r : Registry) : (handle r (.create body)).2 = r := by
  rw [handle]
  cases hbody : RunRequest.ofBody body with
  | error errors => rfl
  | ok request =>
    cases hnew : newSession request with
    | error b =>
      dsimp only
      unfold create
      rw [hnew]
    | ok s => simp [requested?, hbody, hnew, Except.toOption] at h

theorem handle_create_of_some (h : requested? body = some s) (r : Registry) :
    handle r (.create body) = (welcome (idOf r.serial) ((r.add s).2.find? (idOf r.serial)), (r.add s).2) := by
  obtain ⟨request, hbody, hnew⟩ := Option.bind_eq_some_iff.mp h
  rw [handle, eq_ok_of_toOption hbody]
  exact create_of_ok (eq_ok_of_toOption hnew) r

/-- What is done for each demand. A request to a session that asks for nothing gets the same response always. -/
inductive Serves (q : Request) : Demand → Prop
  | nothing (stays : ∀ r, (handle r q).2 = r) (same : q.target?.isSome → ∀ r r', (handle r q).1 = (handle r' q).1) :
      Serves q .nothing
  | lookup {id : Text} {α : Type} (c : Command α) (target : q.target? = some id) (handles : ∀ r, handle r q = command r id c) :
      Serves q (.lookup id)
  | creation {s : Session} (target : q.target? = none)
      (handles : ∀ r, handle r q = (welcome (idOf r.serial) ((r.add s).2.find? (idOf r.serial)), (r.add s).2)) :
      Serves q (.creation s)
  | removal {id : Text} (deletes : q = .delete id) : Serves q (.removal id)

theorem serves (q : Request) : Serves q q.demand := by
  cases q with
  | run body =>
    refine .nothing (fun r => ?_) nofun
    rw [handle]
    cases RunRequest.ofBody body with
    | error errors => rfl
    | ok request =>
      dsimp only
      cases runOnce request <;> rfl
  | create body =>
    rw [Request.demand]
    cases hnew : requested? body with
    | none => exact .nothing (registry_create_of_none hnew) nofun
    | some s => exact .creation rfl (handle_create_of_some hnew)
  | list => exact .nothing (fun _ => rfl) nofun
  | get => exact .lookup (pure ()) rfl fun _ => rfl
  | step => exact .lookup Session.step rfl fun _ => rfl
  | stepBack => exact .lookup Session.stepBack rfl fun _ => rfl
  | runToEnd => exact .lookup Session.runToEnd rfl fun _ => rfl
  | reset => exact .lookup Session.reset rfl fun _ => rfl
  | replaceCode id body =>
    rw [Request.demand]
    cases hbody : RunRequest.codeOfBody body with
    | error errors => exact .nothing (fun r => by rw [handle, hbody]) fun _ r r' => by rw [handle, handle, hbody]
    | ok code => exact .lookup (Session.load code) rfl fun r => by rw [handle, hbody]
  | delete => exact .removal rfl

theorem handle_delete_of_none (h : r.find? id = none) : handle r (.delete id) = (.unknownSession id, r) := by
  rw [handle, h]

theorem handle_delete_of_some (h : r.find? id = some s) :
    handle r (.delete id) = (.ok (.obj [("deleted", .text id)]), r.drop id) := by
  rw [handle, h]

/-- What a request can do: nothing, use a session that is there, create one, or remove one that is there. -/
theorem handle_cases (r : Registry) (q : Request) :
    (effect r q = .nothing ∧ (handle r q).2 = r) ∨
    (∃ id s, q.target? = some id ∧ id ∈ r.ids ∧ effect r q = .use id ∧ (handle r q).2 = r.place id s) ∨
    (∃ s, q.demand = .creation s ∧ effect r q = .use (idOf r.serial) ∧ (handle r q).2 = (r.add s).2) ∨
    ∃ id, q = .delete id ∧ id ∈ r.ids ∧ effect r q = .removal id ∧ (handle r q).2 = r.drop id := by
  have hserves := serves q
  rw [effect]
  generalize q.demand = demand at hserves
  cases hserves with
  | nothing stays _ => exact .inl ⟨rfl, stays r⟩
  | @lookup id α c target handles =>
    rw [handles]
    cases hfound : r.find? id with
    | none => exact .inl ⟨if_neg (find?_eq_none_iff.mp hfound), by rw [command_of_none c hfound]⟩
    | some s =>
      have hid : id ∈ r.ids := find?_isSome_iff.mp (by rw [hfound]; rfl)
      exact .inr (.inl ⟨id, (s.run c).2, target, hid, if_pos hid, by rw [command_of_some c hfound]⟩)
  | creation _ handles => exact .inr (.inr (.inl ⟨_, rfl, rfl, by rw [handles]⟩))
  | @removal id deletes =>
    rw [deletes]
    cases hfound : r.find? id with
    | none => exact .inl ⟨if_neg (find?_eq_none_iff.mp hfound), by rw [handle_delete_of_none hfound]⟩
    | some s =>
      have hid : id ∈ r.ids := find?_isSome_iff.mp (by rw [hfound]; rfl)
      exact .inr (.inr (.inr ⟨id, rfl, hid, if_pos hid, by rw [handle_delete_of_some hfound]⟩))

theorem capacity_handle (r : Registry) (q : Request) : (handle r q).2.capacity = r.capacity := by
  obtain ⟨-, hr⟩ | ⟨id, s, -, -, -, hr⟩ | ⟨s, -, -, hr⟩ | ⟨id, -, -, -, hr⟩ := handle_cases r q
  · rw [hr]
  · rw [hr, capacity_place]
  · rw [hr, capacity_add]
  · rw [hr, capacity_drop]

theorem serial_handle (r : Registry) (q : Request) :
    (handle r q).2.serial = r.serial ∨ (∃ s, q.demand = .creation s) ∧ (handle r q).2.serial = r.serial + 1 := by
  obtain ⟨-, hr⟩ | ⟨id, s, -, -, -, hr⟩ | ⟨s, hdemand, -, hr⟩ | ⟨id, -, -, -, hr⟩ := handle_cases r q
  · exact .inl (by rw [hr])
  · exact .inl (by rw [hr, serial_place])
  · exact .inr ⟨⟨s, hdemand⟩, by rw [hr, serial_add]⟩
  · exact .inl (by rw [hr, serial_drop])

theorem serial_le_handle (r : Registry) (q : Request) : r.serial ≤ (handle r q).2.serial := by
  obtain h | ⟨-, h⟩ := serial_handle r q
  · exact Nat.le_of_eq h.symm
  · rw [h]
    exact Nat.le_succ _

/-- One request of a run, with the registry that it meets. -/
structure Step where
  before : Registry
  request : Request

namespace Step

/-- The registry after the request. -/
def after (t : Step) : Registry := (handle t.before t.request).2

/-- What comes of the request. -/
def effect (t : Step) : Effect := Service.effect t.before t.request

end Step

/-- The steps of a run that starts with the given registry. -/
def steps (r : Registry) : List Request → List Step
  | [] => []
  | q :: rest => ⟨r, q⟩ :: steps (handle r q).2 rest

/-- The registry at the end of a run. -/
def after (r : Registry) (requests : List Request) : Registry := requests.foldl (fun r q => (handle r q).2) r

variable {requests : List Request}

end Service

/-! ### Registries in order -/

namespace Registry

open Service

variable {r : Registry} {q : Request}

/-- The sessions have different ids that have been given out, and there are not too many. -/
structure Sound (r : Registry) : Prop where
  distinct : r.ids.Nodup
  few : r.ids.length ≤ r.capacity
  issued : ∀ id ∈ r.ids, ∃ i < r.serial, id = idOf i

theorem Sound.new (h : r.Sound) (hfresh : Fresh (r.serial + 1)) : idOf r.serial ∉ r.ids := by
  intro hmem
  obtain ⟨i, hi, hsame⟩ := h.issued _ hmem
  have heq := hfresh r.serial (Nat.lt_succ_self _) i (Nat.lt_succ_of_lt hi) hsame
  omega

theorem Sound.place {id : Text} (h : r.Sound) (hid : id ∈ r.ids) (s : Session) : (r.place id s).Sound where
  distinct := by
    rw [ids_place, nodup_append]
    refine ⟨h.distinct.filter _, nodup_singleton id, fun a ha b hb => ?_⟩
    rw [mem_singleton.mp hb]
    exact bne_iff_ne.mp (mem_filter.mp ha).2
  few := by
    have hless : (r.ids.filter (· != id)).length < r.ids.length :=
      length_filter_lt_length_iff_exists.mpr ⟨id, hid, by simp⟩
    rw [ids_place, length_append]
    exact Nat.le_trans hless h.few
  issued a ha := by
    rw [ids_place, mem_append, mem_singleton] at ha
    obtain ha | rfl := ha
    · exact h.issued a (mem_of_mem_filter ha)
    · exact h.issued a hid

theorem Sound.drop (h : r.Sound) (id : Text) : (r.drop id).Sound where
  distinct := by
    rw [ids_drop]
    exact h.distinct.filter _
  few := by
    rw [ids_drop]
    exact Nat.le_trans (length_filter_le _ _) h.few
  issued a ha := by
    rw [ids_drop] at ha
    exact h.issued a (mem_of_mem_filter ha)

theorem Sound.nodup_concat (h : r.Sound) (hfresh : Fresh (r.serial + 1)) : (r.ids ++ [idOf r.serial]).Nodup := by
  rw [nodup_append]
  refine ⟨h.distinct, nodup_singleton _, fun a ha b hb hsame => h.new hfresh ?_⟩
  rw [← mem_singleton.mp hb, ← hsame]
  exact ha

theorem Sound.add (h : r.Sound) (hfresh : Fresh (r.serial + 1)) (s : Session) : (r.add s).2.Sound where
  distinct := by
    rw [ids_add (h.new hfresh)]
    exact (h.nodup_concat hfresh).sublist (drop_sublist _ _)
  few := by
    rw [ids_add (h.new hfresh), length_drop, length_append, length_singleton, capacity_add]
    omega
  issued a ha := by
    rw [ids_add (h.new hfresh)] at ha
    obtain ha | ha := mem_append.mp (mem_of_mem_drop ha)
    · obtain ⟨i, hi, rfl⟩ := h.issued a ha
      exact ⟨i, Nat.lt_succ_of_lt hi, rfl⟩
    · exact ⟨r.serial, Nat.lt_succ_self _, mem_singleton.mp ha⟩

theorem Sound.handle (h : r.Sound) (hfresh : Fresh (handle r q).2.serial) : (handle r q).2.Sound := by
  obtain ⟨-, hr⟩ | ⟨id, s, -, hid, -, hr⟩ | ⟨s, -, -, hr⟩ | ⟨id, -, -, -, hr⟩ := handle_cases r q
  · rw [hr]
    exact h
  · rw [hr]
    exact h.place hid s
  · rw [hr] at hfresh ⊢
    exact h.add hfresh s
  · rw [hr]
    exact h.drop id

end Registry

end Stepwise
