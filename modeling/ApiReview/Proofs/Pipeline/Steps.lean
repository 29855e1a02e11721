import ApiReview.Pipeline.Session

/-!
# What steps of a run do

A step of a run leads along a relation if the session before it is related to the session after it,
whether the step came to a result or failed (`Along`). What is made of steps that lead along a
relation does so too, if the relation is reflexive and transitive (`Follows`). A step keeps a part
of the session if that is the same after it (`Keeps`).
-/

namespace ApiReview.Run

variable {σ κ α β ν : Type}

theorem bind_run (x : Run σ κ α) (f : α → Run σ κ β) (s : Session σ κ) :
    (x >>= f) s =
      match x s with
      | (.ok a, s') => f a s'
      | (.error e, s') => (.error e, s') := by
  simp only [bind, ExceptT.bind, ExceptT.mk, StateT.bind]
  rcases x s with ⟨_ | a, s'⟩ <;> rfl

theorem bind_run_ok {x : Run σ κ α} {s s' : Session σ κ} {a : α} (h : x s = (.ok a, s'))
    (f : α → Run σ κ β) : (x >>= f) s = f a s' := by
  rw [bind_run, h]

theorem bind_run_error {x : Run σ κ α} {s s' : Session σ κ} {e : RunError}
    (h : x s = (.error e, s')) (f : α → Run σ κ β) : (x >>= f) s = (.error e, s') := by
  rw [bind_run, h]

/-- A sequence of steps that comes to a result has come to one at its first step. -/
theorem bind_run_eq_ok {x : Run σ κ α} {f : α → Run σ κ β} {s s'' : Session σ κ} {b : β}
    (h : (x >>= f) s = (.ok b, s'')) : ∃ a s', x s = (.ok a, s') ∧ f a s' = (.ok b, s'') := by
  rcases hx : x s with ⟨e | a, s'⟩
  · rw [bind_run_error hx] at h
    cases h
  · rw [bind_run_ok hx] at h
    exact ⟨a, s', rfl, h⟩

theorem forM_append_run (as bs : List α) (f : α → Run σ κ PUnit) (s : Session σ κ) :
    (as ++ bs).forM f s = (as.forM f >>= fun _ => bs.forM f) s := by
  induction as generalizing s with
  | nil => rfl
  | cons a as ih =>
    rw [List.cons_append, List.forM, List.forM, bind_run, bind_run, bind_run]
    rcases f a s with ⟨e | u, s'⟩
    · rfl
    · exact (ih s').trans (bind_run _ _ _)

theorem get_bind (f : Session σ κ → Run σ κ α) (s : Session σ κ) : (get >>= f) s = f s s := by
  rw [bind_run]
  rfl

theorem collection_run (s : Session σ κ) :
    collection s =
      match s.collection with
      | some c => (.ok c, s)
      | none => (.error .collectionUnset, s) := by
  rw [collection, get_bind]
  cases s.collection <;> rfl

/-! ## Relations of sessions -/

/-- Whatever comes of a step, it leads along a relation of sessions. -/
def Along (R : Session σ κ → Session σ κ → Prop) (x : Run σ κ α) : Prop :=
  ∀ s, R s (x s).2

/-- Along the relation, one step can follow another. -/
structure Follows (R : Session σ κ → Session σ κ → Prop) : Prop where
  refl : ∀ s, R s s
  trans : ∀ {s s' s'' : Session σ κ}, R s s' → R s' s'' → R s s''

namespace Follows

variable {R : Session σ κ → Session σ κ → Prop} (hR : Follows R)

include hR

theorem along_pure (a : α) : Along R (pure a : Run σ κ α) := hR.refl

theorem along_throw (e : RunError) : Along R (throw e : Run σ κ α) := hR.refl

theorem along_get : Along R (get : Run σ κ (Session σ κ)) := hR.refl

theorem along_collection : Along R (collection : Run σ κ κ) := fun s => by
  rw [collection_run]
  cases s.collection with
  | some c => exact hR.refl s
  | none => exact hR.refl s

theorem along_bind {x : Run σ κ α} {f : α → Run σ κ β} (hx : Along R x)
    (hf : ∀ a, Along R (f a)) : Along R (x >>= f) := fun s => by
  have hs := hx s
  rcases hr : x s with ⟨e | a, s'⟩
  · rw [bind_run_error hr]
    rwa [hr] at hs
  · rw [bind_run_ok hr]
    rw [hr] at hs
    exact hR.trans hs (hf a s')

theorem along_forM {as : List α} {f : α → Run σ κ PUnit} (h : ∀ a ∈ as, Along R (f a)) :
    Along R (as.forM f) := by
  induction as with
  | nil => exact hR.along_pure _
  | cons a as ih =>
    rw [List.forM]
    exact hR.along_bind (h a List.mem_cons_self) fun _ =>
      ih fun b hb => h b (List.mem_cons_of_mem _ hb)

/-- A step that is only taken if it is wanted. -/
theorem along_wanted {c : Prop} [Decidable c] {x : Run σ κ Unit} (h : c → Along R x) :
    Along R (if c then x else pure ()) := by
  split
  · rename_i hc
    exact h hc
  · exact hR.along_pure _

end Follows

/-- Progress messages lead along the relation, and so do artifacts that are written to some
paths. -/
structure Leads (R : Session σ κ → Session σ κ → Prop) (writes : Path → Prop) : Prop extends
    Follows R where
  log : ∀ level notice text, Along R (Run.log level notice text)
  write : ∀ artifact path text options, writes path →
    Along R (Run.write artifact path text options)

/-! ## Views of the session -/

/-- The session after a step has the same view as before, whatever came of the step. -/
def Keeps (view : Session σ κ → ν) (x : Run σ κ α) : Prop :=
  ∀ s, view (x s).2 = view s

section Keeps

variable {view : Session σ κ → ν}

theorem follows_view (view : Session σ κ → ν) : Follows fun s s' => view s' = view s :=
  ⟨fun _ => rfl, fun h h' => h'.trans h⟩

theorem Keeps.of_run {x : Run σ κ α} (h : Keeps view x) {s s' : Session σ κ}
    {r : Except RunError α} (hr : x s = (r, s')) : view s' = view s := by
  rw [← h s, hr]

theorem keeps_pure (a : α) : Keeps view (pure a : Run σ κ α) := fun _ => rfl

theorem keeps_throw (e : RunError) : Keeps view (throw e : Run σ κ α) := fun _ => rfl

theorem keeps_get : Keeps view (get : Run σ κ (Session σ κ)) := fun _ => rfl

theorem keeps_modify {f : Session σ κ → Session σ κ} (h : ∀ s, view (f s) = view s) :
    Keeps view (modify f : Run σ κ PUnit) := h

/-- Behind steps that keep a view, it is as before them. -/
theorem view_bind (view : Session σ κ → ν) {x : Run σ κ α} {f : α → Run σ κ β}
    (hf : ∀ a, Keeps view (f a)) (s : Session σ κ) : view ((x >>= f) s).2 = view (x s).2 := by
  rw [bind_run]
  rcases x s with ⟨_ | a, s'⟩
  · rfl
  · exact hf a s'

theorem Keeps.bind {x : Run σ κ α} {f : α → Run σ κ β} (hx : Keeps view x)
    (hf : ∀ a, Keeps view (f a)) : Keeps view (x >>= f) :=
  (follows_view view).along_bind hx hf

theorem keeps_forM {as : List α} {f : α → Run σ κ PUnit} (h : ∀ a ∈ as, Keeps view (f a)) :
    Keeps view (as.forM f) :=
  (follows_view view).along_forM h

theorem view_forM_cons (view : Session σ κ → ν) {as : List α} {f : α → Run σ κ PUnit}
    (h : ∀ a ∈ as, Keeps view (f a)) (a : α) (s : Session σ κ) :
    view ((a :: as).forM f s).2 = view (f a s).2 := by
  rw [List.forM]
  exact view_bind view (fun _ => keeps_forM h) s

end Keeps

theorem keeps_route (f : Router σ → Router σ) : Keeps (·.files) (route f : Run σ κ Unit) :=
  keeps_modify fun _ => rfl

theorem keeps_log (level : Level) (notice : Notice) (text : String) :
    Keeps (·.files) (log level notice text : Run σ κ Unit) :=
  keeps_route _

/-- The toolchain leaves findings behind whether it fails or not; what it gave is listed. -/
theorem ask_run (call : Call) (work : Work α) (s : Session σ κ) :
    ask call work s =
      match work s.router.findings with
      | (.ok a, findings) =>
        (.ok a, { s with router := { s.router with findings }, calls := s.calls ++ [call] })
      | (.error e, findings) =>
        (.error (.toolchain e), { s with router := { s.router with findings } }) := by
  rw [ask, get_bind]
  rcases work s.router.findings with ⟨_ | a, findings⟩ <;> rfl

/-- A written artifact leaves the files as the writing does, and fails where that fails. -/
theorem write_run (artifact : Artifact) (path : Path) (text : String) (options : WriteOptions)
    (s : Session σ κ) :
    write artifact path text options s =
      match s.files.writeText path text options with
      | (files, .ok ()) => (.ok (), { s with files })
      | (files, .error cause) => (.error (.unwritten artifact path cause), { s with files }) := by
  rw [write, get_bind]
  rcases s.files.writeText path text options with ⟨files, _ | _⟩ <;> rfl

theorem collection_eq_ok {s s' : Session σ κ} {c : κ} (h : collection s = (.ok c, s')) :
    s.collection = some c ∧ s' = s := by
  rw [collection_run] at h
  split at h
  · rename_i c' hc
    obtain ⟨hok, rfl⟩ := Prod.mk.inj h
    exact ⟨by rw [hc, Except.ok.inj hok], rfl⟩
  · cases h

theorem ask_eq_ok {call : Call} {work : Work α} {s s' : Session σ κ} {a : α}
    (h : ask call work s = (.ok a, s')) :
    ∃ findings, work s.router.findings = (.ok a, findings) ∧
      s' = { s with router := { s.router with findings }, calls := s.calls ++ [call] } := by
  rw [ask_run] at h
  split at h
  · rename_i a' findings hw
    obtain ⟨hok, rfl⟩ := Prod.mk.inj h
    exact ⟨findings, by rw [hw, Except.ok.inj hok], rfl⟩
  · cases h

theorem write_eq_ok {artifact : Artifact} {path : Path} {text : String} {options : WriteOptions}
    {s s' : Session σ κ} {u : Unit} (h : write artifact path text options s = (.ok u, s')) :
    s.files.writeText path text options = (s'.files, .ok ()) ∧
      s' = { s with files := s'.files } := by
  rw [write_run] at h
  split at h
  · rename_i files hw
    obtain ⟨-, rfl⟩ := Prod.mk.inj h
    exact ⟨hw, rfl⟩
  · cases h

end ApiReview.Run
