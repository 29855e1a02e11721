/-!
# Outcomes

What is known of a step's parts when the whole step came to a result.
-/

namespace ApiReview

theorem bind_eq_ok {ε α β : Type} {x : Except ε α} {f : α → Except ε β} {b : β}
    (h : x >>= f = .ok b) : ∃ a, x = .ok a ∧ f a = .ok b := by
  cases x with
  | error e => cases h
  | ok a => exact ⟨a, rfl, h⟩

/-- What fails has failed at one of its parts. -/
theorem bind_eq_error {ε α β : Type} {x : Except ε α} {f : α → Except ε β} {e : ε}
    (h : x >>= f = .error e) : x = .error e ∨ ∃ a, x = .ok a ∧ f a = .error e := by
  cases x with
  | error e' => exact .inl (congrArg Except.error (Except.error.inj h))
  | ok a => exact .inr ⟨a, rfl, h⟩

theorem map_eq_ok {ε α β : Type} {x : Except ε α} {f : α → β} {b : β}
    (h : x.map f = .ok b) : ∃ a, x = .ok a ∧ f a = b := by
  cases x with
  | error e => cases h
  | ok a => exact ⟨a, rfl, Except.ok.inj h⟩

theorem mapError_eq_ok {ε ε' α : Type} {x : Except ε α} {f : ε → ε'} {a : α}
    (h : x.mapError f = .ok a) : x = .ok a := by
  cases x with
  | error e => cases h
  | ok b => exact congrArg Except.ok (Except.ok.inj h)

theorem map_eq_error {ε α β : Type} {x : Except ε α} {f : α → β} {e : ε}
    (h : x.map f = .error e) : x = .error e := by
  cases x with
  | error e' => exact congrArg Except.error (Except.error.inj h)
  | ok a => cases h

theorem mapError_eq_error {ε ε' α : Type} {x : Except ε α} {f : ε → ε'} {e : ε'}
    (h : x.mapError f = .error e) : ∃ cause, x = .error cause ∧ f cause = e := by
  cases x with
  | error cause => exact ⟨cause, rfl, Except.error.inj h⟩
  | ok a => cases h

/-- Behind a check that throws, what was checked is not so. -/
theorem guard_eq_ok {ε α : Type} {c : Prop} [Decidable c] {e : ε} {f : PUnit → Except ε α} {a : α}
    (h : (if c then throw e >>= f else f ⟨⟩) = .ok a) : ¬ c ∧ f ⟨⟩ = .ok a := by
  split at h
  · cases h
  · rename_i hc
    exact ⟨hc, h⟩

/-- A check that throws fails with its error, and otherwise what is behind it does. -/
theorem guard_eq_error {ε α : Type} {c : Prop} [Decidable c] {e e' : ε} {f : PUnit → Except ε α}
    (h : (if c then throw e >>= f else f ⟨⟩) = .error e') :
    (c ∧ e = e') ∨ (¬ c ∧ f ⟨⟩ = .error e') := by
  split at h
  · rename_i hc
    exact .inl ⟨hc, Except.error.inj h⟩
  · rename_i hc
    exact .inr ⟨hc, h⟩

theorem eq_ok_of_toOption {ε α : Type} {x : Except ε α} {a : α} (h : x.toOption = some a) :
    x = .ok a := by
  cases x with
  | error e => cases h
  | ok b => exact congrArg Except.ok (Option.some.inj h)

theorem mem_toOption {ε α : Type} {x : Except ε α} {a : α} : a ∈ x.toOption ↔ x = .ok a :=
  ⟨eq_ok_of_toOption, fun h => by rw [h]; rfl⟩

theorem exists_ok_of_map {ε α β : Type} {x : Except ε α} {f : α → β} {b : β}
    (h : x.toOption.map f = some b) : ∃ a, x = .ok a ∧ f a = b := by
  cases x with
  | error e => cases h
  | ok a => exact ⟨a, rfl, Option.some.inj h⟩

/-! ## Step by step -/

theorem bind_of_ok {ε α β : Type} {x : Except ε α} {f : α → Except ε β} {a : α} {y : Except ε β}
    (hx : x = .ok a) (h : f a = y) : (x >>= f) = y := by
  rw [hx]
  exact h

theorem mapError_of_ok {ε ε' α : Type} {x : Except ε α} {f : ε → ε'} {a : α} (hx : x = .ok a) :
    x.mapError f = .ok a := by
  rw [hx]
  rfl

theorem guard_of_not {ε α : Type} {c : Prop} [Decidable c] {e : ε} {f : PUnit → Except ε α}
    {y : Except ε α} (hc : ¬ c) (h : f ⟨⟩ = y) : (if c then throw e >>= f else f ⟨⟩) = y := by
  rw [if_neg hc]
  exact h

/-! ## Alike outcomes -/

/-- Outcomes that are alike lead on alike. -/
theorem toOption_bind_congr {ε α β : Type} {x y : Except ε α} {f g : α → Except ε β}
    (h : x.toOption = y.toOption) (hf : ∀ a, (f a).toOption = (g a).toOption) :
    (x >>= f).toOption = (y >>= g).toOption := by
  cases x <;> cases y
  · rfl
  · cases h
  · cases h
  · cases h
    exact hf _

theorem toOption_guard_congr {ε α : Type} {c : Prop} [Decidable c] {e : ε}
    {f g : PUnit → Except ε α} (h : (f ⟨⟩).toOption = (g ⟨⟩).toOption) :
    (if c then throw e >>= f else f ⟨⟩).toOption =
      (if c then throw e >>= g else g ⟨⟩).toOption := by
  split
  · rfl
  · exact h

theorem eq_ok_of_toOption_eq {ε α : Type} {x y : Except ε α} (h : x.toOption = y.toOption) {a : α}
    (hx : x = .ok a) : y = .ok a :=
  eq_ok_of_toOption (by rw [← h, hx]; rfl)

theorem toOption_bind_pure {ε α β : Type} (x : Except ε α) (f : α → β) :
    (x >>= fun a => pure (f a)).toOption = x.toOption.map f := by
  cases x <;> rfl

theorem toOption_mapError {ε ε' α : Type} (x : Except ε α) (f : ε → ε') :
    (x.mapError f).toOption = x.toOption := by
  cases x <;> rfl

/-! ## Related outcomes -/

/-- Outcomes that are results related to each other, or errors both. -/
inductive Parallel {ε ε' α β : Type} (r : α → β → Prop) : Except ε α → Except ε' β → Prop where
  | ok {a : α} {b : β} (h : r a b) : Parallel r (.ok a) (.ok b)
  | error (e : ε) (e' : ε') : Parallel r (.error e) (.error e')

namespace Parallel

variable {ε ε' α β γ δ : Type} {r : α → β → Prop} {s : γ → δ → Prop} {x : Except ε α}
  {y : Except ε' β}

/-- Related outcomes lead on to related ones. -/
theorem bind (h : Parallel r x y) {f : α → Except ε γ} {g : β → Except ε' δ}
    (hf : ∀ a b, x = .ok a → y = .ok b → r a b → Parallel s (f a) (g b)) :
    Parallel s (x >>= f) (y >>= g) := by
  cases h with
  | ok h => exact hf _ _ rfl rfl h
  | error e e' => exact .error e e'

theorem mapError {ε₁ ε₁' : Type} (h : Parallel r x y) (f : ε → ε₁) (g : ε' → ε₁') :
    Parallel r (x.mapError f) (y.mapError g) := by
  cases h with
  | ok h => exact .ok h
  | error e e' => exact .error _ _

/-- Behind checks that throw on both sides or on none, outcomes are related. -/
theorem guard {c d : Prop} [Decidable c] [Decidable d] (hcd : c ↔ d) {e : ε} {e' : ε'}
    {f : PUnit → Except ε α} {g : PUnit → Except ε' β} (h : ¬ c → Parallel r (f ⟨⟩) (g ⟨⟩)) :
    Parallel r (if c then throw e >>= f else f ⟨⟩) (if d then throw e' >>= g else g ⟨⟩) := by
  by_cases hc : c
  · rw [if_pos hc, if_pos (hcd.mp hc)]
    exact .error e e'
  · rw [if_neg hc, if_neg fun hd => hc (hcd.mpr hd)]
    exact h hc

/-- Related states stay so along a list, if they do with each of its items. -/
theorem foldlM {f : α → γ → Except ε α} {g : β → δ → Except ε' β} {φ : γ → δ} {items : List γ}
    (h : ∀ item ∈ items, ∀ a b, r a b → Parallel r (f a item) (g b (φ item))) {a : α} {b : β}
    (hab : r a b) : Parallel r (items.foldlM f a) ((items.map φ).foldlM g b) := by
  induction items generalizing a b with
  | nil => exact .ok hab
  | cons item items ih =>
    rw [List.map_cons, List.foldlM_cons, List.foldlM_cons]
    refine (h item List.mem_cons_self a b hab).bind fun a' b' _ _ hab' => ?_
    exact ih (fun x hx => h x (List.mem_cons_of_mem _ hx)) hab'

theorem refl (x : Except ε α) : Parallel Eq x x := by
  cases x with
  | error e => exact .error e e
  | ok a => exact .ok rfl

theorem of_toOption_eq {y : Except ε' α} (h : x.toOption = y.toOption) : Parallel Eq x y := by
  cases x <;> cases y
  · exact .error _ _
  · cases h
  · cases h
  · exact .ok (Option.some.inj h)

theorem of_rel (h : Option.Rel r x.toOption y.toOption) : Parallel r x y := by
  cases x <;> cases y <;> cases h
  · exact .error _ _
  · exact .ok ‹_›

theorem toOption_eq {m : α → β} (h : Parallel (fun a b => b = m a) x y) :
    y.toOption = x.toOption.map m := by
  cases h with
  | ok h => exact congrArg some h
  | error e e' => rfl

end Parallel

end ApiReview
