import ApiReview.Json.Overlay
import ApiReview.Proofs.Json.Distinct

/-!
# Looking into a document laid over another

What a document holds at a path of keys after another one is laid over it:

* `at?_overlay_of_some`: what the upper one holds there, if that is no object;
* `at?_overlay_of_object`: an object, if the upper one has an object there;
* `at?_overlay_of_none`: what the base holds there, if the upper one holds nothing and has nothing
  but objects on the way (`IsCut`).

The keys of the result stay distinct (`distinct_overlay`).
-/

namespace ApiReview.Json

/-! ## Members -/

/-- The members with one further member laid over them. -/
def layMember (key : String) (value : Json) (base : Members) : Members :=
  match find? key base with
  | some old => put key (overlay old value) base
  | none => base ++ [(key, value)]

theorem overlayMembers_cons (base : Members) (key : String) (value : Json) (top : Members) :
    overlayMembers base ((key, value) :: top) = overlayMembers (layMember key value base) top := by
  rw [overlayMembers]
  rfl

theorem find?_layMember (key k : String) (v : Json) (base : Members) :
    find? key (layMember k v base) =
      if k = key then some (((find? key base).map (overlay · v)).getD v) else find? key base := by
  unfold layMember
  by_cases h : k = key
  · subst h
    rw [if_pos rfl]
    cases hb : find? k base with
    | none => simp only [find?_append, hb, find?]; rfl
    | some old => exact find?_put_self _ _ _
  · rw [if_neg h]
    cases hb : find? k base with
    | none =>
      simp only [find?_append, find?, if_neg h]
      exact Option.or_none
    | some old => exact find?_put_of_ne (Ne.symm h) _ _

/-- A key's value is laid over that of the base, if both have the key. -/
theorem find?_overlayMembers (key : String) {top : Members} (h : DistinctMembers top)
    (base : Members) :
    find? key (overlayMembers base top) =
      match find? key top with
      | some v => some (((find? key base).map (overlay · v)).getD v)
      | none => find? key base := by
  induction top generalizing base with
  | nil => rw [overlayMembers]; rfl
  | cons m top ih =>
    obtain ⟨k, v⟩ := m
    obtain ⟨hk, -, ht⟩ := h
    rw [overlayMembers_cons, ih ht, find?_layMember]
    by_cases e : k = key
    · subst e
      simp only [hk, find?, ↓reduceIte]
    · simp only [find?, if_neg e]

/-! ## Paths -/

theorem at?_cons_object (key : String) (p : List String) (members : Members) :
    at? (key :: p) (.object members) = (find? key members).bind (at? p) := rfl

theorem at?_singleton_object (key : String) (members : Members) :
    at? [key] (.object members) = find? key members := by
  rw [at?_cons_object]
  cases find? key members <;> rfl

theorem at?_cons_of_not_object {v : Json} (h : v.isObject = false) (key : String)
    (p : List String) : at? (key :: p) v = none := by
  cases v with
  | object members => cases h
  | _ => rfl

theorem exists_members {v : Json} (h : v.isObject = true) : ∃ members, v = .object members := by
  cases v with
  | object members => exact ⟨members, rfl⟩
  | _ => cases h

/-- A path goes through one of its non-empty proper starts. -/
def Through (q p : List String) : Prop := q ≠ [] ∧ q <+: p ∧ q ≠ p

/-- A path is cut off in a value: on the way there stands something other than an object. -/
def IsCut (v : Json) (p : List String) : Prop :=
  ∃ q, Through q p ∧ ∃ w, v.at? q = some w ∧ w.isObject = false

theorem Through.length_lt {q p : List String} (h : Through q p) : q.length < p.length :=
  Nat.lt_of_le_of_ne h.2.1.length_le fun e => h.2.2 (h.2.1.eq_of_length e)

theorem Through.trans {r q p : List String} (h : Through r q) (h' : Through q p) : Through r p :=
  ⟨h.1, h.2.1.trans h'.2.1, fun e => by
    have := h.length_lt
    have := h'.length_lt
    rw [e] at *
    omega⟩

theorem through_cons {key next : String} {q p : List String} :
    Through q (key :: next :: p) ↔ q = [key] ∨ ∃ r, q = key :: r ∧ Through r (next :: p) := by
  constructor
  · rintro ⟨h0, h, hne⟩
    cases q with
    | nil => exact absurd rfl h0
    | cons k r =>
      obtain ⟨rfl, hr⟩ := List.cons_prefix_cons.mp h
      by_cases e : r = []
      · exact .inl (by rw [e])
      · exact .inr ⟨r, rfl, e, hr, fun e' => hne (by rw [e'])⟩
  · rintro (rfl | ⟨r, rfl, h0, h, hne⟩)
    · exact ⟨by simp, by simp, by simp⟩
    · exact ⟨by simp, by simpa using h, by simpa using hne⟩

/-- A path behind a key is cut off if the key's value is no object or cuts off the rest. -/
theorem isCut_cons {members : Members} {key next : String} {p : List String} {v : Json}
    (h : find? key members = some v) :
    IsCut (.object members) (key :: next :: p) ↔ v.isObject = false ∨ IsCut v (next :: p) := by
  constructor
  · rintro ⟨q, hq, w, hw, ho⟩
    rcases through_cons.mp hq with rfl | ⟨r, rfl, hr⟩
    · rw [at?_cons_object, h] at hw
      cases hw
      exact .inl ho
    · rw [at?_cons_object, h] at hw
      exact .inr ⟨r, hr, w, hw, ho⟩
  · rintro (ho | ⟨r, hr, w, hw, ho⟩)
    · exact ⟨[key], through_cons.mpr (.inl rfl), v, by rw [at?_cons_object, h]; rfl, ho⟩
    · exact ⟨key :: r, through_cons.mpr (.inr ⟨r, rfl, hr⟩), w,
        by rw [at?_cons_object, h]; exact hw, ho⟩

/-- Nothing is held behind a cut. -/
theorem IsCut.at?_eq_none {v : Json} {p : List String} (h : IsCut v p) : v.at? p = none := by
  obtain ⟨q, ⟨-, ⟨r, rfl⟩, hne⟩, w, hw, ho⟩ := h
  have hr : r ≠ [] := fun e => hne (by rw [e, List.append_nil])
  clear hne
  induction q generalizing v with
  | nil =>
    cases hw
    obtain ⟨key, r, rfl⟩ := List.exists_cons_of_ne_nil hr
    exact at?_cons_of_not_object ho _ _
  | cons key q ih =>
    rw [at?] at hw
    rw [List.cons_append, at?]
    cases hk : v.get? key with
    | none => rfl
    | some u => exact ih (by simpa [hk] using hw)

/-! ## One document over another -/

theorem overlay_object (base top : Members) :
    overlay (.object base) (.object top) = .object (overlayMembers base top) := by
  rw [overlay]

theorem overlay_object_of_not_object {base : Json} (h : base.isObject = false) (top : Members) :
    overlay base (.object top) = .object top := by
  rw [overlay]
  exact fun members e => by rw [e] at h; cases h

theorem isObject_overlay (base top : Json) : (overlay base top).isObject = top.isObject := by
  cases ht : top.isObject with
  | false => rw [overlay_of_not_object ht, ht]
  | true =>
    obtain ⟨members, rfl⟩ := exists_members ht
    cases hb : base.isObject with
    | false => rw [overlay_object_of_not_object hb, ht]
    | true =>
      obtain ⟨base, rfl⟩ := exists_members hb
      rw [overlay_object]
      rfl

/-- What an object holds behind a key, after another one is laid over it. -/
theorem at?_overlay_cons (key : String) (p : List String) (base : Members) {top : Members}
    (h : DistinctMembers top) :
    at? (key :: p) (overlay (.object base) (.object top)) =
      match find? key top with
      | some v => at? p (((find? key base).map (overlay · v)).getD v)
      | none => at? (key :: p) (.object base) := by
  rw [overlay_object, at?_cons_object, find?_overlayMembers key h]
  cases find? key top <;> rfl

/-- What is no object in the upper document stays as it is. -/
theorem at?_overlay_of_some {base top : Json} (hd : Distinct top) {p : List String} {v : Json}
    (hv : top.at? p = some v) (ho : v.isObject = false) : (overlay base top).at? p = some v := by
  induction p generalizing base top with
  | nil =>
    cases hv
    rw [overlay_of_not_object ho]
    rfl
  | cons key p ih =>
    cases ht : top.isObject with
    | false => rw [at?_cons_of_not_object ht] at hv; cases hv
    | true =>
      obtain ⟨top, rfl⟩ := exists_members ht
      cases hb : base.isObject with
      | false => rw [overlay_object_of_not_object hb, hv]
      | true =>
        obtain ⟨base, rfl⟩ := exists_members hb
        rw [at?_overlay_cons key p base hd]
        rw [at?_cons_object] at hv
        obtain ⟨u, hu, hv⟩ := Option.bind_eq_some_iff.mp hv
        simp only [hu]
        cases find? key base with
        | none => exact hv
        | some old => exact ih (hd.find? hu) hv

/-- Where the upper document has an object, there is one. -/
theorem at?_overlay_of_object (base : Json) {top : Json} (hd : Distinct top) {p : List String}
    {v : Json} (hv : top.at? p = some v) (ho : v.isObject = true) :
    ∃ w, (overlay base top).at? p = some w ∧ w.isObject = true := by
  induction p generalizing base top with
  | nil =>
    cases hv
    exact ⟨_, rfl, (isObject_overlay _ _).trans ho⟩
  | cons key p ih =>
    cases ht : top.isObject with
    | false => rw [at?_cons_of_not_object ht] at hv; cases hv
    | true =>
      obtain ⟨top, rfl⟩ := exists_members ht
      cases hb : base.isObject with
      | false => exact ⟨v, by rw [overlay_object_of_not_object hb, hv], ho⟩
      | true =>
        obtain ⟨base, rfl⟩ := exists_members hb
        rw [at?_overlay_cons key p base hd]
        rw [at?_cons_object] at hv
        obtain ⟨u, hu, hv⟩ := Option.bind_eq_some_iff.mp hv
        simp only [hu]
        cases find? key base with
        | none => exact ⟨v, hv, ho⟩
        | some old => exact ih old (hd.find? hu) hv

/-- Where the upper document has nothing, and does not cut the path off, the base decides. -/
theorem at?_overlay_of_none {base top : Members} (hd : DistinctMembers top) {key : String}
    {p : List String} (hv : (Json.object top).at? (key :: p) = none)
    (hc : ¬ IsCut (.object top) (key :: p)) :
    (overlay (.object base) (.object top)).at? (key :: p) = (Json.object base).at? (key :: p) := by
  induction p generalizing base top key with
  | nil =>
    rw [at?_cons_object] at hv
    cases hu : find? key top with
    | some u => rw [hu] at hv; cases hv
    | none => rw [at?_overlay_cons key [] base hd, hu]
  | cons next p ih =>
    rw [at?_overlay_cons _ _ base hd]
    cases hu : find? key top with
    | none => rfl
    | some u =>
      rw [at?_cons_object, hu] at hv
      rw [isCut_cons hu, not_or, Bool.not_eq_false] at hc
      obtain ⟨top', rfl⟩ := exists_members hc.1
      rw [at?_cons_object]
      cases find? key base with
      | none => exact hv
      | some old =>
        cases ho : old.isObject with
        | true =>
          obtain ⟨old, rfl⟩ := exists_members ho
          exact ih (hd.find? hu) hv hc.2
        | false =>
          simp only [Option.map_some, Option.getD_some, Option.bind_some,
            overlay_object_of_not_object ho, at?_cons_of_not_object ho]
          exact hv

/-! ## Keys that occur once -/

mutual

/-- Laying a document over another one brings no key in twice. -/
theorem distinct_overlay : ∀ (top : Json) {base : Json}, Distinct base → Distinct top →
    Distinct (overlay base top)
  | .null, _, _, h | .boolean _, _, _, h | .number _, _, _, h | .string _, _, _, h
  | .array _, _, _, h => by rw [overlay_of_not_object rfl]; exact h
  | .object top, base, hb, h => by
    cases ho : base.isObject with
    | false => rw [overlay_object_of_not_object ho]; exact h
    | true =>
      obtain ⟨base, rfl⟩ := exists_members ho
      rw [overlay_object]
      exact distinctMembers_overlay top hb h

theorem distinctMembers_overlay : ∀ (top : Members) {base : Members}, DistinctMembers base →
    DistinctMembers top → DistinctMembers (overlayMembers base top)
  | [], base, hb, _ => by rw [overlayMembers]; exact hb
  | (key, value) :: top, base, hb, ⟨_, hv, ht⟩ => by
    rw [overlayMembers_cons]
    refine distinctMembers_overlay top ?_ ht
    unfold layMember
    split
    · rename_i old ho
      exact hb.put key (distinct_overlay value (hb.find? ho) hv)
    · rename_i ho
      exact hb.concat ho hv

end

end ApiReview.Json
