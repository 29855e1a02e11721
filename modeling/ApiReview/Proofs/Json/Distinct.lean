import ApiReview.Json.Reader
import ApiReview.Proofs.Outcome

/-!
# Keys that occur once

In an object that was read no key occurs twice, at any level (`distinct_parse`), and every operation
on members keeps it so. With that, taking a member out says nothing about the other keys
(`find?_takeOut_of_ne`), although it moves the last member.
-/

namespace ApiReview.Json

theorem find?_append (key : String) (a b : Members) :
    find? key (a ++ b) = (find? key a).or (find? key b) := by
  induction a with
  | nil => rfl
  | cons m a ih =>
    simp only [List.cons_append, find?]
    split
    · rfl
    · exact ih

theorem DistinctMembers.find? {members : Members} (h : DistinctMembers members) {key : String}
    {v : Json} (hv : find? key members = some v) : Distinct v := by
  induction members with
  | nil => cases hv
  | cons m rest ih =>
    obtain ⟨-, hd, hr⟩ := h
    rw [Json.find?] at hv
    split at hv
    · cases hv
      exact hd
    · exact ih hr hv

theorem DistinctMembers.put {members : Members} (h : DistinctMembers members) (key : String)
    {v : Json} (hv : Distinct v) : DistinctMembers (Json.put key v members) := by
  induction members with
  | nil => exact ⟨rfl, hv, trivial⟩
  | cons m rest ih =>
    obtain ⟨hk, hd, hr⟩ := h
    rw [Json.put]
    split
    · exact ⟨hk, hv, hr⟩
    · rename_i hne
      exact ⟨by rw [find?_put_of_ne hne, hk], hd, ih hr⟩

theorem DistinctMembers.concat {members : Members} (h : DistinctMembers members) {key : String}
    (hk : Json.find? key members = none) {v : Json} (hv : Distinct v) :
    DistinctMembers (members ++ [(key, v)]) := by
  induction members with
  | nil => exact ⟨rfl, hv, trivial⟩
  | cons m rest ih =>
    obtain ⟨hm, hd, hr⟩ := h
    rw [Json.find?] at hk
    split at hk
    · cases hk
    · rename_i hne
      refine ⟨?_, hd, ih hr hk⟩
      show Json.find? m.1 (rest ++ [(key, v)]) = none
      rw [find?_append, hm, Json.find?, if_neg (Ne.symm hne)]
      rfl

/-! ## Changing a member -/

theorem find?_change_self (key : String) (f : Json → Json) (members : Members) :
    find? key (change key f members) = (find? key members).map f := by
  induction members with
  | nil => rfl
  | cons m rest ih =>
    rw [change]
    split
    · rename_i h
      simp only [find?, if_pos h]
      rfl
    · rename_i h
      simp only [find?, if_neg h]
      exact ih

theorem find?_change_of_ne {key other : String} (h : other ≠ key) (f : Json → Json)
    (members : Members) : find? other (change key f members) = find? other members := by
  induction members with
  | nil => rfl
  | cons m rest ih =>
    rw [change]
    split
    · rename_i hk
      simp only [find?, hk, if_neg (Ne.symm h)]
    · simp only [find?, ih]

theorem DistinctMembers.change {members : Members} (h : DistinctMembers members) (key : String)
    {f : Json → Json} (hf : ∀ v, Distinct v → Distinct (f v)) :
    DistinctMembers (Json.change key f members) := by
  induction members with
  | nil => exact trivial
  | cons m rest ih =>
    obtain ⟨hm, hd, hr⟩ := h
    rw [Json.change]
    split
    · exact ⟨hm, hf _ hd, hr⟩
    · rename_i hne
      exact ⟨by rw [find?_change_of_ne hne, hm], hd, ih hr⟩

/-! ## Taking a member out -/

theorem distinctMembers_concat {members : Members} {m : String × Json} :
    DistinctMembers (members ++ [m]) ↔
      DistinctMembers members ∧ find? m.1 members = none ∧ Distinct m.2 := by
  refine ⟨fun h => ?_, fun h => h.1.concat h.2.1 h.2.2⟩
  induction members with
  | nil => exact ⟨trivial, rfl, h.2.1⟩
  | cons e rest ih =>
    obtain ⟨he, hd, hr⟩ := h
    obtain ⟨hrest, hm, hv⟩ := ih hr
    have he : find? e.1 (rest ++ [m]) = none := he
    rw [find?_append, Option.or_eq_none_iff, find?] at he
    have hne : m.1 ≠ e.1 := fun e' => by rw [if_pos e'] at he; cases he.2
    exact ⟨⟨he.1, hd, hrest⟩, by rw [find?, if_neg (Ne.symm hne), hm], hv⟩

/-- The last member may as well come first. -/
theorem find?_concat_comm {members : Members} {m : String × Json}
    (h : find? m.1 members = none) (key : String) :
    find? key (m :: members) = find? key (members ++ [m]) := by
  rw [find?_append]
  simp only [find?]
  split
  · rename_i e
    rw [← e, h]
    rfl
  · exact Option.or_none.symm

/-- What `takeOut` leaves behind a removed first member. -/
theorem takeOut_cons_self (key : String) (v : Json) {rest : Members} (h : DistinctMembers rest) :
    DistinctMembers (takeOut key ((key, v) :: rest)) ∧
      ∀ other, find? other (takeOut key ((key, v) :: rest)) = find? other rest := by
  rw [takeOut, if_pos rfl]
  rcases List.eq_nil_or_concat rest with rfl | ⟨init, last, rfl⟩
  · exact ⟨trivial, fun _ => rfl⟩
  · rw [List.concat_eq_append] at h ⊢
    obtain ⟨hi, hk, hv⟩ := distinctMembers_concat.mp h
    simp only [List.getLast?_concat, List.dropLast_concat]
    exact ⟨⟨hk, hv, hi⟩, find?_concat_comm hk⟩

theorem find?_takeOut_of_ne {key other : String} (hne : other ≠ key) {members : Members}
    (h : DistinctMembers members) : find? other (takeOut key members) = find? other members := by
  induction members with
  | nil => rfl
  | cons m rest ih =>
    obtain ⟨k, v⟩ := m
    by_cases e : k = key
    · subst e
      rw [(takeOut_cons_self k v h.2.2).2, find?, if_neg (Ne.symm hne)]
    · rw [takeOut, if_neg e, find?, find?, ih h.2.2]

theorem DistinctMembers.takeOut {members : Members} (h : DistinctMembers members)
    (key : String) : DistinctMembers (Json.takeOut key members) := by
  induction members with
  | nil => exact trivial
  | cons m rest ih =>
    obtain ⟨k, v⟩ := m
    by_cases e : k = key
    · subst e
      exact (takeOut_cons_self k v h.2.2).1
    · rw [Json.takeOut, if_neg e]
      exact ⟨by rw [find?_takeOut_of_ne e h.2.2, h.1], h.2.1, ih h.2.2⟩

/-! ## What is read -/

mutual

/-- A value that is read from a tree has distinct keys. -/
theorem distinct_value? : ∀ (node : Node) {depth : Nat} {v : Json},
    node.value? depth = .ok v → Distinct v
  | .null _, _, _, h | .boolean _ _, _, _, h => by cases h; exact trivial
  | .number n _, _, _, h | .string n _, _, _, h => by
    obtain ⟨_, -, rfl⟩ := map_eq_ok h
    exact trivial
  | .array before items closing, depth, v, h => by
    rw [Node.value?] at h
    obtain ⟨depth, -, h⟩ := bind_eq_ok h
    obtain ⟨values, hv, h⟩ := bind_eq_ok h
    obtain ⟨_, -, h⟩ := bind_eq_ok h
    cases h
    exact distinct_itemValues? items hv
  | .object before members closing, depth, v, h => by
    rw [Node.value?] at h
    obtain ⟨depth, -, h⟩ := bind_eq_ok h
    obtain ⟨values, hv, h⟩ := bind_eq_ok h
    obtain ⟨_, -, h⟩ := bind_eq_ok h
    cases h
    exact distinct_memberValues? members (show DistinctMembers [] from trivial) hv
  | .broken fault _, _, _, h => by cases h

theorem distinct_itemValues? : ∀ (items : List (Node × Option (Placed SyntaxError))) {depth : Nat}
    {vs : List Json}, itemValues? depth items = .ok vs → DistinctItems vs
  | [], _, _, h => by cases h; exact trivial
  | (node, _) :: rest, depth, vs, h => by
    rw [itemValues?] at h
    obtain ⟨v, hv, h⟩ := bind_eq_ok h
    obtain ⟨vs, hvs, h⟩ := bind_eq_ok h
    cases h
    exact ⟨distinct_value? node hv, distinct_itemValues? rest hvs⟩

theorem distinct_memberValues? : ∀ (members : List (Key × Node × Text.Position)) {depth : Nat}
    {done values : Members}, DistinctMembers done → memberValues? depth done members = .ok values →
      DistinctMembers values
  | [], _, _, _, hd, h => by cases h; exact hd
  | (key, node, _) :: rest, depth, done, values, hd, h => by
    rw [memberValues?] at h
    obtain ⟨name, -, h⟩ := bind_eq_ok h
    obtain ⟨v, hv, h⟩ := bind_eq_ok h
    exact distinct_memberValues? rest (hd.put name (distinct_value? node hv)) h

end

/-- A document that is read from a text has distinct keys. -/
theorem distinct_parse {s : String} {v : Json} (h : parse s = .ok v) : Distinct v := by
  obtain ⟨w, hw, h⟩ := bind_eq_ok h
  obtain ⟨_, -, h⟩ := bind_eq_ok h
  cases h
  exact distinct_value? _ hw

end ApiReview.Json
