import ApiReview.Json.Codec
import Mathlib.Data.List.Nodup

/-!
# Items by their keys

A list in which each key has one item. An item that is put there takes the place of the one with its
key, or comes at the end (`put`). So items that are put one after the other leave the last one of
each key, in the order in which the keys first come up (`LastOfEach.foldl`).
-/

namespace ApiReview.Keyed

variable {α κ : Type} [DecidableEq κ] {key : α → κ} {items occurrences : List α}

/-- The items with one more: in the place of the first one with its key, or at the end. -/
def put (key : α → κ) (a : α) : List α → List α
  | [] => [a]
  | b :: rest => if key b = key a then a :: rest else b :: put key a rest

theorem putEntry_eq_put {α : Type} (k : String) (a : α) (entries : List (String × α)) :
    Json.Codec.putEntry k a entries = put Prod.fst (k, a) entries := by
  induction entries with
  | nil => rfl
  | cons e rest ih =>
    rw [Json.Codec.putEntry, put, ih]
    by_cases h : e.1 = k
    · rw [if_pos h, if_pos h, h]
    · rw [if_neg h, if_neg h]

theorem keys_put_of_mem {a : α} (h : key a ∈ items.map key) :
    (put key a items).map key = items.map key := by
  induction items with
  | nil => cases h
  | cons b rest ih =>
    rw [put]
    by_cases hb : key b = key a
    · rw [if_pos hb, List.map_cons, List.map_cons, hb]
    · rw [if_neg hb, List.map_cons, List.map_cons,
        ih ((List.mem_cons.mp h).resolve_left (Ne.symm hb))]

theorem put_of_not_mem {a : α} (h : key a ∉ items.map key) : put key a items = items ++ [a] := by
  induction items with
  | nil => rfl
  | cons b rest ih =>
    rw [List.map_cons, List.mem_cons, not_or] at h
    rw [put, if_neg (Ne.symm h.1), ih h.2, List.cons_append]

theorem nodup_keys_put (h : (items.map key).Nodup) (a : α) : ((put key a items).map key).Nodup := by
  by_cases ha : key a ∈ items.map key
  · rwa [keys_put_of_mem ha]
  · rw [put_of_not_mem ha, List.map_append, List.map_singleton, ← List.concat_eq_append]
    exact h.concat ha

/-- Among items with keys of their own, the one that is put there replaces that of its key only. -/
theorem mem_put_iff (h : (items.map key).Nodup) {a b : α} :
    b ∈ put key a items ↔ b = a ∨ b ∈ items ∧ key b ≠ key a := by
  induction items with
  | nil => simp [put]
  | cons c rest ih =>
    obtain ⟨hnew, hrest⟩ := List.nodup_cons.mp h
    rw [put, List.mem_cons]
    by_cases hc : key c = key a
    · have others : b ∈ rest → key b ≠ key a := fun hb hk =>
        hnew (List.mem_map.mpr ⟨b, hb, hk.trans hc.symm⟩)
      rw [if_pos hc, List.mem_cons]
      refine or_congr_right ⟨fun hb => ⟨.inr hb, others hb⟩, ?_⟩
      rintro ⟨rfl | hb, hk⟩
      · exact absurd hc hk
      · exact hb
    · rw [if_neg hc, List.mem_cons, ih hrest]
      constructor
      · rintro (rfl | rfl | ⟨hb, hk⟩)
        · exact .inr ⟨.inl rfl, hc⟩
        · exact .inl rfl
        · exact .inr ⟨.inr hb, hk⟩
      · rintro (rfl | ⟨rfl | hb, hk⟩)
        · exact .inr (.inl rfl)
        · exact .inl rfl
        · exact .inr (.inr ⟨hb, hk⟩)

/-- The items are the last one of each key that occurs, in the order in which the keys first do. -/
structure LastOfEach (key : α → κ) (occurrences items : List α) : Prop where
  distinct : (items.map key).Nodup
  order : items.map key = (occurrences.map key).eraseDups
  last : ∀ a, a ∈ items ↔ (occurrences.filter fun b => key b = key a).getLast? = some a

namespace LastOfEach

theorem nil (key : α → κ) : LastOfEach key [] [] :=
  ⟨List.nodup_nil, rfl, fun _ => iff_of_false List.not_mem_nil fun h => by cases h⟩

theorem mem_keys (h : LastOfEach key occurrences items) {k : κ} :
    k ∈ items.map key ↔ k ∈ occurrences.map key := by
  rw [h.order, List.mem_eraseDups]

theorem mem_of_mem (h : LastOfEach key occurrences items) {a : α} (ha : a ∈ items) :
    a ∈ occurrences :=
  (List.mem_filter.mp (List.mem_of_getLast? ((h.last a).mp ha))).1

/-- One more occurrence is put among the items. -/
theorem put (h : LastOfEach key occurrences items) (a : α) :
    LastOfEach key (occurrences ++ [a]) (Keyed.put key a items) where
  distinct := nodup_keys_put h.distinct a
  order := by
    rw [List.map_append, List.map_singleton, List.eraseDups_append, ← h.order]
    by_cases ha : key a ∈ items.map key
    · have known : [key a].removeAll (occurrences.map key) = [] := by
        simp [List.removeAll, List.mem_map.mp (h.mem_keys.mp ha)]
      rw [known, keys_put_of_mem ha, List.eraseDups_nil, List.append_nil]
    · have new : [key a].removeAll (occurrences.map key) = [key a] := by
        simpa [List.removeAll] using mt h.mem_keys.mpr ha
      rw [new, put_of_not_mem ha, List.map_append]
      rfl
  last b := by
    rw [mem_put_iff h.distinct, h.last b, List.filter_append, List.getLast?_append]
    by_cases hk : key a = key b
    · rw [List.filter_cons, if_pos (decide_eq_true hk), List.filter_nil, List.getLast?_singleton,
        Option.some_or, Option.some_inj, eq_comm (a := a)]
      exact or_iff_left fun hb => hb.2 hk.symm
    · rw [List.filter_cons, if_neg (by simpa using hk), List.filter_nil, List.getLast?_nil,
        Option.none_or, and_iff_left (Ne.symm hk)]
      exact or_iff_right fun hb => hk (congrArg key hb.symm)

/-- More occurrences are put among the items, one after the other. -/
theorem foldl (h : LastOfEach key occurrences items) (more : List α) :
    LastOfEach key (occurrences ++ more)
      (more.foldl (fun items a => Keyed.put key a items) items) := by
  induction more generalizing occurrences items with
  | nil => rwa [List.append_nil]
  | cons a more ih =>
    rw [List.append_cons, List.foldl_cons]
    exact ih (h.put a)

end LastOfEach

end ApiReview.Keyed
