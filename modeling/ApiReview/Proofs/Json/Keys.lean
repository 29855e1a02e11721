import ApiReview.Proofs.Json.Overlay

/-!
# Keys in their order

A document laid over another one keeps the keys of the base in their places and puts its further
keys behind them (`keys_overlayMembers`). Objects with the same keys in the same order and the same
values are equal (`members_ext`), so that laying what came out over the base once more changes
nothing, the order of the keys included (`overlay_again`).
-/

namespace ApiReview.Json

/-! ## Induction on the values behind keys -/

theorem sizeOf_lt_of_find? {members : Members} {key : String} {v : Json}
    (h : find? key members = some v) : sizeOf v < sizeOf members := by
  induction members with
  | nil => cases h
  | cons m rest ih =>
    obtain ⟨k, w⟩ := m
    rw [find?] at h
    rw [List.cons.sizeOf_spec, Prod.mk.sizeOf_spec]
    split at h
    · rw [Option.some.inj h]
      omega
    · have := ih h
      omega

/-- What holds of a value when it holds of each value behind a key of it, holds of every value. -/
theorem induction_on_members {P : Json → Prop}
    (step : ∀ v, (∀ members key w, v = .object members → find? key members = some w → P w) → P v)
    (v : Json) : P v := by
  induction hn : sizeOf v using Nat.strongRecOn generalizing v with
  | ind n smaller =>
    refine step v fun members key w hv hw => smaller (sizeOf w) ?_ w rfl
    have hlt := sizeOf_lt_of_find? hw
    rw [← hn, hv, Json.object.sizeOf_spec]
    omega

/-! ## Equal objects -/

theorem mem_keys_iff {key : String} {members : Members} :
    key ∈ keys members ↔ find? key members ≠ none := by
  induction members with
  | nil => simp [keys, find?]
  | cons m rest ih =>
    rw [keys, List.map_cons, List.mem_cons, find?]
    split
    · rename_i h
      exact iff_of_true (.inl h.symm) (Option.some_ne_none _)
    · rename_i h
      rw [or_iff_right (Ne.symm h)]
      exact ih

/-- Objects with the same keys in the same order and the same values are equal. -/
theorem members_ext {a b : Members} (hb : DistinctMembers b) (hkeys : keys a = keys b)
    (hfind : ∀ key, find? key a = find? key b) : a = b := by
  induction a generalizing b with
  | nil => exact (List.map_eq_nil_iff.mp hkeys.symm).symm
  | cons m a ih =>
    cases b with
    | nil => cases hkeys
    | cons m' b =>
      obtain ⟨k, v⟩ := m
      obtain ⟨k', v'⟩ := m'
      obtain ⟨rfl, hrest⟩ : k = k' ∧ keys a = keys b := List.cons.inj hkeys
      obtain ⟨hfresh, -, hb⟩ := hb
      have hv : some v = some v' := by simpa only [find?, ↓reduceIte] using hfind k
      rw [Option.some.inj hv, ih hb hrest fun key => ?_]
      by_cases e : k = key
      · -- The first key does not occur again, on either side.
        have hnone : k ∉ keys b := fun hm => mem_keys_iff.mp hm hfresh
        rw [← e, hfresh]
        exact Classical.byContradiction fun hne => hnone (hrest ▸ mem_keys_iff.mpr hne)
      · simpa only [find?, if_neg e] using hfind key

/-! ## The keys of a document laid over another one -/

theorem keys_put {key : String} {members : Members} (h : key ∈ keys members) (value : Json) :
    keys (put key value members) = keys members := by
  induction members with
  | nil => cases h
  | cons m rest ih =>
    rw [put]
    split
    · rfl
    · rename_i hne
      have hrest := (List.mem_cons.mp h).resolve_left (Ne.symm hne)
      exact congrArg (m.1 :: ·) (ih hrest)

theorem keys_layMember (key : String) (value : Json) (base : Members) :
    keys (layMember key value base) =
      if key ∈ keys base then keys base else keys base ++ [key] := by
  rw [layMember]
  cases hfind : find? key base with
  | none =>
    have hnot : key ∉ keys base := fun hm => mem_keys_iff.mp hm hfind
    rw [if_neg hnot]
    exact List.map_append
  | some old =>
    have hmem : key ∈ keys base := mem_keys_iff.mpr (by rw [hfind]; exact Option.some_ne_none _)
    rw [if_pos hmem]
    exact keys_put hmem _

/-- The keys of the base come first, in their order, and then those that only the upper object
has. -/
theorem keys_overlayMembers {top : Members} (h : DistinctMembers top) (base : Members) :
    keys (overlayMembers base top) = keys base ++ (keys top).filter (· ∉ keys base) := by
  induction top generalizing base with
  | nil => rw [overlayMembers]; exact (List.append_nil _).symm
  | cons m top ih =>
    obtain ⟨k, v⟩ := m
    obtain ⟨hk, -, htop⟩ := h
    have hcons : keys ((k, v) :: top) = k :: keys top := rfl
    rw [overlayMembers_cons, ih htop, keys_layMember, hcons]
    by_cases hm : k ∈ keys base
    · rw [if_pos hm, List.filter_cons_of_neg (by simpa using hm)]
    · have hrest : ∀ key ∈ keys top, key ≠ k := fun key hkey e =>
        mem_keys_iff.mp hkey (e ▸ hk)
      rw [if_neg hm, List.filter_cons_of_pos (by simpa using hm), List.append_assoc,
        List.singleton_append]
      congr 2
      refine List.filter_congr fun key hkey => ?_
      simp [hrest key hkey]

/-! ## Laying the same over again -/

/-- A document over itself is itself. -/
theorem overlay_self {v : Json} (h : Distinct v) : overlay v v = v := by
  induction v using induction_on_members with
  | step v inner =>
    cases ho : v.isObject with
    | false => exact overlay_of_not_object ho
    | true =>
      obtain ⟨members, rfl⟩ := exists_members ho
      rw [overlay_object]
      congr 1
      refine members_ext h ?_ fun key => ?_
      · rw [keys_overlayMembers h, List.filter_eq_nil_iff.mpr (by simp), List.append_nil]
      · rw [find?_overlayMembers key h]
        cases hv : find? key members with
        | none => rfl
        | some w => exact congrArg some (inner members key w rfl hv (h.find? hv))

/-- What comes out when a document is laid over a base can be laid over the base again. -/
theorem overlay_again {top base : Json} (htop : Distinct top) (hbase : Distinct base) :
    overlay base (overlay base top) = overlay base top := by
  induction top using induction_on_members generalizing base with
  | step top inner =>
    cases ht : top.isObject with
    | false => rw [overlay_of_not_object ht, overlay_of_not_object ht]
    | true =>
      obtain ⟨top, rfl⟩ := exists_members ht
      cases hb : base.isObject with
      | false => rw [overlay_object_of_not_object hb, overlay_object_of_not_object hb]
      | true =>
        obtain ⟨base, rfl⟩ := exists_members hb
        have hdistinct := distinctMembers_overlay top hbase htop
        rw [overlay_object, overlay_object]
        congr 1
        refine members_ext hdistinct ?_ fun key => ?_
        · rw [keys_overlayMembers hdistinct, keys_overlayMembers htop, List.filter_append,
            List.filter_filter, List.filter_eq_nil_iff.mpr (by simp), List.nil_append]
          simp
        · rw [find?_overlayMembers key hdistinct, find?_overlayMembers key htop]
          cases hv : find? key top with
          | none =>
            -- The base's own value lies over itself.
            cases hold : find? key base with
            | none => rfl
            | some old => exact congrArg some (overlay_self (DistinctMembers.find? hbase hold))
          | some w =>
            cases hold : find? key base with
            | none => rfl
            | some old =>
              exact congrArg some (inner top key w rfl hv (DistinctMembers.find? htop hv)
                (DistinctMembers.find? hbase hold))

end ApiReview.Json
