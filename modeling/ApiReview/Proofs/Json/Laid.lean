import ApiReview.Proofs.Json.Keys
import Mathlib.Data.List.Infix

/-!
# Where the parts of two documents end up

Along each path of keys, a document laid over another one is what the upper one holds there laid
over what the base holds there (`at?_overlay_of_both`). So each part of the two has its place in the
result (`IsLaidOver`): the keys of two objects at one path, what the upper document decides, and
what it leaves of the base. Laying the upper document over the result once more changes nothing
(`overlay_overlay_top`).
-/

namespace ApiReview.Json

variable {base top result v w : Json} {p : List String}

/-- Where the parts of a base and of a document laid over it are found in the result. -/
structure IsLaidOver (base top result : Json) : Prop where
  /-- At a path where both have an object, the keys of the base come first, in their order, and then
  those that only the upper object has, in theirs. -/
  keys : ∀ p below above, base.at? p = some (.object below) → top.at? p = some (.object above) →
    ∃ members, result.at? p = some (.object members) ∧
      Json.keys members = Json.keys below ++ (Json.keys above).filter (· ∉ Json.keys below)
  /-- What is no object in the upper document is found where it was. -/
  taken : ∀ p v, top.at? p = some v → v.isObject = false → result.at? p = some v
  /-- An object of the upper document that lies over no object is found where it was. -/
  added : ∀ p members, top.at? p = some (.object members) →
    (∀ below, base.at? p ≠ some (.object below)) → result.at? p = some (.object members)
  /-- What the base holds at a path where the upper document holds nothing, and has nothing but
  objects on the way, is found where it was. -/
  kept : ∀ p v, base.at? p = some v → top.at? p = none →
    (∀ q, q <+: p → ∀ w, top.at? q = some w → w.isObject = true) → result.at? p = some v

/-! ## Path by path -/

theorem exists_find?_of_at?_cons {key : String} (h : v.at? (key :: p) = some w) :
    ∃ members u, v = .object members ∧ find? key members = some u ∧ u.at? p = some w := by
  cases v with
  | object members =>
    obtain ⟨u, hu, hw⟩ := Option.bind_eq_some_iff.mp h
    exact ⟨members, u, rfl, hu, hw⟩
  | _ => cases h

theorem Distinct.at? (h : Distinct v) (hw : v.at? p = some w) : Distinct w := by
  induction p generalizing v with
  | nil =>
    cases hw
    exact h
  | cons key p ih =>
    obtain ⟨members, u, rfl, hu, hw⟩ := exists_find?_of_at?_cons hw
    exact ih (DistinctMembers.find? h hu) hw

/-- Over what is no object, a document is itself. -/
theorem overlay_of_base_not_object (hb : base.isObject = false) (top : Json) :
    overlay base top = top := by
  cases ht : top.isObject with
  | true =>
    obtain ⟨above, rfl⟩ := exists_members ht
    exact overlay_object_of_not_object hb above
  | false => exact overlay_of_not_object ht

/-- What both documents hold at a path is laid over each other there. -/
theorem at?_overlay_of_both (hd : Distinct top) (hbase : base.at? p = some v)
    (htop : top.at? p = some w) : (overlay base top).at? p = some (overlay v w) := by
  induction p generalizing base top with
  | nil =>
    cases hbase
    cases htop
    rfl
  | cons key p ih =>
    obtain ⟨below, old, rfl, hold, hbase⟩ := exists_find?_of_at?_cons hbase
    obtain ⟨above, new, rfl, hnew, htop⟩ := exists_find?_of_at?_cons htop
    rw [at?_overlay_cons key p below hd, hnew, hold]
    exact ih (hd.find? hnew) hbase htop

/-- What the upper document holds at a path where the base has no object is found there. -/
theorem at?_overlay_of_free (hd : Distinct top) (htop : top.at? p = some w)
    (hbase : ∀ below, base.at? p ≠ some (.object below)) : (overlay base top).at? p = some w := by
  induction p generalizing base top with
  | nil =>
    cases hb : base.isObject with
    | false => rw [overlay_of_base_not_object hb, htop]
    | true =>
      obtain ⟨below, rfl⟩ := exists_members hb
      exact absurd rfl (hbase below)
  | cons key p ih =>
    obtain ⟨above, new, rfl, hnew, hw⟩ := exists_find?_of_at?_cons htop
    cases hb : base.isObject with
    | false => rw [overlay_of_base_not_object hb, htop]
    | true =>
      obtain ⟨below, rfl⟩ := exists_members hb
      rw [at?_overlay_cons key p below hd, hnew]
      cases hold : find? key below with
      | none => exact hw
      | some old =>
        rw [at?_cons_object, hold] at hbase
        exact ih (hd.find? hnew) hw hbase

/-- What the base holds at a path that the upper document neither holds nor blocks is found there. -/
theorem at?_overlay_of_unblocked (hd : Distinct top) (hbase : base.at? p = some v)
    (htop : top.at? p = none)
    (hopen : ∀ q, q <+: p → ∀ w, top.at? q = some w → w.isObject = true) :
    (overlay base top).at? p = some v := by
  cases p with
  | nil => cases htop
  | cons key p =>
    obtain ⟨below, -, rfl, -⟩ := exists_find?_of_at?_cons hbase
    obtain ⟨above, rfl⟩ := exists_members (hopen [] List.nil_prefix top rfl)
    have huncut : ¬ IsCut (.object above) (key :: p) := by
      rintro ⟨q, ⟨-, hq, -⟩, w, hw, hobject⟩
      rw [hopen q hq w hw] at hobject
      cases hobject
    rw [at?_overlay_of_none hd htop huncut, hbase]

/-- Each part of two documents has its place when the one is laid over the other. -/
theorem isLaidOver_overlay (hd : Distinct top) (base : Json) :
    IsLaidOver base top (overlay base top) where
  keys _ below above hbase htop :=
    ⟨overlayMembers below above, overlay_object below above ▸ at?_overlay_of_both hd hbase htop,
      keys_overlayMembers (Distinct.at? hd htop) below⟩
  taken _ _ htop hv := at?_overlay_of_some hd htop hv
  added _ _ htop hbase := at?_overlay_of_free hd htop hbase
  kept _ _ hbase htop hopen := at?_overlay_of_unblocked hd hbase htop hopen

/-! ## Once more -/

/-- Laying a document over the result once more changes nothing. -/
theorem overlay_overlay_top (hbase : Distinct base) (htop : Distinct top) :
    overlay (overlay base top) top = overlay base top := by
  induction top using induction_on_members generalizing base with
  | step top inner =>
    cases ht : top.isObject with
    | false => rw [overlay_of_not_object ht, overlay_of_not_object ht]
    | true =>
      cases hb : base.isObject with
      | false => rw [overlay_of_base_not_object hb, overlay_self htop]
      | true =>
        obtain ⟨above, rfl⟩ := exists_members ht
        obtain ⟨below, rfl⟩ := exists_members hb
        rw [overlay_object, overlay_object]
        congr 1
        refine members_ext (distinctMembers_overlay above hbase htop) ?_ fun key => ?_
        · -- The upper document has no key that the result lacks.
          have hall : ∀ key ∈ keys above, key ∈ keys (overlayMembers below above) := by
            intro key hkey
            rw [keys_overlayMembers htop, List.mem_append, List.mem_filter, decide_eq_true_iff,
              and_iff_right hkey]
            exact Classical.em _
          rw [keys_overlayMembers htop (overlayMembers below above),
            List.filter_eq_nil_iff.mpr fun key hkey => by simp [hall key hkey], List.append_nil]
        · rw [find?_overlayMembers key htop, find?_overlayMembers key htop]
          cases hnew : find? key above with
          | none => rfl
          | some new =>
            have hdistinct := DistinctMembers.find? htop hnew
            cases hold : find? key below with
            | none => exact congrArg some (overlay_self hdistinct)
            | some old =>
              exact congrArg some (inner above key new rfl hnew
                (DistinctMembers.find? hbase hold) hdistinct)

/-- A document over itself is itself, laying one over the result again changes nothing, and each
part of the two has its place in the result. -/
theorem overlay_settles (hbase : Distinct base) (htop : Distinct top) :
    overlay base base = base ∧
      overlay (overlay base top) top = overlay base top ∧
      IsLaidOver base top (overlay base top) :=
  ⟨overlay_self hbase, overlay_overlay_top hbase htop, isLaidOver_overlay htop base⟩

/-- Two sections, and a document that changes both and comes with a third. -/
def twoSections : Json :=
  .object
    [("compiler",
        .object [("tsconfigFilePath", .string "a.json"), ("skipLibCheck", .boolean false)]),
      ("docModel", .null)]

def threeSections : Json :=
  .object
    [("docModel", .object [("enabled", .boolean true)]), ("bundledPackages", .array []),
      ("compiler", .object [("overrideTsconfig", .null), ("skipLibCheck", .boolean true)])]

theorem overlay_settles_sections :
    Distinct twoSections ∧ Distinct threeSections ∧
      overlay (overlay twoSections threeSections) threeSections =
        overlay twoSections threeSections ∧
      (overlay twoSections threeSections).at? ["compiler", "tsconfigFilePath"] =
        some (.string "a.json") ∧
      ∃ members, (overlay twoSections threeSections).at? ["compiler"] = some (.object members) ∧
        keys members = ["tsconfigFilePath", "skipLibCheck", "overrideTsconfig"] := by
  have hbase : Distinct twoSections := by simp [twoSections, Distinct, DistinctMembers, find?]
  have htop : Distinct threeSections := by
    simp [threeSections, Distinct, DistinctItems, DistinctMembers, find?]
  obtain ⟨-, hagain, hplaces⟩ := overlay_settles hbase htop
  obtain ⟨members, hmembers, hkeys⟩ := hplaces.keys ["compiler"] _ _ rfl rfl
  refine ⟨hbase, htop, hagain, hplaces.kept _ _ rfl rfl ?_, members, hmembers,
    hkeys.trans (by decide)⟩
  intro q hq w hw
  have hstart : q ∈ [[], ["compiler"], ["compiler", "tsconfigFilePath"]] :=
    (List.mem_inits _ _).mpr hq
  simp only [List.mem_cons, List.not_mem_nil, or_false] at hstart
  rcases hstart with rfl | rfl | rfl
  · cases hw
    rfl
  · cases hw
    rfl
  · cases hw

end ApiReview.Json
