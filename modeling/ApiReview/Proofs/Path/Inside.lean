import ApiReview.Proofs.Files.Place
import ApiReview.Proofs.Path.Relative

/-!
# Paths inside a folder

A path from the root is told by its parts, which are names. It lies in a folder exactly if its parts
begin with those of the folder (`isUnderOrEqual_iff_parts`), and then so does its place
(`place_prefix_of_isUnderOrEqual`). A relative path that never goes up above where it starts goes on
from the parts of its folder (`parts_join_of_risesAtMost`).
-/

namespace ApiReview.Path

variable {p folder r : Path} {names : List Step}

theorem allNames_parts (hp : p.isAbsolute = true) : AllNames p.parts := by
  obtain ⟨ups, names, he, hnames, hups⟩ := isParts_parts p
  rw [he, hups hp]
  exact hnames

theorem normalize_eq_fromRoot_parts (hp : p.isAbsolute = true) :
    p.normalize = fromRoot p.parts := by
  rw [normalize, if_pos hp, normalSteps_steps, parts, hp]

theorem parts_fromRoot (hn : AllNames names) : (fromRoot names).parts = names := by
  have hsteps := steps_normalize_eq_append (fromRoot names)
  rw [normalize_fromRoot hn, steps_fromRoot hn, isAbsolute_fromRoot] at hsteps
  exact (List.cons.inj hsteps).2.symm

theorem isUnderOrEqual_iff_parts (hp : p.isAbsolute = true) (hf : folder.isAbsolute = true) :
    p.isUnderOrEqual folder = true ↔ folder.parts <+: p.parts := by
  have hdot : folder.normalize ≠ ⟨"."⟩ := fun h => by
    rw [(normalize_eq_dot_iff.mp h).1] at hf
    cases hf
  rw [isUnderOrEqual, List.isPrefixOf_iff_prefix]
  refine exists_congr fun rest => ?_
  rw [eq_comm, steps_normalize_eq_append_iff, hp, hf, eq_comm (a := p.parts)]
  simp [hdot]

theorem place_eq_parts (hp : p.isAbsolute = true) : p.place = p.parts.filterMap Step.name? := by
  rw [place, normalSteps_steps, parts, hp]

/-- What lies in a folder leads to a place in the place of the folder. -/
theorem place_prefix_of_isUnderOrEqual (hp : p.isAbsolute = true) (hf : folder.isAbsolute = true)
    (h : p.isUnderOrEqual folder = true) : folder.place <+: p.place := by
  rw [place_eq_parts hp, place_eq_parts hf]
  exact ((isUnderOrEqual_iff_parts hp hf).mp h).filterMap _

/-! ## Ways that do not go up above their start -/

/-- The anchor of a path does not rise. -/
theorem risesAtMost_steps_iff {depth : Nat} (p : Path) :
    RisesAtMost depth p.steps ↔ RisesAtMost depth (pieceSteps p.text.toList) := by
  rw [steps_eq_append]
  cases (split p.text.toList).1 with
  | root => exact risesAtMost_cons_of_silent (by decide) rfl
  | here => exact risesAtMost_cons_of_silent (by decide) rfl
  | free => exact Iff.rfl

theorem parts_join_of_risesAtMost (hf : folder.isAbsolute = true) (hr : r.isAbsolute = false)
    (hrises : RisesAtMost 0 r.steps) :
    (folder.join r).parts = folder.parts ++ normalSteps true (pieceSteps r.text.toList) := by
  rw [parts_join hr, hf]
  exact normalSteps_below (allNames_parts hf) ((risesAtMost_steps_iff r).mp hrises)

theorem resolve_of_risesAtMost (hf : folder.isAbsolute = true) (hr : r.isAbsolute = false)
    (hrises : RisesAtMost 0 r.steps) :
    folder.resolve r = fromRoot (folder.parts ++ normalSteps true (pieceSteps r.text.toList)) := by
  rw [resolve_of_relative hr, normalize_eq_fromRoot_parts (isAbsolute_join hf),
    parts_join_of_risesAtMost hf hr hrises]

theorem allNames_way (hf : folder.isAbsolute = true) (hr : r.isAbsolute = false)
    (hrises : RisesAtMost 0 r.steps) :
    AllNames (folder.parts ++ normalSteps true (pieceSteps r.text.toList)) := by
  rw [← parts_join_of_risesAtMost hf hr hrises]
  exact allNames_parts (isAbsolute_join hf)

/-- Such a way leads back to its folder exactly if nothing of it is left. -/
theorem resolve_eq_normalize_iff (hf : folder.isAbsolute = true) (hr : r.isAbsolute = false)
    (hrises : RisesAtMost 0 r.steps) :
    folder.resolve r = folder.normalize ↔ normalSteps true (pieceSteps r.text.toList) = [] := by
  rw [resolve_of_risesAtMost hf hr hrises, normalize_eq_fromRoot_parts hf]
  constructor
  · intro h
    have hparts := congrArg parts h
    rw [parts_fromRoot (allNames_way hf hr hrises), parts_fromRoot (allNames_parts hf)] at hparts
    exact List.append_right_eq_self.mp hparts
  · intro h
    rw [h, List.append_nil]

/-- A name goes on from any folder. -/
theorem parts_join_name (hf : folder.isAbsolute = true) (hr : (Step.name r.text.toList).IsName) :
    (folder.join r).parts = folder.parts ++ [.name r.text.toList] := by
  have hpieces : pieceSteps r.text.toList = [.name r.text.toList] := by
    rw [pieceSteps, Text.splitOn_of_not_mem hr.2, List.filterMap_cons_some hr.1]
    rfl
  have hnames : AllNames (folder.parts ++ [.name r.text.toList]) := (allNames_parts hf).concat hr
  rw [parts_join (isAbsolute_of_isName hr), hf, hpieces]
  exact IsParts.normalSteps_eq ⟨0, _, rfl, hnames, fun _ => rfl⟩

/-- The folder of a path has its parts but the last. -/
theorem parent?_getD_fromRoot (hn : AllNames names) :
    (fromRoot names).parent?.getD (fromRoot names) = fromRoot names.dropLast := by
  rcases List.eq_nil_or_concat names with rfl | ⟨front, step, rfl⟩
  · rw [parent?, parents_fromRoot_nil]
    rfl
  · rw [List.concat_eq_append] at hn ⊢
    obtain ⟨hfront, hstep⟩ := hn.of_concat
    rw [parent?_fromRoot_concat hfront hstep, List.dropLast_concat]
    rfl

end ApiReview.Path
