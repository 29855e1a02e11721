import ApiReview.Proofs.Path.Kept
import ApiReview.Proofs.Path.Relative
import ApiReview.Proofs.Pipeline.Baseline

/-!
# Paths as they are shown

Below the project folder a path is shown as the way to it from there, and elsewhere as it is
written. Where no name has a backslash, what is shown leads from the project folder to the path
again, so different paths are shown differently (`resolve_shortPath`). With a backslash in a name
the way shown may be another one, for a slash takes its place.
-/

namespace ApiReview

open Text

namespace Path

variable {p base r : Path}

/-- No name of the path has a backslash. -/
def HasNoBackslash (p : Path) : Prop :=
  ∀ step ∈ p.steps, '\\' ∉ step.chars

instance (p : Path) : Decidable p.HasNoBackslash :=
  inferInstanceAs (Decidable (∀ step ∈ p.steps, '\\' ∉ step.chars))

theorem toSlashes_of_not_mem (h : '\\' ∉ r.text.toList) : r.toSlashes = r.text := by
  have hsame : ∀ c ∈ r.text.toList, (if c = '\\' then '/' else c) = c := fun c hc =>
    if_neg fun e : c = '\\' => h (e ▸ hc)
  rw [toSlashes, List.map_congr_left hsame, List.map_id', String.ofList_toList]

theorem mem_joinWith {sep c : Char} {pieces : List (List Char)} (h : c ∈ joinWith sep pieces) :
    c = sep ∨ ∃ piece ∈ pieces, c ∈ piece := by
  induction pieces with
  | nil => cases h
  | cons piece pieces ih =>
    cases pieces with
    | nil => exact .inr ⟨piece, List.mem_cons_self, h⟩
    | cons next pieces =>
      rcases List.mem_append.mp h with h | h
      · exact .inr ⟨piece, List.mem_cons_self, h⟩
      · rcases List.mem_cons.mp h with rfl | h
        · exact .inl rfl
        · exact (ih h).imp_right fun ⟨q, hq, hc⟩ => ⟨q, List.mem_cons_of_mem _ hq, hc⟩

/-- A normal path has no names but those of the path. -/
theorem HasNoBackslash.parts (h : p.HasNoBackslash) : ∀ step ∈ p.parts, '\\' ∉ step.chars := by
  intro step hm
  cases step with
  | name name =>
    rw [Path.parts, ← normalSteps_steps] at hm
    obtain ⟨before, behind, he, -⟩ := (name_mem_normalSteps_iff _).mp hm
    exact h _ (he ▸ List.mem_append_right _ List.mem_cons_self)
  | _ => decide

/-- The way to a path without backslashes has none. -/
theorem HasNoBackslash.toSlashes_relativeTo? (h : p.HasNoBackslash)
    (hr : p.relativeTo? base = some r) : r.toSlashes = r.text ∧ r.isAbsolute = false := by
  obtain ⟨rest, hsteps, rfl⟩ := relativeTo?_eq_some_iff.mp hr
  have hparts := (steps_normalize_eq_append_iff.mp hsteps).2.1
  refine ⟨toSlashes_of_not_mem fun hm => ?_,
    isAbsolute_relative (isPiece_of_parts_eq_append hparts)⟩
  rw [relative, String.toList_ofList] at hm
  rcases mem_joinWith hm with e | ⟨piece, hpiece, hc⟩
  · cases e
  · obtain ⟨step, hstep, rfl⟩ := List.mem_map.mp hpiece
    exact h.parts step (hparts ▸ List.mem_append_right _ hstep) hc

/-- What is shown of a path from the root leads to it. -/
theorem HasNoBackslash.resolve_shortFrom (h : p.HasNoBackslash) (hp : p.isAbsolute = true)
    (base : Path) : base.resolve ⟨base.shortFrom p⟩ = p.normalize := by
  have hwritten : base.resolve ⟨p.text⟩ = p.normalize := if_pos hp
  unfold shortFrom
  split
  · rename_i r hr
    split
    · exact hwritten
    · obtain ⟨hslashes, hrelative⟩ := h.toSlashes_relativeTo? hr
      have hresolve : base.resolve r = (base.join r).normalize :=
        if_neg (Bool.eq_false_iff.mp hrelative)
      rw [hslashes]
      exact hresolve.trans (normalize_join_of_relativeTo? hr)
  · exact hwritten

end Path

namespace Settings

/-- A path from the root is shown as a path that leads to it from the project folder, be it below
that folder, the folder itself or elsewhere. So two paths that are shown alike are one path. -/
theorem resolve_shortPath (s : Settings) :
    (∀ p : Path, p.isAbsolute = true → p.HasNoBackslash →
      s.projectFolder.resolve ⟨s.shortPath p⟩ = p.normalize) ∧
    ∀ p q : Path, p.isAbsolute = true → p.HasNoBackslash → q.isAbsolute = true →
      q.HasNoBackslash → p.normalize ≠ q.normalize → s.shortPath p ≠ s.shortPath q := by
  refine ⟨fun p hp h => h.resolve_shortFrom hp _, fun p q hp hpb hq hqb hne he => hne ?_⟩
  calc p.normalize = s.projectFolder.resolve ⟨s.shortPath p⟩ := (hpb.resolve_shortFrom hp _).symm
    _ = s.projectFolder.resolve ⟨s.shortPath q⟩ := by rw [he]
    _ = q.normalize := hqb.resolve_shortFrom hq _

/-- A folder that is not normal, with a path below it, the folder itself, and a path beside it that
begins with the same letters. -/
theorem resolve_shortPath_beside :
    ∃ s : Settings, s.projectFolder = ⟨"/repo/../p/./"⟩ ∧
      s.shortPath ⟨"/p/lib/../etc//p.api.md"⟩ = "etc/p.api.md" ∧
      s.projectFolder.resolve ⟨s.shortPath ⟨"/p/lib/../etc//p.api.md"⟩⟩ = ⟨"/p/etc/p.api.md"⟩ ∧
      s.projectFolder.resolve ⟨s.shortPath ⟨"/p/x/.."⟩⟩ = ⟨"/p"⟩ ∧
      s.shortPath ⟨"/p/x/.."⟩ ≠ s.shortPath ⟨"/pq/x"⟩ := by
  obtain ⟨s, -, -⟩ : ∃ s, prepare acceptedTree (stagingInput "<projectFolder>/temp") = .ok s ∧
      s.projectFolder = ⟨"/p"⟩ := exists_ok_of_map (by decide +kernel)
  obtain ⟨hleads, hapart⟩ := resolve_shortPath { s with projectFolder := ⟨"/repo/../p/./"⟩ }
  refine ⟨_, rfl, ?_, ?_, ?_, hapart _ _ (by decide) (by decide) (by decide) (by decide)
    (by decide +kernel)⟩
  · show Path.shortFrom ⟨"/repo/../p/./"⟩ _ = _
    decide +kernel
  · exact (hleads ⟨"/p/lib/../etc//p.api.md"⟩ (by decide) (by decide)).trans (by decide +kernel)
  · exact (hleads ⟨"/p/x/.."⟩ (by decide) (by decide)).trans (by decide +kernel)

end Settings

end ApiReview
