import ApiReview.Proofs.Files.Place

/-!
# How a path is spelled

A tree does not see how a path to a file is spelled: paths that end in a name and make the same
steps name the same file, as long as they are short enough to be looked up (`isFile_congr`). What
repeated slashes and dots between the names add is one more check that a folder is a folder.
-/

namespace ApiReview

open Text

namespace Path

/-- The pieces of a path that make a step. -/
def loudPieces (p : Path) : List (List Char) :=
  (split p.text.toList).2.filter fun piece => !isSilent piece

/-- Whether the last piece of a path makes a step. -/
def EndsLoud (p : Path) : Prop :=
  ∃ front last, (split p.text.toList).2 = front ++ [last] ∧ isSilent last = false

theorem filter_isSilent (pieces : List (List Char)) :
    pieces.filter (fun piece => !isSilent piece) = (pieces.filterMap stepOf?).map Step.chars := by
  induction pieces with
  | nil => rfl
  | cons piece pieces ih =>
    rcases piece_cases piece with ⟨hstep, hsilent⟩ | ⟨step, hstep, rfl⟩
    · have hs : isSilent piece = true := by rcases hsilent with rfl | rfl <;> rfl
      rw [List.filter_cons_of_neg (by simp [hs]), List.filterMap_cons_none hstep, ih]
    · have hs : isSilent step.chars = false := by
        cases hs : isSilent step.chars with
        | false => rfl
        | true =>
          rw [stepOf?, if_pos hs] at hstep
          cases hstep
      rw [List.filter_cons_of_pos (by simp [hs]), List.filterMap_cons_some hstep, ih,
        List.map_cons]

/-- Pieces make no step by which a path starts. -/
theorem anchor_steps_inj {a b : Anchor} {pieces more : List (List Char)}
    (h : a.steps ++ pieces.filterMap stepOf? = b.steps ++ more.filterMap stepOf?) :
    a = b ∧ pieces.filterMap stepOf? = more.filterMap stepOf? := by
  have hno : ∀ (pieces : List (List Char)) (rest : List Step) (step : Step),
      step = .root ∨ step = .here → pieces.filterMap stepOf? ≠ step :: rest := by
    intro pieces rest step hstep h
    have hmem : step ∈ pieces.filterMap stepOf? := h ▸ List.mem_cons_self
    obtain ⟨piece, -, hp⟩ := List.mem_filterMap.mp hmem
    rcases stepOf?_eq_some hp with ⟨-, rfl⟩ | rfl <;> rcases hstep with h | h <;> cases h
  cases a <;> cases b <;>
    simp only [Anchor.steps, List.cons_append, List.nil_append, List.cons.injEq, true_and,
      reduceCtorEq, false_and] at h
  · exact ⟨rfl, h⟩
  · exact absurd h.symm (hno more _ _ (.inl rfl))
  · exact ⟨rfl, h⟩
  · exact absurd h.symm (hno more _ _ (.inr rfl))
  · exact absurd h (hno pieces _ _ (.inl rfl))
  · exact absurd h (hno pieces _ _ (.inr rfl))
  · exact ⟨rfl, h⟩

/-- Paths with the same steps start alike and have the same pieces that make a step. -/
theorem spelled_of_same {p q : Path} (h : p.same q = true) :
    (split p.text.toList).1 = (split q.text.toList).1 ∧ p.loudPieces = q.loudPieces := by
  have hs : p.steps = q.steps := of_decide_eq_true h
  obtain ⟨ha, hp⟩ := anchor_steps_inj hs
  exact ⟨ha, by rw [loudPieces, loudPieces, filter_isSilent, filter_isSilent, hp]⟩

/-- A character that is no slash stands in a path if it stands in a piece that makes a step. -/
theorem zero_mem_iff (p : Path) :
    '\x00' ∈ p.text.toList ↔ ∃ piece ∈ p.loudPieces, '\x00' ∈ piece := by
  have hjoin : ∀ pieces : List (List Char),
      '\x00' ∈ joinWith '/' pieces ↔ ∃ piece ∈ pieces, '\x00' ∈ piece := by
    intro pieces
    induction pieces with
    | nil => simp [joinWith]
    | cons piece pieces ih =>
      cases pieces with
      | nil => simp [joinWith]
      | cons next pieces =>
        rw [joinWith, List.mem_append, List.mem_cons, ih]
        simp
  have hanchor : '\x00' ∉ (split p.text.toList).1.chars := by
    cases (split p.text.toList).1 <;> simp [Anchor.chars]
  rw [← written_split p.text.toList, written, List.mem_append, or_iff_right hanchor, hjoin]
  constructor
  · rintro ⟨piece, hmem, hzero⟩
    refine ⟨piece, List.mem_filter.mpr ⟨hmem, ?_⟩, hzero⟩
    rcases piece_cases piece with ⟨-, rfl | rfl⟩ | ⟨step, hstep, -⟩
    · cases hzero
    · simp at hzero
    · cases hs : isSilent piece with
      | false => rfl
      | true =>
        rw [stepOf?, if_pos hs] at hstep
        cases hstep
  · rintro ⟨piece, hmem, hzero⟩
    exact ⟨piece, (List.mem_filter.mp hmem).1, hzero⟩

end Path

namespace FileTree

/-- Pieces that make no step change at most the error of a walk to a last piece that makes one. -/
theorem toOption_walk_filter (t : FileTree) (place : Place) {front : List (List Char)}
    {last : List Char} (hl : Path.isSilent last = false) :
    (t.walk place (front ++ [last])).toOption =
      (t.walk place ((front ++ [last]).filter fun piece => !Path.isSilent piece)).toOption := by
  induction front generalizing place with
  | nil => simp [hl]
  | cons piece front ih =>
    rw [List.cons_append]
    cases hs : Path.isSilent piece with
    | false =>
      rw [List.filter_cons_of_pos (by rw [hs]; rfl), walk, walk, hs]
      split
      · rfl
      · split
        · rename_i hfalse
          cases hfalse
        · split
          · exact ih _
          · split
            · rfl
            · split
              · rfl
              · exact ih _
    | true =>
      rw [List.filter_cons_of_neg (by rw [hs]; decide), ← ih, walk, hs]
      split
      · rename_i hfolder
        obtain ⟨next, rest, hnext⟩ := List.exists_cons_of_ne_nil
          (List.append_ne_nil_of_right_ne_nil front (List.cons_ne_nil last []))
        rw [hnext, walk, if_pos hfolder]
      · rw [if_pos rfl]

/-- The place that an anchor stands for. -/
def anchorPlace (t : FileTree) : Path.Anchor → Place
  | .root => []
  | _ => t.workingFolder

theorem toOption_locate (t : FileTree) {p : Path} (hp : p.EndsLoud)
    (hps : p.text.utf8ByteSize ≤ maxPathBytes) :
    (t.locate p).toOption =
      if p.text.toList.contains '\x00' then none
      else (t.walk (t.anchorPlace (Path.split p.text.toList).1) p.loudPieces).toOption := by
  obtain ⟨front, last, hpieces, hlast⟩ := hp
  have htext : p.text ≠ "" := by
    intro hempty
    rw [hempty] at hpieces
    have hmem : last ∈ (Path.split "".toList).2 := by
      rw [hpieces]
      exact List.mem_append_right front List.mem_cons_self
    rw [List.mem_singleton.mp hmem] at hlast
    cases hlast
  rw [locate, startOf, if_neg htext, if_neg (Nat.not_lt.mpr hps), Path.loudPieces]
  split
  · rfl
  · rcases hs : Path.split p.text.toList with ⟨anchor, pieces⟩
    obtain rfl : pieces = front ++ [last] := by rw [← hpieces, hs]
    show _ = (t.walk (t.anchorPlace anchor)
      ((front ++ [last]).filter fun piece => !Path.isSilent piece)).toOption
    rw [← toOption_walk_filter t _ hlast]
    cases anchor <;> rfl

/-- How a path to a file is spelled says nothing about whether the file exists. -/
theorem isFile_congr (t : FileTree) {p q : Path} (h : p.same q = true) (hp : p.EndsLoud)
    (hq : q.EndsLoud) (hps : p.text.utf8ByteSize ≤ maxPathBytes)
    (hqs : q.text.utf8ByteSize ≤ maxPathBytes) : t.isFile p = t.isFile q := by
  obtain ⟨hanchor, hloud⟩ := Path.spelled_of_same h
  have hlocate : (t.locate p).toOption = (t.locate q).toOption := by
    have hzero : p.text.toList.contains '\x00' = q.text.toList.contains '\x00' := by
      rw [Bool.eq_iff_iff, List.contains_iff_mem, List.contains_iff_mem, Path.zero_mem_iff,
        Path.zero_mem_iff, hloud]
    rw [toOption_locate t hp hps, toOption_locate t hq hqs, hzero, hanchor, hloud]
  rw [isFile, isFile, find, find]
  cases hlp : t.locate p <;> cases hlq : t.locate q <;> rw [hlp, hlq] at hlocate <;>
    cases hlocate <;> rfl

end FileTree

end ApiReview
