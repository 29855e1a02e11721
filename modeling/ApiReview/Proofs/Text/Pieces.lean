import ApiReview.Text.Basic

/-!
# The pieces of a text

Cutting at a separator undoes joining with it (`splitOn_joinWith`), so pieces without separators are
as good as the text that they are joined to.
-/

namespace ApiReview.Text

variable {sep : Char}

theorem splitOn_cons_self (s : List Char) : splitOn sep (sep :: s) = [] :: splitOn sep s := by
  rw [splitOn, if_pos rfl]

theorem splitOn_cons_of_ne {c : Char} (h : c ≠ sep) {s piece : List Char}
    {pieces : List (List Char)} (hs : splitOn sep s = piece :: pieces) :
    splitOn sep (c :: s) = (c :: piece) :: pieces := by
  rw [splitOn, if_neg h, hs]

theorem splitOn_of_not_mem {s : List Char} (h : sep ∉ s) : splitOn sep s = [s] := by
  induction s with
  | nil => rfl
  | cons c s ih =>
    rw [List.mem_cons, not_or] at h
    exact splitOn_cons_of_ne (Ne.symm h.1) (ih h.2)

/-- No piece holds the separator. -/
theorem not_mem_of_mem_splitOn {s piece : List Char} (h : piece ∈ splitOn sep s) : sep ∉ piece := by
  induction s generalizing piece with
  | nil =>
    rw [splitOn, List.mem_singleton] at h
    rw [h]
    exact List.not_mem_nil
  | cons c s ih =>
    by_cases hc : c = sep
    · subst hc
      rw [splitOn_cons_self] at h
      rcases List.mem_cons.mp h with rfl | h
      · exact List.not_mem_nil
      · exact ih h
    · obtain ⟨first, rest, hs⟩ := List.exists_cons_of_ne_nil (splitOn_ne_nil sep s)
      rw [splitOn_cons_of_ne hc hs] at h
      rw [hs] at ih
      rcases List.mem_cons.mp h with rfl | h
      · rw [List.mem_cons, not_or]
        exact ⟨Ne.symm hc, ih List.mem_cons_self⟩
      · exact ih (List.mem_cons_of_mem _ h)

/-- The pieces of two texts one behind the other are those of each, but for the last of the first
and the first of the second, which are one. -/
theorem splitOn_append {s' first : List Char} {rest : List (List Char)}
    (h : splitOn sep s' = first :: rest) (s : List Char) :
    ∃ front last, splitOn sep s = front ++ [last] ∧
      splitOn sep (s ++ s') = front ++ (last ++ first) :: rest := by
  induction s with
  | nil => exact ⟨[], [], rfl, h⟩
  | cons c s ih =>
    obtain ⟨front, last, hs, happend⟩ := ih
    rw [List.cons_append]
    by_cases hc : c = sep
    · subst hc
      refine ⟨[] :: front, last, ?_, ?_⟩
      · rw [splitOn_cons_self, hs, List.cons_append]
      · rw [splitOn_cons_self, happend, List.cons_append]
    · cases front with
      | nil => exact ⟨[], c :: last, splitOn_cons_of_ne hc hs, splitOn_cons_of_ne hc happend⟩
      | cons piece front =>
        exact ⟨(c :: piece) :: front, last, splitOn_cons_of_ne hc hs,
          splitOn_cons_of_ne hc happend⟩

theorem splitOn_append_sep (s s' : List Char) :
    splitOn sep (s ++ sep :: s') = splitOn sep s ++ splitOn sep s' := by
  have hcut : splitOn sep (sep :: s') = [] :: splitOn sep s' := splitOn_cons_self s'
  obtain ⟨front, last, hs, happend⟩ := splitOn_append hcut s
  rw [happend, hs, List.append_nil, List.append_assoc, List.singleton_append]

/-- What holds no separator goes on the last piece. -/
theorem splitOn_append_of_not_mem {tail : List Char} (h : sep ∉ tail) (s : List Char) :
    ∃ front last, splitOn sep s = front ++ [last] ∧
      splitOn sep (s ++ tail) = front ++ [last ++ tail] :=
  splitOn_append (splitOn_of_not_mem h) s

theorem length_le_joinWith {piece : List Char} {pieces : List (List Char)} (h : piece ∈ pieces) :
    piece.length ≤ (joinWith sep pieces).length := by
  induction pieces with
  | nil => cases h
  | cons first pieces ih =>
    cases pieces with
    | nil =>
      rw [List.mem_singleton.mp h]
      exact Nat.le_refl _
    | cons next pieces =>
      rw [joinWith, List.length_append, List.length_cons]
      rcases List.mem_cons.mp h with rfl | h
      · omega
      · have hnext := ih h
        omega

theorem length_le_of_mem_splitOn {s piece : List Char} (h : piece ∈ splitOn sep s) :
    piece.length ≤ s.length := by
  have hle : piece.length ≤ (joinWith sep (splitOn sep s)).length := length_le_joinWith h
  rwa [joinWith_splitOn] at hle

/-- Between the first piece and another one stands a separator. -/
theorem length_lt_of_splitOn {s first piece : List Char} {rest : List (List Char)}
    (h : splitOn sep s = first :: rest) (hp : piece ∈ rest) :
    first.length + piece.length < s.length := by
  cases rest with
  | nil => cases hp
  | cons next rest =>
    have hle : piece.length ≤ (joinWith sep (next :: rest)).length := length_le_joinWith hp
    rw [← joinWith_splitOn sep s, h, joinWith, List.length_append, List.length_cons]
    omega

/-- Cutting undoes joining. -/
theorem splitOn_joinWith {pieces : List (List Char)} (hn : pieces ≠ [])
    (h : ∀ piece ∈ pieces, sep ∉ piece) : splitOn sep (joinWith sep pieces) = pieces := by
  induction pieces with
  | nil => exact absurd rfl hn
  | cons piece pieces ih =>
    have hp := splitOn_of_not_mem (h piece List.mem_cons_self)
    cases pieces with
    | nil => exact hp
    | cons next pieces =>
      rw [joinWith, splitOn_append_sep, hp,
        ih (List.cons_ne_nil _ _) fun q hq => h q (List.mem_cons_of_mem _ hq)]
      rfl

/-- A text is cut at its first separator. -/
theorem cutAt?_eq_some_iff {s front behind : List Char} :
    cutAt? sep s = some (front, behind) ↔ sep ∉ front ∧ s = front ++ sep :: behind := by
  induction s generalizing front with
  | nil => simp [cutAt?]
  | cons c s ih =>
    rw [cutAt?]
    by_cases hc : c = sep
    · subst hc
      cases front with
      | nil => simp
      | cons d front =>
        rw [if_pos rfl, List.cons_append, List.cons_eq_cons, List.mem_cons, not_or]
        exact iff_of_false (by simp) fun h => h.1.1 h.2.1
    · rw [if_neg hc, Option.map_eq_some_iff]
      cases front with
      | nil => simp [hc]
      | cons d front =>
        rw [List.cons_append, List.cons_eq_cons, List.mem_cons, not_or]
        constructor
        · rintro ⟨cut, hcut, he⟩
          cases he
          obtain ⟨hnot, hs⟩ := ih.mp hcut
          exact ⟨⟨Ne.symm hc, hnot⟩, rfl, hs⟩
        · rintro ⟨⟨-, hnot⟩, rfl, hs⟩
          exact ⟨(front, behind), ih.mpr ⟨hnot, hs⟩, rfl⟩

end ApiReview.Text
