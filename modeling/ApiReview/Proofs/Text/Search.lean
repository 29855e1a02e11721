import ApiReview.Text.Basic

/-!
# Searching

The searches of texts are those of lists (`occursIn_iff`, `startsWith_iff`). What has no separator
occurs in joined pieces exactly if it occurs in one of them (`infix_joinWith_iff`).
-/

namespace ApiReview.Text

variable {part : List Char} {sep : Char}

theorem occursIn_iff {s : List Char} : occursIn part s = true ↔ part <:+: s := by
  induction s with
  | nil => rw [occursIn, List.isEmpty_iff, List.infix_nil]
  | cons c s ih =>
    rw [occursIn, Bool.or_eq_true, List.isPrefixOf_iff_prefix, ih, List.infix_cons_iff]

theorem contains_iff {part s : String} : contains part s = true ↔ part.toList <:+: s.toList :=
  occursIn_iff

theorem startsWith_iff {start s : String} :
    startsWith start s = true ↔ start.toList <+: s.toList :=
  List.isPrefixOf_iff_prefix

theorem afterStart?_eq_some_iff {start s rest : List Char} :
    afterStart? start s = some rest ↔ s = start ++ rest := by
  induction start generalizing s with
  | nil => rw [afterStart?, Option.some_inj, List.nil_append]
  | cons c start ih =>
    cases s with
    | nil => simp only [afterStart?, List.cons_append, reduceCtorEq]
    | cons d s =>
      rw [afterStart?, List.cons_append, List.cons_eq_cons]
      split
      · rename_i h
        rw [ih, h]
        exact (and_iff_right rfl).symm
      · rename_i h
        simp only [reduceCtorEq, false_iff, not_and]
        exact fun e => absurd e.symm h

theorem stripStart?_eq_some_iff {start s rest : String} :
    stripStart? start s = some rest ↔ s.toList = start.toList ++ rest.toList := by
  rw [stripStart?, Option.map_eq_some_iff]
  constructor
  · rintro ⟨chars, h, rfl⟩
    rw [afterStart?_eq_some_iff.mp h, String.toList_ofList]
  · intro h
    exact ⟨rest.toList, afterStart?_eq_some_iff.mpr h, String.ofList_toList⟩

/-- What has no separator occurs on one side of it. -/
theorem infix_append_sep_iff (h : sep ∉ part) {s s' : List Char} :
    part <:+: s ++ sep :: s' ↔ part <:+: s ∨ part <:+: s' := by
  have hstart : ∀ {part' : List Char}, sep ∉ part' → part' <+: sep :: s' → part' = [] := by
    intro part' hsep hp
    rcases List.prefix_cons_iff.mp hp with rfl | ⟨rest, rfl, -⟩
    · rfl
    · exact absurd List.mem_cons_self hsep
  rw [List.infix_append_iff, List.infix_cons_iff]
  constructor
  · rintro (h' | (h' | h') | ⟨front, back, rfl, hfront, hback⟩)
    · exact .inl h'
    · rw [hstart h h']
      exact .inl (List.nil_infix)
    · exact .inr h'
    · rw [hstart (fun hm => h (List.mem_append_right _ hm)) hback, List.append_nil]
      exact .inl hfront.isInfix
  · rintro (h' | h')
    · exact .inl h'
    · exact .inr (.inl (.inr h'))

/-- What has no separator occurs in joined pieces exactly if it occurs in one of them. -/
theorem infix_joinWith_iff (h : sep ∉ part) (hne : part ≠ []) {pieces : List (List Char)} :
    part <:+: joinWith sep pieces ↔ ∃ piece ∈ pieces, part <:+: piece := by
  induction pieces with
  | nil =>
    simp only [joinWith, List.infix_nil, hne, List.not_mem_nil, false_and, exists_false]
  | cons piece pieces ih =>
    cases pieces with
    | nil => simp only [joinWith, List.mem_singleton, exists_eq_left]
    | cons next pieces =>
      rw [joinWith, infix_append_sep_iff h, ih]
      simp only [List.mem_cons, exists_eq_or_imp]

end ApiReview.Text
