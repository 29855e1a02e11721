import ApiReview.Package.Name
import ApiReview.Proofs.Text.Pieces

/-!
# Which package names are accepted

A text is accepted exactly if it has the form of a package name: a part, or a scope and a part, in
at most 214 bytes (`problem?_eq_none_iff`). What is left of such a name without its scope is a part,
and so a name that is accepted itself (`IsName.unscoped`).
-/

namespace ApiReview.PackageName

open Text

variable {name : String} {scope part rest : List Char} {c : Char}

/-- A part of a package name: ASCII letters, digits, hyphens, underscores and dots, at least one of
them, and neither a dot nor an underscore first. -/
structure IsPart (part : List Char) : Prop where
  ne_nil : part ≠ []
  chars : ∀ c ∈ part, c.isAlphanum = true ∨ c = '-' ∨ c = '_' ∨ c = '.'
  start : part.head? ≠ some '.' ∧ part.head? ≠ some '_'

/-- A package name: a part, or a scope and a part, in at most 214 bytes. -/
structure IsName (name : String) : Prop where
  size : name.utf8ByteSize ≤ 214
  form : IsPart name.toList ∨
    ∃ scope part, name.toList = '@' :: (scope ++ '/' :: part) ∧ IsPart scope ∧ IsPart part

/-! ## Parts -/

theorem isPartChar_iff :
    isPartChar c = true ↔ c.isAlphanum = true ∨ c = '-' ∨ c = '_' ∨ c = '.' := by
  simp only [isPartChar, Bool.or_eq_true, decide_eq_true_eq, or_assoc]

theorem IsPart.not_mem (h : IsPart part) (hc : isPartChar c = false) : c ∉ part :=
  fun hm => Bool.eq_false_iff.mp hc (isPartChar_iff.mpr (h.chars c hm))

/-- No other characters stand in a part. -/
theorem IsPart.any_eq_false (h : IsPart part) {p : Char → Bool}
    (hp : ∀ c, p c = true → isPartChar c = false) : part.any p = false :=
  List.any_eq_false.mpr fun c hc hpc => h.not_mem (hp c hpc) hc

theorem partProblem?_eq_none_iff (hne : part ≠ []) : partProblem? part = none ↔ IsPart part := by
  rw [partProblem?]
  split
  · rename_i hstart
    refine iff_of_false (Option.some_ne_none _) fun h => ?_
    simp only [Bool.or_eq_true, decide_eq_true_eq] at hstart
    exact hstart.elim h.start.1 h.start.2
  · rename_i hstart
    simp only [Bool.or_eq_true, decide_eq_true_eq, not_or] at hstart
    split
    · rename_i hall
      exact iff_of_true rfl
        ⟨hne, fun c hc => isPartChar_iff.mp (List.all_eq_true.mp hall c hc), hstart⟩
    · rename_i hall
      exact iff_of_false (Option.some_ne_none _) fun h =>
        hall (List.all_eq_true.mpr fun c hc => isPartChar_iff.mpr (h.chars c hc))

theorem unscopedProblem?_eq_none_iff : unscopedProblem? part = none ↔ IsPart part := by
  rw [unscopedProblem?]
  split
  · rename_i hnil
    exact iff_of_false (Option.some_ne_none _) fun h => h.ne_nil hnil
  · rename_i hne
    exact partProblem?_eq_none_iff hne

/-! ## Names -/

/-- The scope ends at the first slash. -/
theorem IsPart.cutAt? (h : IsPart scope) (part : List Char) :
    cutAt? '/' (scope ++ '/' :: part) = some (scope, part) :=
  cutAt?_eq_some_iff.mpr ⟨h.not_mem rfl, rfl⟩

/-- No part begins as a scope does. -/
theorem not_isPart_scoped : ¬ IsPart ('@' :: rest) :=
  fun h => h.not_mem (c := '@') rfl List.mem_cons_self

/-- Behind the sign of a scope, its part and the other one are told by the first slash. -/
theorem scopedProblem?_eq_none_iff :
    (match Text.cutAt? '/' rest with
      | none => some Problem.scopeWithoutName
      | some (scope, part) =>
        if scope = [] then some Problem.emptyScope
        else (partProblem? scope).or (unscopedProblem? part)) = none ↔
      ∃ scope part, rest = scope ++ '/' :: part ∧ IsPart scope ∧ IsPart part := by
  cases hcut : Text.cutAt? '/' rest with
  | none =>
    refine iff_of_false (Option.some_ne_none _) ?_
    rintro ⟨scope, part, rfl, hscope, -⟩
    rw [hscope.cutAt?] at hcut
    cases hcut
  | some cut =>
    obtain ⟨scope, part⟩ := cut
    have hparts : (if scope = [] then some Problem.emptyScope
        else (partProblem? scope).or (unscopedProblem? part)) = none ↔
        IsPart scope ∧ IsPart part := by
      split
      · rename_i hnil
        exact iff_of_false (Option.some_ne_none _) fun h => h.1.ne_nil hnil
      · rename_i hne
        rw [Option.or_eq_none_iff, partProblem?_eq_none_iff hne, unscopedProblem?_eq_none_iff]
    refine hparts.trans ⟨fun h => ⟨scope, part, (cutAt?_eq_some_iff.mp hcut).2, h⟩, ?_⟩
    -- The text is cut where any scope and part of it meet, for the scope has no slash.
    rintro ⟨scope', part', rfl, hscope, hpart⟩
    rw [hscope.cutAt?] at hcut
    cases hcut
    exact ⟨hscope, hpart⟩

/-- The accepted texts are the package names. -/
theorem problem?_eq_none_iff : problem? name = none ↔ IsName name := by
  have hname : IsName name ↔ name.utf8ByteSize ≤ 214 ∧ (IsPart name.toList ∨
      ∃ scope part, name.toList = '@' :: (scope ++ '/' :: part) ∧ IsPart scope ∧ IsPart part) :=
    ⟨fun h => ⟨h.size, h.form⟩, fun h => ⟨h.1, h.2⟩⟩
  rw [hname, problem?]
  split
  · rename_i hempty
    refine iff_of_false (Option.some_ne_none _) ?_
    rw [hempty]
    rintro ⟨-, hpart | ⟨scope, part, hscoped, -⟩⟩
    · exact hpart.ne_nil rfl
    · cases hscoped
  split
  · rename_i hlong
    exact iff_of_false (Option.some_ne_none _) fun h => Nat.not_le_of_lt hlong h.1
  rename_i hshort
  have hsize : name.utf8ByteSize ≤ 214 := Nat.not_lt.mp hshort
  rw [and_iff_right hsize]
  split
  · rename_i rest hrest
    rw [hrest, or_iff_right not_isPart_scoped]
    simp only [List.cons.injEq, true_and]
    exact scopedProblem?_eq_none_iff
  · rename_i hnot
    rw [or_iff_left fun ⟨_, _, hscoped, _⟩ => hnot _ hscoped]
    exact unscopedProblem?_eq_none_iff

/-! ## Names without their scope -/

theorem unscoped_of_isPart (h : IsPart name.toList) : unscoped name = name := by
  rw [unscoped]
  split
  · rename_i rest hrest
    exact absurd (hrest ▸ h) not_isPart_scoped
  · rfl

theorem toList_unscoped_of_isPart (hname : name.toList = '@' :: (scope ++ '/' :: part))
    (h : IsPart scope) : (unscoped name).toList = part := by
  simp only [unscoped, hname, h.cutAt?, String.toList_ofList]

theorem IsName.isPart_unscoped (h : IsName name) : IsPart (unscoped name).toList := by
  obtain hpart | ⟨scope, part, hname, hscope, hpart⟩ := h.form
  · rwa [unscoped_of_isPart hpart]
  · rwa [toList_unscoped_of_isPart hname hscope]

/-- A name without its scope is a name. -/
theorem IsName.unscoped (h : IsName name) : IsName (unscoped name) := by
  refine ⟨Nat.le_trans ?_ h.size, .inl h.isPart_unscoped⟩
  obtain hpart | ⟨scope, part, hname, hscope, hpart⟩ := h.form
  · exact Nat.le_of_eq (congrArg String.utf8ByteSize (unscoped_of_isPart hpart))
  · have happend : name = "@" ++ String.ofList scope ++ "/" ++ PackageName.unscoped name := by
      refine String.toList_injective ?_
      simp [hname, toList_unscoped_of_isPart hname hscope]
    conv => rhs; rw [happend]
    rw [String.utf8ByteSize_append]
    exact Nat.le_add_left _ _

end ApiReview.PackageName
