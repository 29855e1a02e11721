import ApiReview.Proofs.Package.Name
import ApiReview.Proofs.Path.Moved
import ApiReview.Proofs.Settings.Reading

/-!
# Package names in paths

A valid package name has only names between its slashes (`isSolid_of_problem?`). With such names put
in, a name in a path becomes one or more names, so that a path goes up no further than before
(`Solid.risesAtMost`).
-/

namespace ApiReview

open Text

/-! ## Pieces with more than dots -/

namespace Text

/-- Whether each piece between slashes has a character other than a dot. The first piece counts as
having one if it was met before. -/
def isSolid (met : Bool) : List Char → Bool
  | [] => met
  | c :: s => if c = '/' then met && isSolid false s else isSolid (met || c ≠ '.') s

variable {met more : Bool} {part new s s' : List Char} {c : Char}

theorem isSolid_slash (met : Bool) (s : List Char) :
    isSolid met ('/' :: s) = (met && isSolid false s) := rfl

theorem isSolid_cons (hc : c ≠ '/') (met : Bool) (s : List Char) :
    isSolid met (c :: s) = isSolid (met || c ≠ '.') s := by
  rw [isSolid, if_neg hc]

theorem isSolid_mono (hm : met = true → more = true) (h : isSolid met s = true) :
    isSolid more s = true := by
  induction s generalizing met more with
  | nil => exact hm h
  | cons c s ih =>
    by_cases hc : c = '/'
    · subst hc
      simp only [isSolid_slash, Bool.and_eq_true] at h ⊢
      exact ⟨hm h.1, h.2⟩
    · rw [isSolid_cons hc] at h ⊢
      refine ih (fun hmet => ?_) h
      simp only [Bool.or_eq_true] at hmet ⊢
      exact hmet.imp_left hm

theorem isSolid_append (h : isSolid met s = true) (h' : isSolid true s' = true) :
    isSolid met (s ++ s') = true := by
  induction s generalizing met with
  | nil => exact isSolid_mono (fun _ => h) h'
  | cons c s ih =>
    by_cases hc : c = '/'
    · subst hc
      simp only [List.cons_append, isSolid_slash, Bool.and_eq_true] at h ⊢
      exact ⟨h.1, ih h.2⟩
    · rw [List.cons_append, isSolid_cons hc]
      rw [isSolid_cons hc] at h
      exact ih h

theorem isSolid_of_append (hs : '/' ∉ s) (h : isSolid met (s ++ s') = true) :
    isSolid true s' = true := by
  induction s generalizing met with
  | nil => exact isSolid_mono (fun _ => rfl) h
  | cons c s ih =>
    simp only [List.mem_cons, not_or] at hs
    rw [List.cons_append, isSolid_cons (Ne.symm hs.1)] at h
    exact ih hs.2 h

/-- A single piece with a character other than a dot. -/
theorem isSolid_of_mem (hs : '/' ∉ s) (hc : c ∈ s) (hdot : c ≠ '.') : isSolid met s = true := by
  induction s generalizing met with
  | nil => cases hc
  | cons d s ih =>
    simp only [List.mem_cons, not_or] at hs
    rw [isSolid_cons (Ne.symm hs.1)]
    rcases List.mem_cons.mp hc with rfl | hc
    · -- From here on a character was met, which is all that a piece without slashes needs.
      have hall : ∀ s, '/' ∉ s → isSolid true s = true := by
        intro s
        induction s with
        | nil => exact fun _ => rfl
        | cons d s ih =>
          intro hs
          simp only [List.mem_cons, not_or] at hs
          rw [isSolid_cons (Ne.symm hs.1)]
          exact ih hs.2
      simpa [hdot] using hall s hs.2
    · exact ih hs.2 hc

theorem solid_of_mem_splitOn (h : isSolid false s = true) :
    ∀ piece ∈ splitOn '/' s, ∃ c ∈ piece, c ≠ '.' := by
  -- The first piece may have its character before the text.
  suffices hgen : ∀ met, isSolid met s = true → ∀ first rest, splitOn '/' s = first :: rest →
      (met = true ∨ ∃ c ∈ first, c ≠ '.') ∧ ∀ piece ∈ rest, ∃ c ∈ piece, c ≠ '.' by
    cases hs : splitOn '/' s with
    | nil => exact absurd hs (splitOn_ne_nil '/' s)
    | cons first rest =>
      obtain ⟨hfirst, hrest⟩ := hgen false h first rest hs
      exact List.forall_mem_cons.mpr ⟨hfirst.resolve_left Bool.false_ne_true, hrest⟩
  clear h
  induction s with
  | nil =>
    intro met h first rest hs
    obtain ⟨rfl, rfl⟩ := List.cons_eq_cons.mp hs
    exact ⟨.inl h, fun piece hm => absurd hm List.not_mem_nil⟩
  | cons c s ih =>
    intro met h first rest hs
    cases hsplit : splitOn '/' s with
    | nil => exact absurd hsplit (splitOn_ne_nil '/' s)
    | cons piece pieces =>
      by_cases hc : c = '/'
      · subst hc
        simp only [isSolid_slash, Bool.and_eq_true] at h
        rw [splitOn_cons_self, hsplit] at hs
        obtain ⟨rfl, rfl⟩ := List.cons_eq_cons.mp hs
        obtain ⟨hpiece, hpieces⟩ := ih false h.2 piece pieces hsplit
        exact ⟨.inl h.1,
          List.forall_mem_cons.mpr ⟨hpiece.resolve_left Bool.false_ne_true, hpieces⟩⟩
      · rw [isSolid_cons hc] at h
        rw [splitOn_cons_of_ne hc hsplit] at hs
        obtain ⟨rfl, rfl⟩ := List.cons_eq_cons.mp hs
        obtain ⟨hpiece, hpieces⟩ := ih _ h piece pieces hsplit
        refine ⟨?_, hpieces⟩
        rcases hpiece with hmet | ⟨d, hd, hdot⟩
        · simp only [Bool.or_eq_true, decide_eq_true_eq] at hmet
          exact hmet.imp_right fun hdot => ⟨c, List.mem_cons_self, hdot⟩
        · exact .inr ⟨d, List.mem_cons_of_mem _ hd, hdot⟩

/-- Pieces with more than dots stay so when a text with such pieces is put in. -/
theorem isSolid_replaceFrom (hnew : isSolid false new = true) (hc : '/' ∉ c :: part) (n : Nat)
    (h : isSolid met (s.drop n) = true) : isSolid met (replaceFrom (c :: part) new n s) = true := by
  induction s generalizing met n with
  | nil => rwa [List.drop_nil] at h
  | cons d s ih =>
    cases n with
    | succ n => exact ih n h
    | zero =>
      rw [List.drop_zero] at h
      rw [replaceFrom]
      split
      · rename_i hpre
        obtain ⟨tail, htail⟩ := List.isPrefixOf_iff_prefix.mp hpre
        have hdrop : s.drop ((c :: part).length - 1) = tail := by
          rw [List.cons_append, List.cons.injEq] at htail
          rw [← htail.2, List.length_cons, Nat.add_sub_cancel, List.drop_left]
        have htrue : isSolid true tail = true := by
          rw [← htail] at h
          exact isSolid_of_append hc h
        refine isSolid_append (isSolid_mono (fun e => absurd e Bool.false_ne_true) hnew) ?_
        exact ih _ (hdrop.symm ▸ htrue)
      · by_cases hd : d = '/'
        · subst hd
          simp only [isSolid_slash, Bool.and_eq_true] at h ⊢
          exact ⟨h.1, ih 0 h.2⟩
        · rw [isSolid_cons hd] at h ⊢
          exact ih 0 h

end Text

/-! ## Valid names -/

namespace PackageName

/-- A part is not made of dots, for it does not start with one. -/
theorem IsPart.isSolid {part : List Char} (h : IsPart part) : isSolid false part = true := by
  obtain ⟨c, rest, rfl⟩ := List.exists_cons_of_ne_nil h.ne_nil
  exact isSolid_of_mem (h.not_mem rfl) List.mem_cons_self fun hdot => h.start.1 (congrArg some hdot)

/-- A valid name, and what is left of it without its scope, have more than dots between slashes. -/
theorem isSolid_of_problem? {name : String} (h : problem? name = none) :
    isSolid false name.toList = true ∧ isSolid false (unscoped name).toList = true := by
  have hname : IsName name := problem?_eq_none_iff.mp h
  refine ⟨?_, hname.isPart_unscoped.isSolid⟩
  obtain hpart | ⟨scope, part, hscoped, hscope, hpart⟩ := hname.form
  · exact hpart.isSolid
  · have hslash : '/' ∉ '@' :: scope := by simpa using hscope.not_mem (c := '/') rfl
    rw [hscoped, ← List.cons_append]
    refine isSolid_append (isSolid_of_mem hslash List.mem_cons_self (by decide)) ?_
    rw [isSolid_slash, hpart.isSolid]
    rfl

end PackageName

/-! ## Steps with names put in -/

namespace PlaceholderValues

/-- The names that are put in have more than dots between slashes. -/
structure Solid (values : PlaceholderValues) : Prop where
  name : isSolid false values.packageName.toList = true
  unscoped : isSolid false values.unscopedPackageName.toList = true

variable {values : PlaceholderValues} {depth : Nat} {steps : List Path.Step}

theorem Solid.putChars (h : values.Solid) {s : List Char} (hs : isSolid false s = true) :
    isSolid false (values.putChars s) = true :=
  isSolid_replaceFrom h.name (by decide) 0 (isSolid_replaceFrom h.unscoped (by decide) 0 hs)

/-- A name with the names of a package put in is one or more names. -/
theorem Solid.putStep (h : values.Solid) {step : Path.Step} (hs : step.IsName) :
    Path.AllNames (values.putStep step) ∧ values.putStep step ≠ [] := by
  cases step with
  | name name =>
    by_cases hb : '<' ∈ name
    · have hsolid := solid_of_mem_splitOn (h.putChars (isSolid_of_mem hs.2 hb (by decide)))
      have hstep : ∀ piece ∈ splitOn '/' (values.putChars name),
          Path.stepOf? piece = some (.name piece) := fun piece hm => by
        obtain ⟨c, hc, hdot⟩ := hsolid piece hm
        rw [Path.stepOf?, if_neg, if_neg]
        · rintro rfl
          simp at hc
          exact hdot hc
        · intro hsilent
          simp only [Path.isSilent, Bool.or_eq_true, decide_eq_true_eq] at hsilent
          rcases hsilent with rfl | rfl <;> simp at hc
          exact hdot hc
      have hsteps : values.putStep (.name name) =
          (splitOn '/' (values.putChars name)).map .name := by
        rw [PlaceholderValues.putStep, Path.pieceSteps, List.filterMap_congr hstep]
        simp
      rw [hsteps]
      refine ⟨fun step hm => ?_, by simp [splitOn_ne_nil]⟩
      obtain ⟨piece, hpiece, rfl⟩ := List.mem_map.mp hm
      exact ⟨hstep piece hpiece, not_mem_of_mem_splitOn hpiece⟩
    · have hsame : values.putStep (.name name) = [.name name] := by
        rw [PlaceholderValues.putStep, putChars_of_not_mem hb, Path.pieceSteps,
          splitOn_of_not_mem hs.2, List.filterMap_cons_some hs.1]
        rfl
      rw [hsame]
      exact ⟨fun step hm => List.mem_singleton.mp hm ▸ hs, List.cons_ne_nil _ _⟩
  | _ => exact absurd hs id

theorem risesAtMost_names_append {names : List Path.Step} (hn : Path.AllNames names)
    (h : Path.RisesAtMost (depth + names.length) steps) :
    Path.RisesAtMost depth (names ++ steps) := by
  induction names generalizing depth with
  | nil => exact h
  | cons step names ih =>
    obtain ⟨hstep, hnames⟩ := List.forall_mem_cons.mp hn
    cases step with
    | name name =>
      refine Path.risesAtMost_name_cons.mpr (ih hnames (h.weaken ?_))
      simp only [List.length_cons]
      omega
    | _ => exact absurd hstep id

/-- With the names of packages put in, steps go up no further. -/
theorem Solid.risesAtMost (h : values.Solid) (hsteps : ∀ step ∈ steps, step = .up ∨ step.IsName)
    (hr : Path.RisesAtMost depth steps) :
    Path.RisesAtMost depth (steps.flatMap values.putStep) := by
  induction steps generalizing depth with
  | nil => exact hr
  | cons step steps ih =>
    obtain ⟨hstep, hrest⟩ := List.forall_mem_cons.mp hsteps
    rw [List.flatMap_cons]
    rcases hstep with rfl | hname
    · rw [putStep_of_isName .up rfl]
      cases depth with
      | zero => exact absurd hr Path.not_risesAtMost_up_cons
      | succ depth =>
        exact Path.risesAtMost_up_cons.mpr (ih hrest (Path.risesAtMost_up_cons.mp hr))
    · obtain ⟨hnames, hne⟩ := h.putStep hname
      refine risesAtMost_names_append hnames (Path.RisesAtMost.weaken (?_ : Path.RisesAtMost (depth + 1) _) ?_)
      · cases step with
        | name name => exact ih hrest (Path.risesAtMost_name_cons.mp hr)
        | _ => exact absurd hname id
      · have := List.length_pos_iff.mpr hne
        omega

end PlaceholderValues

end ApiReview
