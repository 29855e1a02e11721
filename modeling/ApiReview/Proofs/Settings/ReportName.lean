import ApiReview.Proofs.Package.Name
import ApiReview.Proofs.Settings.Prepare
import ApiReview.Proofs.Settings.Reading
import ApiReview.Settings.Defaults

/-!
# Reports named after the package

The built-in settings name the reports after the package, without its scope. That is a part of a
package name if the package name is accepted, so the placeholder is put in as it is
(`expand_unscopedPackageName`), and the name of the reports is neither missing nor refused for a
separator.
-/

namespace ApiReview

open PackageName (IsName IsPart)

variable {name : String} {part : List Char}

/-! ## The placeholder of the name without its scope -/

/-- A part of a package name has no angle bracket. -/
theorem PackageName.IsPart.hasBracket (h : IsPart part) : Placeholder.hasBracket part = false := by
  refine h.any_eq_false fun c hc => ?_
  simp only [Bool.or_eq_true, decide_eq_true_eq] at hc
  rcases hc with rfl | rfl <;> rfl

/-- A part of a package name has no separator. -/
theorem PackageName.IsPart.any_separator (h : IsPart part) :
    part.any (fun c => c = '/' || c = '\\') = false := by
  refine h.any_eq_false fun c hc => ?_
  simp only [Bool.or_eq_true, decide_eq_true_eq] at hc
  rcases hc with rfl | rfl <;> rfl

namespace PlaceholderValues

variable {values : PlaceholderValues}

/-- What has no angle bracket does not begin with the project folder. -/
theorem below?_of_hasBracket {s : String} (h : Placeholder.hasBracket s.toList = false) :
    below? s = none := by
  refine Option.map_eq_none_iff.mpr (Option.eq_none_iff_forall_ne_some.mpr fun rest hrest => ?_)
  refine Placeholder.not_mem_of_hasBracket h ?_
  rw [Text.stripStart?_eq_some_iff.mp hrest]
  exact List.mem_append_left _ (by decide)

/-- The placeholder of the name without its scope becomes that name, if it has no angle bracket. -/
theorem expand_unscopedPackageName
    (h : Placeholder.hasBracket values.unscopedPackageName.toList = false) (field : String) :
    values.expand field (some Placeholder.unscopedPackageName) =
      .ok values.unscopedPackageName := by
  have hnamed : values.named (some Placeholder.unscopedPackageName) =
      values.unscopedPackageName := by
    refine String.toList_injective ?_
    have htrim : Text.trim (Option.getD (some Placeholder.unscopedPackageName) "").toList =
        Placeholder.unscopedPackageName.toList := by decide
    rw [toList_named, htrim, putChars, Text.replaceAll_self (by decide)]
    exact Text.replaceAll_of_not_mem (Placeholder.not_mem_of_hasBracket h)
  have hfilled : values.filled (some Placeholder.unscopedPackageName) =
      values.unscopedPackageName := by
    rw [filled, hnamed, putFolder_of_not_below? (below?_of_hasBracket h)]
  refine eq_ok_of_toOption ?_
  rw [toOption_expand, hfilled, if_neg (Bool.eq_false_iff.mp h)]

end PlaceholderValues

/-! ## The name of the reports -/

namespace Settings

variable {values : PlaceholderValues} {section_ : SettingsFile.ApiReport}

/-- Reports that are named after a part of a package name have its name. -/
theorem prepareReportName_of_isPart (h : IsPart values.unscopedPackageName.toList)
    (hs : section_.reportFileName = some Placeholder.unscopedPackageName) :
    prepareReportName values section_ = .ok ((Text.stripEnd? ReportSpec.fileSuffix
      values.unscopedPackageName).getD values.unscopedPackageName) := by
  have hexpand : values.expand "reportFileName" section_.reportFileName =
      .ok values.unscopedPackageName := by
    rw [hs]
    exact PlaceholderValues.expand_unscopedPackageName h.hasBracket _
  have hfilled : values.unscopedPackageName ≠ "" := mt String.toList_eq_nil_iff.mpr h.ne_nil
  have hwhole : ¬ values.unscopedPackageName.toList.any (fun c => c = '/' || c = '\\') = true :=
    Bool.eq_false_iff.mp h.any_separator
  exact bind_of_ok (mapError_of_ok hexpand) (guard_of_not hfilled (guard_of_not hwhole rfl))

/-- Where the reports have a name, they are refused for their variants or a placeholder in the path
of a folder, or else for their tags. -/
theorem problem_of_prepareReports {base : String} {p : PrepareProblem}
    (hbase : prepareReportName values section_ = .ok base)
    (h : prepareReports values section_ = .error (.problem p)) :
    p = .noVariants ∨ ∃ cause, p = .placeholder cause := by
  have hpath : ∀ {field : String} {value : Option String},
      (preparePath values field value).mapError ReportProblem.problem = .error (.problem p) →
        ∃ cause, p = .placeholder cause := by
    intro field value h
    obtain ⟨q, hq, he⟩ := mapError_eq_error h
    cases he
    obtain ⟨cause, -, rfl⟩ := mapError_eq_error hq
    exact ⟨cause, rfl⟩
  rw [prepareReports, hbase] at h
  rcases bind_eq_error h with h | ⟨_, -, h⟩
  · cases h
  rcases guard_eq_error h with ⟨-, he⟩ | ⟨-, h⟩
  · cases he
    exact .inl rfl
  rcases guard_eq_error h with ⟨-, he⟩ | ⟨-, h⟩
  · cases he
  rcases bind_eq_error h with h | ⟨_, -, h⟩
  · exact .inr (hpath h)
  rcases bind_eq_error h with h | ⟨_, -, h⟩
  · exact .inr (hpath h)
  · cases h

end Settings

namespace PackageName

/-- The accepted texts are the package names. What is left of one without its scope is not empty,
has no separator and no angle bracket, and is accepted itself; it is what its placeholder becomes,
so the built-in name of the reports is neither missing nor refused for a separator. -/
theorem accepts_packageNames :
    (∀ name, problem? name = none ↔ IsName name) ∧
    ∀ name, problem? name = none →
      unscoped name ≠ "" ∧ (∀ c ∈ ['/', '\\', '<', '>'], c ∉ (unscoped name).toList) ∧
      problem? (unscoped name) = none ∧
      (∀ folder field, (PlaceholderValues.ofProject folder (some name)).expand field
        (some Placeholder.unscopedPackageName) = .ok (unscoped name)) ∧
      ∀ (folder : Path) (section_ : SettingsFile.ApiReport),
        section_.reportFileName.map Json.string =
          Json.at? ["apiReport", "reportFileName"] Settings.defaults →
        ∀ p, Settings.prepareReports (.ofProject folder (some name)) section_ =
            .error (.problem p) →
          p ≠ .reportNameMissing ∧ ∀ text, p ≠ .reportNameWithSeparator text := by
  refine ⟨fun _ => problem?_eq_none_iff, fun name h => ?_⟩
  have hname : IsName name := problem?_eq_none_iff.mp h
  have hpart : IsPart (unscoped name).toList := hname.isPart_unscoped
  have hnamed : ∀ folder,
      IsPart (PlaceholderValues.ofProject folder (some name)).unscopedPackageName.toList :=
    fun _ => hpart
  refine ⟨mt String.toList_eq_nil_iff.mpr hpart.ne_nil, fun c hc => hpart.not_mem ?_,
    problem?_eq_none_iff.mpr hname.unscoped, fun folder field => ?_,
    fun folder section_ hsection p hp => ?_⟩
  · simp only [List.mem_cons, List.not_mem_nil, or_false] at hc
    rcases hc with rfl | rfl | rfl | rfl <;> rfl
  · exact PlaceholderValues.expand_unscopedPackageName (hnamed folder).hasBracket field
  · have hdefault : Json.at? ["apiReport", "reportFileName"] Settings.defaults =
        some (.string Placeholder.unscopedPackageName) := by decide
    have hfile : section_.reportFileName = some Placeholder.unscopedPackageName := by
      obtain ⟨value, hvalue, he⟩ := Option.map_eq_some_iff.mp (hsection.trans hdefault)
      rw [hvalue, Json.string.inj he]
    have hbase := Settings.prepareReportName_of_isPart (hnamed folder) hfile
    obtain rfl | ⟨cause, rfl⟩ := Settings.problem_of_prepareReports hbase hp
    · exact ⟨nofun, fun _ => nofun⟩
    · exact ⟨nofun, fun _ => nofun⟩

/-- A name with its scope, whose part ends as the file name of a report; a second slash and a sign
inside a part are refused. -/
theorem accepts_packageNames_scoped :
    IsName "@my_org/x.api.md" ∧ ¬ IsName "@a/b/c" ∧ ¬ IsName "a@b" ∧
    problem? (unscoped "@my_org/x.api.md") = none ∧
    (PlaceholderValues.ofProject ⟨"/p"⟩ (some "@my_org/x.api.md")).expand "reportFileName"
      (some Placeholder.unscopedPackageName) = .ok "x.api.md" ∧
    Settings.prepareReports (.ofProject ⟨"/p"⟩ (some "@my_org/x.api.md"))
        { SettingsFile.ApiReport.record.blank with
          reportFileName := some Placeholder.unscopedPackageName } ≠
      .error (.problem .reportNameMissing) := by
  obtain ⟨haccepts, hunscoped⟩ := accepts_packageNames
  obtain ⟨-, -, hagain, hexpand, hreports⟩ := hunscoped "@my_org/x.api.md" (by decide)
  have hpart : unscoped "@my_org/x.api.md" = "x.api.md" := by decide
  refine ⟨(haccepts _).mp (by decide), mt (haccepts _).mpr (by decide),
    mt (haccepts _).mpr (by decide), hagain, ?_, fun he => ?_⟩
  · rw [hexpand ⟨"/p"⟩ "reportFileName", hpart]
  · have hkept := hreports ⟨"/p"⟩
      { SettingsFile.ApiReport.record.blank with
        reportFileName := some Placeholder.unscopedPackageName } (by decide) .reportNameMissing he
    exact hkept.1 rfl

end PackageName

end ApiReview
