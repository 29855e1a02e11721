import ApiReview.Proofs.Outcome
import ApiReview.Proofs.Path.Kept
import ApiReview.Settings.Placeholder

/-!
# The project folder in a value

The placeholder of the project folder belongs at the start of a value. Where it stands behind the
start, the value is refused for it, unless the placeholder stands at the start as well: then the
rest is read from the project folder before it is searched, and a step up may take back the name
that holds the other placeholder. The value is refused exactly if some such name is kept
(`expand_misplaced_iff`).
-/

namespace ApiReview

open Text

namespace PlaceholderValues

variable {values : PlaceholderValues} {field : String} {value : Option String}

/-- A value with the package names put in. -/
def named (values : PlaceholderValues) (value : Option String) : String :=
  values.putNames (trimmed (value.getD ""))

/-- The path that is read from the project folder, if that stands at the start of a text. -/
def below? (s : String) : Option Path :=
  (stripStart? Placeholder.projectFolder s).map fun rest =>
    ⟨String.ofList (rest.toList.dropWhile fun c => c = '/' || c = '\\')⟩

/-- Whether the project folder stands in a text somewhere behind its start. -/
def FolderBehindStart (s : String) : Prop :=
  ∃ before behind, before ≠ [] ∧
    s.toList = before ++ Placeholder.projectFolder.toList ++ behind

theorem isAbsolute_below? {s : String} {below : Path} (h : below? s = some below) :
    below.isAbsolute = false := by
  obtain ⟨rest, -, rfl⟩ := Option.map_eq_some_iff.mp h
  rw [Path.isAbsolute, String.toList_ofList, decide_eq_false_iff_not]
  intro hhead
  have hdrop := List.head?_dropWhile_not (fun c => c = '/' || c = '\\') rest.toList
  rw [hhead] at hdrop
  exact absurd hdrop (by decide)

theorem putFolder_of_below? {s : String} {below : Path} (h : below? s = some below) :
    values.putFolder s = (values.projectFolder.join below).normalize.text := by
  have hrelative := isAbsolute_below? h
  obtain ⟨rest, hrest, rfl⟩ := Option.map_eq_some_iff.mp h
  rw [putFolder, hrest]
  show (values.projectFolder.resolve _).text = _
  rw [Path.resolve_of_relative hrelative]

theorem putFolder_of_not_below? {s : String} (h : below? s = none) : values.putFolder s = s := by
  rw [putFolder, Option.map_eq_none_iff.mp h]

theorem refusal?_ne_misplaced (text : String) :
    Placeholder.refusal? field text ≠ some (.misplacedProjectFolder field) := by
  rw [Placeholder.refusal?]
  split
  · exact fun h => by cases h
  · split <;> exact fun h => by cases h

theorem value_ne_of_named_ne (h : values.named value ≠ "") : trimmed (value.getD "") ≠ "" := by
  intro he
  rw [named, he] at h
  exact h rfl

/-- A value is refused for the project folder if that is left in it. -/
theorem expand_misplaced_iff_contains (h : values.named value ≠ "") :
    values.expand field value = .error (.misplacedProjectFolder field) ↔
      contains Placeholder.projectFolder (values.putFolder (values.named value)) = true := by
  rw [expand, if_neg (value_ne_of_named_ne h)]
  change (if contains Placeholder.projectFolder (values.putFolder (values.named value)) = true
    then _ else _) = _ ↔ _
  split
  · rename_i hc
    exact iff_of_true rfl hc
  · rename_i hc
    refine iff_of_false (fun he => ?_) hc
    split at he
    · cases he
    · split at he
      · rename_i e hrefusal
        cases he
        exact refusal?_ne_misplaced _ hrefusal
      · cases he

/-- A value with the project folder behind its start is refused for that exactly if it does not
start with it as well, or if some name below the project folder that holds it is kept. -/
theorem expand_misplaced_iff (h : FolderBehindStart (values.named value)) (field : String) :
    values.expand field value = .error (.misplacedProjectFolder field) ↔
      ∀ below, below? (values.named value) = some below →
        ∃ name, Path.KeepsName (values.projectFolder.join below).steps name ∧
          Placeholder.projectFolder.toList <:+: name := by
  obtain ⟨before, behind, -, htext⟩ := h
  have hne : values.named value ≠ "" := by
    intro he
    rw [he] at htext
    have htoken := (List.append_eq_nil_iff.mp (List.append_eq_nil_iff.mp htext.symm).1).2
    exact absurd htoken (by decide)
  rw [expand_misplaced_iff_contains hne, contains_iff]
  cases hb : below? (values.named value) with
  | none =>
    rw [putFolder_of_not_below? hb]
    exact iff_of_true ⟨before, behind, htext.symm⟩ fun _ e => by cases e
  | some below =>
    rw [putFolder_of_below? hb, Path.infix_normalize_iff (by decide) ⟨'<', by decide, by decide⟩]
    exact ⟨fun hk _ e => Option.some.inj e ▸ hk, fun hall => hall below rfl⟩

/-- A folder with a package that is not known. -/
def widgets : PlaceholderValues :=
  .ofProject ⟨"/repo/widgets"⟩ none

/-- The project folder once more below itself, and kept there. -/
theorem expand_misplaced_below :
    FolderBehindStart (widgets.named (some "<projectFolder>/a/../<projectFolder>/b/..")) ∧
      widgets.expand "reportFolder" (some "<projectFolder>/a/../<projectFolder>/b/..") =
        .error (.misplacedProjectFolder "reportFolder") := by
  have hbehind :
      FolderBehindStart (widgets.named (some "<projectFolder>/a/../<projectFolder>/b/..")) :=
    ⟨"<projectFolder>/a/../".toList, "/b/..".toList, by decide, by decide +kernel⟩
  refine ⟨hbehind, (expand_misplaced_iff hbehind "reportFolder").mpr fun below hb => ?_⟩
  obtain rfl : below = ⟨"a/../<projectFolder>/b/.."⟩ := by
    have hbelow : below? (widgets.named (some "<projectFolder>/a/../<projectFolder>/b/..")) =
        some ⟨"a/../<projectFolder>/b/.."⟩ := by decide +kernel
    exact Option.some.inj (hb.symm.trans hbelow)
  refine ⟨"<projectFolder>".toList, ?_, List.infix_rfl⟩
  rw [← Path.name_mem_normalSteps_iff true]
  decide +kernel

/-- A step up takes back the placeholder that a value should be refused for. -/
theorem not_misplaced_taken_back :
    ¬ ∀ (values : PlaceholderValues) (field : String) (value : Option String),
        FolderBehindStart (values.named value) →
          values.expand field value = .error (.misplacedProjectFolder field) := by
  intro hall
  have hvalue := hall ⟨⟨"/p"⟩, "unknown-package", "unknown-package"⟩ "reportFolder"
    (some "<projectFolder>/<projectFolder>/..")
    ⟨"<projectFolder>/".toList, "/..".toList, by decide, by decide +kernel⟩
  have haccepted := eq_ok_of_toOption (a := "/p")
    (x := (PlaceholderValues.mk ⟨"/p"⟩ "unknown-package" "unknown-package").expand "reportFolder"
      (some "<projectFolder>/<projectFolder>/..")) (by decide +kernel)
  rw [haccepted] at hvalue
  cases hvalue

end PlaceholderValues

end ApiReview
