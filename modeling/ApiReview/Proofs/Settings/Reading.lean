import ApiReview.Proofs.Path.Put
import ApiReview.Proofs.Path.Trim
import ApiReview.Proofs.Settings.Placeholder
import ApiReview.Settings.Prepare
import Mathlib.Data.List.Basic

/-!
# Reading a path early or late

Loading reads a relative path from the folder of its document, and preparing reads it from the
project folder, with the package names put in. Where the two folders are the same, a path comes to
the same either way exactly if it reads alike (`readsAlike_iff`). A plain path does
(`ReadsPlainly.readsAlike`): putting in the package names and taking back what steps up lead out of
commute, unless an angle bracket is taken back, and trimming commutes with both, unless it takes
blank characters from the start of the path or from the folder.
-/

namespace ApiReview

open Text

theorem Settings.not_isAnchored_iff {s : String} :
    isAnchored s = false ↔ s ≠ "" ∧ (Path.mk s).isAbsolute = false ∧
      startsWith Placeholder.projectFolder s = false ∧ trimmed s ≠ Placeholder.lookup := by
  simp only [isAnchored, Bool.or_eq_false_iff, decide_eq_false_iff_not, and_assoc, ne_eq]

/-! ## Package names, step by step -/

namespace PlaceholderValues

variable {values : PlaceholderValues}

/-- A text with the package names put in, as its characters. -/
def putChars (values : PlaceholderValues) (s : List Char) : List Char :=
  replaceAll Placeholder.packageName.toList values.packageName.toList
    (replaceAll Placeholder.unscopedPackageName.toList values.unscopedPackageName.toList s)

theorem toList_putNames (s : String) : (values.putNames s).toList = values.putChars s.toList := by
  rw [putNames, replace, replace, String.toList_ofList, String.toList_ofList]
  rfl

theorem putChars_joinWith (pieces : List (List Char)) :
    values.putChars (joinWith '/' pieces) = joinWith '/' (pieces.map values.putChars) := by
  rw [putChars, replaceAll_joinWith (by decide) (by decide),
    replaceAll_joinWith (by decide) (by decide), List.map_map]
  rfl

theorem putChars_of_not_mem {s : List Char} (h : '<' ∉ s) : values.putChars s = s := by
  have hput : ∀ {rest new : List Char}, replaceAll ('<' :: rest) new s = s :=
    replaceAll_of_not_mem h
  rw [putChars]
  exact (congrArg _ hput).trans hput

/-- The steps of a step with the package names put in. A name of a package may have slashes. -/
def putStep (values : PlaceholderValues) : Path.Step → List Path.Step
  | .name name => Path.pieceSteps (values.putChars name)
  | step => [step]

end PlaceholderValues

namespace Placeholder

/-- Joined pieces have an angle bracket exactly if one of them has. -/
theorem hasBracket_joinWith (pieces : List (List Char)) :
    hasBracket (joinWith '/' pieces) = pieces.any hasBracket := by
  induction pieces with
  | nil => rfl
  | cons piece pieces ih =>
    cases pieces with
    | nil => rw [joinWith, List.any_cons, List.any_nil, Bool.or_false]
    | cons next pieces =>
      rw [joinWith, List.any_cons, ← ih, hasBracket, List.any_append, List.any_cons]
      rfl

theorem not_mem_of_hasBracket {s : List Char} (h : hasBracket s = false) : '<' ∉ s := by
  intro hm
  exact absurd (List.any_eq_false.mp h '<' hm) (by decide)

/-- No placeholder occurs where there is no angle bracket. -/
theorem contains_of_hasBracket {token s : String} (ht : '<' ∈ token.toList)
    (h : hasBracket s.toList = false) : contains token s = false :=
  Bool.eq_false_iff.mpr fun hc => not_mem_of_hasBracket h ((contains_iff.mp hc).subset ht)

theorem refusal?_eq_none_iff {field s : String} :
    refusal? field s = none ↔ hasBracket s.toList = false := by
  rw [refusal?]
  split
  · rename_i h
    exact iff_of_true rfl (Bool.not_eq_true' _ ▸ h)
  · rename_i h
    refine iff_of_false ?_ fun he => h (he ▸ rfl)
    split <;> exact Option.some_ne_none _

end Placeholder

namespace PlaceholderValues

variable {values : PlaceholderValues}

theorem putChars_of_hasBracket {s : List Char} (h : Placeholder.hasBracket s = false) :
    values.putChars s = s :=
  putChars_of_not_mem (Placeholder.not_mem_of_hasBracket h)

theorem pieceSteps_putChars_piece (piece : List Char) :
    Path.pieceSteps (values.putChars piece) =
      (Path.stepOf? piece).toList.flatMap values.putStep := by
  rcases Path.piece_cases piece with ⟨hnone, rfl | rfl⟩ | ⟨step, hstep, rfl⟩
  · rfl
  · rw [putChars_of_hasBracket rfl]
    rfl
  · rw [hstep, Option.toList_some, List.flatMap_singleton]
    cases step with
    | name name => rfl
    | up =>
      rw [putChars_of_hasBracket rfl]
      rfl
    | root => cases hstep
    | here => cases hstep

/-- Package names are put in step by step. -/
theorem pieceSteps_putChars (s : List Char) :
    Path.pieceSteps (values.putChars s) = (Path.pieceSteps s).flatMap values.putStep := by
  conv => lhs; rw [← joinWith_splitOn '/' s]
  rw [putChars_joinWith, Path.pieceSteps_joinWith_flatMap, List.flatMap_map, Path.pieceSteps,
    List.filterMap_eq_flatMap_toList, List.flatMap_assoc]
  exact congrArg (List.flatMap · _) (funext pieceSteps_putChars_piece)

/-- A text with the package names put in has an angle bracket exactly if that of a step has. -/
theorem hasBracket_putChars (s : List Char) :
    Placeholder.hasBracket (values.putChars s) =
      (Path.pieceSteps s).any fun step => Placeholder.hasBracket (values.putChars step.chars) := by
  have hpieces : ∀ pieces : List (List Char),
      pieces.any (fun piece => Placeholder.hasBracket (values.putChars piece)) =
        (pieces.filterMap Path.stepOf?).any
          fun step => Placeholder.hasBracket (values.putChars step.chars) := by
    intro pieces
    induction pieces with
    | nil => rfl
    | cons piece pieces ih =>
      rw [List.any_cons, ih]
      rcases Path.piece_cases piece with ⟨hnone, hsilent⟩ | ⟨step, hstep, rfl⟩
      · rw [List.filterMap_cons_none hnone]
        rcases hsilent with rfl | rfl <;> rw [putChars_of_hasBracket rfl] <;> rfl
      · rw [List.filterMap_cons_some hstep, List.any_cons]
  conv => lhs; rw [← joinWith_splitOn '/' s]
  rw [putChars_joinWith, Placeholder.hasBracket_joinWith, List.any_map]
  exact hpieces _

/-- Whether a step has an angle bracket when the package names are put in. -/
def hasBracketStep (values : PlaceholderValues) (step : Path.Step) : Bool :=
  Placeholder.hasBracket (values.putChars step.chars)

/-! ## What steps up take back -/

/-- No step up takes back a name with an angle bracket. -/
def KeepsBrackets (steps : List Path.Step) : Prop :=
  ∀ before name behind, steps = before ++ .name name :: behind →
    Placeholder.hasBracket name = true → Path.RisesAtMost 0 behind

variable {names steps : List Path.Step}

theorem putStep_of_hasBracket {step : Path.Step} (hs : step.IsName)
    (h : Placeholder.hasBracket step.chars = false) : values.putStep step = [step] := by
  cases step with
  | name name =>
    have hsame : values.putChars name = name := putChars_of_hasBracket h
    show Path.pieceSteps (values.putChars name) = _
    rw [hsame, Path.pieceSteps, splitOn_of_not_mem hs.2, List.filterMap_cons_some hs.1]
    rfl
  | _ => exact absurd hs id

theorem putStep_of_isName (step : Path.Step) (h : step.isName = false) :
    values.putStep step = [step] := by
  cases step with
  | name name => cases h
  | _ => rfl

/-- Where there is no angle bracket, none is taken back. -/
theorem keepsBrackets_of_hasBracket {s : List Char} (h : Placeholder.hasBracket s = false) :
    KeepsBrackets (Path.pieceSteps s) := by
  intro before name behind he hname
  have hpieces : (splitOn '/' s).any Placeholder.hasBracket = false := by
    rw [← Placeholder.hasBracket_joinWith, joinWith_splitOn, h]
  have hmem : Path.Step.name name ∈ (splitOn '/' s).filterMap Path.stepOf? :=
    show _ ∈ Path.pieceSteps s from he ▸ List.mem_append_right _ List.mem_cons_self
  obtain ⟨piece, hpiece, hstep⟩ := List.mem_filterMap.mp hmem
  rcases Path.piece_cases piece with ⟨hnone, -⟩ | ⟨step, hstep', rfl⟩
  · rw [hnone] at hstep
    cases hstep
  · obtain rfl : step = .name name := Option.some.inj (hstep'.symm.trans hstep)
    exact absurd hname (List.any_eq_false.mp hpieces _ hpiece)

theorem KeepsBrackets.spares (h : KeepsBrackets steps)
    (hsteps : ∀ step ∈ steps, step = .up ∨ step.IsName) : Path.Spares values.putStep steps := by
  intro before name behind he hne
  have hname : (Path.Step.name name).IsName :=
    (hsteps _ (he ▸ List.mem_append_right _ List.mem_cons_self)).resolve_left fun e => by cases e
  refine h before name behind he (Bool.not_eq_false _ ▸ fun hfree => hne ?_)
  exact putStep_of_hasBracket hname hfree

/-- Only a name with an angle bracket has one when the package names are put in. -/
theorem exists_name_of_hasBracketStep {step : Path.Step} (h : values.hasBracketStep step = true) :
    ∃ name, step = .name name ∧ Placeholder.hasBracket name = true := by
  have hchars : Placeholder.hasBracket step.chars = true := by
    by_contra hfree
    rw [hasBracketStep, putChars_of_hasBracket (Bool.eq_false_iff.mpr hfree)] at h
    exact hfree h
  cases step with
  | name name => exact ⟨name, rfl, hchars⟩
  | _ => exact absurd hchars (by decide)

/-- Taking back names takes no angle bracket back. -/
theorem any_hasBracketStep_normalSteps
    (hn : ∀ step ∈ names, Placeholder.hasBracket step.chars = false) (h : KeepsBrackets steps) :
    (Path.normalSteps true (names ++ steps)).any values.hasBracketStep =
      steps.any values.hasBracketStep := by
  rw [Bool.eq_iff_iff, List.any_eq_true, List.any_eq_true]
  constructor
  · rintro ⟨step, hm, hb⟩
    obtain ⟨name, rfl, hname⟩ := exists_name_of_hasBracketStep hb
    obtain ⟨before, behind, he, -⟩ := (Path.name_mem_normalSteps_iff true).mp hm
    have hmem : .name name ∈ names ++ steps := he ▸ List.mem_append_right _ List.mem_cons_self
    refine ⟨_, (List.mem_append.mp hmem).resolve_left fun hm => ?_, hb⟩
    exact absurd hname (Bool.eq_false_iff.mp (hn _ hm))
  · rintro ⟨step, hm, hb⟩
    obtain ⟨name, rfl, hname⟩ := exists_name_of_hasBracketStep hb
    obtain ⟨before, behind, rfl⟩ := List.append_of_mem hm
    refine ⟨_, (Path.name_mem_normalSteps_iff true).mpr ⟨names ++ before, behind, ?_, ?_⟩, hb⟩
    · rw [List.append_assoc]
    · exact h before name behind rfl hname

/-! ## Preparing a path -/

/-- A value with all its placeholders put in. -/
def filled (values : PlaceholderValues) (value : Option String) : String :=
  values.putFolder (values.named value)

/-- A value is refused exactly if an angle bracket is left in it. -/
theorem toOption_expand (field : String) (value : Option String) :
    (values.expand field value).toOption =
      if Placeholder.hasBracket (values.filled value).toList then none
      else some (values.filled value) := by
  rw [expand]
  by_cases hblank : trimmed (value.getD "") = ""
  · have hempty : values.filled value = "" := by
      rw [filled, named, hblank]
      exact putFolder_of_not_below? rfl
    rw [if_pos hblank, hempty]
    rfl
  · have hfilled : values.putFolder (values.putNames (trimmed (value.getD ""))) =
      values.filled value := rfl
    rw [if_neg hblank]
    dsimp only
    rw [hfilled]
    cases hbracket : Placeholder.hasBracket (values.filled value).toList with
    | false =>
      have hfolder : contains Placeholder.projectFolder (values.filled value) = false :=
        Placeholder.contains_of_hasBracket (by decide) hbracket
      have hlookup : contains Placeholder.lookup (values.filled value) = false :=
        Placeholder.contains_of_hasBracket (by decide) hbracket
      rw [hfolder, hlookup, Placeholder.refusal?_eq_none_iff.mpr hbracket]
      rfl
    | true =>
      split
      · rfl
      · split
        · rfl
        · split
          · rfl
          · rename_i hnone
            rw [Placeholder.refusal?_eq_none_iff.mp hnone] at hbracket
            cases hbracket

/-- A path setting is refused if an angle bracket is left in it, left out if nothing is left, and
read from the project folder otherwise. -/
theorem toOption_preparePath (field : String) (value : Option String) :
    (Settings.preparePath values field value).toOption =
      if Placeholder.hasBracket (values.filled value).toList then none
      else some (if values.filled value = "" then none
        else some (values.projectFolder.resolve ⟨values.filled value⟩)) := by
  rw [Settings.preparePath, toOption_mapError, resolvePath, toOption_bind_pure, toOption_expand]
  split <;> rfl

/-! ## Early and late -/

/-- A path setting that comes to the same whether it is read from the project folder before it is
prepared or then: it is not left out in one of the cases only, nor refused in one of them only, and
it is the same path in both. -/
structure ReadsAlike (values : PlaceholderValues) (s : String) : Prop where
  empty : values.filled (some (Settings.anchorPath values.projectFolder s)) = "" ↔
    values.filled (some s) = ""
  brackets :
    Placeholder.hasBracket (values.filled
      (some (Settings.anchorPath values.projectFolder s))).toList =
        Placeholder.hasBracket (values.filled (some s)).toList
  path : values.filled (some s) ≠ "" →
    Placeholder.hasBracket (values.filled (some s)).toList = false →
    values.projectFolder.resolve
      ⟨values.filled (some (Settings.anchorPath values.projectFolder s))⟩ =
        values.projectFolder.resolve ⟨values.filled (some s)⟩

/-- What is refused, left out, or read from the project folder comes to the same. -/
theorem outcome_eq_iff {refused refused' : Bool} {text text' : String} {path path' : Path}
    (h : refused = true → text ≠ "") (h' : refused' = true → text' ≠ "") :
    (if refused then none else some (if text = "" then none else some path)) =
        (if refused' then none else some (if text' = "" then none else some path')) ↔
      (text = "" ↔ text' = "") ∧ refused = refused' ∧
        (text' ≠ "" → refused' = false → path = path') := by
  cases refused <;> cases refused' <;> by_cases hs : text = "" <;> by_cases hs' : text' = "" <;>
    simp_all

/-- A setting reads alike exactly if it is prepared to the same both ways. -/
theorem readsAlike_iff (field s : String) :
    values.ReadsAlike s ↔
      (Settings.preparePath values field
        (some (Settings.anchorPath values.projectFolder s))).toOption =
          (Settings.preparePath values field (some s)).toOption := by
  have hbracket : ∀ {text : String}, Placeholder.hasBracket text.toList = true → text ≠ "" := by
    rintro text hbracket rfl
    cases hbracket
  rw [toOption_preparePath, toOption_preparePath, outcome_eq_iff hbracket hbracket]
  exact ⟨fun h => ⟨h.empty, h.brackets, h.path⟩, fun ⟨empty, brackets, path⟩ =>
    ⟨empty, brackets, path⟩⟩

theorem readsAlike_of_isAnchored {s : String} (h : Settings.isAnchored s = true) :
    values.ReadsAlike s :=
  (readsAlike_iff "" s).mpr (by rw [Settings.anchorPath, if_pos h])

/-- A plain path setting: it does not start with a blank character, it is a relative path when the
package names are put in, and no step up takes an angle bracket of it back. -/
structure ReadsPlainly (values : PlaceholderValues) (s : String) : Prop where
  folder : Placeholder.hasBracket values.projectFolder.text.toList = false
  starts : StartsFilled s.toList
  /-- Blank characters at the end are those of the setting, not of the folder that it comes to. -/
  ends : ¬ EndsFilled s.toList ∨ EndsFilled (values.projectFolder.resolve ⟨s⟩).text.toList
  /-- The package names leave it a relative path. -/
  named_ne : values.named (some s) ≠ ""
  relative : (Path.mk (values.named (some s))).isAbsolute = false
  apart : below? (values.named (some s)) = none
  keeps : KeepsBrackets (Path.pieceSteps s.toList)

theorem toList_named (value : Option String) :
    (values.named value).toList = values.putChars (trim (value.getD "").toList) := by
  rw [named, toList_putNames, trimmed, String.toList_ofList]

theorem putChars_slash_cons (s : List Char) :
    values.putChars ('/' :: s) = '/' :: values.putChars s := by
  have hput := values.putChars_joinWith [[], s]
  exact hput

/-- What begins at the root does not begin with the project folder. -/
theorem below?_of_isAbsolute {s : String} (h : (Path.mk s).isAbsolute = true) :
    below? s = none := by
  refine Option.map_eq_none_iff.mpr (Option.eq_none_iff_forall_ne_some.mpr fun rest hrest => ?_)
  obtain ⟨tail, htail⟩ := Path.isAbsolute_iff.mp h
  rw [stripStart?_eq_some_iff.mp hrest] at htail
  exact absurd (List.cons_eq_cons.mp htail).1 (by decide)

theorem filled_of_slash {value : Option String} {tail : List Char}
    (h : (values.named value).toList = '/' :: tail) : values.filled value = values.named value :=
  putFolder_of_not_below? (below?_of_isAbsolute (Path.isAbsolute_iff.mpr ⟨tail, h⟩))

theorem hasBracket_slash_cons (s : List Char) :
    Placeholder.hasBracket ('/' :: s) = Placeholder.hasBracket s := by
  rw [Placeholder.hasBracket, List.any_cons]
  rfl

theorem hasBracket_chars_of_fromRoot
    (h : Placeholder.hasBracket (Path.fromRoot names).text.toList = false) :
    ∀ step ∈ names, Placeholder.hasBracket step.chars = false := by
  rw [Path.toList_fromRoot, hasBracket_slash_cons, Placeholder.hasBracket_joinWith,
    List.any_eq_false] at h
  exact fun step hm => Bool.eq_false_iff.mpr (h _ (List.mem_map_of_mem hm))

theorem KeepsBrackets.of_start {all : List Path.Step} (h : KeepsBrackets all)
    (hp : steps <+: all) : KeepsBrackets steps := by
  obtain ⟨more, rfl⟩ := hp
  rintro before name behind rfl hb first hfirst
  refine h before name (behind ++ more) ?_ hb first (hfirst.trans (List.prefix_append _ _))
  rw [List.append_assoc, List.cons_append]

/-- A plain path setting reads alike. -/
theorem ReadsPlainly.readsAlike (hn : Path.AllNames names)
    (hf : values.projectFolder = Path.fromRoot names) {s : String}
    (ha : Settings.isAnchored s = false) (h : values.ReadsPlainly s) : values.ReadsAlike s := by
  obtain ⟨-, hrelative, -⟩ := Settings.not_isAnchored_iff.mp ha
  have hread : (values.projectFolder.resolve ⟨s⟩).text.toList = Path.readText names s.toList := by
    rw [hf]
    exact Path.toList_resolve_fromRoot hn hrelative
  obtain ⟨steps, more, tail, hstart, hlate, hearly, htail⟩ :
      Path.TrimsAlike names s.toList (Path.readText names s.toList) := by
    by_cases he : EndsFilled s.toList
    · exact Path.trimsAlike_of_endsFilled hn h.starts he
        (hread ▸ h.ends.resolve_left fun hne => hne he)
    · exact Path.trimsAlike_of_not_endsFilled hn h.starts he
  have hnamedEarly : (values.named (some (values.projectFolder.resolve ⟨s⟩).text)).toList =
      '/' :: values.putChars tail := by
    rw [toList_named, Option.getD_some, hread, hearly, putChars_slash_cons]
  have hnamedLate : (values.named (some s)).toList = values.putChars (trim s.toList) :=
    toList_named _
  have hnames := hasBracket_chars_of_fromRoot (hf ▸ h.folder)
  have hkeeps := h.keeps.of_start hstart
  have hbracket : Placeholder.hasBracket
      (values.named (some (values.projectFolder.resolve ⟨s⟩).text)).toList =
        Placeholder.hasBracket (values.named (some s)).toList := by
    rw [hnamedEarly, hnamedLate, hasBracket_slash_cons, hasBracket_putChars, hasBracket_putChars,
      htail, hlate, List.any_append, List.any_append]
    exact congrArg (· || _) (any_hasBracketStep_normalSteps hnames hkeeps)
  have hresolve : values.projectFolder.resolve
      ⟨values.named (some (values.projectFolder.resolve ⟨s⟩).text)⟩ =
        values.projectFolder.resolve ⟨values.named (some s)⟩ := by
    rw [hf]
    refine Path.resolve_eq_resolve hn (hf ▸ hnamedEarly) h.relative ?_
    rw [hnamedLate, pieceSteps_putChars, pieceSteps_putChars, htail, hlate]
    exact Path.normalSteps_put putStep_of_isName hn
      (fun step hm => putStep_of_hasBracket (hn step hm) (hnames step hm))
      (hkeeps.spares fun step hm => Path.mem_pieceSteps (hstart.subset hm)) more
  have hfilledEarly := filled_of_slash hnamedEarly
  have hfilledLate : values.filled (some s) = values.named (some s) :=
    putFolder_of_not_below? h.apart
  have hnameEarly : values.named (some (values.projectFolder.resolve ⟨s⟩).text) ≠ "" := by
    intro he
    rw [he] at hnamedEarly
    cases hnamedEarly
  have hanchor : Settings.anchorPath values.projectFolder s =
      (values.projectFolder.resolve ⟨s⟩).text := if_neg (Bool.eq_false_iff.mp ha)
  constructor
  · rw [hanchor, hfilledEarly, hfilledLate]
    exact iff_of_false hnameEarly h.named_ne
  · rw [hanchor, hfilledEarly, hfilledLate]
    exact hbracket
  · intro _ _
    rw [hanchor, hfilledEarly, hfilledLate]
    exact hresolve

end PlaceholderValues

end ApiReview
