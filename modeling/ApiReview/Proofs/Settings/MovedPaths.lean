import ApiReview.Proofs.Files.Moved
import ApiReview.Proofs.Settings.PutNames

/-!
# The paths of a moved project

A path setting of a project is told from the project's folder or moves with it (`MovedPath`). Either
way it is prepared to a path that moves with the folder, or is refused or left out in both folders
(`parallel_preparePath`), if it stays in the project when its placeholders are put in.
-/

namespace ApiReview

open Text
open ApiReview.Path (AllNames Step Twin Moved StaysBelow fromRoot)

/-! ## Moved texts -/

/-- A path from the root that moves with a folder, as a text. It stays below the folder when it is
trimmed. -/
def CarriedPath (a b : List Step) (s s' : String) : Prop :=
  ∃ p q, Moved a b p q ∧ StaysBelow (fromRoot a) ⟨trimmed p.text⟩ ∧ s = p.text ∧ s' = q.text

/-- A path setting of a project, and what it is in another folder: the same, or moved. -/
def MovedPath (a b : List Step) (s s' : String) : Prop :=
  (Path.mk s).isAbsolute = false ∧ s' = s ∨ CarriedPath a b s s'

/-- A path setting moved along with a folder. -/
def moveText (here there : Path) (s : String) : String :=
  if (Path.mk s).isAbsolute then (Path.relocate here there ⟨s⟩).text else s

/-- The names of a folder without angle brackets, and without a blank character at its end. -/
structure Bare (names : List Step) : Prop where
  allNames : AllNames names
  filled : EndsFilled (fromRoot names).text.toList
  brackets : ∀ step ∈ names, Placeholder.hasBracket step.chars = false

theorem Site.bare {t : FileTree} {names : List Step} (hn : AllNames names)
    (h : Site t (fromRoot names)) : Bare names where
  allNames := hn
  filled := fun c hc => (h.plain c (List.mem_of_getLast? hc)).1
  brackets := by
    apply PlaceholderValues.hasBracket_chars_of_fromRoot
    simp only [Placeholder.hasBracket, List.any_eq_false, Bool.or_eq_true, decide_eq_true_eq,
      not_or]
    exact fun c hc => (h.plain c hc).2

theorem moveText_of_relative {here there : Path} {s : String}
    (h : (Path.mk s).isAbsolute = false) : moveText here there s = s := by
  rw [moveText, if_neg (Bool.eq_false_iff.mp h)]

section Moved

variable {a b names : List Step} {p q : Path} {s s' : String}

theorem MovedPath.eq_moveText (ha : AllNames a) (hb : AllNames b) (h : MovedPath a b s s') :
    s' = moveText (fromRoot a) (fromRoot b) s := by
  rcases h with ⟨hrelative, rfl⟩ | ⟨p, q, hpq, -, rfl, rfl⟩
  · exact (moveText_of_relative hrelative).symm
  · rw [moveText, if_pos (hpq.twin ha hb).isAbsolute.1, hpq.relocate_eq ha hb]

/-- Trimming a path takes blank characters from the end of its last name. -/
theorem steps_trimmed_fromRoot {last : Step} (hn : AllNames (names ++ [last])) :
    (Path.mk (trimmed (fromRoot (names ++ [last])).text)).steps =
      .root :: (names ++ (Path.stepOf? (trimEnd last.chars)).toList) := by
  have hnames := hn.of_concat.1
  obtain ⟨blank, hblank, hall⟩ := exists_append_of_trimEnd last.chars
  obtain ⟨before, -, hjoin⟩ := joinWith_concat_eq '/' (names.map Step.chars)
  have htext : (fromRoot (names ++ [last])).text.toList =
      '/' :: joinWith '/' (names.map Step.chars ++ [trimEnd last.chars]) ++ blank := by
    rw [Path.toList_fromRoot, List.map_append, List.map_singleton, hjoin, hjoin, List.cons_append,
      List.append_assoc, ← hblank]
  have htrim : (trimmed (fromRoot (names ++ [last])).text).toList =
      '/' :: joinWith '/' (names.map Step.chars ++ [trimEnd last.chars]) := by
    rw [trimmed, String.toList_ofList, trim, htext, List.cons_append,
      (Path.startsFilled_slash _).trimStart, ← List.cons_append, trimEnd_append hall]
    exact (endsFilled_slash_joinWith (endsFilled_trimEnd _)).trimEnd
  have hslash : '/' ∉ trimEnd last.chars := by
    have hlast := hn.not_mem_slash last.chars (by simp)
    rw [hblank] at hlast
    exact fun hm => hlast (List.mem_append_left _ hm)
  have hpieces : ∀ piece ∈ names.map Step.chars ++ [trimEnd last.chars], '/' ∉ piece :=
    List.forall_mem_append.mpr ⟨hnames.not_mem_slash, List.forall_mem_singleton.mpr hslash⟩
  rw [Path.steps_of_slash (p := ⟨trimmed _⟩) htrim, Path.pieceSteps_joinWith hpieces,
    List.filterMap_append, Path.filterMap_stepOf?_chars hnames.isPiece,
    List.filterMap_eq_flatMap_toList (l := [_]), List.flatMap_singleton]

/-- Moved paths are told alike from their folders when they are trimmed. -/
theorem Path.Moved.trimmed (ha : Bare a) (hb : Bare b) (h : Moved a b p q)
    (hstays : StaysBelow (fromRoot a) ⟨Text.trimmed p.text⟩) :
    Twin a b ⟨Text.trimmed p.text⟩ ⟨Text.trimmed q.text⟩ := by
  obtain ⟨names, hn, rfl, rfl⟩ := h
  obtain ⟨rest, hrest, hrises⟩ := hstays
  rcases List.eq_nil_or_concat names with rfl | ⟨front, last, rfl⟩
  · have hfolder : ∀ {c}, Bare c → Text.trimmed (fromRoot (c ++ [])).text = (fromRoot c).text :=
      fun {c} hc => by
        rw [List.append_nil, Text.trimmed, trim, Path.toList_fromRoot,
          (Path.startsFilled_slash _).trimStart, ← Path.toList_fromRoot, hc.filled.trimEnd,
          String.ofList_toList]
    rw [hfolder ha, hfolder hb]
    exact (Path.moved_folder a b).twin ha.allNames hb.allNames
  · rw [List.concat_eq_append] at hn hrest ⊢
    have hsteps : ∀ {c}, AllNames c →
        (Path.mk (Text.trimmed (fromRoot (c ++ (front ++ [last]))).text)).steps =
          .root :: (c ++ (front ++ (Path.stepOf? (trimEnd last.chars)).toList)) := fun {c} hc => by
      have hall := Path.allNames_append hc hn
      rw [← List.append_assoc] at hall ⊢
      rw [steps_trimmed_fromRoot hall, List.append_assoc]
    rw [hsteps ha.allNames, Path.steps_fromRoot ha.allNames, List.cons_append, List.cons.injEq,
      List.append_cancel_left_eq] at hrest
    exact ⟨_, hsteps ha.allNames, hsteps hb.allNames, hrest.2 ▸ hrises⟩

theorem Path.Moved.hasBracket_eq (ha : Bare a) (hb : Bare b) (h : Moved a b p q) :
    Placeholder.hasBracket p.text.toList = Placeholder.hasBracket q.text.toList := by
  have hfree : ∀ {c}, Bare c → (c.map Step.chars).any Placeholder.hasBracket = false := fun hc => by
    simpa [List.any_eq_false] using hc.brackets
  obtain ⟨names, -, rfl, rfl⟩ := h
  simp only [Path.toList_fromRoot, PlaceholderValues.hasBracket_slash_cons,
    Placeholder.hasBracket_joinWith, List.map_append, List.any_append, hfree ha, hfree hb]

end Moved

/-! ## With placeholders put in -/

namespace PlaceholderValues

variable {a b : List Step} {values : PlaceholderValues}

section Names

variable {p q : Path}

/-- With the names of packages put in, paths are told alike from their folders. -/
theorem Solid.twin_putNames (hv : values.Solid) (ha : Bare a) (hb : Bare b) (h : Twin a b p q) :
    Twin a b ⟨values.putNames p.text⟩ ⟨values.putNames q.text⟩ := by
  obtain ⟨hpa, hqa⟩ := h.isAbsolute
  obtain ⟨rest, hp, hq, hrises⟩ := h
  have hput : ∀ {c : List Step} {r : Path}, Bare c → r.isAbsolute = true →
      r.steps = .root :: (c ++ rest) →
      (Path.mk (values.putNames r.text)).steps = .root :: (c ++ rest.flatMap values.putStep) := by
    intro c r hc hr hsteps
    obtain ⟨s, hs⟩ := Path.isAbsolute_iff.mp hr
    have htext : (values.putNames r.text).toList = '/' :: values.putChars s := by
      rw [toList_putNames, hs, putChars_slash_cons]
    have hfixed : c.flatMap values.putStep = c := by
      rw [List.flatMap_congr fun step hm =>
        putStep_of_hasBracket (hc.allNames step hm) (hc.brackets step hm), List.flatMap_singleton']
    rw [Path.steps_of_slash hs, List.cons.injEq] at hsteps
    rw [Path.steps_of_slash (p := ⟨values.putNames r.text⟩) htext, pieceSteps_putChars, hsteps.2,
      List.flatMap_append, hfixed]
  have hsteps : ∀ step ∈ rest, step = .up ∨ step.IsName := fun step hm => by
    obtain ⟨s, hs⟩ := Path.isAbsolute_iff.mp hpa
    rw [Path.steps_of_slash hs, List.cons.injEq] at hp
    exact Path.mem_pieceSteps (hp.2 ▸ List.mem_append_right _ hm)
  exact ⟨_, hput ha hpa hp, hput hb hqa hq, hv.risesAtMost hsteps hrises⟩

/-- With the names of packages put in, both paths have an angle bracket or none. -/
theorem hasBracket_putNames_eq (ha : Bare a) (hb : Bare b) (h : Twin a b p q) :
    Placeholder.hasBracket (values.putNames p.text).toList =
      Placeholder.hasBracket (values.putNames q.text).toList := by
  obtain ⟨hpa, hqa⟩ := h.isAbsolute
  obtain ⟨rest, hp, hq, -⟩ := h
  have hput : ∀ {c : List Step} {r : Path}, Bare c → r.isAbsolute = true →
      r.steps = .root :: (c ++ rest) →
      Placeholder.hasBracket (values.putNames r.text).toList =
        rest.any values.hasBracketStep := by
    intro c r hc hr hsteps
    obtain ⟨s, hs⟩ := Path.isAbsolute_iff.mp hr
    have hfree : c.any values.hasBracketStep = false := by
      simp only [List.any_eq_false]
      intro step hm
      rw [hasBracketStep, putChars_of_hasBracket (hc.brackets step hm), hc.brackets step hm]
      exact Bool.false_ne_true
    rw [Path.steps_of_slash hs, List.cons.injEq] at hsteps
    rw [toList_putNames, hs, putChars_slash_cons, hasBracket_slash_cons, hasBracket_putChars,
      hsteps.2]
    show (c ++ rest).any values.hasBracketStep = _
    rw [List.any_append, hfree, Bool.false_or]
  rw [hput ha hpa hp, hput hb hqa hq]

end Names

/-- A setting that is no path from the root stays in the project: read from the project folder, with
its placeholders put in, it does not go up above the root of the project. -/
@[mk_iff]
structure StaysInside (root : Path) (values : PlaceholderValues) (s : String) : Prop where
  below : ∀ below, below? (values.named (some s)) = some below →
    StaysBelow root (values.projectFolder.join below)
  relative : below? (values.named (some s)) = none →
    (Path.mk (values.named (some s))).isAbsolute = false ∧
      StaysBelow root (values.projectFolder.join ⟨values.named (some s)⟩)

instance (root : Path) (values : PlaceholderValues) (s : String) :
    Decidable (values.StaysInside root s) :=
  decidable_of_iff ((∀ below ∈ below? (values.named (some s)),
      StaysBelow root (values.projectFolder.join below)) ∧ _)
    (staysInside_iff root values s).symm

/-- A path setting that moves with a project, and stays in it. -/
structure Follows (a b : List Step) (values : PlaceholderValues) (s s' : String) : Prop where
  moved : MovedPath a b s s'
  inside : (Path.mk s).isAbsolute = false → values.StaysInside (fromRoot a) s

/-- What two settings with their placeholders put in have in common: both are empty or none is,
both have an angle bracket or none has, and they are read as moved paths. -/
structure FilledAlike (a b : List Step) (values values' : PlaceholderValues) (s s' : String) :
    Prop where
  empty : values.filled (some s) = "" ↔ values'.filled (some s') = ""
  brackets : Placeholder.hasBracket (values.filled (some s)).toList =
    Placeholder.hasBracket (values'.filled (some s')).toList
  path : values.filled (some s) ≠ "" → Moved a b
    (values.projectFolder.resolve ⟨values.filled (some s)⟩)
    (values'.projectFolder.resolve ⟨values'.filled (some s')⟩)

variable (hv : values.Solid) (ha : Bare a) (hb : Bare b) {folder : Path}
  (hfolder : Moved a b values.projectFolder folder) {s s' : String}

/-- Settings that come to moved paths are alike. -/
theorem filledAlike_of_moved {values' : PlaceholderValues} (ha : Bare a) (hb : Bare b) {p q : Path}
    (hp : values.filled (some s) = p.text) (hq : values'.filled (some s') = q.text)
    (hbrackets : Placeholder.hasBracket p.text.toList = Placeholder.hasBracket q.text.toList)
    (h : Twin a b p q) : FilledAlike a b values values' s s' := by
  obtain ⟨hpa, hqa⟩ := h.isAbsolute
  refine ⟨?_, by rw [hp, hq, hbrackets], fun _ => ?_⟩
  · rw [hp, hq]
    exact iff_of_false (Path.text_ne_empty hpa) (Path.text_ne_empty hqa)
  · rw [hp, hq, Path.resolve_of_isAbsolute hpa, Path.resolve_of_isAbsolute hqa]
    exact h.normalize ha.allNames hb.allNames

include hv ha hb hfolder

theorem Follows.filledAlike (h : Follows a b values s s') :
    FilledAlike a b values { values with projectFolder := folder } s s' := by
  have htwin := hfolder.twin ha.allNames hb.allNames
  rcases h.moved with ⟨hrelative, rfl⟩ | ⟨p, q, hpq, hstays, rfl, rfl⟩
  · have hinside := h.inside hrelative
    have hnamed : ({ values with projectFolder := folder } : PlaceholderValues).named (some s') =
      values.named (some s') := rfl
    cases hbelow : below? (values.named (some s')) with
    | some below =>
      -- The project folder stands at the start.
      have hmoved := (htwin.join ha.allNames (isAbsolute_below? hbelow)
        (hinside.below below hbelow)).normalize ha.allNames hb.allNames
      exact filledAlike_of_moved ha hb (putFolder_of_below? hbelow)
        (putFolder_of_below? (hnamed ▸ hbelow)) (hmoved.hasBracket_eq ha hb)
        (hmoved.twin ha.allNames hb.allNames)
    | none =>
      obtain ⟨hnotRoot, hstays⟩ := hinside.relative hbelow
      have hfilled : values.filled (some s') = values.named (some s') :=
        putFolder_of_not_below? hbelow
      have hfilled' : ({ values with projectFolder := folder } : PlaceholderValues).filled
          (some s') = values.named (some s') := putFolder_of_not_below? (hnamed ▸ hbelow)
      refine ⟨by rw [hfilled, hfilled'], by rw [hfilled, hfilled'], fun _ => ?_⟩
      rw [hfilled, hfilled']
      exact htwin.resolve ha.allNames hb.allNames hnotRoot hstays
  · have htrimmed := hpq.trimmed ha hb hstays
    have hput := hv.twin_putNames ha hb htrimmed
    obtain ⟨hpa, hqa⟩ := hput.isAbsolute
    exact filledAlike_of_moved ha hb (putFolder_of_not_below? (below?_of_isAbsolute hpa))
      (putFolder_of_not_below? (below?_of_isAbsolute hqa))
      (hasBracket_putNames_eq ha hb htrimmed) hput

/-- A path setting that moves with a project is prepared to paths that move with it. -/
theorem Follows.parallel_preparePath (h : Follows a b values s s') (field field' : String) :
    Parallel (Option.Rel (Moved a b)) (Settings.preparePath values field (some s))
      (Settings.preparePath { values with projectFolder := folder } field' (some s')) := by
  obtain ⟨hempty, hbrackets, hpath⟩ := h.filledAlike hv ha hb hfolder
  apply Parallel.of_rel
  rw [toOption_preparePath, toOption_preparePath, hbrackets]
  split
  · exact .none
  · refine .some ?_
    by_cases he : values.filled (some s) = ""
    · rw [if_pos he, if_pos (hempty.mp he)]
      exact .none
    · rw [if_neg he, if_neg fun he' => he (hempty.mpr he')]
      exact .some (hpath he)

end PlaceholderValues

end ApiReview
