import ApiReview.Proofs.Path.Normal

/-!
# Above normal paths

A normal path from the root (`IsNormal`) is told by its names. The paths above it are those of its
shorter lists of names (`parents_fromRoot_concat`), a name joined to it comes behind the others
(`fromRoot_join_name`), and it is its own normal form (`normalize_fromRoot`).
-/

namespace ApiReview.Path

open Text

variable {names : List Step} {step : Step}

/-- Names, as normal paths are made of. -/
def AllNames (names : List Step) : Prop :=
  ∀ step ∈ names, step.IsName

theorem allNames_nil : AllNames [] := fun _ h => absurd h List.not_mem_nil

theorem AllNames.concat (h : AllNames names) (hs : step.IsName) : AllNames (names ++ [step]) := by
  intro step' hm
  rcases List.mem_append.mp hm with hm | hm
  · exact h step' hm
  · rw [List.mem_singleton.mp hm]
    exact hs

theorem AllNames.of_concat (h : AllNames (names ++ [step])) : AllNames names ∧ step.IsName :=
  ⟨fun _ hm => h _ (List.mem_append_left _ hm), h step List.mem_concat_self⟩

theorem toList_fromRoot (names : List Step) :
    (fromRoot names).text.toList = '/' :: joinWith '/' (names.map Step.chars) :=
  String.toList_ofList

theorem AllNames.isPiece (h : AllNames names) : ∀ step ∈ names, step.IsPiece :=
  fun step hs => (h step hs).isPiece

theorem AllNames.not_mem_slash (h : AllNames names) :
    ∀ piece ∈ names.map Step.chars, '/' ∉ piece :=
  not_mem_slash_of_isPiece h.isPiece

/-- The piece of a name says something. -/
theorem Step.IsName.isSilent_chars (h : step.IsName) : isSilent step.chars = false :=
  h.isPiece.isSilent_chars

theorem AllNames.dropWhile_isSilent (h : AllNames names) :
    (names.map Step.chars).reverse.dropWhile isSilent = (names.map Step.chars).reverse := by
  rcases List.eq_nil_or_concat names with rfl | ⟨front, step, rfl⟩
  · rfl
  · rw [List.concat_eq_append] at h ⊢
    have hlast := h.of_concat.2.isSilent_chars
    rw [List.map_append, List.reverse_append, List.map_singleton, List.reverse_singleton,
      List.singleton_append, List.dropWhile_cons_of_neg (Bool.eq_false_iff.mp hlast)]

theorem AllNames.parents_eq (h : AllNames names) :
    (fromRoot names).parents = above .root (names.map Step.chars).reverse := by
  rw [parents, toList_fromRoot, split_slash]
  cases names with
  | nil => rfl
  | cons step rest =>
    have hne : (step :: rest).map Step.chars ≠ [] := List.cons_ne_nil _ _
    rw [splitOn_joinWith hne h.not_mem_slash]

/-- Above a path comes the one without its last name. -/
theorem parents_fromRoot_concat (h : AllNames names) (hs : step.IsName) :
    (fromRoot (names ++ [step])).parents = fromRoot names :: (fromRoot names).parents := by
  rw [(h.concat hs).parents_eq, h.parents_eq, List.map_append, List.reverse_append,
    List.map_singleton, List.reverse_singleton, List.singleton_append, above, hs.isSilent_chars,
    if_neg Bool.false_ne_true, h.dropWhile_isSilent, List.reverse_reverse]
  rfl

theorem parent?_fromRoot_concat (h : AllNames names) (hs : step.IsName) :
    (fromRoot (names ++ [step])).parent? = some (fromRoot names) := by
  rw [parent?, parents_fromRoot_concat h hs, List.head?_cons]

theorem parents_fromRoot_nil : (fromRoot []).parents = [] := by
  rw [allNames_nil.parents_eq]
  rfl

/-! ## Joining and normal forms -/

theorem joinWith_append {pieces more : List (List Char)} (hp : pieces ≠ []) (hm : more ≠ []) :
    joinWith '/' (pieces ++ more) = joinWith '/' pieces ++ '/' :: joinWith '/' more := by
  obtain ⟨next, rest, rfl⟩ := List.exists_cons_of_ne_nil hm
  induction pieces with
  | nil => exact absurd rfl hp
  | cons first pieces ih =>
    cases pieces with
    | nil => rfl
    | cons second pieces =>
      have hrest := ih (List.cons_ne_nil _ _)
      rw [List.cons_append] at hrest
      rw [List.cons_append, List.cons_append, joinWith, hrest, joinWith, List.append_assoc,
        List.cons_append]

theorem joinWith_concat {pieces : List (List Char)} (hne : pieces ≠ []) (piece : List Char) :
    joinWith '/' (pieces ++ [piece]) = joinWith '/' pieces ++ '/' :: piece :=
  joinWith_append hne (List.cons_ne_nil _ _)

/-- A name is some text that does not end in a slash. -/
theorem Step.IsName.getLast? (h : step.IsName) : ∃ c, step.chars.getLast? = some c ∧ c ≠ '/' := by
  cases hlast : step.chars.getLast? with
  | none =>
    have hsilent := h.isSilent_chars
    rw [List.getLast?_eq_none_iff.mp hlast] at hsilent
    cases hsilent
  | some c =>
    refine ⟨c, rfl, ?_⟩
    rintro rfl
    exact h.stepOf?_chars.2 (List.mem_of_getLast? hlast)

/-- Only the root itself ends in a slash. -/
theorem AllNames.getLast?_ne_slash (h : AllNames names) (hne : names ≠ []) :
    (fromRoot names).text.toList.getLast? ≠ some '/' := by
  rcases List.eq_nil_or_concat names with rfl | ⟨front, step, rfl⟩
  · exact absurd rfl hne
  · rw [List.concat_eq_append] at h ⊢
    obtain ⟨c, hc, hslash⟩ := h.of_concat.2.getLast?
    have htext : ∃ before, (fromRoot (front ++ [step])).text.toList = before ++ step.chars := by
      rw [toList_fromRoot, List.map_append, List.map_singleton]
      by_cases hfront : front.map Step.chars = []
      · exact ⟨['/'], by rw [hfront]; rfl⟩
      · exact ⟨'/' :: joinWith '/' (front.map Step.chars) ++ ['/'], by
          rw [joinWith_concat hfront]
          simp only [List.cons_append, List.append_assoc, List.nil_append]⟩
    obtain ⟨before, htext⟩ := htext
    rw [htext, List.getLast?_append, hc, Option.some_or]
    exact fun e => hslash (Option.some.inj e)

/-- A text whose pieces are all names. -/
def IsNames (s : String) : Prop :=
  ∀ piece ∈ splitOn '/' s.toList, (Step.name piece).IsName

theorem IsNames.isAbsolute {s : String} (h : IsNames s) : (Path.mk s).isAbsolute = false := by
  refine Bool.eq_false_iff.mpr fun ha => ?_
  obtain ⟨rest, hrest⟩ := isAbsolute_iff.mp ha
  have hpiece : [] ∈ splitOn '/' s.toList := by
    rw [show s.toList = '/' :: rest from hrest, splitOn_cons_self]
    exact List.mem_cons_self
  exact absurd (h [] hpiece).1 (by decide)

theorem IsNames.allNames {s : String} (hs : IsNames s) (h : AllNames names) :
    AllNames (names ++ (splitOn '/' s.toList).map .name) := by
  intro step hm
  rcases List.mem_append.mp hm with hm | hm
  · exact h step hm
  · obtain ⟨piece, hp, rfl⟩ := List.mem_map.mp hm
    exact hs piece hp

/-- Names joined to a path come behind its names. -/
theorem fromRoot_join_names (h : AllNames names) {s : String} (hs : IsNames s) :
    (fromRoot names).join ⟨s⟩ = fromRoot (names ++ (splitOn '/' s.toList).map .name) := by
  have hmore : splitOn '/' s.toList ≠ [] := splitOn_ne_nil _ _
  have hchars : ((splitOn '/' s.toList).map Step.name).map Step.chars = splitOn '/' s.toList := by
    rw [List.map_map]
    exact List.map_id _
  have hne := text_ne_empty (isAbsolute_fromRoot names)
  rw [join, hs.isAbsolute, Bool.false_or, if_neg (fun e => hne (of_decide_eq_true e))]
  by_cases hnames : names = []
  · subst hnames
    rw [if_pos (show (fromRoot []).text.toList.getLast? = some '/' from rfl)]
    refine congrArg Path.mk (String.toList_inj.mp ?_)
    rw [String.toList_append, toList_fromRoot, String.toList_ofList, List.nil_append, hchars,
      joinWith_splitOn]
    rfl
  · have hpieces : names.map Step.chars ≠ [] := fun e => hnames (List.map_eq_nil_iff.mp e)
    rw [if_neg (h.getLast?_ne_slash hnames)]
    refine congrArg Path.mk (String.toList_inj.mp ?_)
    rw [List.map_append, hchars, joinWith_append hpieces hmore, joinWith_splitOn]
    simp only [String.toList_append, toList_fromRoot, String.toList_ofList, List.append_assoc,
      List.cons_append]
    rfl

/-- A name joined to a path comes behind its names. -/
theorem fromRoot_join_name (h : AllNames names) {p : Path}
    (hs : (Step.name p.text.toList).IsName) :
    (fromRoot names).join p = fromRoot (names ++ [.name p.text.toList]) := by
  have hpieces : splitOn '/' p.text.toList = [p.text.toList] := splitOn_of_not_mem hs.2
  have hnames : IsNames p.text := fun piece hp => by
    rw [hpieces] at hp
    rwa [List.mem_singleton.mp hp]
  rw [fromRoot_join_names h hnames, hpieces]
  rfl

/-- A path of names is its own normal form. -/
theorem normalize_fromRoot (h : AllNames names) : (fromRoot names).normalize = fromRoot names := by
  have hsteps : normalSteps true (.root :: names) = names := by
    rw [normalSteps, List.foldl_cons]
    show (names.foldl (push true) []).reverse = names
    rw [foldl_push_names h, List.append_nil, List.reverse_reverse]
  rw [normalize, if_pos (isAbsolute_fromRoot names), steps_fromRoot h, hsteps]

/-- A normal form from the root is a path of names. -/
theorem normalize_eq_fromRoot {p : Path} (hp : p.isAbsolute = true) :
    ∃ names, AllNames names ∧ p.normalize = fromRoot names :=
  ⟨normalSteps true p.steps, isName_of_mem_normalSteps hp, by rw [normalize, if_pos hp]⟩

/-- A path from the root that is its own normal form, told by its names. -/
def IsNormal (p : Path) : Prop :=
  ∃ names, AllNames names ∧ p = fromRoot names

theorem isNormal_of_normalize_eq {p : Path} (hp : p.isAbsolute = true) (h : p.normalize = p) :
    p.IsNormal := by
  obtain ⟨names, hn, e⟩ := normalize_eq_fromRoot hp
  exact ⟨names, hn, h.symm.trans e⟩

theorem IsNormal.normalize_eq {p : Path} (h : p.IsNormal) : p.normalize = p := by
  obtain ⟨names, hn, rfl⟩ := h
  exact normalize_fromRoot hn

theorem IsNormal.isPlain {p : Path} (h : p.IsNormal) : p.IsPlain := by
  have hp : p.isAbsolute = true := by
    obtain ⟨names, -, rfl⟩ := h
    exact isAbsolute_fromRoot names
  rw [← h.normalize_eq]
  exact isPlain_normalize hp

/-- What is read from a folder that is told from the root is normal. -/
theorem isNormal_resolve {base p : Path} (hb : base.isAbsolute = true) :
    (base.resolve p).IsNormal := by
  rw [resolve]
  split
  · rename_i ha
    exact normalize_eq_fromRoot ha
  · exact normalize_eq_fromRoot (isAbsolute_join hb)

end ApiReview.Path
