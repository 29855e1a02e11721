import ApiReview.Path.Normal
import ApiReview.Proofs.Text.Pieces

/-!
# The steps of paths

What a path names hangs on its steps. These are the steps of joined paths (`steps_join`), of the
paths above a path (`steps_parents`) and of normal paths (`steps_normalize`). A path from the root
without steps up is plain (`IsPlain`): its normal form makes the same steps.
-/

namespace ApiReview.Path

open Text

/-- The steps that the pieces of a text make. -/
def pieceSteps (s : List Char) : List Step :=
  (splitOn '/' s).filterMap stepOf?

/-- A step by a name that can stand between two slashes. -/
def Step.IsName : Step → Prop
  | .name s => stepOf? s = some (.name s) ∧ '/' ∉ s
  | _ => False

theorem stepOf?_eq_some {piece : List Char} {step : Step} (h : stepOf? piece = some step) :
    (piece = ['.', '.'] ∧ step = .up) ∨ step = .name piece := by
  rw [stepOf?] at h
  split at h
  · cases h
  · split at h
    · rename_i hp
      exact .inl ⟨hp, (Option.some.inj h).symm⟩
    · exact .inr (Option.some.inj h).symm

/-- Pieces make steps up and steps by names. -/
theorem mem_pieceSteps {s : List Char} {step : Step} (h : step ∈ pieceSteps s) :
    step = .up ∨ step.IsName := by
  obtain ⟨piece, hp, hs⟩ := List.mem_filterMap.mp h
  rcases stepOf?_eq_some hs with ⟨-, h⟩ | rfl
  · exact .inl h
  · exact .inr ⟨hs, not_mem_of_mem_splitOn hp⟩

theorem up_mem_pieceSteps {s : List Char} :
    .up ∈ pieceSteps s ↔ ['.', '.'] ∈ splitOn '/' s := by
  constructor
  · intro h
    obtain ⟨piece, hp, hs⟩ := List.mem_filterMap.mp h
    rcases stepOf?_eq_some hs with ⟨rfl, -⟩ | hs
    · exact hp
    · cases hs
  · exact fun h => List.mem_filterMap.mpr ⟨_, h, rfl⟩

theorem pieceSteps_append_slash (s s' : List Char) :
    pieceSteps (s ++ '/' :: s') = pieceSteps s ++ pieceSteps s' := by
  rw [pieceSteps, splitOn_append_sep, List.filterMap_append]
  rfl

theorem pieceSteps_nil : pieceSteps [] = [] := rfl

/-- Pieces joined make the steps that they make one by one. -/
theorem pieceSteps_joinWith {pieces : List (List Char)} (h : ∀ piece ∈ pieces, '/' ∉ piece) :
    pieceSteps (joinWith '/' pieces) = pieces.filterMap stepOf? := by
  cases pieces with
  | nil => rfl
  | cons piece pieces => rw [pieceSteps, splitOn_joinWith (List.cons_ne_nil _ _) h]

theorem pieceSteps_joinWith_flatMap (texts : List (List Char)) :
    pieceSteps (joinWith '/' texts) = texts.flatMap pieceSteps := by
  induction texts with
  | nil => rfl
  | cons text texts ih =>
    cases texts with
    | nil => rw [joinWith, List.flatMap_singleton]
    | cons next texts => rw [joinWith, pieceSteps_append_slash, ih]; rfl

/-- A piece makes the step of its text, or says nothing. -/
theorem piece_cases (piece : List Char) :
    (stepOf? piece = none ∧ (piece = [] ∨ piece = ['.'])) ∨
      ∃ step, stepOf? piece = some step ∧ step.chars = piece := by
  rw [stepOf?]
  split
  · rename_i hsilent
    exact .inl ⟨rfl, (Bool.or_eq_true_iff.mp hsilent).imp of_decide_eq_true of_decide_eq_true⟩
  · split
    · rename_i hup
      exact .inr ⟨.up, rfl, hup.symm⟩
    · exact .inr ⟨.name piece, rfl, rfl⟩

/-! ## Paths from the root -/

theorem isAbsolute_iff {p : Path} : p.isAbsolute = true ↔ ∃ s, p.text.toList = '/' :: s := by
  rw [isAbsolute, decide_eq_true_iff, List.head?_eq_some_iff]

theorem text_ne_empty {p : Path} (hp : p.isAbsolute = true) : p.text ≠ "" := by
  intro he
  obtain ⟨s, hs⟩ := isAbsolute_iff.mp hp
  rw [he] at hs
  cases hs

theorem split_slash (s : List Char) : split ('/' :: s) = (.root, splitOn '/' s) := by
  rw [split]

theorem steps_of_slash {p : Path} {s : List Char} (h : p.text.toList = '/' :: s) :
    p.steps = .root :: pieceSteps s := by
  rw [steps, h, stepsOf, split_slash]
  rfl

theorem steps_of_isAbsolute {p : Path} (hp : p.isAbsolute = true) :
    p.steps = .root :: pieceSteps p.text.toList := by
  obtain ⟨s, hs⟩ := isAbsolute_iff.mp hp
  rw [steps_of_slash hs, hs]
  exact congrArg _ (pieceSteps_append_slash [] s).symm

theorem root_mem_steps {p : Path} : .root ∈ p.steps ↔ p.isAbsolute = true := by
  rw [isAbsolute_iff]
  constructor
  · intro h
    have hn : ∀ s, .root ∉ pieceSteps s := fun s h => by
      rcases mem_pieceSteps h with h | h
      · cases h
      · exact h
    rw [steps, stepsOf] at h
    unfold split at h
    split at h
    · exact ⟨_, by assumption⟩
    · exact absurd h (by decide)
    · rename_i s _
      rcases List.mem_append.mp h with h | h
      · cases List.mem_singleton.mp h
      · rw [List.filterMap_cons_none rfl] at h
        exact absurd h (hn s)
    · exact absurd h (hn _)
  · rintro ⟨s, h⟩
    rw [steps_of_slash h]
    exact List.mem_cons_self

/-- The anchor of a path comes before the steps of its pieces. -/
theorem steps_eq_append (p : Path) :
    p.steps = (split p.text.toList).1.steps ++ pieceSteps p.text.toList := by
  have hcons : ∀ piece s, stepOf? piece = none →
      (piece :: splitOn '/' s).filterMap stepOf? = pieceSteps s :=
    fun piece s h => List.filterMap_cons_none h
  rw [steps, stepsOf]
  generalize p.text.toList = s
  unfold split
  split
  · rename_i s
    rw [pieceSteps, splitOn_cons_self, hcons [] s rfl]
    rfl
  · rfl
  · rename_i s
    rw [pieceSteps, splitOn_cons_of_ne (by decide) (splitOn_cons_self s), hcons ['.'] s rfl,
      hcons [] s rfl]
  · rfl

/-- The anchor of a path is no step up. -/
theorem up_mem_steps {p : Path} : .up ∈ p.steps ↔ .up ∈ pieceSteps p.text.toList := by
  have hanchor : ∀ anchor : Anchor, .up ∉ anchor.steps := by
    intro anchor
    cases anchor <;> decide
  rw [steps_eq_append, List.mem_append, or_iff_right (hanchor _)]

/-- The normal form hangs on the steps alone. -/
theorem normalize_congr {p q : Path} (h : p.same q = true) : p.normalize = q.normalize := by
  have hs : p.steps = q.steps := of_decide_eq_true h
  have ha : p.isAbsolute = q.isAbsolute := by
    rw [Bool.eq_iff_iff, ← root_mem_steps, ← root_mem_steps, hs]
  rw [normalize, normalize, hs, ha]

theorem same_refl (p : Path) : p.same p = true :=
  decide_eq_true rfl

/-! ## Joining -/

theorem isAbsolute_join {base p : Path} (hb : base.isAbsolute = true) :
    (base.join p).isAbsolute = true := by
  obtain ⟨s, hs⟩ := isAbsolute_iff.mp hb
  rw [join]
  split
  · rename_i h
    rcases Bool.or_eq_true_iff.mp h with h | h
    · exact h
    · rw [of_decide_eq_true h] at hs
      cases hs
  · split <;> exact isAbsolute_iff.mpr ⟨_, by
      simp only [String.toList_append, hs, List.cons_append]; rfl⟩

/-- The pieces of a relative path come behind those of its base. -/
theorem pieceSteps_join {p : Path} (hp : p.isAbsolute = false) (base : Path) :
    pieceSteps (base.join p).text.toList =
      pieceSteps base.text.toList ++ pieceSteps p.text.toList := by
  rw [join, hp, Bool.false_or]
  split
  · rename_i hempty
    rw [of_decide_eq_true hempty]
    rfl
  · split
    · rename_i hlast
      -- The base ends in a slash already, behind which stands an empty piece.
      obtain ⟨front, hfront⟩ := List.getLast?_eq_some_iff.mp hlast
      rw [String.toList_append, hfront, List.append_assoc, List.singleton_append,
        pieceSteps_append_slash, pieceSteps_append_slash, pieceSteps_nil, List.append_nil]
    · rw [String.toList_append, String.toList_append, List.append_assoc]
      exact pieceSteps_append_slash _ _

/-- A relative path goes on from its base. -/
theorem steps_join {base p : Path} (hb : base.isAbsolute = true) (hp : p.isAbsolute = false) :
    (base.join p).steps = base.steps ++ pieceSteps p.text.toList := by
  rw [steps_of_isAbsolute (isAbsolute_join hb), steps_of_isAbsolute hb, pieceSteps_join hp,
    List.cons_append]

/-! ## Above -/

/-- The paths above pieces that are given from the right make the first of their steps. -/
theorem steps_above {pieces : List (List Char)} (h : ∀ piece ∈ pieces, '/' ∉ piece) {q : Path}
    (hq : q ∈ above .root pieces) :
    q.isAbsolute = true ∧ q.steps <+: .root :: pieces.reverse.filterMap stepOf? := by
  induction pieces with
  | nil => cases hq
  | cons piece rest ih =>
    have hr : ∀ p ∈ rest, '/' ∉ p := fun p hp => h p (List.mem_cons_of_mem _ hp)
    have front : Step.root :: rest.reverse.filterMap stepOf? <+:
        .root :: (piece :: rest).reverse.filterMap stepOf? := by
      rw [List.reverse_cons, List.filterMap_append]
      exact List.prefix_append (Step.root :: _) _
    rw [above] at hq
    split at hq
    · exact ⟨(ih hr hq).1, (ih hr hq).2.trans front⟩
    · rcases List.mem_cons.mp hq with rfl | hq
      · have ht : (Path.mk (String.ofList (written .root (rest.dropWhile isSilent).reverse))).text.toList
            = '/' :: joinWith '/' (rest.dropWhile isSilent).reverse := by
          rw [String.toList_ofList]
          rfl
        refine ⟨isAbsolute_iff.mpr ⟨_, ht⟩, ?_⟩
        rw [steps_of_slash ht, pieceSteps_joinWith fun p hp =>
          hr p ((List.dropWhile_sublist _).subset (List.mem_reverse.mp hp))]
        have hs : (rest.dropWhile isSilent).reverse <+: rest.reverse :=
          List.reverse_prefix.mpr (List.dropWhile_suffix _)
        exact ((List.cons_prefix_cons).mpr ⟨rfl, hs.filterMap stepOf?⟩).trans front
      · exact ⟨(ih hr hq).1, (ih hr hq).2.trans front⟩

/-- A path above one from the root makes the first of its steps. -/
theorem steps_parents {p q : Path} (hp : p.isAbsolute = true) (hq : q ∈ p.parents) :
    q.isAbsolute = true ∧ q.steps <+: p.steps := by
  obtain ⟨s, hs⟩ := isAbsolute_iff.mp hp
  rw [parents, hs, split_slash] at hq
  obtain ⟨ha, h⟩ := steps_above (fun piece h =>
    not_mem_of_mem_splitOn (List.mem_reverse.mp h)) hq
  rw [List.reverse_reverse] at h
  rw [steps_of_slash hs]
  exact ⟨ha, h⟩

theorem steps_ancestors {p q : Path} (hp : p.isAbsolute = true) (hq : q ∈ p.ancestors) :
    q.isAbsolute = true ∧ q.steps <+: p.steps := by
  rcases List.mem_cons.mp hq with rfl | hq
  · exact ⟨hp, List.prefix_refl _⟩
  · exact steps_parents hp hq

/-! ## Normal paths -/

/-- The chars of a step by a name make that step. -/
theorem Step.IsName.stepOf?_chars {step : Step} (h : step.IsName) :
    stepOf? step.chars = some step ∧ '/' ∉ step.chars := by
  cases step with
  | name s => exact h
  | _ => exact absurd h id

/-- A step that a piece between two slashes makes. -/
def Step.IsPiece (step : Step) : Prop :=
  stepOf? step.chars = some step ∧ '/' ∉ step.chars

theorem Step.IsName.isPiece {step : Step} (h : step.IsName) : step.IsPiece :=
  h.stepOf?_chars

/-- The piece of a step says something. -/
theorem Step.IsPiece.isSilent_chars {step : Step} (h : step.IsPiece) :
    isSilent step.chars = false := by
  have hstep := h.1
  rw [stepOf?] at hstep
  split at hstep
  · cases hstep
  · rename_i hsilent
    exact Bool.eq_false_iff.mpr hsilent

theorem not_mem_slash_of_isPiece {steps : List Step} (h : ∀ step ∈ steps, step.IsPiece) :
    ∀ piece ∈ steps.map Step.chars, '/' ∉ piece := by
  intro piece hp
  obtain ⟨step, hs, rfl⟩ := List.mem_map.mp hp
  exact (h step hs).2

theorem filterMap_stepOf?_chars {steps : List Step} (h : ∀ step ∈ steps, step.IsPiece) :
    (steps.map Step.chars).filterMap stepOf? = steps := by
  induction steps with
  | nil => rfl
  | cons step steps ih =>
    rw [List.map_cons, List.filterMap_cons_some (h step List.mem_cons_self).1,
      ih fun s hs => h s (List.mem_cons_of_mem _ hs)]

theorem pieceSteps_joinWith_chars {steps : List Step} (h : ∀ step ∈ steps, step.IsPiece) :
    pieceSteps (joinWith '/' (steps.map Step.chars)) = steps := by
  rw [pieceSteps_joinWith (not_mem_slash_of_isPiece h), filterMap_stepOf?_chars h]

theorem steps_fromRoot {steps : List Step} (h : ∀ step ∈ steps, step.IsName) :
    (fromRoot steps).steps = .root :: steps := by
  have ht : (fromRoot steps).text.toList = '/' :: joinWith '/' (steps.map Step.chars) :=
    String.toList_ofList
  rw [steps_of_slash ht, pieceSteps_joinWith_chars fun step hs => (h step hs).isPiece]

theorem split_of_piece {s piece : List Char} {pieces : List (List Char)}
    (hs : splitOn '/' s = piece :: pieces) (hp : isSilent piece = false) :
    split s = (.free, splitOn '/' s) := by
  unfold split
  split
  · rw [splitOn_cons_self, List.cons.injEq] at hs
    rw [← hs.1] at hp
    cases hp
  · rw [← (List.cons.inj hs).1] at hp
    cases hp
  · rename_i s
    rw [splitOn_cons_of_ne (by decide) (splitOn_cons_self s), List.cons.injEq] at hs
    rw [← hs.1] at hp
    cases hp
  · rfl

theorem steps_relative {steps : List Step} (h : ∀ step ∈ steps, step.IsPiece) :
    (relative steps).steps = steps := by
  rw [Path.steps_eq_append, relative, String.toList_ofList, pieceSteps_joinWith_chars h]
  cases steps with
  | nil => rfl
  | cons step rest =>
    have hsplit : splitOn '/' (joinWith '/' ((step :: rest).map Step.chars)) =
        step.chars :: rest.map Step.chars :=
      splitOn_joinWith (List.cons_ne_nil _ _) (not_mem_slash_of_isPiece h)
    rw [split_of_piece hsplit (h step List.mem_cons_self).isSilent_chars]
    rfl

theorem isAbsolute_relative {steps : List Step} (h : ∀ step ∈ steps, step.IsPiece) :
    (relative steps).isAbsolute = false := by
  refine Bool.eq_false_iff.mpr fun ha => ?_
  have hroot := root_mem_steps.mpr ha
  rw [steps_relative h] at hroot
  exact (h _ hroot).2 List.mem_cons_self

theorem isAbsolute_fromRoot (steps : List Step) : (fromRoot steps).isAbsolute = true :=
  isAbsolute_iff.mpr ⟨_, String.toList_ofList⟩

/-- A stack of names stays one, whatever step comes on it. -/
theorem isName_push {stack : List Step} (h : ∀ step ∈ stack, step.IsName) {step : Step}
    (hs : ∀ s, step = .name s → step.IsName) : ∀ step' ∈ push true stack step, step'.IsName := by
  cases step with
  | root => exact h
  | here => exact h
  | up =>
    cases stack with
    | nil => exact h
    | cons top rest =>
      cases top with
      | name s => exact fun step' hm => h step' (List.mem_cons_of_mem _ hm)
      | _ => exact h
  | name s =>
    intro step' hm
    rcases List.mem_cons.mp hm with rfl | hm
    · exact hs s rfl
    · exact h step' hm

theorem isName_foldl_push {steps stack : List Step} (h : ∀ step ∈ stack, step.IsName)
    (hs : ∀ step ∈ steps, ∀ s, step = .name s → step.IsName) :
    ∀ step ∈ steps.foldl (push true) stack, step.IsName := by
  induction steps generalizing stack with
  | nil => exact h
  | cons step steps ih =>
    exact ih (isName_push h (hs step List.mem_cons_self))
      fun step' hm => hs step' (List.mem_cons_of_mem _ hm)

/-- The steps of a normal form behind the root are names. -/
theorem isName_of_mem_normalSteps {p : Path} (hp : p.isAbsolute = true) :
    ∀ step ∈ normalSteps true p.steps, step.IsName := by
  obtain ⟨s, hs⟩ := isAbsolute_iff.mp hp
  intro step hm
  have hempty : ∀ step ∈ ([] : List Step), step.IsName := fun _ h => absurd h List.not_mem_nil
  refine isName_foldl_push hempty ?_ step (List.mem_reverse.mp hm)
  rw [steps_of_slash hs]
  rintro step' hm' s' rfl
  rcases List.mem_cons.mp hm' with h | h
  · cases h
  · exact (mem_pieceSteps h).resolve_left fun h => by cases h

theorem isAbsolute_normalize {p : Path} (hp : p.isAbsolute = true) :
    p.normalize.isAbsolute = true := by
  rw [normalize, if_pos hp]
  exact isAbsolute_fromRoot _

theorem steps_normalize {p : Path} (hp : p.isAbsolute = true) :
    p.normalize.steps = .root :: normalSteps true p.steps := by
  rw [normalize, if_pos hp, steps_fromRoot (isName_of_mem_normalSteps hp)]

/-! ## Plain paths -/

/-- A path from the root without steps up. -/
structure IsPlain (p : Path) : Prop where
  absolute : p.isAbsolute = true
  noUp : .up ∉ p.steps

/-- A plain path is the root and names. -/
theorem IsPlain.steps_eq {p : Path} (h : p.IsPlain) :
    ∃ names, p.steps = .root :: names ∧ ∀ step ∈ names, step.IsName := by
  obtain ⟨s, hs⟩ := isAbsolute_iff.mp h.absolute
  have hsteps := steps_of_slash hs
  refine ⟨pieceSteps s, hsteps, fun step hm => (mem_pieceSteps hm).resolve_left ?_⟩
  rintro rfl
  exact h.noUp (hsteps ▸ List.mem_cons_of_mem _ hm)

theorem push_of_isName {absolute : Bool} {step : Step} (h : step.IsName) (stack : List Step) :
    push absolute stack step = step :: stack := by
  cases step with
  | name s => rfl
  | _ => exact absurd h id

theorem foldl_push_names {absolute : Bool} {names : List Step} (h : ∀ step ∈ names, step.IsName)
    (stack : List Step) : names.foldl (push absolute) stack = names.reverse ++ stack := by
  induction names generalizing stack with
  | nil => rfl
  | cons step names ih =>
    obtain ⟨hstep, hnames⟩ := List.forall_mem_cons.mp h
    rw [List.foldl_cons, push_of_isName hstep, ih hnames, List.reverse_cons, List.append_assoc]
    rfl

/-- The normal form of a plain path makes the same steps. -/
theorem IsPlain.steps_normalize {p : Path} (h : p.IsPlain) : p.normalize.steps = p.steps := by
  obtain ⟨names, hs, hn⟩ := h.steps_eq
  have hf : normalSteps true (.root :: names) = names := by
    rw [normalSteps, List.foldl_cons]
    show (names.foldl (push true) []).reverse = names
    rw [foldl_push_names hn, List.append_nil, List.reverse_reverse]
  rw [Path.steps_normalize h.absolute, hs, hf]

/-- Plain paths with one normal form make the same steps. -/
theorem IsPlain.same_of_normalize_eq {p q : Path} (hp : p.IsPlain) (hq : q.IsPlain)
    (h : p.normalize = q.normalize) : p.same q = true := by
  refine decide_eq_true ?_
  rw [← hp.steps_normalize, ← hq.steps_normalize, h]

theorem isPlain_normalize {p : Path} (hp : p.isAbsolute = true) : p.normalize.IsPlain := by
  refine ⟨isAbsolute_normalize hp, fun h => ?_⟩
  rw [steps_normalize hp] at h
  rcases List.mem_cons.mp h with h | h
  · cases h
  · exact isName_of_mem_normalSteps hp _ h

theorem resolve_of_relative {p : Path} (hp : p.isAbsolute = false) (base : Path) :
    base.resolve p = (base.join p).normalize := by
  rw [resolve, hp, if_neg Bool.false_ne_true]

theorem resolve_of_isAbsolute {p : Path} (hp : p.isAbsolute = true) (base : Path) :
    base.resolve p = p.normalize := by
  rw [resolve, if_pos hp]

/-- What is read from a plain folder is plain. -/
theorem isPlain_resolve {base p : Path} (hb : base.isAbsolute = true) :
    (base.resolve p).IsPlain := by
  rw [resolve]
  split
  · rename_i hp
    exact isPlain_normalize hp
  · exact isPlain_normalize (isAbsolute_join hb)

theorem IsPlain.of_mem_ancestors {p q : Path} (hp : p.IsPlain) (hq : q ∈ p.ancestors) :
    q.IsPlain :=
  ⟨(steps_ancestors hp.absolute hq).1,
    fun h => hp.noUp ((steps_ancestors hp.absolute hq).2.subset h)⟩

/-- A relative path without steps up goes on plainly from a plain base. -/
theorem IsPlain.join {base p : Path} (hb : base.IsPlain) (ha : p.isAbsolute = false)
    (hp : .up ∉ pieceSteps p.text.toList) : (base.join p).IsPlain := by
  refine ⟨isAbsolute_join hb.absolute, fun h => ?_⟩
  rw [steps_join hb.absolute ha] at h
  rcases List.mem_append.mp h with h | h
  · exact hb.noUp h
  · exact hp h

end ApiReview.Path
