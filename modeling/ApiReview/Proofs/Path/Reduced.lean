import ApiReview.Proofs.Path.Inside

/-!
# What normal forms leave out

The normal form of a path is reduced (`isReduced_normalize`): it has no dot, unless it is the dot
itself, and its steps up come first and not from the root. From the root it makes the steps that are
left when each step up takes the last name away (`steps_normalize_climb`). What it leaves out never
matters to what is read from it or along it: both the base and the path may be normalized before the
one is read from the other (`resolve_normalize_base`, `resolve_normalize_of`).
-/

namespace ApiReview.Path

open Text

variable {absolute : Bool} {step : Step} {stack steps names : List Step} {p base r : Path}

/-- The names behind the root after one more step: a name comes behind them, and a step up takes the
last one away, if there is one. -/
def climb (names : List Step) : Step → List Step
  | .name s => names ++ [.name s]
  | .up => names.dropLast
  | .root | .here => names

/-- A path without steps that could be left out: no dot, unless it is the dot itself, and steps up
only at the start of a relative path. -/
structure IsReduced (p : Path) : Prop where
  here : .here ∈ p.steps → p = ⟨"."⟩
  up : ∀ before behind, p.steps = before ++ .up :: behind →
    p.isAbsolute = false ∧ ∀ step ∈ before, step = .up

/-! ## The steps that are left -/

theorem isReduced_normalize (p : Path) : p.normalize.IsReduced := by
  constructor
  · intro hmem
    rw [steps_normalize_eq_append, List.mem_append, or_iff_left (here_not_mem_parts p),
      anchorOf] at hmem
    split at hmem
    · cases List.mem_singleton.mp hmem
    · rename_i hrelative
      split at hmem
      · rename_i hparts
        exact normalize_eq_dot_iff.mpr ⟨Bool.eq_false_iff.mpr hrelative, hparts⟩
      · cases hmem
  · intro before behind hup
    have hmem : .up ∈ p.normalize.steps := hup ▸ List.mem_append_right _ List.mem_cons_self
    rw [isAbsolute_normalize_eq]
    cases hp : p.isAbsolute with
    | true =>
      -- From the root there are only names.
      exact absurd hmem (isPlain_normalize hp).noUp
    | false =>
      have hne : p.parts ≠ [] := by
        intro hparts
        rw [normalize_eq_dot_iff.mpr ⟨hp, hparts⟩] at hmem
        exact absurd hmem (by decide)
      rw [steps_normalize_of_relative hp hne] at hup
      obtain ⟨hall, -⟩ := (hup ▸ isParts_parts p).eq_replicate
      exact ⟨rfl, fun step hm => List.eq_of_mem_replicate (hall ▸ hm)⟩

/-- On a stack of names, a step from the root climbs. -/
theorem push_true_eq_climb (h : AllNames stack) (step : Step) :
    (push true stack step).reverse = climb stack.reverse step := by
  cases step with
  | up =>
    cases stack with
    | nil => rfl
    | cons top rest =>
      cases top with
      | name s => rw [climb, List.reverse_cons, List.dropLast_concat]; rfl
      | _ => exact absurd (h _ List.mem_cons_self) id
  | name s => exact List.reverse_cons
  | _ => rfl

theorem foldl_push_true_eq_climb (h : AllNames stack)
    (hs : ∀ step ∈ steps, ∀ s, step = .name s → step.IsName) :
    (steps.foldl (push true) stack).reverse = steps.foldl climb stack.reverse := by
  induction steps generalizing stack with
  | nil => rfl
  | cons step steps ih =>
    obtain ⟨hstep, hsteps⟩ := List.forall_mem_cons.mp hs
    rw [List.foldl_cons, List.foldl_cons, ih (isName_push h hstep) hsteps, push_true_eq_climb h]

/-- The normal form of a path from the root makes the steps that are left behind the root. -/
theorem steps_normalize_climb (hp : p.isAbsolute = true) :
    p.normalize.steps = .root :: p.steps.foldl climb [] := by
  have hnames : ∀ step ∈ p.steps, ∀ s, step = .name s → step.IsName := by
    intro step hm s hs
    rw [steps_of_isAbsolute hp, hs] at hm
    have hpiece := (List.mem_cons.mp hm).resolve_left Step.noConfusion
    exact hs ▸ (mem_pieceSteps hpiece).resolve_left Step.noConfusion
  rw [steps_normalize hp, normalSteps, foldl_push_true_eq_climb allNames_nil hnames]
  rfl

/-! ## Reading from normal forms and along them -/

/-- A step on a relative stack may come later. -/
theorem foldl_push_push (absolute : Bool) (below stack : List Step) (step : Step) :
    (push false stack step).reverse.foldl (push absolute) below =
      (stack.reverse ++ [step]).foldl (push absolute) below := by
  cases step with
  | up =>
    have hmore : (Step.up :: stack).reverse.foldl (push absolute) below =
        (stack.reverse ++ [Step.up]).foldl (push absolute) below := by
      rw [List.reverse_cons]
    cases stack with
    | nil => exact hmore
    | cons top rest =>
      cases top with
      | name s =>
        -- The name goes on whatever is below, and the step up takes it back.
        rw [List.reverse_cons, List.foldl_append, List.foldl_append]
        rfl
      | _ => exact hmore
  | name s => rw [← List.reverse_cons]; rfl
  | _ => rw [List.foldl_append]; rfl

theorem foldl_push_foldl_push (absolute : Bool) (below stack steps : List Step) :
    (steps.foldl (push false) stack).reverse.foldl (push absolute) below =
      (stack.reverse ++ steps).foldl (push absolute) below := by
  induction steps generalizing stack with
  | nil => rw [List.append_nil]; rfl
  | cons step steps ih =>
    rw [List.foldl_cons, ih, List.foldl_append, foldl_push_push, ← List.foldl_append,
      List.append_assoc]
    rfl

/-- Behind any steps, others come to the same as those of their relative normal form. -/
theorem normalSteps_append_normalSteps (absolute : Bool) (front steps : List Step) :
    normalSteps absolute (front ++ normalSteps false steps) =
      normalSteps absolute (front ++ steps) := by
  refine congrArg List.reverse ?_
  rw [List.foldl_append, List.foldl_append]
  exact foldl_push_foldl_push absolute _ [] steps

/-- The pieces of a relative normal form are its parts. -/
theorem pieceSteps_normalize (hr : r.isAbsolute = false) :
    pieceSteps r.normalize.text.toList = r.parts := by
  by_cases hparts : r.parts = []
  · rw [normalize_eq_dot_iff.mpr ⟨hr, hparts⟩, hparts]
    rfl
  · rw [normalize_eq_written, hr, anchorOf, if_neg Bool.false_ne_true, if_neg hparts,
      String.toList_ofList]
    exact pieceSteps_joinWith_chars (isParts_parts r).isPiece

/-- A base may be normalized before a path is read from it. -/
theorem resolve_normalize_base (base r : Path) : base.normalize.resolve r = base.resolve r := by
  cases hr : r.isAbsolute with
  | true => rw [resolve_of_isAbsolute hr, resolve_of_isAbsolute hr]
  | false =>
    rw [resolve_of_relative hr, resolve_of_relative hr]
    refine normalize_eq_of_parts ?_ ?_
    · rw [isAbsolute_join_of_relative hr, isAbsolute_join_of_relative hr, isAbsolute_normalize_eq]
    · rw [parts_join hr, parts_join hr, isAbsolute_normalize_eq, parts_normalize]

/-- A path may be normalized before it is read from a base. -/
theorem resolve_normalize_of (base r : Path) : base.resolve r.normalize = base.resolve r := by
  have hn := isAbsolute_normalize_eq r
  cases hr : r.isAbsolute with
  | true =>
    rw [resolve_of_isAbsolute (hn.trans hr), resolve_of_isAbsolute hr, normalize_normalize]
  | false =>
    have hrelative := hn.trans hr
    rw [resolve_of_relative hrelative, resolve_of_relative hr]
    refine normalize_eq_of_parts ?_ ?_
    · rw [isAbsolute_join_of_relative hrelative, isAbsolute_join_of_relative hr]
    · have hway : r.parts = normalSteps false (pieceSteps r.text.toList) := by rw [parts, hr]
      rw [parts_join hrelative, parts_join hr, pieceSteps_normalize hr, hway,
        normalSteps_append_normalSteps]

/-- Normal forms are reduced and normal, they start where their paths do, from the root they make
the steps that are left of theirs, and taking them early or late does not change which path is
meant. -/
theorem normalize_keepsMeaning (p base r : Path) :
    p.normalize.normalize = p.normalize ∧
      p.normalize.isAbsolute = p.isAbsolute ∧
      p.normalize.IsReduced ∧
      (p.isAbsolute = true → p.normalize.steps = .root :: p.steps.foldl climb []) ∧
      base.normalize.resolve r = base.resolve r ∧
      base.resolve r.normalize = base.resolve r :=
  ⟨normalize_normalize p, isAbsolute_normalize_eq p, isReduced_normalize p, steps_normalize_climb,
    resolve_normalize_base base r, resolve_normalize_of base r⟩

/-- A path from the root that goes up above it, read with a base and a way that go up as well. -/
theorem normalize_keepsMeaning_upwards :
    (Path.mk "/a/../../b/./c").isAbsolute = true ∧
      (Path.mk "/a/../../b/./c").normalize.steps = [.root, .name ['b'], .name ['c']] ∧
      (Path.mk "x/../..").normalize.resolve ⟨"y/../../z"⟩ =
        (Path.mk "x/../..").resolve ⟨"y/../../z"⟩ := by
  have hp : (Path.mk "/a/../../b/./c").isAbsolute = true := by decide
  obtain ⟨-, -, -, hclimb, hbase, -⟩ :=
    normalize_keepsMeaning ⟨"/a/../../b/./c"⟩ ⟨"x/../.."⟩ ⟨"y/../../z"⟩
  have hleft : (Path.mk "/a/../../b/./c").steps.foldl climb [] = [.name ['b'], .name ['c']] := by
    decide +kernel
  exact ⟨hp, hleft ▸ hclimb hp, hbase⟩

end ApiReview.Path
