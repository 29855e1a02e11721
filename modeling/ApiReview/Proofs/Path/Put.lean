import ApiReview.Proofs.Path.Above
import ApiReview.Proofs.Path.Kept
import Mathlib.Data.List.Basic

/-!
# Putting other steps in for names

Something else may be put in for the names of a path before the steps up take back names, or after
that: it comes to the same if no step up takes back a name that something else is put in for
(`putStack_foldl_push`, `normalSteps_put`).
-/

namespace ApiReview.Path

variable {step : Step} {steps stack : List Step}

/-- No step up takes back a name that something else is put in for. -/
def Spares (put : Step → List Step) (steps : List Step) : Prop :=
  ∀ before name behind, steps = before ++ .name name :: behind → put (.name name) ≠ [.name name] →
    RisesAtMost 0 behind

/-- No step up takes back a name on the stack that something else is put in for. -/
def SparesBelow (put : Step → List Step) (stack steps : List Step) : Prop :=
  ∀ above name below, stack = above ++ .name name :: below → put (.name name) ≠ [.name name] →
    RisesAtMost above.length steps

variable {put : Step → List Step}

theorem Spares.of_cons (h : Spares put (step :: steps)) : Spares put steps :=
  fun before name behind he => h (step :: before) name behind (he ▸ rfl)

theorem SparesBelow.push (hstack : ∀ step ∈ stack, step.isName = true)
    (h : SparesBelow put stack (step :: steps)) (hs : Spares put (step :: steps)) :
    SparesBelow put (push true stack step) steps := by
  have hsilent : ∀ step, step ≠ .up → step.isName = false →
      SparesBelow put stack (step :: steps) → SparesBelow put stack steps :=
    fun step hu hn h above name below he hc =>
      (risesAtMost_cons_of_silent hu hn).mp (h above name below he hc)
  cases step with
  | root => exact hsilent .root (by decide) rfl h
  | here => exact hsilent .here (by decide) rfl h
  | name added =>
    intro above name below he hc
    cases above with
    | nil =>
      obtain ⟨e, -⟩ := List.cons_eq_cons.mp he
      exact hs [] name steps (e ▸ rfl) hc
    | cons first above =>
      obtain ⟨-, he⟩ := List.cons_eq_cons.mp he
      exact risesAtMost_name_cons.mp (h above name below he hc)
  | up =>
    cases stack with
    | nil =>
      intro above name below he
      exact absurd he.symm (List.append_ne_nil_of_right_ne_nil above (List.cons_ne_nil _ _))
    | cons top rest =>
      cases top with
      | name top =>
        intro above name below he hc
        exact risesAtMost_up_cons.mp (h (.name top :: above) name below (congrArg _ he) hc)
      | _ => exact absurd (hstack _ List.mem_cons_self) Bool.false_ne_true

theorem isName_push_of_isName (hstack : ∀ step ∈ stack, step.isName = true) (step : Step) :
    ∀ step' ∈ push true stack step, step'.isName = true := by
  cases step with
  | name name => exact List.forall_mem_cons.mpr ⟨rfl, hstack⟩
  | up =>
    cases stack with
    | nil => exact hstack
    | cons top rest =>
      cases top with
      | name top => exact (List.forall_mem_cons.mp hstack).2
      | _ => exact hstack
  | _ => exact hstack

/-- What is put in for the steps of a stack, with the steps up among it taken. -/
def putStack (put : Step → List Step) (stack : List Step) : List Step :=
  (stack.reverse.flatMap put).foldl (push true) []

theorem putStack_cons (put : Step → List Step) (step : Step) (stack : List Step) :
    putStack put (step :: stack) = (put step).foldl (push true) (putStack put stack) := by
  rw [putStack, List.reverse_cons, List.flatMap_append, List.foldl_append, List.flatMap_singleton,
    putStack]

section Put

variable (hput : ∀ step : Step, step.isName = false → put step = [step])

include hput

theorem putStack_push (hstack : ∀ step ∈ stack, step.isName = true)
    (h : SparesBelow put stack (step :: steps)) :
    putStack put (push true stack step) = (put step).foldl (push true) (putStack put stack) := by
  cases step with
  | name name => exact putStack_cons put _ stack
  | root => rw [hput .root rfl]; rfl
  | here => rw [hput .here rfl]; rfl
  | up =>
    rw [hput .up rfl]
    cases stack with
    | nil => rfl
    | cons top rest =>
      cases top with
      | name top =>
        -- Nothing else is put in for the name that is taken back.
        have hsame : put (.name top) = [.name top] := by
          refine Decidable.byContradiction fun hne => ?_
          exact not_risesAtMost_up_cons (h [] top rest rfl hne)
        rw [putStack_cons, hsame]
        rfl
      | _ => exact absurd (hstack _ List.mem_cons_self) Bool.false_ne_true

/-- Other steps may be put in before or after the steps up have taken back names. -/
theorem putStack_foldl_push (hstack : ∀ step ∈ stack, step.isName = true)
    (h : SparesBelow put stack steps) (hs : Spares put steps) :
    putStack put (steps.foldl (push true) stack) =
      (steps.flatMap put).foldl (push true) (putStack put stack) := by
  induction steps generalizing stack with
  | nil => rfl
  | cons step steps ih =>
    rw [List.foldl_cons, ih (isName_push_of_isName hstack step) (h.push hstack hs) hs.of_cons,
      List.flatMap_cons, List.foldl_append, putStack_push hput hstack h]

/-- Normal steps that something is put in for come to the same steps as the steps themselves. -/
theorem normalSteps_put {names : List Step} (hn : AllNames names)
    (hfixed : ∀ step ∈ names, put step = [step]) (hs : Spares put steps) (more : List Step) :
    normalSteps true ((normalSteps true (names ++ steps) ++ more).flatMap put) =
      normalSteps true (names ++ (steps ++ more).flatMap put) := by
  have hisName : ∀ step ∈ names.reverse, step.isName = true := fun step hm => by
    cases step with
    | name name => rfl
    | _ => exact absurd (hn _ (List.mem_reverse.mp hm)) id
  have hspares : SparesBelow put names.reverse steps := fun above name below he hne =>
    absurd (hfixed _ (List.mem_reverse.mp (he ▸ List.mem_append_right _ List.mem_cons_self))) hne
  have hnames : names.flatMap put = names := by
    rw [List.flatMap_congr hfixed, List.flatMap_singleton']
  have hstart : putStack put names.reverse = names.reverse := by
    rw [putStack, List.reverse_reverse, hnames, foldl_push_names hn, List.append_nil]
  have hfold : putStack put ((names ++ steps).foldl (push true) []) =
      (steps.flatMap put).foldl (push true) names.reverse := by
    rw [List.foldl_append, foldl_push_names hn, List.append_nil,
      putStack_foldl_push hput hisName hspares hs, hstart]
  rw [normalSteps, List.flatMap_append, List.foldl_append]
  show ((more.flatMap put).foldl (push true)
    (putStack put ((names ++ steps).foldl (push true) []))).reverse = _
  rw [hfold, normalSteps, List.flatMap_append, List.foldl_append, foldl_push_names hn,
    List.append_nil, List.foldl_append]

end Put

end ApiReview.Path
