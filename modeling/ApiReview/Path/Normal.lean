import ApiReview.Path.Basic

/-!
# Normal paths

`normalize` drops what says nothing and lets each step up take back the name before it; at the
root a step up is ignored, and at the start of a relative path it stays. `resolve` reads a path
from a base, `relativeTo?` gives the way from a base to a path below it, and a path is
`isUnderOrEqual` a folder when the folder's normal steps begin its own.
-/

namespace ApiReview

namespace Path

/-- One step on a stack whose top is the step before it. -/
def push (absolute : Bool) (stack : List Step) : Step → List Step
  | .root => stack
  | .here => stack
  | .up =>
    match stack with
    | .name _ :: rest => rest
    | _ => if absolute then stack else .up :: stack
  | .name s => .name s :: stack

/-- The steps behind the anchor of the normal form. -/
def normalSteps (absolute : Bool) (steps : List Step) : List Step :=
  (steps.foldl (push absolute) []).reverse

/-- The text of a step. -/
def Step.chars : Step → List Char
  | .root => ['/']
  | .here => ['.']
  | .up => ['.', '.']
  | .name s => s

/-- The relative path that makes the given steps. -/
def relative (steps : List Step) : Path :=
  ⟨String.ofList (Text.joinWith '/' (steps.map Step.chars))⟩

/-- The path from the root that makes the given steps. -/
def fromRoot (steps : List Step) : Path :=
  ⟨String.ofList ('/' :: Text.joinWith '/' (steps.map Step.chars))⟩

/-- The path without dots, and without steps up that follow a name or the root. -/
def normalize (p : Path) : Path :=
  if p.isAbsolute then fromRoot (normalSteps true p.steps)
  else
    match normalSteps false p.steps with
    | [] => ⟨"."⟩
    | steps => relative steps

/-- The normal form of `p` read from `base`. -/
def resolve (base p : Path) : Path :=
  if p.isAbsolute then p.normalize else (base.join p).normalize

/-- Whether `child` is `parent` or lies below it. -/
def isUnderOrEqual (child parent : Path) : Bool :=
  parent.normalize.steps.isPrefixOf child.normalize.steps

/-- The steps behind the given ones. -/
def stepsAfter? : List Step → List Step → Option (List Step)
  | [], steps => some steps
  | _ :: _, [] => none
  | a :: as, b :: bs => if a = b then stepsAfter? as bs else none

/-- The way from `base` to `p`, if `p` is `base` or lies below it; empty if they are the same. -/
def relativeTo? (p base : Path) : Option Path :=
  (stepsAfter? base.normalize.steps p.normalize.steps).map relative

/-- The path relative to `base` with forward slashes, or unchanged if it does not lie below. -/
def shortFrom (base p : Path) : String :=
  match p.relativeTo? base with
  | some r => if r.text = "" then p.text else r.toSlashes
  | none => p.text

end Path

end ApiReview
