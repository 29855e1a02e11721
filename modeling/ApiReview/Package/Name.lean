import ApiReview.Text.Basic

/-!
# Package names

A package name is a part, or a scope and a part as in `@scope/part`. A part has ASCII letters,
digits, hyphens, underscores and dots, and starts with neither an underscore nor a dot. `problem?`
names the first rule that a text breaks.
-/

namespace ApiReview.PackageName

open Text

/-- The rules that a text may break. -/
inductive Problem where
  | empty
  | tooLong
  | scopeWithoutName
  | emptyScope
  | emptyName
  | badStart
  | badCharacter
  deriving DecidableEq, Repr

/-- The wording of a broken rule. -/
def Problem.message : Problem → String
  | empty => "package name cannot be empty"
  | tooLong => "package name cannot be longer than 214 characters"
  | scopeWithoutName => "scoped package name must have the form '@scope/name'"
  | emptyScope => "package scope cannot be empty"
  | emptyName => "unscoped part of package name cannot be empty"
  | badStart => "package name cannot start with '.' or '_'"
  | badCharacter => "package name must contain only letters, numbers, '-', '_' and '.'"

/-- The longest package name, in bytes. -/
def maxBytes : Nat := 214

/-- Whether a character may occur in a part. -/
def isPartChar (c : Char) : Bool :=
  c.isAlphanum || c = '-' || c = '_' || c = '.'

/-- The first rule that a part breaks. -/
def partProblem? (part : List Char) : Option Problem :=
  if part.head? = some '.' || part.head? = some '_' then some .badStart
  else if part.all isPartChar then none
  else some .badCharacter

/-- The first rule that the part behind the scope breaks. -/
def unscopedProblem? (part : List Char) : Option Problem :=
  if part = [] then some .emptyName else partProblem? part

/-- The first rule that a name breaks. -/
def problem? (name : String) : Option Problem :=
  if name = "" then some .empty
  else if maxBytes < name.utf8ByteSize then some .tooLong
  else
    match name.toList with
    | '@' :: rest =>
      match cutAt? '/' rest with
      | none => some .scopeWithoutName
      | some (scope, part) =>
        if scope = [] then some .emptyScope
        else (partProblem? scope).or (unscopedProblem? part)
    | part => unscopedProblem? part

/-- The name without its scope. -/
def unscoped (name : String) : String :=
  match name.toList with
  | '@' :: rest =>
    match cutAt? '/' rest with
    | some (_, part) => String.ofList part
    | none => name
  | _ => name

end ApiReview.PackageName
