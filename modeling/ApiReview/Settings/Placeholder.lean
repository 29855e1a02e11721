import ApiReview.Package.Name
import ApiReview.Path.Normal
import ApiReview.Text.Blank

/-!
# Placeholders in settings

A setting may hold placeholders in angle brackets. The two package names are put in wherever their
placeholders stand; the project folder only at the start of the value, where the rest is read from
that folder; `<lookup>` is for the settings that treat it themselves. What is left must have no
angle bracket (`refusal?`), so that no misspelled placeholder passes for text.
-/

namespace ApiReview

open Text

/-- Why a value's placeholders are refused. -/
inductive PlaceholderError where
  | misplacedProjectFolder (field : String)
  | lookup (field : String)
  | unrecognized (field token : String)
  | extraCharacters (field value : String)
  deriving DecidableEq, Repr

/-- The wording of a refusal. -/
def PlaceholderError.message : PlaceholderError → String
  | misplacedProjectFolder field =>
    "The " ++ quoted field ++ " value incorrectly uses the \"<projectFolder>\" token. " ++
      "It must appear at the start of the string."
  | lookup field => "The " ++ quoted field ++ " value incorrectly uses the \"<lookup>\" token"
  | unrecognized field token =>
    "The " ++ quoted field ++ " value contains an unrecognized token " ++ quoted token
  | extraCharacters field value =>
    "The " ++ quoted field ++ " value contains extra token characters (\"<\" or \">\"): " ++ value

namespace Placeholder

/-- The placeholder of the project folder. -/
def projectFolder : String := "<projectFolder>"

/-- The placeholder of the package name. -/
def packageName : String := "<packageName>"

/-- The placeholder of the package name without its scope. -/
def unscopedPackageName : String := "<unscopedPackageName>"

/-- The placeholder of a value that is to be searched for. -/
def lookup : String := "<lookup>"

/-- The package name where there is no manifest. -/
def unknownPackage : String := "unknown-package"

/-- The text up to the closing bracket, if no opening bracket comes before it. -/
def bracketBody? : List Char → Option (List Char)
  | [] => none
  | c :: s =>
    if c = '>' then some []
    else if c = '<' then none
    else (bracketBody? s).map (c :: ·)

/-- The leftmost pair of angle brackets with no angle bracket between them. -/
def firstToken? : List Char → Option (List Char)
  | [] => none
  | c :: s =>
    if c = '<' then
      match bracketBody? s with
      | some body => some ('<' :: body ++ ['>'])
      | none => firstToken? s
    else firstToken? s

/-- Whether a text has an angle bracket. -/
def hasBracket (s : List Char) : Bool :=
  s.any fun c => c = '<' || c = '>'

/-- Why a value with its placeholders put in is refused: anything like a placeholder is left. -/
def refusal? (field value : String) : Option PlaceholderError :=
  if !hasBracket value.toList then none
  else
    match firstToken? value.toList with
    | some token => some (.unrecognized field (String.ofList token))
    | none => some (.extraCharacters field value)

end Placeholder

/-- What is put in for the placeholders. -/
structure PlaceholderValues where
  projectFolder : Path
  packageName : String
  unscopedPackageName : String
  deriving DecidableEq, Repr

namespace PlaceholderValues

/-- The values for a project folder and a package name, if that is known. -/
def ofProject (projectFolder : Path) (packageName : Option String) : PlaceholderValues :=
  match packageName with
  | some name => ⟨projectFolder, name, PackageName.unscoped name⟩
  | none => ⟨projectFolder, Placeholder.unknownPackage, Placeholder.unknownPackage⟩

/-- A text with the package names put in. -/
def putNames (values : PlaceholderValues) (s : String) : String :=
  replace Placeholder.packageName values.packageName
    (replace Placeholder.unscopedPackageName values.unscopedPackageName s)

/-- A text with the project folder put in at its start. -/
def putFolder (values : PlaceholderValues) (s : String) : String :=
  match stripStart? Placeholder.projectFolder s with
  | some rest =>
    let rest := rest.toList.dropWhile fun c => c = '/' || c = '\\'
    (values.projectFolder.resolve ⟨String.ofList rest⟩).text
  | none => s

/-- A value with its placeholders put in. A missing or blank value is empty. -/
def expand (values : PlaceholderValues) (field : String) (value : Option String) :
    Except PlaceholderError String :=
  let value := trimmed (value.getD "")
  if value = "" then .ok ""
  else
    let value := values.putFolder (values.putNames value)
    if contains Placeholder.projectFolder value then .error (.misplacedProjectFolder field)
    else if contains Placeholder.lookup value then .error (.lookup field)
    else
      match Placeholder.refusal? field value with
      | some e => .error e
      | none => .ok value

/-- The path that a value means, read from the project folder; none if it is missing or blank. -/
def resolvePath (values : PlaceholderValues) (field : String) (value : Option String) :
    Except PlaceholderError (Option Path) := do
  let s ← values.expand field value
  return if s = "" then none else some (values.projectFolder.resolve ⟨s⟩)

end PlaceholderValues

end ApiReview
