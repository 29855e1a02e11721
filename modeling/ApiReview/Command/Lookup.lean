import ApiReview.Command.Arguments
import ApiReview.Command.Starter
import ApiReview.Files.Snapshot

/-!
# What a command may look at

A command works on the files as a value, which has to hold every file that the command looks at.
Those have well-known names, or are named by a text in a document that has been read, and are
looked for in folders that are known. `lookups` gives all paths to which the files known so far
lead; when these bring nothing new, the files are complete.
-/

namespace ApiReview.Command

/-- The names that are looked for in folders. -/
def wellKnownNames : List String :=
  ["package.json", "tsconfig.json", "tsdoc.json", "api-surface.json", "config/api-surface.json"]

/-- The paths that a request starts from. -/
def Request.startPaths : Request → List Path
  | .check (some settingsFile) _ => settingsFile.ancestors
  | .check none _ => []
  | .init folder _ => (starterPath folder).ancestors
  | .version => []

mutual

/-- The texts in a document. -/
def textsOf : Json → List String
  | .string s => [s]
  | .array items => textsOfItems items
  | .object members => textsOfMembers members
  | _ => []

/-- The texts in the items of a document. -/
def textsOfItems : List Json → List String
  | [] => []
  | v :: rest => textsOf v ++ textsOfItems rest

/-- The texts in the members of a document. -/
def textsOfMembers : Json.Members → List String
  | [] => []
  | (_, v) :: rest => textsOf v ++ textsOfMembers rest

end

/-- The documents among files. -/
def documents (t : FileTree) : List Json :=
  t.entries.filterMap fun
    | (_, .file (.text s)) => (Json.parse s).toOption
    | _ => none

/-- The package names in documents. -/
def packageNames (documents : List Json) : List String :=
  Placeholder.unknownPackage :: documents.filterMap fun v => (v.get? "name").bind Json.text?

/-- A text without the placeholder of the project folder and the slashes behind it. -/
def fromProjectFolder (s : String) : String :=
  match Text.stripStart? Placeholder.projectFolder s with
  | some rest => String.ofList (rest.toList.dropWhile fun c => c = '/' || c = '\\')
  | none => s

/-- The paths that a text in a document may mean in a folder. -/
def meanings (names : List String) (s : String) : List String :=
  let s := fromProjectFolder (Text.trimmed s)
  names.map (fun name => (PlaceholderValues.ofProject ⟨""⟩ (some name)).putNames s) ++
    ["node_modules/" ++ s, "node_modules/" ++ s ++ ".json"]

/-- The folders that are known. -/
def knownFolders (t : FileTree) : List Path :=
  (([], Entry.folder) :: t.entries).filterMap fun
    | (place, .folder) => some (Path.fromRoot (place.map .name))
    | _ => none

/-- The paths to which the files known so far lead. -/
def lookups (t : FileTree) (request : Request) : List Path :=
  let documents := documents t
  let names := packageNames documents
  let relative := wellKnownNames ++ (documents.flatMap textsOf).flatMap (meanings names)
  t.workingPath.ancestors ++ request.startPaths.map t.absolute ++
    (knownFolders t).flatMap fun folder => relative.map fun s => folder.resolve ⟨s⟩

end ApiReview.Command
