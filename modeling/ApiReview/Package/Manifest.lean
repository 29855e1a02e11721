import ApiReview.Json.Codec
import ApiReview.Files.Access

/-!
# Package manifests

What is read of a `package.json`: the name, the version, and the files that it points to. The
manifest of a folder is the nearest one in the folder or above it.
-/

namespace ApiReview

open Json (Codec Field Record Placed TextMisfit)

/-- The part of a manifest that matters here. -/
structure Manifest where
  name : String
  version : Option String
  main : Option String
  typings : Option String
  types : Option String
  tsdocMetadata : Option String
  deriving DecidableEq, Repr

namespace Manifest

/-- The fields of a manifest; other fields are passed over. -/
def record : Record Manifest where
  name := "PackageJson"
  fields :=
    [.of "name" .string (·.name) fun v m => { m with name := v },
      .of "version" Codec.string.optional (·.version) fun v m => { m with version := v },
      .of "main" Codec.string.optional (·.main) fun v m => { m with main := v },
      .of "typings" Codec.string.optional (·.typings) fun v m => { m with typings := v },
      .of "types" Codec.string.optional (·.types) fun v m => { m with types := v },
      .of "tsdocMetadata" Codec.string.optional (·.tsdocMetadata)
        fun v m => { m with tsdocMetadata := v }]
  blank := ⟨"", none, none, none, none, none⟩
  lenient := true

/-- The name of the file that holds a manifest. -/
def fileName : Path := ⟨"package.json"⟩

/-- The declaration file that the manifest names: `typings` if it is given at all, else `types`;
an empty one counts as none. -/
def typingsPath (m : Manifest) : Option String :=
  (m.typings.or m.types).filter (· ≠ "")

/-- Why a manifest cannot be loaded. -/
inductive LoadError where
  | unreadable (path : Path) (cause : FileError)
  | unfit (path : Path) (cause : Placed TextMisfit)
  deriving DecidableEq, Repr

/-- The wording of a load error. -/
def LoadError.message : LoadError → String
  | unreadable path cause => "I/O error at " ++ Text.escaped path.text ++ ": " ++ cause.message
  | unfit path cause => "failed to parse " ++ Text.escaped path.text ++ ": " ++ cause.textMessage

/-- The manifest in a file. -/
def load (t : FileTree) (p : Path) : Except LoadError Manifest := do
  let s ← (t.readText p).mapError (.unreadable p)
  (record.codec.parse s).mapError (.unfit p)

/-- The file of the nearest manifest in a folder or above it. -/
def findFrom (t : FileTree) (folder : Path) : Option Path :=
  (folder.ancestors.map (·.join fileName)).find? t.isFile

end Manifest

end ApiReview
