import ApiReview.Files.Access
import ApiReview.Settings.Inheritance

/-!
# A first settings file

The settings file that `init` writes: the report, the model and the rollup enabled, at their usual
places.
-/

namespace ApiReview.Command

/-- The settings to start from. -/
def starterDocument : Json :=
  .object
    [("mainEntryPointFilePath", .string "<projectFolder>/lib/index.d.ts"),
      ("apiReport", .object
        [("enabled", .boolean true), ("reportFolder", .string "<projectFolder>/etc/")]),
      ("docModel", .object [("enabled", .boolean true)]),
      ("dtsRollup", .object
        [("enabled", .boolean true),
          ("untrimmedFilePath", .string "<projectFolder>/dist/<unscopedPackageName>.d.ts")]),
      ("tsdocMetadata", .object [("enabled", .boolean true)])]

/-- The text of the settings to start from. -/
def starterText : String :=
  starterDocument.pretty ++ "\n"

/-- The settings file of a folder. -/
def starterPath (folder : Path) : Path :=
  folder.join Settings.fileName

/-- The settings file written. -/
def writeStarter (t : FileTree) (folder : Path) : FileTree × Except TextFileError Unit :=
  t.writeText (starterPath folder) starterText (.inStyle .lf)

/-- What is told about a written settings file. -/
def starterLines (path : Path) (replaced : Bool) : List String :=
  let title := (if replaced then "Replaced" else "Created") ++ " API Surface configuration"
  [title, String.ofList (List.replicate title.length '='), "  + " ++ path.text, "", "Next steps:",
    "  - point mainEntryPointFilePath at your package's declaration entry point",
    "  - create the apiReport.reportFolder folder and commit it",
    "  - run \x60surface check\x60 to see what will be produced"]

end ApiReview.Command
