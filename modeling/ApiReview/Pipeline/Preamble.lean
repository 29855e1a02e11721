import ApiReview.Package.Version
import ApiReview.Pipeline.Session

/-!
# Before the analysis

A run begins with the version of its engine, and a notice if the project itself uses a newer one.
The project's engine is the nearest one installed above the project folder; when its version
cannot be told, nothing is said. The diagnostics display then lists the settings.
-/

namespace ApiReview

/-! ## The version of the engine -/

/-- The manifests of the engines that may be installed for a folder, the nearest first. -/
def engineManifests (folder : Path) : List Path :=
  folder.ancestors.map fun above =>
    ((above.join ⟨"node_modules"⟩).join ⟨"typescript"⟩).join Manifest.fileName

/-- The version of the nearest installed engine, if it can be told. -/
def installedEngine? (t : FileTree) (folder : Path) : Option Version := do
  let path ← (engineManifests folder).find? t.isFile
  let manifest ← (Manifest.load t path).toOption
  let version ← manifest.version
  (Version.parse version).toOption

/-- The version of a newer engine that the project uses than the given one, if any. -/
def newerEngine? (t : FileTree) (folder : Path) (engineVersion : String) : Option Version := do
  let theirs ← installedEngine? t folder
  let ours ← (Version.parse engineVersion).toOption
  if theirs.isNewerMinorThan ours then some theirs else none

/-- The version of the engine told, and that of a newer engine in the project. -/
def tellEngine {σ : Type} (t : FileTree) (folder : Path) (engineVersion : String)
    (r : Router σ) : Router σ :=
  let r := r.log .info .preamble
    ("Analysis will use the bundled TypeScript version " ++ engineVersion)
  match newerEngine? t folder engineVersion with
  | some theirs =>
    r.log .info .compilerVersion
      ("*** The target project appears to use TypeScript " ++ theirs.text ++
        " which is newer than the bundled compiler engine; consider upgrading API Surface.")
  | none => r

/-! ## The stage -/

namespace Job

variable {σ κ : Type}

/-- A section of the diagnostics. -/
def logSection (title text : String) (r : Router σ) : Router σ :=
  ((r.logHeader title).logDiagnostic text).logFooter

/-- The settings listed for the diagnostics. -/
def logSettings (job : Job κ) (r : Router σ) : Router σ :=
  if r.display.diagnostics then
    let r := r.logDiagnostic ""
    let r := logSection "Final prepared ExtractorConfig" job.settings.dump r
    let r := logSection "Compiler options" (Json.object job.program.options).pretty r
    logSection "TSDoc configuration" job.settings.docComments.toJson.pretty r
  else r

/-- The doc comment settings told, if the project has its own. -/
def tellDocComments (job : Job κ) (r : Router σ) : Router σ :=
  match job.settings.docComments.filePath with
  | some path => r.log .verbose .customDocComments ("Using custom TSDoc config from " ++ path.text)
  | none => r

/-- The stage before the analysis. -/
def preamble (job : Job κ) : Run σ κ Unit := do
  let files := (← get).files
  Run.route job.tellDocComments
  Run.route (tellEngine files job.settings.projectFolder job.toolchain.engine.version)
  Run.route job.logSettings

end Job

end ApiReview
