import ApiReview.Pipeline.Session

/-!
# The model, the rollups and the metadata

The artifacts of a run beside its reports: the file of the model, one file for each rollup that the
settings want, and the file that names the tool to readers of doc comments.
-/

namespace ApiReview

namespace Tool

/-- The name of the tool in generated files. -/
def name : String := "apisurface"

/-- The version of the tool in generated files. -/
def version : String := "0.1.0"

/-- What stands for the version in files that should not change with it. -/
def maskedVersion : String := "[test mode]"

/-- The version of the doc comment standard. -/
def docCommentVersion : String := "0.12"

end Tool

/-- The document of a model: the tool before the model's own members. -/
def modelDocument (model : Json.Members) (testMode : Bool) : Json :=
  .object
    (("metadata", .object
      [("toolPackage", .string Tool.name),
        ("toolVersion", .string (if testMode then Tool.maskedVersion else Tool.version))]) ::
      model.filter fun e => e.1 ≠ "metadata")

/-- The text of the metadata file: two lines of comment above a document. -/
def metadataText (toolName toolVersion : String) : String :=
  "// This file is read by tools that parse documentation comments conforming to the TSDoc " ++
    "standard.\n" ++
    "// It should be published with your NPM package.  It should not be tracked by Git.\n" ++
    (Json.object
      [("tsdocVersion", .string Tool.docCommentVersion),
        ("toolPackages", .array [.object
          [("packageName", .string toolName), ("packageVersion", .string toolVersion)]])]).pretty ++
    "\n"

namespace Job

variable {σ κ : Type}

/-- The stage that collects the exported symbols. -/
def collect (job : Job κ) : Run σ κ Unit := do
  let c ← Run.ask .collect (job.toolchain.collect job.settings job.program)
  modify fun s => { s with collection := some c }

/-- The stage that attaches doc comments. -/
def attachDocComments (job : Job κ) : Run σ κ Unit := do
  let c ← Run.ask .docComments (job.toolchain.attachDocComments (← Run.collection))
  modify fun s => { s with collection := some c }

/-- The stage that checks the conventions. -/
def validate (job : Job κ) : Run σ κ Unit := do
  let c ← Run.ask .validation (job.toolchain.validate (← Run.collection))
  modify fun s => { s with collection := some c }

/-- The stage that builds the model. An empty line of diagnostics sets off what follows. -/
def buildModel (job : Job κ) : Run σ κ Unit := do
  let model ← Run.askPure .model (job.toolchain.buildModel (← Run.collection))
  modify fun s => { s with model := some model }
  Run.route (·.logDiagnostic "")

/-- The text of the model's file. -/
def modelText (job : Job κ) (model : Json.Members) : String :=
  let document := modelDocument model job.settings.testMode
  (if job.flags.compactModel then document.compact else document.pretty) ++ "\n"

/-- The stage that writes the model. -/
def writeModel (job : Job κ) : Run σ κ Unit := do
  match job.settings.modelPath, (← get).model with
  | none, _ => throw .modelPathUnset
  | some _, none => throw .modelUnset
  | some path, some model =>
    Run.log .verbose .writingModel ("Writing: " ++ path.text)
    Run.write .model path (job.modelText model) (.inStyle job.settings.lineEnding)

/-- A rollup written, if the settings want it. -/
def writeRollup (job : Job κ) (tier : RollupTier) : Run σ κ Unit := do
  match tier.outputPath job.settings with
  | none => return ()
  | some path =>
    Run.log .verbose .writingRollup ("Writing package typings: " ++ path.text)
    let text ← Run.askPure .rollup (job.toolchain.renderRollup (← Run.collection) tier)
    Run.write (.rollup tier) path text (.inStyle job.settings.lineEnding)

/-- The stage that writes the rollups. -/
def writeRollups (job : Job κ) : Run σ κ Unit :=
  RollupTier.all.forM job.writeRollup

/-- The stage that writes the metadata. -/
def writeMetadata (job : Job κ) : Run σ κ Unit := do
  match job.settings.metadataPath with
  | none => throw .metadataPathUnset
  | some path =>
    Run.write .metadata path (metadataText Tool.name Tool.version)
      (.inStyle job.settings.lineEnding)

end Job

end ApiReview
