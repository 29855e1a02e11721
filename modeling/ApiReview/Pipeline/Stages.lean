import ApiReview.Pipeline.Artifacts
import ApiReview.Pipeline.Preamble
import ApiReview.Pipeline.Reconcile

/-!
# Stages

A run goes through its stages in a fixed order, leaving out those that the settings do not ask for,
and then delivers the messages that nobody has handled. The first failure ends it.
-/

namespace ApiReview

/-- A stage of a run. -/
structure Stage (σ κ : Type) where
  name : String
  description : String
  /-- Whether the settings ask for the stage. -/
  isWanted : Settings → Bool
  run : Job κ → Run σ κ Unit

namespace Stage

variable {σ κ : Type}

/-- The stage before the analysis. -/
def preamble : Stage σ κ :=
  ⟨"preamble", "Report the engine version and dump diagnostics", fun _ => true, Job.preamble⟩

/-- The stage that collects the exported symbols. -/
def collect : Stage σ κ :=
  ⟨"collect", "Enumerate exported symbols from the entry points", fun _ => true, Job.collect⟩

/-- The stage that attaches doc comments. -/
def docComments : Stage σ κ :=
  ⟨"doc-comments", "Parse and attach doc comments", fun _ => true, Job.attachDocComments⟩

/-- The stage that checks the conventions. -/
def validation : Stage σ κ :=
  ⟨"validation", "Check API conventions", fun _ => true, Job.validate⟩

/-- The stage that builds the model. -/
def model : Stage σ κ :=
  ⟨"model", "Build the API surface model", fun _ => true, Job.buildModel⟩

/-- The stage that writes the model. -/
def modelFile : Stage σ κ :=
  ⟨"persist-model", "Write the doc model file", (·.modelEnabled), Job.writeModel⟩

/-- The stage of the reports. -/
def report : Stage σ κ :=
  ⟨"report", "Reconcile API reports against their baselines", (·.reportEnabled),
    Job.reconcileReports⟩

/-- The stage that writes the rollups. -/
def rollup : Stage σ κ :=
  ⟨"rollup", "Write trimmed declaration rollups", (·.rollupEnabled), Job.writeRollups⟩

/-- The stage that writes the metadata. -/
def metadata : Stage σ κ :=
  ⟨"metadata", "Write tsdoc-metadata.json", (·.metadataEnabled), Job.writeMetadata⟩

/-- The stages of every run, in their order. -/
def standard : List (Stage σ κ) :=
  [preamble, collect, docComments, validation, model, modelFile, report, rollup, metadata]

end Stage

namespace Job

variable {σ κ : Type}

/-- The job run through stages; what is left unhandled is delivered at the end. -/
def runStages (job : Job κ) (stages : List (Stage σ κ)) : Run σ κ Unit := do
  (stages.filter (·.isWanted job.settings)).forM fun stage => stage.run job
  Run.route Router.flush

/-- The job run. -/
def run (job : Job κ) : Run σ κ Unit :=
  job.runStages Stage.standard

end Job

end ApiReview
