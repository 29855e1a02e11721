import ApiReview.Analysis.Failure
import ApiReview.Pipeline.Toolchain
import ApiReview.Settings.Failure

/-!
# Why a run fails

A run ends with the first failure: of the settings, of the analysis, of the toolchain, or of an
artifact that cannot be written. Each failure has a chain of causes in words.
-/

namespace ApiReview

/-- What is written when writing fails. -/
inductive Artifact where
  | stagedReport
  | updatedReport
  | createdReport
  | model
  | rollup (tier : RollupTier)
  | metadata
  deriving DecidableEq, Repr

/-- The failure to write an artifact, in words. -/
def Artifact.unwrittenMessage (path : Path) : Artifact → String
  | stagedReport => "Unable to write the API report " ++ path.text
  | updatedReport => "Unable to update the API report " ++ path.text
  | createdReport => "Unable to create the API report " ++ path.text
  | model => "Unable to write the doc model file " ++ path.text
  | rollup tier => "Unable to write the " ++ tier.word ++ " rollup " ++ path.text
  | metadata => "Unable to write " ++ path.text

/-- Why a run fails. -/
inductive RunError where
  | settings (cause : SettingsError)
  | analysis (cause : AnalysisError)
  | toolchain (cause : Report)
  | collectionUnset
  | modelUnset
  | modelPathUnset
  | metadataPathUnset
  | unreadableReport (cause : TextFileError)
  | unwritten (artifact : Artifact) (path : Path) (cause : TextFileError)
  deriving DecidableEq, Repr

/-- A refusal of settings with its causes. -/
def SettingsError.report (e : SettingsError) : Report :=
  ⟨e.message, (e.detail?.map (·.1)).toList⟩

/-- A report under a further message. -/
def Report.under (message : String) (r : Report) : Report :=
  ⟨message, r.message :: r.causes⟩

/-- A failure in words. -/
def RunError.report : RunError → Report
  | settings cause => cause.report
  | analysis cause => ⟨"Unable to create the analysis program", [cause.message]⟩
  | toolchain cause => cause
  | collectionUnset => ⟨"collection not set - did the collect phase run?", []⟩
  | modelUnset => ⟨"model not set - did the model phase run?", []⟩
  | modelPathUnset => ⟨"docModel is enabled but apiJsonFilePath is not set", []⟩
  | metadataPathUnset => ⟨"tsdocMetadata is enabled but tsdocMetadataFilePath is not set", []⟩
  | unreadableReport cause => cause.report
  | unwritten artifact path cause => cause.report.under (artifact.unwrittenMessage path)

end ApiReview
