import ApiReview.Pipeline.Toolchain

/-!
# Planned outputs

The files that a run with given settings produces, apart from the fresh reports: the accepted
reports, the model, the rollups and the metadata, as far as they are enabled and have a path.
-/

namespace ApiReview

/-- The kinds of files that a run produces. -/
inductive OutputKind where
  | report (variant : Variant)
  | model
  | rollup (tier : RollupTier)
  | metadata
  deriving DecidableEq, Repr

/-- The kind of a file in words. -/
def OutputKind.label : OutputKind → String
  | report variant => "API report (" ++ variant.word ++ ")"
  | model => "doc model"
  | rollup tier => tier.word ++ " rollup"
  | metadata => "tsdoc metadata"

/-- A file that a run produces. -/
structure PlannedOutput where
  kind : OutputKind
  path : Path
  deriving DecidableEq, Repr

namespace Settings

/-- The reports that a run accepts or compares with. -/
def plannedReports (s : Settings) : List PlannedOutput :=
  if s.reportEnabled then s.reports.map fun r => ⟨.report r.variant, s.reportPath r⟩ else []

/-- The model that a run writes. -/
def plannedModel (s : Settings) : List PlannedOutput :=
  if s.modelEnabled then s.modelPath.toList.map (⟨.model, ·⟩) else []

/-- The rollups that a run writes. -/
def plannedRollups (s : Settings) : List PlannedOutput :=
  if s.rollupEnabled then
    RollupTier.all.flatMap fun tier => (tier.outputPath s).toList.map (⟨.rollup tier, ·⟩)
  else []

/-- The metadata that a run writes. -/
def plannedMetadata (s : Settings) : List PlannedOutput :=
  if s.metadataEnabled then s.metadataPath.toList.map (⟨.metadata, ·⟩) else []

/-- The files that a run produces. -/
def plannedOutputs (s : Settings) : List PlannedOutput :=
  s.plannedReports ++ s.plannedModel ++ s.plannedRollups ++ s.plannedMetadata

end Settings

end ApiReview
