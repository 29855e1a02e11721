import ApiReview.Pipeline.Artifacts
import ApiReview.Proofs.Pipeline.Steps

/-!
# The stages of the other files, step by step

Where a relation of sessions is led along by messages, by the toolchain and by writing the model,
the rollups and the metadata, it is by the stages that write them.
-/

namespace ApiReview

open Run (Along Leads)

namespace Job

variable {σ κ : Type} {R : Session σ κ → Session σ κ → Prop} {writes : Path → Prop}
  (hR : Leads R writes) (job : Job κ)

include hR

theorem along_writeModel (hw : ∀ path, job.settings.modelPath = some path → writes path) :
    Along R (job.writeModel : Run σ κ Unit) := by
  refine hR.along_bind hR.along_get fun s => ?_
  split
  · exact hR.along_throw _
  · exact hR.along_throw _
  · rename_i path model hp _
    exact hR.along_bind (hR.log _ _ _) fun _ => hR.write _ _ _ _ (hw path hp)

theorem along_writeRollup
    (hask : ∀ work : Work String, Along R (Run.ask .rollup work : Run σ κ String))
    (tier : RollupTier) (hw : ∀ path, tier.outputPath job.settings = some path → writes path) :
    Along R (job.writeRollup tier : Run σ κ Unit) := by
  rw [writeRollup]
  split
  · exact hR.along_pure _
  · rename_i path hp
    exact hR.along_bind (hR.log _ _ _) fun _ => hR.along_bind hR.along_collection fun _ =>
      hR.along_bind (hask _) fun _ => hR.write _ _ _ _ (hw path hp)

theorem along_writeRollups
    (hask : ∀ work : Work String, Along R (Run.ask .rollup work : Run σ κ String))
    (hw : ∀ (tier : RollupTier) path, tier.outputPath job.settings = some path → writes path) :
    Along R (job.writeRollups : Run σ κ Unit) :=
  hR.along_forM fun tier _ => along_writeRollup hR job hask tier (hw tier)

theorem along_writeMetadata (hw : ∀ path, job.settings.metadataPath = some path → writes path) :
    Along R (job.writeMetadata : Run σ κ Unit) := by
  rw [writeMetadata]
  split
  · exact hR.along_throw _
  · rename_i path hp
    exact hR.write _ _ _ _ (hw path hp)

end Job

end ApiReview
