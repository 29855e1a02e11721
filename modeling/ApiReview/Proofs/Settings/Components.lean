import ApiReview.Proofs.Json.Records
import ApiReview.Settings.File
import Mathlib.Tactic.FinCases

/-!
# The components of settings files

For each field of a settings file that holds paths, the component of the typed file that it reads:
the path settings of the file itself and of its sections, the sections, and the further entry
points.
-/

namespace ApiReview.SettingsFile

open Json (Component Codec Field)

namespace EntryPoint

/-- The path of an entry point. -/
def file : Component EntryPoint String where
  get := (·.filePath)
  set v s := { s with filePath := v }

theorem reads_file : record.Reads "filePath" .string file := by
  refine Json.Record.reads_at 1 (by decide) rfl rfl (fun _ _ => rfl) fun f hf => ?_
  simp only [record, List.eraseIdx] at hf
  fin_cases hf
  exact Field.read_of_comm (fun _ _ => rfl) fun _ _ _ => rfl

end EntryPoint

namespace Compiler

/-- The path of the compiler configuration. -/
def tsconfig : Component Compiler (Option String) where
  get := (·.tsconfigFilePath)
  set v s := { s with tsconfigFilePath := v }

theorem reads_tsconfig : record.Reads "tsconfigFilePath" Codec.string.optional tsconfig := by
  refine Json.Record.reads_at 0 (by decide) rfl rfl (fun _ _ => rfl) fun f hf => ?_
  simp only [record, List.eraseIdx] at hf
  fin_cases hf <;> exact Field.read_of_comm (fun _ _ => rfl) fun _ _ _ => rfl

end Compiler

namespace ApiReport

/-- The folder of the reports. -/
def folder : Component ApiReport (Option String) where
  get := (·.reportFolder)
  set v s := { s with reportFolder := v }

theorem reads_folder : record.Reads "reportFolder" Codec.string.optional folder := by
  refine Json.Record.reads_at 2 (by decide) rfl rfl (fun _ _ => rfl) fun f hf => ?_
  simp only [record, List.eraseIdx] at hf
  fin_cases hf <;> exact Field.read_of_comm (fun _ _ => rfl) fun _ _ _ => rfl

/-- The folder of the staged reports. -/
def tempFolder : Component ApiReport (Option String) where
  get := (·.reportTempFolder)
  set v s := { s with reportTempFolder := v }

theorem reads_tempFolder : record.Reads "reportTempFolder" Codec.string.optional tempFolder := by
  refine Json.Record.reads_at 3 (by decide) rfl rfl (fun _ _ => rfl) fun f hf => ?_
  simp only [record, List.eraseIdx] at hf
  fin_cases hf <;> exact Field.read_of_comm (fun _ _ => rfl) fun _ _ _ => rfl

end ApiReport

namespace DocModel

/-- The path of the model. -/
def file : Component DocModel (Option String) where
  get := (·.apiJsonFilePath)
  set v s := { s with apiJsonFilePath := v }

theorem reads_file : record.Reads "apiJsonFilePath" Codec.string.optional file := by
  refine Json.Record.reads_at 1 (by decide) rfl rfl (fun _ _ => rfl) fun f hf => ?_
  simp only [record, List.eraseIdx] at hf
  fin_cases hf <;> exact Field.read_of_comm (fun _ _ => rfl) fun _ _ _ => rfl

end DocModel

namespace Rollup

/-- The path of the roll-up of everything. -/
def untrimmed : Component Rollup (Option String) where
  get := (·.untrimmedFilePath)
  set v s := { s with untrimmedFilePath := v }

theorem reads_untrimmed : record.Reads "untrimmedFilePath" Codec.string.optional untrimmed := by
  refine Json.Record.reads_at 1 (by decide) rfl rfl (fun _ _ => rfl) fun f hf => ?_
  simp only [record, List.eraseIdx] at hf
  fin_cases hf <;> exact Field.read_of_comm (fun _ _ => rfl) fun _ _ _ => rfl

/-- The path of the roll-up for alpha releases. -/
def alphaTrimmed : Component Rollup (Option String) where
  get := (·.alphaTrimmedFilePath)
  set v s := { s with alphaTrimmedFilePath := v }

theorem reads_alphaTrimmed :
    record.Reads "alphaTrimmedFilePath" Codec.string.optional alphaTrimmed := by
  refine Json.Record.reads_at 2 (by decide) rfl rfl (fun _ _ => rfl) fun f hf => ?_
  simp only [record, List.eraseIdx] at hf
  fin_cases hf <;> exact Field.read_of_comm (fun _ _ => rfl) fun _ _ _ => rfl

/-- The path of the roll-up for beta releases. -/
def betaTrimmed : Component Rollup (Option String) where
  get := (·.betaTrimmedFilePath)
  set v s := { s with betaTrimmedFilePath := v }

theorem reads_betaTrimmed :
    record.Reads "betaTrimmedFilePath" Codec.string.optional betaTrimmed := by
  refine Json.Record.reads_at 3 (by decide) rfl rfl (fun _ _ => rfl) fun f hf => ?_
  simp only [record, List.eraseIdx] at hf
  fin_cases hf <;> exact Field.read_of_comm (fun _ _ => rfl) fun _ _ _ => rfl

/-- The path of the roll-up for public releases. -/
def publicTrimmed : Component Rollup (Option String) where
  get := (·.publicTrimmedFilePath)
  set v s := { s with publicTrimmedFilePath := v }

theorem reads_publicTrimmed :
    record.Reads "publicTrimmedFilePath" Codec.string.optional publicTrimmed := by
  refine Json.Record.reads_at 4 (by decide) rfl rfl (fun _ _ => rfl) fun f hf => ?_
  simp only [record, List.eraseIdx] at hf
  fin_cases hf <;> exact Field.read_of_comm (fun _ _ => rfl) fun _ _ _ => rfl

end Rollup

namespace Metadata

/-- The path of the metadata file. -/
def file : Component Metadata (Option String) where
  get := (·.tsdocMetadataFilePath)
  set v s := { s with tsdocMetadataFilePath := v }

theorem reads_file : record.Reads "tsdocMetadataFilePath" Codec.string.optional file := by
  refine Json.Record.reads_at 1 (by decide) rfl rfl (fun _ _ => rfl) fun f hf => ?_
  simp only [record, List.eraseIdx] at hf
  fin_cases hf
  exact Field.read_of_comm (fun _ _ => rfl) fun _ _ _ => rfl

end Metadata

/-- The project folder. -/
def folder : Component SettingsFile (Option String) where
  get := (·.projectFolder)
  set v s := { s with projectFolder := v }

theorem reads_folder : record.Reads "projectFolder" Codec.string.optional folder := by
  refine Json.Record.reads_at 2 (by decide) rfl rfl (fun _ _ => rfl) fun f hf => ?_
  simp only [record, List.eraseIdx] at hf
  fin_cases hf <;> exact Field.read_of_comm (fun _ _ => rfl) fun _ _ _ => rfl

/-- The path of the main entry point. -/
def main : Component SettingsFile (Option String) where
  get := (·.mainEntryPointFilePath)
  set v s := { s with mainEntryPointFilePath := v }

theorem reads_main : record.Reads "mainEntryPointFilePath" Codec.string.optional main := by
  refine Json.Record.reads_at 3 (by decide) rfl rfl (fun _ _ => rfl) fun f hf => ?_
  simp only [record, List.eraseIdx] at hf
  fin_cases hf <;> exact Field.read_of_comm (fun _ _ => rfl) fun _ _ _ => rfl

/-- The further entry points. -/
def entryPoints : Component SettingsFile (List EntryPoint) where
  get := (·.additionalEntryPoints)
  set v s := { s with additionalEntryPoints := v }

theorem reads_entryPoints :
    record.Reads "additionalEntryPoints" EntryPoint.record.codec.list entryPoints := by
  refine Json.Record.reads_at 4 (by decide) rfl rfl (fun _ _ => rfl) fun f hf => ?_
  simp only [record, List.eraseIdx] at hf
  fin_cases hf <;> exact Field.read_of_comm (fun _ _ => rfl) fun _ _ _ => rfl

/-- The section on the compiler. -/
def compilerPart : Component SettingsFile (Option Compiler) where
  get := (·.compiler)
  set v s := { s with compiler := v }

theorem reads_compilerPart :
    record.Reads "compiler" Compiler.record.codec.optional compilerPart := by
  refine Json.Record.reads_at 6 (by decide) rfl rfl (fun _ _ => rfl) fun f hf => ?_
  simp only [record, List.eraseIdx] at hf
  fin_cases hf <;> exact Field.read_of_comm (fun _ _ => rfl) fun _ _ _ => rfl

/-- The section on the API report. -/
def reportPart : Component SettingsFile (Option ApiReport) where
  get := (·.apiReport)
  set v s := { s with apiReport := v }

theorem reads_reportPart : record.Reads "apiReport" ApiReport.record.codec.optional reportPart := by
  refine Json.Record.reads_at 7 (by decide) rfl rfl (fun _ _ => rfl) fun f hf => ?_
  simp only [record, List.eraseIdx] at hf
  fin_cases hf <;> exact Field.read_of_comm (fun _ _ => rfl) fun _ _ _ => rfl

/-- The section on the model. -/
def modelPart : Component SettingsFile (Option DocModel) where
  get := (·.docModel)
  set v s := { s with docModel := v }

theorem reads_modelPart : record.Reads "docModel" DocModel.record.codec.optional modelPart := by
  refine Json.Record.reads_at 8 (by decide) rfl rfl (fun _ _ => rfl) fun f hf => ?_
  simp only [record, List.eraseIdx] at hf
  fin_cases hf <;> exact Field.read_of_comm (fun _ _ => rfl) fun _ _ _ => rfl

/-- The section on rolled-up declarations. -/
def rollupPart : Component SettingsFile (Option Rollup) where
  get := (·.dtsRollup)
  set v s := { s with dtsRollup := v }

theorem reads_rollupPart : record.Reads "dtsRollup" Rollup.record.codec.optional rollupPart := by
  refine Json.Record.reads_at 9 (by decide) rfl rfl (fun _ _ => rfl) fun f hf => ?_
  simp only [record, List.eraseIdx] at hf
  fin_cases hf <;> exact Field.read_of_comm (fun _ _ => rfl) fun _ _ _ => rfl

/-- The section on the metadata file. -/
def metadataPart : Component SettingsFile (Option Metadata) where
  get := (·.tsdocMetadata)
  set v s := { s with tsdocMetadata := v }

theorem reads_metadataPart :
    record.Reads "tsdocMetadata" Metadata.record.codec.optional metadataPart := by
  refine Json.Record.reads_at 10 (by decide) rfl rfl (fun _ _ => rfl) fun f hf => ?_
  simp only [record, List.eraseIdx] at hf
  fin_cases hf <;> exact Field.read_of_comm (fun _ _ => rfl) fun _ _ _ => rfl

end ApiReview.SettingsFile
