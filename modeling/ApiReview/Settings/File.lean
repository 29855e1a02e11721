import ApiReview.Message.Rules
import ApiReview.Text.LineEnding

/-!
# Settings files

The typed definition of a settings file. Each section is a record; the tables below give, for
reading and for writing alike, the name, the place and the kind of every field.
-/

namespace ApiReview

open Json (Codec Field Record)

/-- A style of line endings in a document. -/
def LineEnding.codec : Codec LineEnding :=
  .choice named name

/-- Which part of the API a report covers. -/
inductive Variant where
  | published
  | beta
  | alpha
  /-- Everything, with internal and untagged items. -/
  | complete
  deriving DecidableEq, Repr

namespace Variant

/-- The variant as a word. -/
def word : Variant → String
  | published => "public"
  | beta => "beta"
  | alpha => "alpha"
  | complete => "complete"

/-- All variants with their words. -/
def named : List (String × Variant) :=
  [("public", .published), ("beta", .beta), ("alpha", .alpha), ("complete", .complete)]

/-- A variant in a document. -/
def codec : Codec Variant :=
  .choice named word

end Variant

/-- The order in which the members of an enumeration are listed. -/
inductive EnumOrder where
  | byName
  | preserve
  deriving DecidableEq, Repr

namespace EnumOrder

/-- The order as a word. -/
def word : EnumOrder → String
  | byName => "by-name"
  | preserve => "preserve"

/-- An order in a document. -/
def codec : Codec EnumOrder :=
  .choice [("by-name", .byName), ("preserve", .preserve)] word

end EnumOrder

namespace SettingsFile

/-- A further entry point, under a path below the package. -/
structure EntryPoint where
  modulePath : String
  filePath : String
  deriving DecidableEq, Repr

/-- The fields of a further entry point; both must be given. -/
def EntryPoint.record : Record EntryPoint where
  name := "AdditionalEntryPoint"
  fields :=
    [.needed "modulePath" .string (·.modulePath) fun v e => { e with modulePath := v },
      .needed "filePath" .string (·.filePath) fun v e => { e with filePath := v }]
  blank := ⟨"", ""⟩
  lenient := false

/-- The section on the compiler. -/
structure Compiler where
  tsconfigFilePath : Option String
  overrideTsconfig : Option Json.Members
  skipLibCheck : Bool
  deriving DecidableEq, Repr

/-- The fields of the section on the compiler. -/
def Compiler.record : Record Compiler where
  name := "CompilerSection"
  fields :=
    [.of "tsconfigFilePath" Codec.string.optional (·.tsconfigFilePath)
        fun v s => { s with tsconfigFilePath := v },
      .of "overrideTsconfig" Codec.members.optional (·.overrideTsconfig)
        fun v s => { s with overrideTsconfig := v },
      .of "skipLibCheck" .boolean (·.skipLibCheck) fun v s => { s with skipLibCheck := v }]
  blank := ⟨none, none, false⟩
  lenient := false

/-- The section on the API report. -/
structure ApiReport where
  enabled : Bool
  reportFileName : Option String
  reportFolder : Option String
  reportTempFolder : Option String
  reportVariants : Option (List Variant)
  includeForgottenExports : Bool
  tagsToReport : List (String × Bool)
  deriving DecidableEq, Repr

/-- The fields of the section on the API report. -/
def ApiReport.record : Record ApiReport where
  name := "ApiReportSection"
  fields :=
    [.of "enabled" .boolean (·.enabled) fun v s => { s with enabled := v },
      .of "reportFileName" Codec.string.optional (·.reportFileName)
        fun v s => { s with reportFileName := v },
      .of "reportFolder" Codec.string.optional (·.reportFolder)
        fun v s => { s with reportFolder := v },
      .of "reportTempFolder" Codec.string.optional (·.reportTempFolder)
        fun v s => { s with reportTempFolder := v },
      .of "reportVariants" Variant.codec.list.optional (·.reportVariants)
        fun v s => { s with reportVariants := v },
      .of "includeForgottenExports" .boolean (·.includeForgottenExports)
        fun v s => { s with includeForgottenExports := v },
      .of "tagsToReport" Codec.boolean.table (·.tagsToReport)
        fun v s => { s with tagsToReport := v }]
  blank := ⟨false, none, none, none, none, false, []⟩
  lenient := false

/-- The section on the model of the API. -/
structure DocModel where
  enabled : Bool
  apiJsonFilePath : Option String
  includeForgottenExports : Bool
  projectFolderUrl : Option String
  releaseTagsToTrim : Option (List String)
  deriving DecidableEq, Repr

/-- The section as it is when it is left out. -/
def DocModel.blank : DocModel := ⟨false, none, false, none, none⟩

/-- The fields of the section on the model. -/
def DocModel.record : Record DocModel where
  name := "DocModelSection"
  fields :=
    [.of "enabled" .boolean (·.enabled) fun v s => { s with enabled := v },
      .of "apiJsonFilePath" Codec.string.optional (·.apiJsonFilePath)
        fun v s => { s with apiJsonFilePath := v },
      .of "includeForgottenExports" .boolean (·.includeForgottenExports)
        fun v s => { s with includeForgottenExports := v },
      .of "projectFolderUrl" Codec.string.optional (·.projectFolderUrl)
        fun v s => { s with projectFolderUrl := v },
      .of "releaseTagsToTrim" Codec.string.list.optional (·.releaseTagsToTrim)
        fun v s => { s with releaseTagsToTrim := v }]
  blank := DocModel.blank
  lenient := false

/-- The section on the rolled-up declarations. -/
structure Rollup where
  enabled : Bool
  untrimmedFilePath : Option String
  alphaTrimmedFilePath : Option String
  betaTrimmedFilePath : Option String
  publicTrimmedFilePath : Option String
  omitTrimmingComments : Bool
  deriving DecidableEq, Repr

/-- The section as it is when it is left out. -/
def Rollup.blank : Rollup := ⟨false, none, none, none, none, false⟩

/-- The fields of the section on rolled-up declarations. -/
def Rollup.record : Record Rollup where
  name := "DtsRollupSection"
  fields :=
    [.of "enabled" .boolean (·.enabled) fun v s => { s with enabled := v },
      .of "untrimmedFilePath" Codec.string.optional (·.untrimmedFilePath)
        fun v s => { s with untrimmedFilePath := v },
      .of "alphaTrimmedFilePath" Codec.string.optional (·.alphaTrimmedFilePath)
        fun v s => { s with alphaTrimmedFilePath := v },
      .of "betaTrimmedFilePath" Codec.string.optional (·.betaTrimmedFilePath)
        fun v s => { s with betaTrimmedFilePath := v },
      .of "publicTrimmedFilePath" Codec.string.optional (·.publicTrimmedFilePath)
        fun v s => { s with publicTrimmedFilePath := v },
      .of "omitTrimmingComments" .boolean (·.omitTrimmingComments)
        fun v s => { s with omitTrimmingComments := v }]
  blank := Rollup.blank
  lenient := false

/-- The section on the metadata file. -/
structure Metadata where
  enabled : Bool
  tsdocMetadataFilePath : Option String
  deriving DecidableEq, Repr

/-- The section as it is when it is left out. -/
def Metadata.blank : Metadata := ⟨false, none⟩

/-- The fields of the section on the metadata file. -/
def Metadata.record : Record Metadata where
  name := "TsdocMetadataSection"
  fields :=
    [.of "enabled" .boolean (·.enabled) fun v s => { s with enabled := v },
      .of "tsdocMetadataFilePath" Codec.string.optional (·.tsdocMetadataFilePath)
        fun v s => { s with tsdocMetadataFilePath := v }]
  blank := Metadata.blank
  lenient := false

end SettingsFile

/-- A settings file. -/
structure SettingsFile where
  schema : Option String
  extending : Option String
  projectFolder : Option String
  mainEntryPointFilePath : Option String
  additionalEntryPoints : List SettingsFile.EntryPoint
  bundledPackages : List String
  compiler : Option SettingsFile.Compiler
  apiReport : Option SettingsFile.ApiReport
  docModel : Option SettingsFile.DocModel
  dtsRollup : Option SettingsFile.Rollup
  tsdocMetadata : Option SettingsFile.Metadata
  messages : Reporting
  newlineKind : Option LineEnding
  testMode : Bool
  enumMemberOrder : Option EnumOrder
  deriving DecidableEq, Repr

namespace SettingsFile

/-- The fields of a settings file. -/
def record : Record SettingsFile where
  name := "ConfigFile"
  fields :=
    [.ofPresent "$schema" .string (·.schema) fun v s => { s with schema := v },
      .ofPresent "extends" .string (·.extending) fun v s => { s with extending := v },
      .of "projectFolder" Codec.string.optional (·.projectFolder)
        fun v s => { s with projectFolder := v },
      .of "mainEntryPointFilePath" Codec.string.optional (·.mainEntryPointFilePath)
        fun v s => { s with mainEntryPointFilePath := v },
      .of "additionalEntryPoints" EntryPoint.record.codec.list (·.additionalEntryPoints)
        fun v s => { s with additionalEntryPoints := v },
      .of "bundledPackages" Codec.string.list (·.bundledPackages)
        fun v s => { s with bundledPackages := v },
      .of "compiler" Compiler.record.codec.optional (·.compiler)
        fun v s => { s with compiler := v },
      .of "apiReport" ApiReport.record.codec.optional (·.apiReport)
        fun v s => { s with apiReport := v },
      .of "docModel" DocModel.record.codec.optional (·.docModel)
        fun v s => { s with docModel := v },
      .of "dtsRollup" Rollup.record.codec.optional (·.dtsRollup)
        fun v s => { s with dtsRollup := v },
      .of "tsdocMetadata" Metadata.record.codec.optional (·.tsdocMetadata)
        fun v s => { s with tsdocMetadata := v },
      .of "messages" Reporting.record.codec (·.messages) fun v s => { s with messages := v },
      .of "newlineKind" LineEnding.codec.optional (·.newlineKind)
        fun v s => { s with newlineKind := v },
      .of "testMode" .boolean (·.testMode) fun v s => { s with testMode := v },
      .of "enumMemberOrder" EnumOrder.codec.optional (·.enumMemberOrder)
        fun v s => { s with enumMemberOrder := v }]
  blank :=
    ⟨none, none, none, none, [], [], none, none, none, none, none, .empty, none, false, none⟩
  lenient := false

/-- The codec of a settings file. -/
def codec : Codec SettingsFile :=
  record.codec

/-- What keeps a document from being a settings file, in words; empty if it is one. -/
def violations (document : Json) : List String :=
  if !document.isObject then ["the configuration must be a JSON object"]
  else
    match codec.read document with
    | .ok _ => []
    | .error misfit => [misfit.message]

end SettingsFile

end ApiReview
