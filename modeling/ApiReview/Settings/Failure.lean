import ApiReview.Message.Rules
import ApiReview.Package.Manifest
import ApiReview.Release.Tag
import ApiReview.Settings.Placeholder

/-!
# Why settings are refused

The causes for which settings cannot be loaded or prepared, each with its wording, a code, and
where it helps a hint. A malformed text also has the parser's own message and the byte it points
at.
-/

namespace ApiReview

open Json (Placed TextMisfit)
open Text

/-- Why a file cannot be loaded. -/
inductive LoadProblem where
  | unreadable (cause : FileError)
  | notAnObject
  | extendsNotText
  | circularExtends
  | extendsByName (name : String)
  | badTagNames (violations : List String)
  deriving DecidableEq, Repr

/-- The wording of a load problem. -/
def LoadProblem.message : LoadProblem → String
  | unreadable cause => "failed to read file: " ++ cause.message
  | notAnObject => "the configuration file must contain a JSON object"
  | extendsNotText => "The \"extends\" field must be a string"
  | circularExtends => "The \"extends\" field creates a circular reference"
  | extendsByName name =>
    "Unable to resolve \"extends\" reference to " ++ quoted name ++
      ": only relative paths are supported"
  | badTagNames violations => lines violations

/-- The entry point that a message is about. -/
inductive EntryPointName where
  | main
  | additional (modulePath : String)
  deriving DecidableEq, Repr

/-- An entry point as the subject of a message. -/
def EntryPointName.subject : EntryPointName → String
  | main => "The \"mainEntryPointFilePath\""
  | additional modulePath =>
    "The \"filePath\" of additional entry point " ++ quoted modulePath

/-- Why loaded settings cannot be prepared. -/
inductive PrepareProblem where
  | extendsNotExpanded
  | documentPathNotAbsolute
  | manifestNotJson
  | manifestPathNotAbsolute
  | manifest (cause : Manifest.LoadError)
  | compilerMissing
  | projectFolderMissing
  | placeholder (cause : PlaceholderError)
  | projectFolderAbsent (value : String)
  | lookupFolderAbsent (path : Path)
  | lookupWithoutPath
  | lookupFailed
  | mainEntryPointMissing
  | notDeclaration (entryPoint : EntryPointName) (path : Path)
  | entryPointAbsent (entryPoint : EntryPointName) (path : Path)
  | modulePathMissing
  | modulePathRepeated (modulePath : String)
  | filePathMissing (modulePath : String)
  | badBundledPackage (name : String) (problem : PackageName.Problem)
  | tsconfigMissing
  | tsconfigAbsent (path : Path)
  | reportNameMissing
  | reportNameWithSeparator (name : String)
  | noVariants
  | modelPathMissing
  | unknownTrimmedTag (name : String)
  | metadataLookupWithoutManifest
  | metadataPathMissing
  | rollupOfSeveral
  | messages (problem : Reporting.Problem)
  | stated (message : String)
  deriving DecidableEq, Repr

/-- The wording of a prepare problem. -/
def PrepareProblem.message : PrepareProblem → String
  | extendsNotExpanded =>
    "The \"extends\" field must be expanded before calling ExtractorConfig::prepare()"
  | documentPathNotAbsolute =>
    "The \"configObjectFullPath\" setting must be an absolute path"
  | manifestNotJson =>
    "The \"packageJsonFullPath\" setting does not have a .json file extension"
  | manifestPathNotAbsolute => "The \"packageJsonFullPath\" setting must be an absolute path"
  | manifest cause => cause.message
  | compilerMissing => "The \"compiler\" section is missing"
  | projectFolderMissing => "The \"projectFolder\" setting is missing"
  | placeholder cause => cause.message
  | projectFolderAbsent value =>
    "The specified \"projectFolder\" path does not exist: " ++ value
  | lookupFolderAbsent path =>
    "The specified \"projectFolderLookupToken\" path does not exist: " ++ path.text
  | lookupWithoutPath =>
    "The \"projectFolder\" setting uses the \"<lookup>\" token, but it cannot be expanded " ++
      "because the \"configObjectFullPath\" setting was not specified"
  | lookupFailed =>
    "The \"projectFolder\" setting uses the \"<lookup>\" token, but a tsconfig.json file cannot " ++
      "be found in this folder or any parent folder."
  | mainEntryPointMissing => "The \"mainEntryPointFilePath\" setting is missing"
  | notDeclaration entryPoint path =>
    entryPoint.subject ++ " value is not a declaration file: " ++ path.text
  | entryPointAbsent entryPoint path =>
    entryPoint.subject ++ " path does not exist: " ++ path.text
  | modulePathMissing => "An additional entry point is missing its \"modulePath\""
  | modulePathRepeated modulePath =>
    "The additional entry point " ++ quoted modulePath ++ " is specified more than once"
  | filePathMissing modulePath =>
    "The additional entry point " ++ quoted modulePath ++ " is missing its \"filePath\""
  | badBundledPackage name problem =>
    "The \"bundledPackages\" list contains an invalid package name: " ++ quoted name ++ " (" ++
      problem.message ++ ")"
  | tsconfigMissing =>
    "Either the \"tsconfigFilePath\" or \"overrideTsconfig\" setting must be specified"
  | tsconfigAbsent path =>
    "The file referenced by \"tsconfigFilePath\" does not exist: " ++ path.text
  | reportNameMissing => "The \"reportFileName\" setting is missing"
  | reportNameWithSeparator name =>
    "The \"reportFileName\" setting contains invalid characters: " ++ quoted name
  | noVariants => "The \"reportVariants\" setting must list at least one variant"
  | modelPathMissing =>
    "The \"docModel.enabled\" setting is enabled, but \"apiJsonFilePath\" is not specified"
  | unknownTrimmedTag name =>
    "The \"releaseTagsToTrim\" setting contains an unrecognized release tag " ++ quoted name
  | metadataLookupWithoutManifest =>
    "The \"<lookup>\" token cannot be used with the \"tsdocMetadataFilePath\" setting because " ++
      "no package.json was found"
  | metadataPathMissing =>
    "The \"tsdocMetadata.enabled\" setting is enabled, but \"tsdocMetadataFilePath\" is not " ++
      "specified"
  | rollupOfSeveral =>
    "The \"dtsRollup.enabled\" setting cannot be used together with " ++
      "\"additionalEntryPoints\"; declaration rollups support a single entry point"
  | messages problem => problem.message
  | stated message => message

/-- The half of the work on settings that an error belongs to. -/
inductive SettingsStage where
  | loading
  | parsing
  deriving DecidableEq, Repr

/-- The stage as a word. -/
def SettingsStage.word : SettingsStage → String
  | loading => "loading"
  | parsing => "parsing"

/-- Why settings are refused. -/
inductive SettingsError where
  | unloadable (file : Path) (problem : LoadProblem)
  | malformed (file : Path) (source : String) (cause : Placed TextMisfit)
  | extendsCycle (path : Path)
  | unresolvedExtends (file : Path) (name : String) (folder : Path)
  | schema (stage : SettingsStage) (file : String) (violations : List String)
  | conflictingFiles (base : Path)
  | unprepared (file : String) (problem : PrepareProblem)
  | invalidTags (file : String) (violations : List String)
  deriving DecidableEq, Repr

namespace SettingsError

/-- The start of a message about a file. -/
def about (stage : SettingsStage) (file : String) : String :=
  "Error " ++ stage.word ++ " " ++ file ++ ":\n"

/-- Violations as the items of a list. -/
def listed (violations : List String) : String :=
  lines (violations.map ("  - " ++ ·))

/-- The wording of an error. -/
def message : SettingsError → String
  | unloadable file problem => about .loading file.text ++ problem.message
  | malformed file _ _ => about .loading file.text ++ "the file is not valid JSON"
  | extendsCycle path =>
    about .loading path.text ++
      "The \"extends\" setting contains a cycle.  This file is included twice: " ++
      quoted path.text
  | unresolvedExtends file name folder =>
    about .loading file.text ++ "Error resolving package path " ++ quoted name ++
      ": not found in any node_modules folder above " ++ folder.text
  | schema stage file violations =>
    about stage file ++ "JSON schema validation failed:\n" ++ listed violations
  | conflictingFiles base =>
    "Found conflicting api-surface.json files in \".\" and \"./config\" folders of " ++ base.text
  | unprepared file problem => about .parsing file ++ problem.message
  | invalidTags file violations =>
    about .parsing file ++ "The \"tagsToReport\" setting is invalid:\n" ++ listed violations

/-- The code of an error. -/
def code : SettingsError → String
  | unloadable _ _ => "apisurface::load_error"
  | malformed _ _ _ => "apisurface::parse_error"
  | extendsCycle _ => "apisurface::extends_cycle"
  | unresolvedExtends _ _ _ => "apisurface::unresolved_extends"
  | schema _ _ _ => "apisurface::schema_error"
  | conflictingFiles _ => "apisurface::conflicting_config"
  | unprepared _ _ => "apisurface::invalid_config"
  | invalidTags _ _ => "apisurface::invalid_tags"

/-- What would help, if anything is known to. -/
def help? : SettingsError → Option String
  | extendsCycle _ => some "remove one of the \"extends\" references so the chain ends"
  | unresolvedExtends _ _ _ =>
    some "use a \"./\" or \"../\" prefix for files next to the configuration"
  | conflictingFiles _ => some "delete one of the two files"
  | invalidTags _ _ =>
    some "release tags are always reported; other tags must look like \"@myTag\""
  | _ => none

/-- The parser's message and the byte offset it points at, for a malformed text. -/
def detail? : SettingsError → Option (String × Option Nat)
  | malformed _ source cause =>
    some (cause.textMessage, Text.offsetOf source.toList cause.place)
  | _ => none

end SettingsError

end ApiReview
