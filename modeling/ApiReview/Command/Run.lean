import ApiReview.Command.Arguments
import ApiReview.Command.Starter
import ApiReview.Command.Summary
import ApiReview.Pipeline.Artifacts
import ApiReview.Settings.Prepare

/-!
# Running commands

A command is a function of the files and the arguments: it gives what is printed, the exit status,
and the files as they are afterwards. Refused arguments end with status 2, failures with status 1,
and a failed command prints nothing to standard output.
-/

namespace ApiReview.Command

/-- What running a command came to. -/
structure Done where
  status : Nat
  out : String
  err : String
  files : FileTree

namespace Done

/-- Lines with their ends. -/
def printed (lines : List String) : String :=
  String.join (lines.map (· ++ "\n"))

/-- A success with the lines that it prints. -/
def success (files : FileTree) (lines : List String) : Done :=
  ⟨0, printed lines, "", files⟩

/-- A failure with its causes. -/
def failure (files : FileTree) (report : Report) : Done :=
  ⟨1, "", printed (("Error: " ++ report.message) :: report.causes.map ("  " ++ ·)), files⟩

/-- Refused arguments. -/
def refusal (files : FileTree) (e : UsageError) : Done :=
  ⟨2, "", "error: " ++ e.message ++ "\n", files⟩

end Done

/-- Why there is nothing to check. -/
inductive CheckError where
  | settings (cause : SettingsError)
  | notFound (folder : Path)
  deriving DecidableEq, Repr

/-- A failure in words. -/
def CheckError.report : CheckError → Report
  | settings cause => ⟨cause.message, (cause.detail?.map (·.1)).toList⟩
  | notFound folder => ⟨"Unable to find an api-surface.json file in " ++ folder.text, []⟩

/-- The settings that `check` is about: those in the given file, or those of the working folder. -/
def checkedSettings (t : FileTree) (settingsFile : Option Path) : Except CheckError Settings :=
  match settingsFile with
  | some path => (Settings.loadAndPrepare t path).mapError .settings
  | none => do
    match ← (Settings.loadForFolder t t.workingPath).mapError .settings with
    | some source => (Settings.prepare t source.input).mapError .settings
    | none => .error (.notFound t.workingPath)

/-- The command `check`. -/
def runCheck (t : FileTree) (settingsFile : Option Path) (diagnostics : Bool) : Done :=
  match checkedSettings t settingsFile with
  | .ok settings => .success t (Summary.ofSettings settings diagnostics).lines
  | .error e => .failure t e.report

/-- What the user says to replacing a file, if there is a user to ask. -/
inductive Consent where
  | given
  | refused
  | unavailable
  deriving DecidableEq, Repr

/-- The question before a file is replaced. -/
def replaceQuestion (path : Path) : String :=
  path.text ++ " already exists. Replace it?"

/-- Whether the command `init` has to ask before it writes. -/
def needsConsent (t : FileTree) (folder : Path) (force : Bool) : Bool :=
  !force && t.exists? (starterPath folder)

/-- The settings file written, and what is told about it. -/
def writeInit (t : FileTree) (folder : Path) : Done :=
  let path := starterPath folder
  match writeStarter t folder with
  | (files, .ok ()) => .success files (starterLines path (t.exists? path))
  | (files, .error e) => .failure files e.report

/-- The command `init`. -/
def runInit (t : FileTree) (folder : Path) (force : Bool) (consent : Consent) : Done :=
  if needsConsent t folder force then
    match consent with
    | .given => writeInit t folder
    | .refused => .success t ["Left " ++ (starterPath folder).text ++ " unchanged"]
    | .unavailable => .failure t ⟨"Failed to get confirmation", []⟩
  else writeInit t folder

/-- A request done. -/
def Request.run (t : FileTree) (consent : Consent) : Request → Done
  | .check settingsFile diagnostics => runCheck t settingsFile diagnostics
  | .init folder force => runInit t folder force consent
  | .version => .success t ["surface " ++ Tool.version]

/-- A command line done. -/
def run (t : FileTree) (consent : Consent) (args : List String) : Done :=
  match Request.ofArguments args with
  | .ok request => request.run t consent
  | .error e => .refusal t e

end ApiReview.Command
