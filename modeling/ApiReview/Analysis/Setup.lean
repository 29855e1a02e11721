import ApiReview.Analysis.Engine
import ApiReview.Analysis.Inputs
import ApiReview.Settings.Prepared

/-!
# Setting up an analysis

From prepared settings to a program: the compiler configuration is found and read, its files are
joined with the entry points, and the engine makes a program of the inputs. `AnalysisPlan` is what
the engine is asked for.
-/

namespace ApiReview

namespace Settings

/-- A compiler configuration read from a file. -/
def readTsconfig (t : FileTree) (path : Path) : Except AnalysisError Json := do
  let s ← (t.readText path).mapError fun e => .unreadableConfig path (.unreadable e)
  (Json.parse s).mapError fun e => .unreadableConfig path (.malformed e)

/-- The compiler configuration with the folder from which its paths are read: the one in the
settings, else that of a file. -/
def compilerConfig (t : FileTree) (s : Settings) : Except AnalysisError (Json × Path) :=
  match s.inlineTsconfig, s.tsconfigPath with
  | some members, _ => .ok (.object members, s.projectFolder)
  | none, some path => do
    let config ← readTsconfig t path
    return (config, path.parent?.getD ⟨"/"⟩)
  | none, none => .error .missingConfig

end Settings

/-- What the engine is asked to make a program of. -/
structure AnalysisPlan where
  inputs : List Path
  options : Json.Members
  deriving DecidableEq, Repr

namespace Analysis

/-- The option that leaves library declarations unchecked. -/
def skipLibCheckKey : String := "skipLibCheck"

/-- The compiler options with what the settings force on them. -/
def forcedOptions (s : Settings) (options : Json.Members) : Json.Members :=
  if s.skipLibCheck then Json.put skipLibCheckKey (.boolean true) options else options

/-- What the engine is asked for: the files of the configuration, the entry points, and those that
the caller adds. -/
def plan (t : FileTree) (engine : Engine) (s : Settings) (extra : List Path) :
    Except AnalysisError AnalysisPlan := do
  let (config, folder) ← s.compilerConfig t
  let parsed := engine.parseConfig config folder
  if let some reason := parsed.errors.head? then
    throw (.refusedConfig reason)
  let inputs ← collectInputs (parsed.files ++ s.entryPoints.map (·.filePath) ++ extra)
  return ⟨inputs, forcedOptions s parsed.options⟩

/-- The host for the options of a plan. -/
def host (t : FileTree) (engine : Engine) (plan : AnalysisPlan) (compilerFolder : Option Path) :
    Host (StateM DeclarationCache) :=
  (engine.defaultHost t plan.options).shadowing compilerFolder

/-- The program of settings. -/
def program (t : FileTree) (engine : Engine) (s : Settings) (extra : List Path)
    (compilerFolder : Option Path) : Except AnalysisError Program := do
  let plan ← plan t engine s extra
  engine.createProgram plan.inputs plan.options (host t engine plan compilerFolder)

end Analysis

end ApiReview
