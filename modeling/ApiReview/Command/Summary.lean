import ApiReview.Pipeline.Outputs

/-!
# The summary of settings

What `check` tells about prepared settings: where they come from, the entry points, the files that
a run would produce, and on request the settings themselves. Paths below the project folder are
shown relative to it.
-/

namespace ApiReview.Command

/-- A summary of settings. -/
structure Summary where
  settingsFile : Option Path
  projectFolder : Path
  packageName : Option String
  tsconfig : Option String
  /-- The entry points with their files. -/
  entryPoints : List (String × String)
  /-- The files that a run produces, by what they are. -/
  outputs : List (String × String)
  /-- The settings in full. -/
  dump : Option String
  deriving DecidableEq, Repr

namespace Summary

/-- How an entry point is called. -/
def entryPointName (e : EntryPoint) : String :=
  if e.modulePath = "" then "(main)" else e.modulePath

/-- The summary of settings. -/
def ofSettings (s : Settings) (diagnostics : Bool) : Summary where
  settingsFile := s.sourcePath
  projectFolder := s.projectFolder
  packageName := s.manifest.map (·.name)
  tsconfig := s.tsconfigPath.map s.shortPath
  entryPoints := s.entryPoints.map fun e => (entryPointName e, s.shortPath e.filePath)
  outputs := s.plannedOutputs.map fun o => (o.kind.label, s.shortPath o.path)
  dump := if diagnostics then some s.dump else none

/-- A line with a name and a value. -/
def entry (name value : String) : String :=
  name ++ ": " ++ value

/-- An item of a list. -/
def item (s : String) : String :=
  "  - " ++ s

/-- The lines about the outputs. -/
def outputLines (s : Summary) : List String :=
  if s.outputs = [] then [item "(none enabled)"]
  else s.outputs.map fun (label, path) => "  " ++ entry label path

/-- The lines of the summary. -/
def lines (s : Summary) : List String :=
  ["✓ " ++ ((s.settingsFile.map (·.text)).getD "configuration") ++ " is valid", "",
    entry "Project folder" s.projectFolder.text] ++
  s.packageName.toList.map (entry "Package") ++
  s.tsconfig.toList.map (entry "Compiler config") ++
  ["", "Entry points:"] ++
  s.entryPoints.map (fun (name, path) => item (name ++ " -> " ++ path)) ++
  ["", "Outputs:"] ++ s.outputLines ++
  (s.dump.map fun dump => ["", "── Resolved configuration ──", dump]).getD []

end Summary

end ApiReview.Command
