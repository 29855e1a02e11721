import ApiReview.Analysis.Failure
import ApiReview.Analysis.Host
import ApiReview.Json.Value

/-!
# The analysis engine

The engine turns a compiler configuration into a program. It comes from outside; `Engine.listing`
is one that takes the files that a configuration lists, and knows nothing of their content.
-/

namespace ApiReview

/-- A compiler configuration as the engine reads it. -/
structure ParsedConfig where
  /-- The source files it names. -/
  files : List Path
  options : Json.Members
  /-- What the engine finds wrong with it. -/
  errors : List String
  deriving DecidableEq, Repr

/-- A program to analyze. -/
structure Program where
  rootFiles : List Path
  options : Json.Members
  deriving DecidableEq, Repr

/-- The engine. -/
structure Engine where
  version : String
  /-- Reads a configuration, with its relative paths from a folder. -/
  parseConfig : Json → Path → ParsedConfig
  /-- The engine's own view of the files, for compiler options. -/
  defaultHost : FileTree → Json.Members → Host Id
  createProgram : List Path → Json.Members → Host (StateM DeclarationCache) →
    Except AnalysisError Program

namespace Engine

/-- The files that a configuration lists, and its options. -/
def parseListing (config : Json) (folder : Path) : ParsedConfig where
  files := (((config.get? "files").bind Json.items?).getD []).filterMap fun v =>
    v.text?.map fun name => folder.join ⟨name⟩
  options := ((config.get? "compilerOptions").bind Json.members?).getD []
  errors := []

/-- The engine that takes the listed files. -/
def listing (version : String) : Engine where
  version
  parseConfig := parseListing
  defaultHost t _ := Host.ofTree t ⟨"/"⟩ ⟨"/engine/lib"⟩
  createProgram rootFiles options _ := .ok ⟨rootFiles, options⟩

end Engine

end ApiReview
