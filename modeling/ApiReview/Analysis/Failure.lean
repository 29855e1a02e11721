import ApiReview.Files.Tree
import ApiReview.Json.Misfit

/-!
# Why an analysis cannot be set up

The causes for which there is no program to analyze, each with its wording.
-/

namespace ApiReview

open Json (Placed SyntaxError)

/-- Why a compiler configuration cannot be read. -/
inductive ConfigProblem where
  | unreadable (cause : FileError)
  | malformed (cause : Placed SyntaxError)
  deriving DecidableEq, Repr

/-- The wording of a problem with a compiler configuration. -/
def ConfigProblem.message : ConfigProblem → String
  | unreadable cause => cause.message
  | malformed cause => cause.syntaxMessage

/-- Why there is no program to analyze. -/
inductive AnalysisError where
  | unreadableConfig (path : Path) (problem : ConfigProblem)
  | refusedConfig (reason : String)
  | relativeInput (path : Path)
  | missingConfig
  | program (reason : String)
  deriving DecidableEq, Repr

/-- The wording of an error. -/
def AnalysisError.message : AnalysisError → String
  | unreadableConfig path problem => "Error reading " ++ path.text ++ ": " ++ problem.message
  | refusedConfig reason => "Error parsing tsconfig.json content: " ++ reason
  | relativeInput path => "Input file is not an absolute path: " ++ path.text
  | missingConfig =>
    "Either the \"tsconfigFilePath\" or \"overrideTsconfig\" setting must be specified"
  | program reason => "Unable to create the analysis program: " ++ reason

end ApiReview
