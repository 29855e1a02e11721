import ApiReview.Analysis.Engine
import ApiReview.Files.Access
import ApiReview.Message.Findings
import ApiReview.Settings.Prepared

/-!
# The toolchain

What does the analysis itself comes from outside: it collects the exported symbols, checks them,
and renders reports and rollups. It sees and extends the findings of the run, and may fail. What
it collects is a type of its own, which a run only hands on.
-/

namespace ApiReview

/-- A declaration rollup, from the one with the fewest items to the one with all. -/
inductive RollupTier where
  | publicOnly
  | beta
  | alpha
  | untrimmed
  deriving DecidableEq, Repr

namespace RollupTier

/-- The tiers in the order in which they are written. -/
def all : List RollupTier :=
  [.publicOnly, .beta, .alpha, .untrimmed]

/-- The tier as a word. -/
def word : RollupTier → String
  | publicOnly => "public"
  | beta => "beta"
  | alpha => "alpha"
  | untrimmed => "untrimmed"

/-- The least maturity that an item needs to stay in the rollup. -/
def minimumTag : RollupTier → ReleaseTag
  | publicOnly => .published
  | beta => .beta
  | alpha => .alpha
  | untrimmed => .untagged

/-- Where the settings want the rollup, if anywhere. -/
def outputPath (tier : RollupTier) (s : Settings) : Option Path :=
  let path :=
    match tier with
    | publicOnly => s.publicTrimmedPath
    | beta => s.betaTrimmedPath
    | alpha => s.alphaTrimmedPath
    | untrimmed => s.untrimmedPath
  path.filter fun p => p.text ≠ ""

end RollupTier

/-- What the toolchain is asked for. -/
inductive Call where
  | collect
  | docComments
  | validation
  | model
  | report
  | rollup
  deriving DecidableEq, Repr

/-- The request as a word. -/
def Call.word : Call → String
  | collect => "collect"
  | docComments => "doc-comments"
  | validation => "validation"
  | model => "model"
  | report => "report"
  | rollup => "rollup"

/-- A step of the toolchain, which works on the findings and may fail. -/
abbrev Work (α : Type) := ExceptT Report (StateM Findings) α

/-- The components that do the analysis; `κ` is what the first of them collects. -/
structure Toolchain (κ : Type) where
  engine : Engine
  /-- The exported symbols of a program. -/
  collect : Settings → Program → Work κ
  /-- The symbols with their doc comments. -/
  attachDocComments : κ → Work κ
  /-- The symbols, checked against the conventions. -/
  validate : κ → Work κ
  /-- The model of the symbols, without its head. -/
  buildModel : κ → Except Report Json.Members
  /-- The text of a report. -/
  renderReport : κ → ReportSpec → Work String
  /-- Whether two report texts describe the same symbols. -/
  sameReport : String → String → Bool
  /-- The text of a rollup. -/
  renderRollup : κ → RollupTier → Except Report String

/-! ## Comparing reports -/

/-- The lines of a report that count: without blanks at their ends, and without empty lines at the
end of the text. -/
def reportLines (s : String) : List (List Char) :=
  ((((Text.splitOn '\n' s.toList).map Text.trimEnd).reverse).dropWhile (· = [])).reverse

/-- Whether two reports have the same lines. -/
def reportsEquivalent (a b : String) : Bool :=
  reportLines a = reportLines b

end ApiReview
