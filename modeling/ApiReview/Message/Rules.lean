import ApiReview.Message.Level

/-!
# Reporting rules

How messages are reported, by category: a table from message ids to rules, in which the key
`default` stands for every id that is not listed. The ids that a table may list have a documented
shape, and `Reporting.problem?` names the first one that does not.
-/

namespace ApiReview

open Json (Codec Field Record)
open Text

/-- How one kind of message is reported. -/
structure Rule where
  level : Level
  /-- Whether the message is written into the API report instead of being shown. -/
  addToReport : Bool
  deriving DecidableEq, Repr

namespace Rule

/-- The rule where no other is given: not shown and not in the report. -/
def builtin : Rule := ⟨.silent, false⟩

/-- The fields of a rule. -/
def record : Record Rule where
  name := "MessageRule"
  fields :=
    [.of "logLevel" Level.codec (·.level) fun v r => { r with level := v },
      .of "addToApiReportFile" .boolean (·.addToReport) fun v r => { r with addToReport := v }]
  blank := builtin
  lenient := false

end Rule

/-- A table of rules, in the order of the document. -/
abbrev RuleTable := List (String × Rule)

/-- The tables of the three categories. -/
structure Reporting where
  compiler : RuleTable
  extractor : RuleTable
  tsdoc : RuleTable
  deriving DecidableEq, Repr

namespace Reporting

/-- No rules. -/
def empty : Reporting := ⟨[], [], []⟩

/-- The fields of the tables. -/
def record : Record Reporting where
  name := "MessagesConfig"
  fields :=
    [.of "compilerMessageReporting" Rule.record.codec.table (·.compiler)
        fun v r => { r with compiler := v },
      .of "extractorMessageReporting" Rule.record.codec.table (·.extractor)
        fun v r => { r with extractor := v },
      .of "tsdocMessageReporting" Rule.record.codec.table (·.tsdoc)
        fun v r => { r with tsdoc := v }]
  blank := empty
  lenient := false

/-- The key of the rule for every id that is not listed. -/
def defaultKey : String := "default"

/-- The ids of the messages that the analysis itself reports. -/
def extractorIds : List String :=
  ["ae-extra-release-tag", "ae-undocumented", "ae-different-release-tags",
    "ae-incompatible-release-tags", "ae-missing-release-tag", "ae-misplaced-package-tag",
    "ae-forgotten-export", "ae-internal-missing-underscore", "ae-internal-mixed-release-tag",
    "ae-preapproved-unsupported-type", "ae-preapproved-bad-release-tag",
    "ae-unresolved-inheritdoc-reference", "ae-unresolved-inheritdoc-base",
    "ae-cyclic-inherit-doc", "ae-unresolved-link", "ae-setter-with-docs", "ae-missing-getter",
    "ae-wrong-input-file-type"]

/-- Whether an id is one of the analysis. -/
def isExtractorId (id : String) : Bool :=
  extractorIds.contains id

/-- Whether an id has the shape of a compiler diagnostic: `TS` and a number. -/
def isCompilerId (id : String) : Bool :=
  match afterStart? "TS".toList id.toList with
  | some digits => digits ≠ [] && digits.all Char.isDigit
  | none => false

/-- Why an id may not be listed. -/
inductive Problem where
  | badCompilerId (id : String)
  | badExtractorStart (id : String)
  | unknownExtractorId (id : String)
  | badTsdocStart (id : String)
  deriving DecidableEq, Repr

/-- The start of a message about an entry of a table. -/
def Problem.entry (table kind id : String) : String :=
  "The messages." ++ table ++ " table contains an " ++ kind ++ " " ++ quoted id ++ ". "

/-- The wording of a problem. -/
def Problem.message : Problem → String
  | badCompilerId id =>
    entry "compilerMessageReporting" "invalid entry" id ++
      "The identifier format is \"TS\" followed by an integer."
  | badExtractorStart id =>
    entry "extractorMessageReporting" "invalid entry" id ++
      "The name should begin with the \"ae-\" prefix."
  | unknownExtractorId id =>
    entry "extractorMessageReporting" "unrecognized identifier" id ++ "Is it spelled correctly?"
  | badTsdocStart id =>
    entry "tsdocMessageReporting" "invalid entry" id ++
      "The identifier format is \"tsdoc-\" followed by the name of a TSDoc message."

/-- What is wrong with an id of the compiler's table. -/
def compilerProblem? (id : String) : Option Problem :=
  if id = defaultKey || isCompilerId id then none else some (.badCompilerId id)

/-- What is wrong with an id of the analysis' table. -/
def extractorProblem? (id : String) : Option Problem :=
  if id = defaultKey then none
  else if !startsWith "ae-" id then some (.badExtractorStart id)
  else if isExtractorId id then none
  else some (.unknownExtractorId id)

/-- What is wrong with an id of the doc comments' table. -/
def tsdocProblem? (id : String) : Option Problem :=
  if id = defaultKey || startsWith "tsdoc-" id then none else some (.badTsdocStart id)

/-- The first id that may not be listed. -/
def problem? (r : Reporting) : Option Problem :=
  ((r.compiler.map (·.1)).findSome? compilerProblem?).or
    (((r.extractor.map (·.1)).findSome? extractorProblem?).or
      ((r.tsdoc.map (·.1)).findSome? tsdocProblem?))

end Reporting

end ApiReview
