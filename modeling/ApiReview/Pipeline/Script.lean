import ApiReview.Pipeline.Toolchain

/-!
# A scripted toolchain

A toolchain that looks at no source text: its findings and the text of its reports are given
beforehand. It never fails. Its report ends with a line for each finding that belongs into it.
-/

namespace ApiReview

/-- A finding of the script. -/
structure ScriptedIssue where
  id : String
  text : String
  location : Location
  declaration : Option String
  deriving DecidableEq, Repr

/-- What a scripted toolchain collects: the files, and what was done with them. -/
structure ScriptedCollection where
  rootFiles : List Path
  docComments : Bool
  validated : Bool
  deriving DecidableEq, Repr

/-- What a scripted toolchain says. -/
structure Script where
  /-- The text at the start of every report. -/
  report : String
  /-- The findings of the validation. -/
  issues : List ScriptedIssue
  engineVersion : String
  deriving DecidableEq, Repr

namespace Script

/-- A script that finds nothing. -/
def standard : Script :=
  ⟨"export declare const x: number;\n", [], "5.4.2"⟩

/-- The findings with those of the script. -/
def addIssues (issues : List ScriptedIssue) (f : Findings) : Findings :=
  issues.foldl (fun f i => f.addFinding i.id i.text i.location i.declaration none) f

/-- The findings for the report: those of each declaration in turn, then the others. -/
def claimAll (declarations : List String) (f : Findings) : Findings × List Message :=
  match declarations with
  | [] => f.claimRest
  | d :: rest =>
    let (f, claimed) := f.claimFor d
    let (f, others) := claimAll rest f
    (f, claimed ++ others)

/-- The line of a report about a finding. -/
def warningLine (m : Message) : String :=
  "// Warning: " ++ m.formatPlain ++ "\n"

/-- The text of a report, from the findings claimed for it. -/
def reportText (script : Script) (claimed : List Message) : String :=
  script.report ++ String.join (claimed.map warningLine)

/-- The model of a collection. -/
def model (c : ScriptedCollection) : Json.Members :=
  [("kind", .string "Package"), ("entryPoints", .ofStrings (c.rootFiles.map (·.text)))]

/-- The text of a rollup. -/
def rollupText (tier : RollupTier) : String :=
  "// " ++ tier.word ++ " rollup\nexport \x7b\x7d;\n"

/-- The toolchain of the script. -/
def toolchain (script : Script) : Toolchain ScriptedCollection where
  engine := .listing script.engineVersion
  collect _ program := return ⟨program.rootFiles, false, false⟩
  attachDocComments c := return { c with docComments := true }
  validate c := do
    modify (addIssues script.issues)
    return { c with validated := true }
  buildModel c := .ok (model c)
  renderReport _ _ := do
    let (f, claimed) := claimAll (script.issues.filterMap (·.declaration)) (← get)
    set f
    return script.reportText claimed
  sameReport := reportsEquivalent
  renderRollup _ tier := .ok (rollupText tier)

end Script

end ApiReview
