import ApiReview.Pipeline.Session

/-!
# Reports against their accepted form

Each report is generated, put into the folder for fresh reports, and compared with the accepted
form that is kept with the project. A local build brings the accepted form up to date; any other
build only warns, so that a change has to be accepted on purpose. The folder of the accepted
reports is never made here.
-/

namespace ApiReview

/-- What came of comparing a report with its accepted form. -/
inductive Reconciled where
  /-- The accepted form is the same. -/
  | unchanged
  /-- The accepted form was another one and was brought up to date. -/
  | updated
  /-- The accepted form is another one or absent, and was left so. -/
  | notUpdated
  /-- There was no accepted form, and now there is. -/
  | created
  /-- There is no accepted form and no folder for it. -/
  | createFailed
  deriving DecidableEq, Repr

namespace Reconciled

/-- The outcome as a word. -/
def word : Reconciled → String
  | unchanged => "Unchanged"
  | updated => "Updated"
  | notUpdated => "NotUpdated"
  | created => "Created"
  | createFailed => "CreateFailed"

/-- Whether the report differed from its accepted form. -/
def isChange (outcome : Reconciled) : Bool :=
  outcome ≠ .unchanged

end Reconciled

/-- How a changed report is told. -/
def changedReport : String :=
  "You have changed the public API signature for this project."

/-- How to accept a report, for a build that is not local. -/
def copyReport (fresh accepted : String) : String :=
  " Please copy the file " ++ Text.quoted fresh ++ " to " ++ Text.quoted accepted ++
    ", or perform a local build (which does this automatically). See the Git repo documentation " ++
    "for more info."

namespace Job

variable {σ κ : Type}

/-- How artifacts are written. -/
def writeOptions (job : Job κ) : WriteOptions :=
  .inStyle job.settings.lineEnding

/-- A report generated and put into the folder for fresh reports. -/
def stageReport (job : Job κ) (report : ReportSpec) : Run σ κ String := do
  let c ← Run.collection
  let actual ← Run.ask .report (job.toolchain.renderReport c report)
  Run.write .stagedReport (job.settings.stagedReportPath report) actual job.writeOptions
  return actual

/-- A report compared with an accepted form that exists. -/
def compareReport (job : Job κ) (report : ReportSpec) (actual expected : String) :
    Run σ κ Reconciled := do
  let s := job.settings
  let fresh := s.shortPath (s.stagedReportPath report)
  let accepted := s.shortPath (s.reportPath report)
  if job.toolchain.sameReport actual expected then
    Run.log .verbose .reportUnchanged ("The API report is up to date: " ++ fresh)
    return .unchanged
  else if job.flags.localBuild then
    Run.log .warning .reportCopied (changedReport ++ " Updating " ++ accepted)
    Run.write .updatedReport (s.reportPath report) actual job.writeOptions
    return .updated
  else
    Run.log .warning .reportNotCopied (changedReport ++ copyReport fresh accepted)
    return .notUpdated

/-- A report that has no accepted form yet. -/
def acceptNewReport (job : Job κ) (report : ReportSpec) (actual : String) :
    Run σ κ Reconciled := do
  let s := job.settings
  if !job.flags.localBuild then
    Run.log .warning .reportNotCopied
      ("The API report file is missing." ++
        copyReport (s.shortPath (s.stagedReportPath report)) (s.shortPath (s.reportPath report)))
    return .notUpdated
  else if !(← get).files.isFolder s.reportFolder then
    Run.log .error .reportFolderMissing
      ("Unable to create the API report file. Please make sure the target folder exists:\n" ++
        s.reportFolder.text)
    return .createFailed
  else
    Run.write .createdReport (s.reportPath report) actual
      { job.writeOptions with makeFolders := false }
    Run.log .warning .reportCreated
      ("The API report file was missing, so a new file was created. Please add this file to " ++
        "Git:\n" ++ (s.reportPath report).text)
    return .created

/-- A report generated and compared with its accepted form. -/
def reconcile (job : Job κ) (report : ReportSpec) : Run σ κ Reconciled := do
  let actual ← job.stageReport report
  let accepted := job.settings.reportPath report
  let files := (← get).files
  if files.isFile accepted then
    match files.readTextFile accepted with
    | .ok expected => job.compareReport report actual expected
    | .error cause => throw (.unreadableReport cause)
  else job.acceptNewReport report actual

/-- The stage of the reports. -/
def reconcileReports (job : Job κ) : Run σ κ Unit :=
  job.settings.reports.forM fun report => do
    let outcome ← job.reconcile report
    modify fun s => { s with reportChanged := s.reportChanged || outcome.isChange }

end Job

end ApiReview
