import ApiReview.Pipeline.Script
import ApiReview.Proofs.Message.Claims
import ApiReview.Proofs.Pipeline.Artifacts
import ApiReview.Proofs.Pipeline.Onward
import ApiReview.Proofs.Pipeline.Stages

/-!
# Runs with a scripted toolchain

The analysis of a scripted toolchain does not fail: it writes no file and leaves behind the findings
of the script (`analysis_run`). Whichever report is rendered first has all the findings that belong
into reports, and those behind it have none (`eq_textOf_of_stagedText`, `spent_reconcileNext`).
-/

namespace ApiReview

/-- A finding of a script as it is recorded. -/
def ScriptedIssue.message (i : ScriptedIssue) : Message :=
  { Message.plain .extractor i.id i.text with location := some i.location }

namespace Script

theorem addIssues_cons (i : ScriptedIssue) (issues : List ScriptedIssue) (f : Findings) :
    addIssues (i :: issues) f =
      addIssues issues (f.addFinding i.id i.text i.location i.declaration none) := rfl

theorem messages_addIssues (issues : List ScriptedIssue) (f : Findings) :
    (addIssues issues f).messages = f.messages ++ issues.map ScriptedIssue.message := by
  induction issues generalizing f with
  | nil => exact (List.append_nil _).symm
  | cons i rest ih =>
    have hfirst : (f.addFinding i.id i.text i.location i.declaration none).messages =
        f.messages ++ [i.message] := by
      cases hd : i.declaration <;> rfl
    rw [addIssues_cons, ih, hfirst, List.append_assoc, List.map_cons, List.singleton_append]

theorem rules_addIssues (issues : List ScriptedIssue) (f : Findings) :
    (addIssues issues f).rules = f.rules := by
  induction issues generalizing f with
  | nil => rfl
  | cons i rest ih =>
    have hfirst : (f.addFinding i.id i.text i.location i.declaration none).rules = f.rules := by
      cases hd : i.declaration <;> rfl
    rw [addIssues_cons, ih, hfirst]

/-- What the script finds under the settings, when the reports have their turn. -/
def findings (script : Script) (s : Settings) : Findings :=
  addIssues script.issues (.ofReporting s.messages)

/-- The declarations in the order in which a report asks for their findings. -/
def declarations (script : Script) : List String :=
  script.issues.filterMap (·.declaration)

/-- What the first report of a run claims. -/
def claims (script : Script) (s : Settings) : List Message :=
  (claimAll script.declarations (script.findings s)).2

/-- The text of a report in a run: the first of them has the findings of the script below it. -/
def textOf (script : Script) (s : Settings) (r : ReportSpec) : String :=
  if s.reports.head? = some r then script.reportText (script.claims s) else script.report

/-- No finding of the script belongs into the reports. -/
def KeepsOut (script : Script) (s : Settings) : Prop :=
  ∀ i ∈ script.issues, ((RuleBook.ofReporting s.messages).ruleFor i.message).addToReport = false

theorem spent_findings_iff (script : Script) (s : Settings) :
    (script.findings s).Spent ↔ script.KeepsOut s := by
  have hmessages : (script.findings s).messages = script.issues.map ScriptedIssue.message :=
    messages_addIssues _ _
  have hrules : (script.findings s).rules = .ofReporting s.messages := rules_addIssues _ _
  rw [Findings.Spent, hmessages, List.forall_mem_map, KeepsOut]
  refine forall₂_congr fun i _ => ?_
  -- A finding that was only recorded is not handled.
  rw [Findings.isClaimable, hrules]
  exact Eq.congr_left (Bool.true_and _)

theorem claims_eq_nil_iff (script : Script) (s : Settings) :
    script.claims s = [] ↔ script.KeepsOut s :=
  (claimAll_eq_nil_iff _ _).trans (script.spent_findings_iff s)

theorem reportText_nil (script : Script) : script.reportText [] = script.report :=
  String.append_empty

theorem reportText_eq_report_iff (script : Script) (claimed : List Message) :
    script.reportText claimed = script.report ↔ claimed = [] := by
  constructor
  · intro h
    cases claimed with
    | nil => rfl
    | cons m rest =>
      rw [reportText, List.map_cons, String.join_cons, String.append_eq_left_iff] at h
      have hlength := congrArg String.length h
      rw [String.length_append, warningLine, String.length_append, String.length_append] at hlength
      have hline : "\n".length = 1 := rfl
      have hempty : "".length = 0 := rfl
      omega
  · rintro rfl
    exact script.reportText_nil

end Script

namespace Job

open Run (Keeps)

variable {σ : Type} {script : Script} {job : Job ScriptedCollection}

/-- What a scripted toolchain collects, as it is after the analysis. -/
def collected (job : Job ScriptedCollection) : ScriptedCollection :=
  ⟨job.program.rootFiles, true, true⟩

/-- The analysis comes to a result, and writes nothing. -/
theorem analysis_run (ht : job.toolchain = script.toolchain) (s : Session σ ScriptedCollection) :
    ∃ router calls,
      job.goThrough Stage.analysis s = (.ok (), { s with
        router, calls
        collection := some job.collected
        model := some (Script.model job.collected) }) ∧
      s.router.Onward router ∧
      router.findings = Script.addIssues script.issues s.router.findings := by
  obtain ⟨settings, program, toolchain, flags⟩ := job
  obtain rfl : toolchain = script.toolchain := ht
  have hfilter : Stage.analysis.filter (·.isWanted settings) =
    (Stage.analysis : List (Stage σ ScriptedCollection)) := rfl
  obtain ⟨r₁, hpreamble, htells⟩ :=
    telling_preamble Router.telling_tells ⟨settings, program, script.toolchain, flags⟩ s
  have hfirst : Stage.preamble.run ⟨settings, program, script.toolchain, flags⟩ s =
    (.ok (), { s with router := r₁ }) := hpreamble
  let r₂ : Router σ := { r₁ with findings := Script.addIssues script.issues r₁.findings }
  have hr₂ : r₁.Onward r₂ := ⟨rfl, Nat.le_refl _⟩
  have hlast := r₂.tells_logDiagnostic ""
  refine ⟨r₂.logDiagnostic "", s.calls ++ [.collect] ++ [.docComments] ++ [.validation] ++ [.model],
    ?_, (htells.toOnward.trans hr₂).trans hlast.toOnward, ?_⟩
  · rw [goThrough, hfilter, Stage.analysis, List.forM, Run.bind_run_ok hfirst]
    rfl
  · rw [hlast.findings, ← htells.findings]

/-! ## Reports -/

/-- A scripted report has the findings that are left. -/
theorem stageReport_scripted (ht : job.toolchain = script.toolchain) {r : ReportSpec}
    {s s' : Session σ ScriptedCollection} {text : String}
    (h : job.stageReport r s = (.ok text, s')) :
    text = script.reportText (Script.claimAll script.declarations s.router.findings).2 ∧
      s'.router.findings = (Script.claimAll script.declarations s.router.findings).1 := by
  obtain ⟨c, findings, -, hrender, -, hs'⟩ := stageReport_eq_ok h
  rw [ht] at hrender
  obtain ⟨htext, rfl⟩ := Prod.mk.inj hrender
  refine ⟨(Except.ok.inj htext).symm, ?_⟩
  rw [hs']
  rfl

/-- Behind a report nothing is left to claim. -/
theorem spent_reconcileNext (ht : job.toolchain = script.toolchain) {r : ReportSpec}
    {s s' : Session σ ScriptedCollection} (h : job.reconcileNext r s = (.ok (), s')) :
    s'.router.findings.Spent := by
  have hfindings := job.findings_reconcileNext r s
  obtain ⟨outcome, s₁, hreconcile, -⟩ := Run.bind_run_eq_ok h
  rw [reconcile_eq] at hreconcile
  obtain ⟨text, s₂, hstage, -⟩ := Run.bind_run_eq_ok hreconcile
  rw [h, hstage, (stageReport_scripted ht hstage).2] at hfindings
  rw [hfindings]
  exact Script.spent_claimAll _ _

theorem spent_reports (ht : job.toolchain = script.toolchain) {before : List ReportSpec}
    (hne : before ≠ []) {s s' : Session σ ScriptedCollection}
    (h : before.forM job.reconcileNext s = (.ok (), s')) : s'.router.findings.Spent := by
  induction before generalizing s with
  | nil => exact absurd rfl hne
  | cons r rest ih =>
    rw [List.forM] at h
    obtain ⟨_, s₁, hfirst, hrest⟩ := Run.bind_run_eq_ok h
    by_cases hr : rest = []
    · subst hr
      cases hrest
      exact spent_reconcileNext ht hfirst
    · exact ih hr hrest

theorem keeps_findings_wantedModel (job : Job ScriptedCollection) :
    Keeps (·.router.findings) (job.wantedModel : Run σ ScriptedCollection Unit) :=
  Run.leads_findings.along_wanted fun _ =>
    along_writeModel Run.leads_findings job fun _ _ => trivial

/-- At their turn, the reports find the findings of the script. -/
theorem findings_beforeReports (ht : job.toolchain = script.toolchain)
    {s s' : Session σ ScriptedCollection}
    (hs : s.router.findings = .ofReporting job.settings.messages)
    (h : job.goThrough Stage.beforeReports s = (.ok (), s')) :
    s'.router.findings = script.findings job.settings := by
  obtain ⟨router, calls, hanalysis, -, hfindings⟩ := analysis_run ht s
  rw [goThrough_beforeReports, Run.bind_run_ok hanalysis] at h
  have hkept := (keeps_findings_wantedModel job).of_run h
  exact hkept.trans (hfindings.trans (by rw [hs]; rfl))

/-- The text that a run stages as a report. -/
theorem eq_textOf_of_stagedText (ht : job.toolchain = script.toolchain)
    {s : Session σ ScriptedCollection}
    (hs : s.router.findings = .ofReporting job.settings.messages) {r : ReportSpec}
    (hr : r ∈ job.settings.reports) {text : String} (h : job.stagedText? s r = some text) :
    text = script.textOf job.settings r := by
  obtain ⟨s', s'', huntil, hstage⟩ := stagedText?_eq_some h
  obtain ⟨_, s₁, hbefore, hearlier⟩ := Run.bind_run_eq_ok huntil
  have hfindings := findings_beforeReports ht hs hbefore
  rw [(stageReport_scripted ht hstage).1, Script.textOf]
  obtain ⟨first, rest, hreports⟩ := List.exists_cons_of_ne_nil (List.ne_nil_of_mem hr)
  rw [hreports] at hearlier ⊢
  by_cases hfirst : first = r
  · subst hfirst
    rw [List.takeWhile_cons_of_neg (by simp)] at hearlier
    obtain ⟨-, rfl⟩ := Prod.mk.inj hearlier
    rw [if_pos List.head?_cons, hfindings, Script.claims]
  · have hne : (first :: rest).takeWhile (· ≠ r) ≠ [] := by
      rw [List.takeWhile_cons_of_pos (by simpa using hfirst)]
      exact List.cons_ne_nil _ _
    have hspent := spent_reports ht hne hearlier
    have hlater : ¬ (first :: rest).head? = some r := fun e => hfirst (Option.some.inj e)
    rw [if_neg hlater, Script.claimAll_of_spent hspent, Script.reportText_nil]

end Job

end ApiReview
