import ApiReview.Proofs.Files.Beside
import ApiReview.Proofs.Pipeline.ReportFolder
import ApiReview.Proofs.Pipeline.Variants

/-!
# Reports that have drifted

Which reports have changed is a question about the accepted forms as they were before the stage,
although the stage writes while it asks (`Job.drift_reconcileReports`). Until a report has its turn,
and while it is staged, nothing is written to its accepted form, so that it is found as it was; and
nothing is written to it or to the staged form behind its turn. So what was made of the report at
its turn still holds behind the stage (`Job.Judged`).
-/

namespace ApiReview

variable {σ κ : Type}

namespace Job

/-! ## One report -/

/-- Whether the accepted form of a report is there with a text like the given one. -/
def UpToDate (job : Job κ) (t : FileTree) (r : ReportSpec) (text : String) : Prop :=
  ∃ accepted, t.readText (job.settings.reportPath r) = .ok accepted ∧
    job.toolchain.sameReport text accepted = true

/-- What was made of a report with a text, told by the files before and behind. -/
structure Judged (job : Job κ) (r : ReportSpec) (text : String) (outcome : Reconciled)
    (t t' : FileTree) : Prop where
  staged : t'.readText (job.settings.stagedReportPath r) = .ok (job.writeOptions.stored text)
  unchanged_iff : outcome = .unchanged ↔ job.UpToDate t r text
  kept : outcome = .unchanged → ∃ accepted, t.readText (job.settings.reportPath r) = .ok accepted ∧
    t'.readText (job.settings.reportPath r) = .ok accepted
  accepted : outcome = .updated ∨ outcome = .created →
    t'.readText (job.settings.reportPath r) = .ok (job.writeOptions.stored text)

section Report

variable {job : Job κ} {r : ReportSpec} {text : String} {outcome : Reconciled}
  {t t' t'' : FileTree} {places : Place → Prop}

theorem not_upToDate_of_not_isFile (h : ¬ t.isFile (job.settings.reportPath r) = true) :
    ¬ job.UpToDate t r text := fun ⟨_, haccepted, _⟩ =>
  h (FileTree.isFile_of_readText haccepted)

theorem not_upToDate_of_readText {expected : String}
    (hread : t.readText (job.settings.reportPath r) = .ok expected)
    (hother : ¬ job.toolchain.sameReport text expected = true) : ¬ job.UpToDate t r text := by
  rintro ⟨accepted, haccepted, hsame⟩
  rw [hread] at haccepted
  exact hother (Except.ok.inj haccepted ▸ hsame)

/-- A report whose accepted form was not up to date, and was left as it was. -/
theorem judged_left (hstaged : t.readText (job.settings.stagedReportPath r) =
      .ok (job.writeOptions.stored text)) (hdrift : ¬ job.UpToDate t r text)
    (ho : outcome = .notUpdated ∨ outcome = .createFailed) : job.Judged r text outcome t t where
  staged := hstaged
  unchanged_iff := by
    refine iff_of_false ?_ hdrift
    rintro rfl
    rcases ho with ho | ho <;> cases ho
  kept hu := by rcases ho with ho | ho <;> cases ho.symm.trans hu
  accepted ha := by rcases ho with rfl | rfl <;> rcases ha with ha | ha <;> cases ha

/-- Of the files before, only the accepted form matters. -/
theorem Judged.of_found (h : job.Judged r text outcome t' t'')
    (hfound : ∀ {accepted : String}, t'.readText (job.settings.reportPath r) = .ok accepted ↔
      t.readText (job.settings.reportPath r) = .ok accepted) :
    job.Judged r text outcome t t'' where
  staged := h.staged
  unchanged_iff := by
    simp only [h.unchanged_iff, UpToDate, hfound]
  kept ho := by
    obtain ⟨accepted, hbefore, hbehind⟩ := h.kept ho
    exact ⟨accepted, hfound.mp hbefore, hbehind⟩
  accepted := h.accepted

section Placed

variable (hs : job.settings.ReportsPlaced)

include hs

/-- What is written elsewhere says nothing about what was made of a report. -/
theorem Judged.writesOnly (h : job.Judged r text outcome t t') (hw : t'.WritesOnly places t'')
    (hp : ∀ place, job.ReportPlaces r place → ¬ places place) :
    job.Judged r text outcome t t'' where
  staged := hw.readText (hs.isAbsolute_stagedReportPath r) (hp _ (.inl rfl)) h.staged
  unchanged_iff := h.unchanged_iff
  kept ho := by
    obtain ⟨accepted, hbefore, hbehind⟩ := h.kept ho
    exact ⟨accepted, hbefore,
      hw.readText (hs.isAbsolute_reportPath r) (hp _ (.inr rfl)) hbehind⟩
  accepted ho := hw.readText (hs.isAbsolute_reportPath r) (hp _ (.inr rfl)) (h.accepted ho)

/-- A report whose accepted form was not up to date, and was written. -/
theorem judged_written (hstaged : t.readText (job.settings.stagedReportPath r) =
      .ok (job.writeOptions.stored text)) (hdrift : ¬ job.UpToDate t r text)
    (hapart : (job.settings.stagedReportPath r).place ≠ (job.settings.reportPath r).place)
    {options : WriteOptions}
    (hwrite : t.writeText (job.settings.reportPath r) text options = (t', .ok ()))
    (hoptions : options.stored text = job.writeOptions.stored text)
    (ho : outcome ≠ .unchanged) : job.Judged r text outcome t t' where
  staged := by
    have hw := t.writesOnly_writeText (hs.isAbsolute_reportPath r) text options
    rw [hwrite] at hw
    exact hw.readText (hs.isAbsolute_stagedReportPath r) hapart hstaged
  unchanged_iff := iff_of_false ho hdrift
  kept hu := absurd hu ho
  accepted _ := by
    rw [← hoptions]
    exact FileTree.readText_writeText (hs.isAbsolute_reportPath r) hwrite

variable {s s' : Session σ κ}
  (hstaged : s.files.readText (job.settings.stagedReportPath r) =
    .ok (job.writeOptions.stored text))
  (hapart : (job.settings.stagedReportPath r).place ≠ (job.settings.reportPath r).place)

include hstaged hapart

theorem judged_compareReport {expected : String}
    (hread : s.files.readText (job.settings.reportPath r) = .ok expected)
    (h : job.compareReport r text expected s = (.ok outcome, s')) :
    job.Judged r text outcome s.files s'.files := by
  simp only [compareReport] at h
  split at h
  · rename_i hsame
    rw [Run.log_bind] at h
    obtain ⟨hok, rfl⟩ := Prod.mk.inj h
    obtain rfl := Except.ok.inj hok
    exact ⟨hstaged, iff_of_true rfl ⟨expected, hread, hsame⟩,
      fun _ => ⟨expected, hread, hread⟩, by rintro (h | h) <;> cases h⟩
  · rename_i hother
    have hdrift := not_upToDate_of_readText hread hother
    split at h
    · rw [Run.log_bind] at h
      obtain ⟨_, s₁, hwrite, h⟩ := Run.bind_run_eq_ok h
      obtain ⟨hok, rfl⟩ := Prod.mk.inj h
      obtain rfl := Except.ok.inj hok
      exact judged_written hs hstaged hdrift hapart (Run.write_eq_ok hwrite).1 rfl (by decide)
    · rw [Run.log_bind] at h
      obtain ⟨hok, rfl⟩ := Prod.mk.inj h
      obtain rfl := Except.ok.inj hok
      exact judged_left hstaged hdrift (.inl rfl)

theorem judged_acceptNewReport
    (hmissing : ¬ s.files.isFile (job.settings.reportPath r) = true)
    (h : job.acceptNewReport r text s = (.ok outcome, s')) :
    job.Judged r text outcome s.files s'.files := by
  have hdrift : ¬ job.UpToDate s.files r text := not_upToDate_of_not_isFile hmissing
  simp only [acceptNewReport] at h
  split at h
  · rw [Run.log_bind] at h
    obtain ⟨hok, rfl⟩ := Prod.mk.inj h
    obtain rfl := Except.ok.inj hok
    exact judged_left hstaged hdrift (.inl rfl)
  · rw [Run.get_bind] at h
    split at h
    · rw [Run.log_bind] at h
      obtain ⟨hok, rfl⟩ := Prod.mk.inj h
      obtain rfl := Except.ok.inj hok
      exact judged_left hstaged hdrift (.inr rfl)
    · obtain ⟨_, s₁, hwrite, h⟩ := Run.bind_run_eq_ok h
      rw [Run.log_bind] at h
      obtain ⟨hok, rfl⟩ := Prod.mk.inj h
      obtain rfl := Except.ok.inj hok
      exact judged_written hs hstaged hdrift hapart (Run.write_eq_ok hwrite).1 rfl (by decide)

/-- A staged report is judged by its accepted form as it is found. -/
theorem judged_judge (h : job.judge r s.files text s = (.ok outcome, s')) :
    job.Judged r text outcome s.files s'.files := by
  rw [judge] at h
  split at h
  · cases hread : s.files.readTextFile (job.settings.reportPath r) with
    | error cause =>
      rw [hread] at h
      cases (Prod.mk.inj h).1
    | ok expected =>
      rw [hread] at h
      exact judged_compareReport hs hstaged hapart (mapError_eq_ok hread) h
  · rename_i hmissing
    exact judged_acceptNewReport hs hstaged hapart hmissing h

end Placed

/-- A report at its turn is judged by its accepted form as it was before any writing elsewhere. -/
theorem judged_reconcile (hs : job.settings.ReportsPlaced) (hr : r ∈ job.settings.reports)
    (hapart : (job.settings.stagedReportPath r).place ≠ (job.settings.reportPath r).place)
    (hc : t.Closed) (hfixed : t.Fixed job.settings.reportFolder) {s s' : Session σ κ}
    (hbefore : t.WritesOnly places s.files) (hp : ¬ places (job.settings.reportPath r).place)
    (h : job.reconcile r s = (.ok outcome, s')) :
    ∃ text, (job.stageReport r s).1 = .ok text ∧ job.Judged r text outcome t s'.files := by
  have hstagedPath := hs.isAbsolute_stagedReportPath r
  rw [reconcile_eq] at h
  obtain ⟨text, s₁, hstage, h⟩ := Run.bind_run_eq_ok h
  rw [Run.get_bind] at h
  refine ⟨text, by rw [hstage], ?_⟩
  obtain ⟨_, _, -, -, hwrite, -⟩ := stageReport_eq_ok hstage
  have hstaged := FileTree.readText_writeText hstagedPath hwrite
  have hstaging := s.files.writesOnly_writeText hstagedPath text job.writeOptions
  rw [hwrite] at hstaging
  have huntil : t.WritesOnly
      (fun place => places place ∨ place = (job.settings.stagedReportPath r).place) s₁.files :=
    (hbefore.weaken fun _ h => .inl h).trans (hstaging.weaken fun _ h => .inr h)
  have hfound : ∀ {accepted : String},
      s₁.files.readText (job.settings.reportPath r) = .ok accepted ↔
        t.readText (job.settings.reportPath r) = .ok accepted :=
    huntil.readText_join_iff hs.folder (hs.isName r hr) hc hfixed
      fun h => h.elim hp fun e => hapart e.symm
  exact (judged_judge hs hstaged hapart h).of_found hfound

end Report

/-! ## The stage -/

/-- The session of the stage when a report has its turn. -/
def turn (job : Job κ) (s : Session σ κ) (r : ReportSpec) : Session σ κ :=
  ((job.settings.reports.takeWhile (· ≠ r)).forM job.reconcileNext s).2

/-- The text that is generated for a report at its turn, if it comes to that. -/
def generated? (job : Job κ) (s : Session σ κ) (r : ReportSpec) : Option String :=
  (job.stageReport r (job.turn s r)).1.toOption

/-- What is made of a report at its turn, if it comes to that. -/
def made? (job : Job κ) (s : Session σ κ) (r : ReportSpec) : Option Reconciled :=
  (job.reconcile r (job.turn s r)).1.toOption

section Stage

variable {job : Job κ} {s s' : Session σ κ} {u : Unit}

/-- Neither messages nor artifacts tell a change. -/
theorem leads_reportChanged :
    Run.Leads (fun s s' : Session σ κ => s'.reportChanged = s.reportChanged) fun _ => True where
  toFollows := Run.follows_view (·.reportChanged)
  log _ _ _ := Run.keeps_modify fun _ => rfl
  write artifact path text options _ s := by
    rw [Run.write_run]
    split <;> rfl

theorem keeps_reportChanged_reconcile (job : Job κ) (r : ReportSpec) :
    Run.Keeps (·.reportChanged) (job.reconcile r : Run σ κ Reconciled) := by
  refine along_reconcile leads_reportChanged job r trivial (fun work s => ?_) trivial
  rw [Run.ask_run]
  split <;> rfl

/-- A report of the stage was reconciled, and told whether it has changed. -/
theorem exists_outcome {r : ReportSpec} (h : job.reconcileNext r s = (.ok u, s')) :
    ∃ outcome s₁, job.reconcile r s = (.ok outcome, s₁) ∧ s'.files = s₁.files ∧
      s'.reportChanged = (s.reportChanged || outcome.isChange) := by
  obtain ⟨outcome, s₁, hreport, h⟩ := Run.bind_run_eq_ok h
  obtain ⟨-, rfl⟩ := Prod.mk.inj h
  have hkept := (keeps_reportChanged_reconcile job r).of_run hreport
  exact ⟨outcome, s₁, hreport, rfl, congrArg (· || outcome.isChange) hkept⟩

/-- Reports that come to a result have gone up to each of them, made something of it, and gone
on. -/
theorem exists_outcome_of_mem {before rest : List ReportSpec} {r : ReportSpec}
    (h : (before ++ r :: rest).forM job.reconcileNext s = (.ok u, s')) :
    ∃ s₁ outcome s₂ s₃, before.forM job.reconcileNext s = (.ok (), s₁) ∧
      job.reconcile r s₁ = (.ok outcome, s₂) ∧ s₃.files = s₂.files ∧
      s₃.reportChanged = (s₁.reportChanged || outcome.isChange) ∧
      rest.forM job.reconcileNext s₃ = (.ok u, s') := by
  rw [Run.forM_append_run] at h
  obtain ⟨_, s₁, hbefore, h⟩ := Run.bind_run_eq_ok h
  rw [List.forM] at h
  obtain ⟨_, s₃, hnext, hrest⟩ := Run.bind_run_eq_ok h
  obtain ⟨outcome, s₂, hreport, hfiles, hchanged⟩ := exists_outcome hnext
  exact ⟨s₁, outcome, s₂, s₃, hbefore, hreport, hfiles, hchanged, hrest⟩

/-- The stage tells a change exactly if one of its reports has changed, or one was told before. -/
theorem reportChanged_iff {reports : List ReportSpec}
    (h : reports.forM job.reconcileNext s = (.ok u, s')) :
    s'.reportChanged = true ↔ s.reportChanged = true ∨
      ∃ before r rest s₁ outcome s₂, reports = before ++ r :: rest ∧
        before.forM job.reconcileNext s = (.ok (), s₁) ∧
        job.reconcile r s₁ = (.ok outcome, s₂) ∧ outcome.isChange = true := by
  induction reports generalizing s with
  | nil =>
    obtain ⟨-, rfl⟩ := Prod.mk.inj h
    refine ⟨.inl, fun h => h.elim id ?_⟩
    rintro ⟨before, r, rest, -, -, -, hsplit, -⟩
    cases before <;> cases hsplit
  | cons first reports ih =>
    rw [List.forM] at h
    obtain ⟨_, s₁, hnext, hrest⟩ := Run.bind_run_eq_ok h
    obtain ⟨outcome, s₂, hreport, -, hchanged⟩ := exists_outcome hnext
    rw [ih hrest, hchanged, Bool.or_eq_true]
    constructor
    · rintro ((hs | ho) | ⟨before, r, rest, s₃, other, s₄, rfl, hbefore, hturn, ho⟩)
      · exact .inl hs
      · exact .inr ⟨[], first, reports, s, outcome, s₂, rfl, rfl, hreport, ho⟩
      · refine .inr ⟨first :: before, r, rest, s₃, other, s₄, rfl, ?_, hturn, ho⟩
        rw [List.forM, Run.bind_run_ok hnext, hbefore]
    · rintro (hs | ⟨before, r, rest, s₃, other, s₄, hsplit, hbefore, hturn, ho⟩)
      · exact .inl (.inl hs)
      · cases before with
        | nil =>
          obtain ⟨rfl, rfl⟩ := List.cons.inj hsplit
          obtain ⟨-, rfl⟩ := Prod.mk.inj hbefore
          rw [hreport] at hturn
          obtain ⟨hok, -⟩ := Prod.mk.inj hturn
          exact .inl (.inr (Except.ok.inj hok ▸ ho))
        | cons other' before =>
          obtain ⟨rfl, rfl⟩ := List.cons.inj hsplit
          rw [List.forM, Run.bind_run_ok hnext] at hbefore
          exact .inr ⟨before, r, rest, s₃, other, s₄, rfl, hbefore, hturn, ho⟩

/-! ## All reports -/

section Placed

variable (hs : job.settings.ReportsPlaced)

include hs

/-- Reports with other names are written to other places. -/
theorem not_reportPlaces_of_fileName_ne {r r' : ReportSpec} (hr : r ∈ job.settings.reports)
    (hr' : r' ∈ job.settings.reports) (hne : r.fileName ≠ r'.fileName) {place : Place}
    (h : job.ReportPlaces r place) : ¬ job.ReportPlaces r' place := by
  have named : ∀ {r : ReportSpec}, r ∈ job.settings.reports → job.ReportPlaces r place →
      ∃ folder, place = folder ++ [r.fileName.toList] := by
    rintro r hr (h | h)
    · exact ⟨_, h.trans (hs.place_stagedReportPath hr)⟩
    · exact ⟨_, h.trans (hs.place_reportPath hr)⟩
  intro h'
  obtain ⟨folder, hplace⟩ := named hr h
  obtain ⟨folder', hplace'⟩ := named hr' h'
  have hlast := (List.append_inj' (hplace.symm.trans hplace') rfl).2
  exact hne (String.toList_inj.mp (List.singleton_inj.mp hlast))

/-- The reports beside one of them have other names. -/
theorem fileName_ne_of_append {before rest : List ReportSpec} {r : ReportSpec}
    (hsplit : job.settings.reports = before ++ r :: rest) :
    (∀ r' ∈ before, r.fileName ≠ r'.fileName) ∧ ∀ r' ∈ rest, r.fileName ≠ r'.fileName := by
  have hdistinct := hs.distinct
  rw [hsplit] at hdistinct
  obtain ⟨-, hrest, hbefore⟩ := List.pairwise_append.mp hdistinct
  exact ⟨fun r' hr' => (hbefore r' hr' r List.mem_cons_self).symm,
    (List.pairwise_cons.mp hrest).1⟩

/-- A report is not written to while others are. -/
theorem not_reportPlaces {others : List ReportSpec} {r : ReportSpec}
    (hr : r ∈ job.settings.reports) (hothers : ∀ r' ∈ others, r' ∈ job.settings.reports)
    (hne : ∀ r' ∈ others, r.fileName ≠ r'.fileName) {place : Place}
    (h : job.ReportPlaces r place) : ¬ ∃ r' ∈ others, job.ReportPlaces r' place :=
  fun ⟨r', hr', h'⟩ =>
    not_reportPlaces_of_fileName_ne hs hr (hothers r' hr') (hne r' hr') h h'

variable
  (hapart : ∀ r ∈ job.settings.reports,
    (job.settings.stagedReportPath r).place ≠ (job.settings.reportPath r).place)
  (hc : s.files.Closed) (hfixed : s.files.Fixed job.settings.reportFolder)

include hapart hc hfixed

/-- A report at its turn in the stage is judged by the files before the stage. -/
theorem judged_turn {before rest : List ReportSpec} {r : ReportSpec} {outcome : Reconciled}
    {s₁ s₂ : Session σ κ} (hsplit : job.settings.reports = before ++ r :: rest)
    (hbefore : before.forM job.reconcileNext s = (.ok (), s₁))
    (hturn : job.reconcile r s₁ = (.ok outcome, s₂)) :
    ∃ text, job.generated? s r = some text ∧ job.made? s r = some outcome ∧
      job.Judged r text outcome s.files s₂.files := by
  have hmem : ∀ r' ∈ before ++ r :: rest, r' ∈ job.settings.reports := fun _ h => hsplit ▸ h
  have hr := hmem r (List.mem_append_right _ List.mem_cons_self)
  have hnames := (fileName_ne_of_append hs hsplit).1
  have hnew : r ∉ before := fun h => hnames r h rfl
  have hs₁ : job.turn s r = s₁ := by rw [turn, hsplit, takeWhile_ne hnew, hbefore]
  have hwrites := (writesOnly_reports hs before).of_run hbefore
  have hkept := not_reportPlaces hs hr (fun r' h => hmem r' (List.mem_append_left _ h)) hnames
    (.inr rfl)
  obtain ⟨text, htext, hjudged⟩ :=
    judged_reconcile hs hr (hapart r hr) hc hfixed hwrites hkept hturn
  refine ⟨text, ?_, ?_, hjudged⟩
  · rw [generated?, hs₁, htext]
    rfl
  · rw [made?, hs₁, hturn]
    rfl

/-- Behind the stage, each report is as it was made at its turn. -/
theorem judged_reports (h : job.reconcileReports s = (.ok (), s')) {r : ReportSpec}
    (hr : r ∈ job.settings.reports) :
    ∃ text outcome, job.generated? s r = some text ∧ job.made? s r = some outcome ∧
      job.Judged r text outcome s.files s'.files := by
  obtain ⟨before, rest, hsplit⟩ := List.append_of_mem hr
  rw [reconcileReports_eq, hsplit] at h
  obtain ⟨s₁, outcome, s₂, s₃, hbefore, hturn, hfiles, -, hrest⟩ := exists_outcome_of_mem h
  obtain ⟨text, htext, hmade, hjudged⟩ := judged_turn hs hapart hc hfixed hsplit hbefore hturn
  refine ⟨text, outcome, htext, hmade, ?_⟩
  have hwrites := (writesOnly_reports hs rest).of_run hrest
  rw [hfiles] at hwrites
  have hlater : ∀ r' ∈ rest, r' ∈ job.settings.reports := fun r' h =>
    hsplit ▸ List.mem_append_right _ (List.mem_cons_of_mem _ h)
  exact hjudged.writesOnly hs hwrites fun _ =>
    not_reportPlaces hs hr hlater (fileName_ne_of_append hs hsplit).2

/-- The stage tells a change exactly if one was told before it, or the accepted form of some report
was not up to date before it. -/
theorem reportChanged_reconcileReports_iff (h : job.reconcileReports s = (.ok (), s')) :
    s'.reportChanged = true ↔ s.reportChanged = true ∨ ∃ r ∈ job.settings.reports, ∃ text,
      job.generated? s r = some text ∧ ¬ job.UpToDate s.files r text := by
  rw [reportChanged_iff (reconcileReports_eq job ▸ h)]
  refine or_congr_right ⟨?_, ?_⟩
  · rintro ⟨before, r, rest, s₁, outcome, s₂, hsplit, hbefore, hturn, ho⟩
    obtain ⟨text, htext, -, hjudged⟩ := judged_turn hs hapart hc hfixed hsplit hbefore hturn
    have hmem : r ∈ job.settings.reports :=
      hsplit ▸ List.mem_append_right _ List.mem_cons_self
    have hne : outcome ≠ .unchanged := of_decide_eq_true ho
    exact ⟨r, hmem, text, htext, fun hu => hne (hjudged.unchanged_iff.mpr hu)⟩
  · rintro ⟨r, hr, text, htext, hdrift⟩
    obtain ⟨before, rest, hsplit⟩ := List.append_of_mem hr
    have hrun := h
    rw [reconcileReports_eq, hsplit] at hrun
    obtain ⟨s₁, outcome, s₂, s₃, hbefore, hturn, -, -, -⟩ := exists_outcome_of_mem hrun
    obtain ⟨text', htext', -, hjudged⟩ := judged_turn hs hapart hc hfixed hsplit hbefore hturn
    obtain rfl := Option.some.inj (htext'.symm.trans htext)
    have hne : outcome ≠ .unchanged := fun hu => hdrift (hjudged.unchanged_iff.mp hu)
    exact ⟨before, r, rest, s₁, outcome, s₂, hsplit, hbefore, hturn, decide_eq_true hne⟩

end Placed

end Stage

end Job

/-! ## A scripted stage -/

/-- The folder of the accepted reports does not come into being by other folders that are made: it
is told by names alone, or it is the project folder, which is there in the tree that the settings
were prepared in and in all that have grown from it. -/
theorem Settings.fixed_reportFolder {t files : FileTree} {input : PrepareInput} {s : Settings}
    (h : Settings.prepare t input = .ok s) (hg : t.Grows files) : files.Fixed s.reportFolder := by
  rcases (Settings.isNormal_or_eq_projectFolder h).1 with hnormal | hproject
  · exact .inl hnormal
  obtain ⟨file, manifest, compiler, reports, hs⟩ := Settings.prepare_eq_ok h
  have habsolute := Settings.isAbsolute_prepareProjectFolder hs.file_eq hs.projectFolder_eq
  rw [hproject]
  rcases Settings.prepareProjectFolder_cases hs.projectFolder_eq with ⟨p, hp⟩ | ⟨path, -, hfound⟩
  · exact .inl (hp ▸ t.isNormal_absolute p)
  · have hfile := List.find?_some hfound
    have hthere := FileTree.isFolder_of_isFile_join habsolute ⟨by decide, by decide⟩ hfile
    exact .inr (hg.isFolder habsolute hthere)

/-- Whether the reports are staged elsewhere than where they are accepted. -/
def Settings.StagesApart (s : Settings) : Prop :=
  ∀ r ∈ s.reports, (s.stagedReportPath r).place ≠ (s.reportPath r).place

instance (s : Settings) : Decidable s.StagesApart :=
  inferInstanceAs (Decidable (∀ r ∈ s.reports, _))

namespace Job

/-- Whether the accepted form of some report is no file with a text equivalent to the one that is
generated for the report. -/
def Drifted (job : Job ScriptedCollection) (s : Session σ ScriptedCollection) : Prop :=
  ∃ r ∈ job.settings.reports, ∃ text, job.generated? s r = some text ∧
    ¬ ∃ accepted, s.files.readText (job.settings.reportPath r) = .ok accepted ∧
      reportsEquivalent text accepted = true

/-- The stage of the reports tells a change exactly if one was told before it, or a report had
drifted before it. Behind it each report is staged as it was generated, in the style of line endings
of the settings; an accepted form with an equivalent text is as it was; and one that a local build
updated or created is what is staged. The folder of the accepted reports is in normal form or is
there before the stage, as it is in the tree of the settings (`Settings.fixed_reportFolder`): else a
folder that is made on the way could bring an accepted form into view (`not_tells_drift`). -/
theorem drift_reconcileReports {script : Script} {job : Job ScriptedCollection}
    (ht : job.toolchain = script.toolchain) {t : FileTree} {input : PrepareInput}
    (hprepare : Settings.prepare t input = .ok job.settings)
    {s s' : Session σ ScriptedCollection} (hclosed : s.files.Closed)
    (hfixed : s.files.Fixed job.settings.reportFolder)
    (hapart : job.settings.StagesApart) (h : job.reconcileReports s = (.ok (), s')) :
    (s'.reportChanged = true ↔ s.reportChanged = true ∨ job.Drifted s) ∧
    ∀ r ∈ job.settings.reports, ∃ text outcome,
      job.generated? s r = some text ∧ job.made? s r = some outcome ∧
      s'.files.readText (job.settings.stagedReportPath r) =
        .ok (job.settings.lineEnding.convert text) ∧
      (∀ accepted, s.files.readText (job.settings.reportPath r) = .ok accepted →
        reportsEquivalent text accepted = true →
          s'.files.readText (job.settings.reportPath r) = .ok accepted) ∧
      (job.flags.localBuild = true → outcome = .updated ∨ outcome = .created →
        s'.files.readText (job.settings.reportPath r) =
          s'.files.readText (job.settings.stagedReportPath r)) := by
  have hs := Settings.reportsPlaced_of_prepare hprepare
  have hsame : job.toolchain.sameReport = reportsEquivalent := by rw [ht]; rfl
  constructor
  · rw [reportChanged_reconcileReports_iff hs hapart hclosed hfixed h]
    simp only [UpToDate, hsame, Drifted]
  · intro r hr
    obtain ⟨text, outcome, htext, hmade, hjudged⟩ :=
      judged_reports hs hapart hclosed hfixed h hr
    refine ⟨text, outcome, htext, hmade, hjudged.staged, fun accepted hread hequal => ?_,
      fun _ ho => (hjudged.accepted ho).trans hjudged.staged.symm⟩
    have hunchanged := hjudged.unchanged_iff.mpr ⟨accepted, hread, by rw [hsame, hequal]⟩
    obtain ⟨accepted', hread', hbehind⟩ := hjudged.kept hunchanged
    rw [hread] at hread'
    rw [hbehind, Except.ok.inj hread']

/-- A local build of a project that generates the report it has accepted. -/
def acceptingBuild (settings : Settings) : Job ScriptedCollection :=
  (Script.quiet "old\n").job settings ⟨[], []⟩ ⟨true, false⟩

theorem settings_acceptingBuild (settings : Settings) :
    (acceptingBuild settings).settings = settings :=
  rfl

theorem settings_localBuild (settings : Settings) : (localBuild settings).settings = settings :=
  rfl

/-- The report that is up to date is kept, and the one that was missing is what is staged. -/
theorem drift_reconcileReports_created :
    ∃ settings, Settings.prepare Settings.acceptedTree
        (Script.variantsInput ["complete", "public"]) = .ok settings ∧
      ∃ s', (acceptingBuild settings).reconcileReports
          (Script.collected settings Settings.acceptedTree) = (.ok (), s') ∧
        s'.reportChanged = true ∧
        s'.files.readText ⟨"/p/etc/p.api.md"⟩ = .ok "old\n" ∧
        s'.files.readText ⟨"/p/etc/p.public.api.md"⟩ =
          s'.files.readText ⟨"/p/temp/p.public.api.md"⟩ := by
  obtain ⟨settings, hprepare, hparts⟩ : ∃ settings,
      Settings.prepare Settings.acceptedTree (Script.variantsInput ["complete", "public"]) =
        .ok settings ∧
      (settings.reports, settings.reports.map settings.reportPath,
        settings.reports.map settings.stagedReportPath,
        decide settings.StagesApart &&
          decide (settings.reports.map ((acceptingBuild settings).made?
            (Script.collected settings Settings.acceptedTree)) =
              [some .unchanged, some .created]) &&
          decide (settings.reports.map ((acceptingBuild settings).generated?
            (Script.collected settings Settings.acceptedTree)) = [some "old\n", some "old\n"]) &&
          ((acceptingBuild settings).reconcileReports
            (Script.collected settings Settings.acceptedTree)).1.toOption.isSome) =
      ([⟨.complete, "p.api.md"⟩, ⟨.published, "p.public.api.md"⟩],
        [⟨"/p/etc/p.api.md"⟩, ⟨"/p/etc/p.public.api.md"⟩],
        [⟨"/p/temp/p.api.md"⟩, ⟨"/p/temp/p.public.api.md"⟩], true) :=
    exists_ok_of_map (by decide +kernel)
  simp only [Prod.mk.injEq, Bool.and_eq_true, decide_eq_true_eq,
    Option.isSome_iff_exists] at hparts
  obtain ⟨hreports, hpaths, hstaged, ⟨⟨hapart, hmade⟩, hgenerated⟩, _, hok⟩ := hparts
  obtain ⟨s', hrun⟩ := Run.exists_run_eq_ok hok
  simp only [hreports, List.map_cons, List.map_nil, List.cons.injEq, and_true]
    at hpaths hstaged hmade hgenerated
  have hclosed : Settings.acceptedTree.Closed := by decide +kernel
  have hjob : Settings.prepare Settings.acceptedTree
      (Script.variantsInput ["complete", "public"]) = .ok (acceptingBuild settings).settings :=
    hprepare
  have hscript : (acceptingBuild settings).toolchain = (Script.quiet "old\n").toolchain := rfl
  have hfixed := Settings.fixed_reportFolder hjob (.refl _)
  obtain ⟨hchanged, hreport⟩ :=
    drift_reconcileReports hscript hjob hclosed hfixed hapart hrun
  simp only [settings_acceptingBuild, hreports, List.forall_mem_cons, List.not_mem_nil,
    false_imp_iff, hpaths, hstaged, hmade, hgenerated] at hreport
  obtain ⟨⟨_, _, ⟨⟩, ⟨⟩, -, hkept, -⟩, ⟨_, _, ⟨⟩, ⟨⟩, -, -, hcreated⟩, -⟩ := hreport
  have hmissing : ¬ Settings.acceptedTree.isFile ⟨"/p/etc/p.public.api.md"⟩ = true := by
    decide +kernel
  have hold : Settings.acceptedTree.readText ⟨"/p/etc/p.api.md"⟩ = .ok "old\n" :=
    eq_ok_of_toOption (by decide +kernel)
  have hmem : ⟨.published, "p.public.api.md"⟩ ∈ settings.reports := by
    rw [hreports]
    exact List.mem_cons_of_mem _ (List.mem_singleton_self _)
  refine ⟨settings, hprepare, s', hrun, hchanged.mpr (.inr ⟨_, hmem, "old\n", hgenerated.2, ?_⟩),
    hkept "old\n" hold (by decide +kernel), hcreated rfl (.inr rfl)⟩
  rintro ⟨accepted, hread, -⟩
  rw [settings_acceptingBuild, hpaths.2] at hread
  exact hmissing (FileTree.isFile_of_readText hread)

/-- With one report it is that one which has drifted. -/
theorem drifted_iff {job : Job ScriptedCollection} {s : Session σ ScriptedCollection}
    {r : ReportSpec} {text : String} (hreports : job.settings.reports = [r])
    (htext : job.generated? s r = some text) :
    job.Drifted s ↔ ¬ ∃ accepted, s.files.readText (job.settings.reportPath r) = .ok accepted ∧
      reportsEquivalent text accepted = true := by
  simp only [Drifted, hreports, List.mem_singleton, exists_eq_left, htext, Option.some.injEq,
    exists_eq_left']

/-- A project whose settings were read by way of a folder in it. -/
def steppedTree : FileTree :=
  ((FileTree.empty.withFile ["p".toList, "index.d.ts".toList] (.text "")).withFile
    ["p".toList, "tsconfig.json".toList] (.text "{}")).withFile
      ["p".toList, "p.api.md".toList] (.text "old\n")

/-- Settings by way of a folder of the project, which is looked up, with the accepted report beside
the configuration and the fresh one below the folder. -/
def steppedInput : PrepareInput :=
  { Settings.stagingInput "<projectFolder>/temp" with
    document := .object
      [("projectFolder", .string "<lookup>"),
        ("mainEntryPointFilePath", .string "<projectFolder>/index.d.ts"),
        ("compiler", .object [("overrideTsconfig", .object [])]),
        ("apiReport", .object
          [("enabled", .boolean true),
            ("reportFileName", .string "p"),
            ("reportTempFolder", .string "/p/x/temp")])]
    documentPath := some ⟨"/p/x/../api-surface.json"⟩ }

/-- The stage of a local build of the project with an accepted report. -/
def built (settings : Settings) : Except RunError Unit × Session Unit ScriptedCollection :=
  (localBuild settings).reconcileReports (Script.collected settings Settings.acceptedTree)

/-- The stage of the local build once more, behind itself. -/
def rebuilt (settings : Settings) : Except RunError Unit × Session Unit ScriptedCollection :=
  (localBuild settings).reconcileReports (built settings).2

/-- The stage of a local build of a project without the folder that its settings were read by way
of. -/
def builtBack (settings : Settings) : Except RunError Unit × Session Unit ScriptedCollection :=
  (acceptingBuild settings).reconcileReports (Script.collected settings steppedTree)

/-- The stage tells a change again that was told before it, although nothing has drifted since. And
it tells none, although a report had drifted, where a folder that is made for the fresh report is
the way to the accepted one. -/
theorem not_tells_drift :
    (∃ settings, Settings.prepare Settings.acceptedTree
        (Settings.stagingInput "<projectFolder>/temp") = .ok settings ∧
      settings.StagesApart ∧
      ∃ s s', (localBuild settings).reconcileReports
          (Script.collected settings Settings.acceptedTree) = (.ok (), s) ∧
        (localBuild settings).reconcileReports s = (.ok (), s') ∧
        ¬ (s'.reportChanged = true ↔ (localBuild settings).Drifted s)) ∧
    ∃ settings, Settings.prepare (steppedTree.withFolder ["p".toList, "x".toList]) steppedInput =
        .ok settings ∧
      settings.StagesApart ∧
      ∃ s', (acceptingBuild settings).reconcileReports (Script.collected settings steppedTree) =
          (.ok (), s') ∧
        ¬ (s'.reportChanged = true ↔
          (acceptingBuild settings).Drifted (Script.collected settings steppedTree)) := by
  constructor
  · obtain ⟨settings, hprepare, hparts⟩ : ∃ settings,
        Settings.prepare Settings.acceptedTree (Settings.stagingInput "<projectFolder>/temp") =
          .ok settings ∧
        (settings.reports, settings.reports.map settings.reportPath,
          decide settings.StagesApart &&
            decide (((built settings).1.toOption, (rebuilt settings).1.toOption,
              (rebuilt settings).2.reportChanged) = (some (), some (), true)) &&
            decide (((localBuild settings).generated? (built settings).2 ⟨.complete, "p.api.md"⟩,
              ((built settings).2.files.readText ⟨"/p/etc/p.api.md"⟩).toOption) =
                (some "new\n", some "new\r\n"))) =
        ([⟨.complete, "p.api.md"⟩], [⟨"/p/etc/p.api.md"⟩], true) :=
      exists_ok_of_map (by decide +kernel)
    simp only [Prod.mk.injEq, Bool.and_eq_true, decide_eq_true_eq] at hparts
    obtain ⟨hreports, hpath, ⟨hapart, hbuilt, hrebuilt, hchanged⟩, htext, hread⟩ := hparts
    rw [hreports] at hpath
    obtain ⟨s, hfirst⟩ := Run.exists_run_eq_ok (x := (localBuild settings).reconcileReports) hbuilt
    have hs : (built settings).2 = s := congrArg Prod.snd hfirst
    rw [rebuilt, hs] at hrebuilt hchanged
    rw [hs] at htext hread
    obtain ⟨s', hsecond⟩ := Run.exists_run_eq_ok hrebuilt
    rw [hsecond] at hchanged
    refine ⟨settings, hprepare, hapart, s, s', hfirst, hsecond, fun htells => ?_⟩
    refine (drifted_iff hreports htext).mp (htells.mp hchanged) ⟨"new\r\n", ?_, by decide +kernel⟩
    rw [settings_localBuild, List.singleton_inj.mp hpath]
    exact eq_ok_of_toOption hread
  · obtain ⟨settings, hprepare, hparts⟩ : ∃ settings,
        Settings.prepare (steppedTree.withFolder ["p".toList, "x".toList]) steppedInput =
          .ok settings ∧
        (settings.reports, settings.reports.map settings.reportPath,
          decide settings.StagesApart &&
            decide (((builtBack settings).1.toOption, (builtBack settings).2.reportChanged,
              (acceptingBuild settings).generated? (Script.collected settings steppedTree)
                ⟨.complete, "p.api.md"⟩) = (some (), false, some "old\n"))) =
        ([⟨.complete, "p.api.md"⟩], [⟨"/p/x/../p.api.md"⟩], true) :=
      exists_ok_of_map (by decide +kernel)
    simp only [Prod.mk.injEq, Bool.and_eq_true, decide_eq_true_eq] at hparts
    obtain ⟨hreports, hpath, hapart, hbuilt, hchanged, htext⟩ := hparts
    rw [hreports] at hpath
    obtain ⟨s', hrun⟩ :=
      Run.exists_run_eq_ok (x := (acceptingBuild settings).reconcileReports) hbuilt
    have hs : (builtBack settings).2 = s' := congrArg Prod.snd hrun
    rw [hs] at hchanged
    have hmissing : ¬ steppedTree.isFile ⟨"/p/x/../p.api.md"⟩ = true := by decide +kernel
    refine ⟨settings, hprepare, hapart, s', hrun, fun htells => ?_⟩
    have hdrifted : (acceptingBuild settings).Drifted (Script.collected settings steppedTree) := by
      rw [drifted_iff hreports htext, settings_acceptingBuild, List.singleton_inj.mp hpath]
      rintro ⟨accepted, hread, -⟩
      exact hmissing (FileTree.isFile_of_readText hread)
    exact absurd (htells.mpr hdrifted) (by rw [hchanged]; decide)

end Job

end ApiReview
