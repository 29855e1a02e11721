import ApiReview.Proofs.Pipeline.Writing
import Mathlib.Data.List.Infix

/-!
# What the toolchain is asked for

A step asks the toolchain for some things if it asks for them one after another, and for all of
them unless it fails (`Run.Asks`). A run asks for the analysis, for one report after another, and
for the rollups that have a path (`Job.asks_run`), so that what it asked for when it failed is the
beginning of that.
-/

namespace ApiReview

variable {σ κ α β : Type}

namespace Run

/-- Whatever comes of a step, it asks for the first of some things, and for all of them if it comes
to a result. -/
def Asks (calls : List Call) (x : Run σ κ α) : Prop :=
  ∀ s, ∃ asked, (x s).2.calls = s.calls ++ asked ∧ asked <+: calls ∧
    ∀ a, (x s).1 = .ok a → asked = calls

theorem asks_of_keeps {x : Run σ κ α} (h : Keeps (·.calls) x) : Asks [] x := fun s =>
  ⟨[], by rw [List.append_nil]; exact h s, List.prefix_rfl, fun _ _ => rfl⟩

theorem Asks.bind {first rest : List Call} {x : Run σ κ α} {f : α → Run σ κ β}
    (hx : Asks first x) (hf : ∀ a, Asks rest (f a)) : Asks (first ++ rest) (x >>= f) := fun s => by
  obtain ⟨asked, hcalls, hfirst, hall⟩ := hx s
  rcases hr : x s with ⟨e | a, s'⟩
  · rw [hr] at hcalls
    rw [bind_run_error hr]
    exact ⟨asked, hcalls, hfirst.trans (List.prefix_append _ _), fun _ h => by cases h⟩
  · rw [hr] at hcalls hall
    rw [bind_run_ok hr]
    obtain rfl := hall a rfl
    obtain ⟨asked', hcalls', hrest, hall'⟩ := hf a s'
    have hcalls : s'.calls = s.calls ++ asked := hcalls
    refine ⟨asked ++ asked', by rw [hcalls', hcalls, List.append_assoc],
      (List.prefix_append_right_inj asked).mpr hrest, fun b hb => by rw [hall' b hb]⟩

/-- Before and behind what asks for things there may be steps that ask for nothing. -/
theorem Asks.behind {calls : List Call} {x : Run σ κ α} {f : α → Run σ κ β} (hx : Keeps (·.calls) x)
    (hf : ∀ a, Asks calls (f a)) : Asks calls (x >>= f) :=
  (asks_of_keeps hx).bind hf

theorem Asks.before {calls : List Call} {x : Run σ κ α} {f : α → Run σ κ β} (hx : Asks calls x)
    (hf : ∀ a, Keeps (·.calls) (f a)) : Asks calls (x >>= f) := by
  have h := hx.bind fun a => asks_of_keeps (hf a)
  rwa [List.append_nil] at h

theorem asks_forM {calls : β → List Call} {as : List β} {f : β → Run σ κ PUnit}
    (h : ∀ a ∈ as, Asks (calls a) (f a)) : Asks (as.flatMap calls) (as.forM f) := by
  induction as with
  | nil => exact asks_of_keeps (keeps_pure _)
  | cons a as ih =>
    rw [List.forM, List.flatMap_cons]
    exact (h a List.mem_cons_self).bind fun _ => ih fun b hb => h b (List.mem_cons_of_mem _ hb)

/-- A step that is only taken if it is wanted. -/
theorem asks_wanted {calls : List Call} {c : Bool} {x : Run σ κ Unit} (h : Asks calls x) :
    Asks (if c then calls else []) (if c then x else pure ()) := by
  cases c with
  | true => exact h
  | false => exact asks_of_keeps (keeps_pure _)

theorem asks_ask (call : Call) (work : Work α) : Asks [call] (ask call work : Run σ κ α) :=
  fun s => by
    rw [ask_run]
    rcases work s.router.findings with ⟨e | a, findings⟩
    · exact ⟨[], (List.append_nil _).symm, List.nil_prefix, fun _ h => by cases h⟩
    · exact ⟨[call], rfl, List.prefix_rfl, fun _ _ => rfl⟩

theorem keeps_calls_collection : Keeps (·.calls) (collection : Run σ κ κ) :=
  (follows_view (·.calls)).along_collection

theorem keeps_calls_write (artifact : Artifact) (path : Path) (text : String)
    (options : WriteOptions) :
    Keeps (·.calls) (write artifact path text options : Run σ κ Unit) := fun s => by
  rw [write_run]
  rcases s.files.writeText path text options with ⟨files, _ | _⟩ <;> rfl

/-- Neither messages nor artifacts ask for anything. -/
theorem leads_calls : Leads (fun s s' : Session σ κ => s'.calls = s.calls) fun _ => True where
  toFollows := follows_view (·.calls)
  log _ _ _ := keeps_modify fun _ => rfl
  write artifact path text options _ := keeps_calls_write artifact path text options

end Run

/-- What the analysis asks for. -/
def Call.analysis : List Call :=
  [.collect, .docComments, .validation, .model]

/-- What a run with the settings asks for: the analysis, one report of each variant, and one rollup
of each tier that has a path. -/
def Settings.plannedCalls (s : Settings) : List Call :=
  Call.analysis ++
    ((if s.reportEnabled then s.reports.map fun _ => .report else []) ++
      if s.rollupEnabled then
        (RollupTier.all.filter fun tier => (tier.outputPath s).isSome).map fun _ => .rollup
      else [])

namespace Job

open Run (Asks Keeps)

variable (job : Job κ)

theorem asks_analysis : Asks Call.analysis (job.goThrough Stage.analysis : Run σ κ Unit) := by
  have hfilter : Stage.analysis.filter (·.isWanted job.settings) =
    (Stage.analysis : List (Stage σ κ)) := rfl
  have collected : ∀ c : κ, Keeps (·.calls)
      (modify fun s => { s with collection := some c } : Run σ κ PUnit) :=
    fun _ => Run.keeps_modify fun _ => rfl
  have recollect : ∀ (call : Call) (work : κ → Work κ), Asks [call] (do
      let c ← Run.ask call (work (← Run.collection))
      modify fun s => { s with collection := some c } : Run σ κ Unit) := fun call work =>
    Asks.behind Run.keeps_calls_collection fun c => (Run.asks_ask call (work c)).before collected
  have hpreamble : Keeps (·.calls) (job.preamble : Run σ κ Unit) := fun _ => rfl
  have hcollect : Asks [.collect] (job.collect : Run σ κ Unit) :=
    (Run.asks_ask .collect _).before collected
  have hmodel : Asks [.model] (job.buildModel : Run σ κ Unit) :=
    Asks.behind Run.keeps_calls_collection fun c => (Run.asks_ask .model _).before fun _ =>
      Keeps.bind (Run.keeps_modify fun _ => rfl) fun _ => Run.keeps_modify fun _ => rfl
  rw [goThrough, hfilter]
  exact Asks.behind hpreamble fun _ => hcollect.bind fun _ =>
    (recollect .docComments job.toolchain.attachDocComments).bind fun _ =>
      (recollect .validation job.toolchain.validate).bind fun _ =>
        hmodel.before fun _ => Run.keeps_pure _

theorem keeps_calls_wantedModel : Keeps (·.calls) (job.wantedModel : Run σ κ Unit) :=
  Run.leads_calls.along_wanted fun _ => along_writeModel Run.leads_calls job fun _ _ => trivial

theorem asks_reconcileNext (r : ReportSpec) :
    Asks [.report] (job.reconcileNext r : Run σ κ Unit) := by
  have hstage : Asks [.report] (job.stageReport r : Run σ κ String) :=
    Asks.behind Run.keeps_calls_collection fun c => (Run.asks_ask .report _).before fun _ =>
      (Run.keeps_calls_write _ _ _ _).bind fun _ => Run.keeps_pure _
  have hreconcile : Asks [.report] (job.reconcile r : Run σ κ Reconciled) := by
    rw [reconcile_eq]
    exact hstage.before fun actual => Run.keeps_get.bind fun s =>
      along_judge Run.leads_calls job r trivial s.files actual
  exact hreconcile.before fun _ => Run.keeps_modify fun _ => rfl

theorem asks_writeRollup (tier : RollupTier) :
    Asks (if (tier.outputPath job.settings).isSome then [.rollup] else [])
      (job.writeRollup tier : Run σ κ Unit) := by
  rw [writeRollup]
  cases tier.outputPath job.settings with
  | none => exact Run.asks_of_keeps (Run.keeps_pure _)
  | some path =>
    exact Asks.behind (Run.keeps_modify fun _ => rfl) fun _ =>
      Asks.behind Run.keeps_calls_collection fun c => (Run.asks_ask .rollup _).before fun _ =>
        Run.keeps_calls_write _ _ _ _

theorem keeps_calls_wantedMetadata : Keeps (·.calls) (job.wantedMetadata : Run σ κ Unit) :=
  Run.leads_calls.along_wanted fun _ => along_writeMetadata Run.leads_calls job fun _ _ => trivial

theorem flatMap_wanted {γ : Type} (c : γ → Bool) (call : Call) (as : List γ) :
    (as.flatMap fun a => if c a then [call] else []) = (as.filter c).map fun _ => call := by
  induction as with
  | nil => rfl
  | cons a as ih =>
    rw [List.flatMap_cons, ih, List.filter_cons]
    cases c a <;> rfl

/-- A run asks for what its settings plan. -/
theorem asks_run : Asks job.settings.plannedCalls (job.run : Run σ κ Unit) := by
  have hbefore : Asks Call.analysis (job.goThrough Stage.beforeReports : Run σ κ Unit) := by
    rw [show (job.goThrough Stage.beforeReports : Run σ κ Unit) = _ from
      funext job.goThrough_beforeReports]
    exact job.asks_analysis.before fun _ => job.keeps_calls_wantedModel
  have hreports : Asks (job.settings.reports.map fun _ => .report)
      (job.settings.reports.forM job.reconcileNext : Run σ κ Unit) := by
    rw [← List.flatMap_pure_eq_map]
    exact Run.asks_forM fun r _ => job.asks_reconcileNext r
  have hrollups : Asks ((RollupTier.all.filter fun tier =>
      (tier.outputPath job.settings).isSome).map fun _ => .rollup)
      (job.writeRollups : Run σ κ Unit) := by
    rw [← flatMap_wanted]
    exact Run.asks_forM fun tier _ => job.asks_writeRollup tier
  rw [show (job.run : Run σ κ Unit) = _ from funext job.run_eq]
  refine hbefore.bind fun _ => (Run.asks_wanted hreports).bind fun _ => ?_
  refine Asks.before ?_ fun _ => Run.keeps_modify fun _ => rfl
  rw [show (job.goThrough Stage.behindReports : Run σ κ Unit) = _ from
    funext job.goThrough_behindReports]
  exact (Run.asks_wanted hrollups).before fun _ => job.keeps_calls_wantedMetadata

end Job

end ApiReview
