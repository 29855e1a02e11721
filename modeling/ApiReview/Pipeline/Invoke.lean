import ApiReview.Analysis.Setup
import ApiReview.Pipeline.Stages
import ApiReview.Settings.Prepare

/-!
# Whole runs

From settings to the outcome: the program is set up, unless one is given, and the job is run on it.
A run that fails has still printed what it printed and written what it wrote.
-/

namespace ApiReview

/-- What the caller of a run chooses. -/
structure InvokeOptions where
  flags : RunFlags
  display : Display
  /-- A program to analyze in place of the one that the settings ask for. -/
  program : Option Program
  /-- A compiler installation that supplies the standard library. -/
  compilerFolder : Option Path

/-- What a run came to. -/
structure Outcome where
  settings : Settings
  program : Program
  succeeded : Bool
  reportChanged : Bool
  errors : Nat
  warnings : Nat

/-- A run that is over. -/
structure Invocation (σ : Type) where
  result : Except RunError Outcome
  files : FileTree
  /-- The state of the callback. -/
  state : σ
  printed : List Printed
  calls : List Call

namespace Invocation

variable {σ κ : Type}

/-- A run that failed before its session. -/
def failed (files : FileTree) (state : σ) (e : RunError) : Invocation σ :=
  ⟨.error e, files, state, [], []⟩

/-- The router of a run. -/
def router (settings : Settings) (options : InvokeOptions) (callback : Callback σ) (state : σ) :
    Router σ :=
  .start settings.messages callback state settings.packageFolder options.display

/-- What a job came to, from its end. -/
def outcome (job : Job κ) (s : Session σ κ) : Outcome where
  settings := job.settings
  program := job.program
  succeeded := s.succeeded job.flags
  reportChanged := s.reportChanged
  errors := s.router.errors
  warnings := s.router.warnings

/-- A job that is over. -/
def ofJob (job : Job κ) (s : Session σ κ) : Invocation σ :=
  let (result, s) := job.run s
  ⟨result.map fun () => outcome job s, s.files, s.router.state, s.router.printed, s.calls⟩

/-- The program of a run. -/
def program (files : FileTree) (engine : Engine) (settings : Settings) (options : InvokeOptions) :
    Except AnalysisError Program :=
  match options.program with
  | some program => .ok program
  | none => Analysis.program files engine settings [] options.compilerFolder

end Invocation

variable {σ κ : Type}

/-- A run with prepared settings. -/
def invoke (files : FileTree) (toolchain : Toolchain κ) (settings : Settings)
    (options : InvokeOptions) (callback : Callback σ) (state : σ) : Invocation σ :=
  match Invocation.program files toolchain.engine settings options with
  | .error e => .failed files state (.analysis e)
  | .ok program =>
    .ofJob ⟨settings, program, toolchain, options.flags⟩
      (.start files (Invocation.router settings options callback state))

/-- A run with the settings in a file. -/
def loadAndInvoke (files : FileTree) (toolchain : Toolchain κ) (path : Path)
    (options : InvokeOptions) (callback : Callback σ) (state : σ) : Invocation σ :=
  match Settings.loadAndPrepare files path with
  | .error e => .failed files state (.settings e)
  | .ok settings => invoke files toolchain settings options callback state

end ApiReview
