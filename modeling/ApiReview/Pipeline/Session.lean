import ApiReview.Message.Router
import ApiReview.Pipeline.Failure

/-!
# Sessions

What a run starts from does not change (`Job`); what it works on is the session: the files, the
messages on their way, what the toolchain was asked for, and what earlier stages have left for later
ones. A step of a run that fails keeps what it did to the session before.
-/

namespace ApiReview

/-- How a run is made. -/
structure RunFlags where
  /-- Whether changed reports are accepted and warnings are tolerated. -/
  localBuild : Bool
  /-- Whether the model is written without indentation. -/
  compactModel : Bool
  deriving DecidableEq, Repr

/-- What a run starts from. -/
structure Job (κ : Type) where
  settings : Settings
  program : Program
  toolchain : Toolchain κ
  flags : RunFlags

/-- What a run works on. -/
structure Session (σ κ : Type) where
  files : FileTree
  router : Router σ
  /-- What the toolchain was asked for and gave. -/
  calls : List Call
  collection : Option κ
  model : Option Json.Members
  /-- Whether a report differs from its accepted form. -/
  reportChanged : Bool

/-- A step of a run. -/
abbrev Run (σ κ α : Type) := ExceptT RunError (StateM (Session σ κ)) α

/-- A session before its first step. -/
def Session.start {σ κ : Type} (files : FileTree) (router : Router σ) : Session σ κ :=
  ⟨files, router, [], none, none, false⟩

/-- Whether the run is good: no errors, and in a local build warnings are tolerated. -/
def Session.succeeded {σ κ : Type} (s : Session σ κ) (flags : RunFlags) : Bool :=
  s.router.errors = 0 && (flags.localBuild || s.router.warnings = 0)

namespace Run

variable {σ κ α : Type}

/-- The messages on their way changed. -/
def route (f : Router σ → Router σ) : Run σ κ Unit :=
  modify fun s => { s with router := f s.router }

/-- A progress message. -/
def log (level : Level) (notice : Notice) (text : String) : Run σ κ Unit :=
  route (·.log level notice text)

/-- The toolchain asked for something. -/
def ask (call : Call) (work : Work α) : Run σ κ α := do
  let s ← get
  match work s.router.findings with
  | (.ok a, findings) =>
    set { s with router := { s.router with findings }, calls := s.calls ++ [call] }
    return a
  | (.error e, findings) =>
    set { s with router := { s.router with findings } }
    throw (.toolchain e)

/-- The toolchain asked for something that does not depend on the findings. -/
def askPure (call : Call) (answer : Except Report α) : Run σ κ α :=
  ask call fun findings => (answer, findings)

/-- What was collected, which has to be there. -/
def collection : Run σ κ κ := do
  match (← get).collection with
  | some c => return c
  | none => throw .collectionUnset

/-- An artifact written. -/
def write (artifact : Artifact) (path : Path) (text : String) (options : WriteOptions) :
    Run σ κ Unit := do
  let s ← get
  let (files, outcome) := s.files.writeText path text options
  set { s with files }
  match outcome with
  | .ok () => return ()
  | .error cause => throw (.unwritten artifact path cause)

end Run

end ApiReview
