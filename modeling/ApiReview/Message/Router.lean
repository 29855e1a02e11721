import ApiReview.Message.Findings

/-!
# Routing messages

Every message that is shown goes through one step, `deliver`: it gets the level of its rule (a
progress message has its own), the callback may change it, it is counted by the level it then has,
and unless the callback has handled it, it is printed. Findings wait until they are
claimed for a report or `flush` delivers them; progress messages are delivered at once.

The callback is any function of a message and a state of its own.
-/

namespace ApiReview

/-- A printed line, with its end: for standard output or for standard error. -/
inductive Printed where
  | out (s : String)
  | err (s : String)
  deriving DecidableEq, Repr

/-- Sees every message before it is shown, and may change it; keeps a state of its own. -/
structure Callback (σ : Type) where
  onMessage : σ → Message → σ × Message

/-- Leaves every message alone. -/
def Callback.none : Callback Unit :=
  ⟨fun s m => (s, m)⟩

/-- What is shown beside errors, warnings and information. -/
structure Display where
  verbose : Bool
  diagnostics : Bool
  deriving DecidableEq, Repr

/-- The display that was asked for; diagnostics bring verbose messages with them. -/
def Display.asked (verbose diagnostics : Bool) : Display :=
  ⟨verbose || diagnostics, diagnostics⟩

/-- The messages of a run on their way. -/
structure Router (σ : Type) where
  findings : Findings
  callback : Callback σ
  state : σ
  /-- Places in this folder are shown relative to it. -/
  folder : Option Path
  display : Display
  errors : Nat
  warnings : Nat
  /-- What was printed, the first line first. -/
  printed : List Printed

namespace Router

variable {σ : Type}

/-- A router before the first message. -/
def start (reporting : Reporting) (callback : Callback σ) (state : σ) (folder : Option Path)
    (display : Display) : Router σ :=
  ⟨.ofReporting reporting, callback, state, folder, display, 0, 0, []⟩

/-- The message as its level has it printed, if at all. -/
def printedLine? (r : Router σ) (m : Message) : Option Printed :=
  let text := if m.category = .console then m.text else m.format r.folder
  match m.level with
  | .error => some (.err ("Error: " ++ text ++ "\n"))
  | .warning => some (.err ("Warning: " ++ text ++ "\n"))
  | .info => some (.out (text ++ "\n"))
  | .verbose => if r.display.verbose then some (.out (text ++ "\n")) else none
  | .silent => none

/-- The message with the level of its rule; a progress message keeps its own. -/
def withRule (r : Router σ) (m : Message) : Message :=
  if m.category = .console then m else { m with level := (r.findings.rules.ruleFor m).level }

/-- The router with a level counted. -/
def count (r : Router σ) : Level → Router σ
  | .error => { r with errors := r.errors + 1 }
  | .warning => { r with warnings := r.warnings + 1 }
  | _ => r

/-- A message shown to the callback, counted, and printed unless the callback has handled it. -/
def deliver (r : Router σ) (m : Message) : Router σ × Message :=
  if m.handled then (r, m)
  else
    let (state, m) := r.callback.onMessage r.state (r.withRule m)
    let r := { r with state }.count m.level
    if m.handled then (r, m)
    else ({ r with printed := r.printed ++ (r.printedLine? m).toList }, m.markHandled)

/-- The finding at an index delivered. -/
def deliverAt (r : Router σ) (index : Nat) : Router σ :=
  match r.findings.messages[index]? with
  | some m =>
    let (r, m) := r.deliver m
    { r with findings := r.findings.replace index m }
  | none => r

/-- Every finding that nobody has handled delivered, in the order in which they are shown. -/
def flush (r : Router σ) : Router σ :=
  r.findings.pending.foldl deliverAt r

/-- A progress message. -/
def log (r : Router σ) (level : Level) (notice : Notice) (text : String) : Router σ :=
  (r.deliver { Message.plain .console notice.id text with level }).1

/-- A progress message that only the diagnostics display asks for. -/
def logDiagnostic (r : Router σ) (text : String) : Router σ :=
  if r.display.diagnostics then r.log .verbose .diagnostics text else r

/-- The line around the sections of the diagnostics. -/
def diagnosticsLine : String :=
  String.ofList (List.replicate 60 '=')

/-- The head of a section of the diagnostics. -/
def logHeader (r : Router σ) (title : String) : Router σ :=
  ((r.logDiagnostic diagnosticsLine).logDiagnostic ("DIAGNOSTIC: " ++ title)).logDiagnostic
    diagnosticsLine

/-- The foot of a section of the diagnostics. -/
def logFooter (r : Router σ) : Router σ :=
  r.logDiagnostic (diagnosticsLine ++ "\n")

/-- The findings about a declaration that belong into the report. -/
def claimFor (r : Router σ) (declaration : String) : Router σ × List Message :=
  let (findings, claimed) := r.findings.claimFor declaration
  ({ r with findings }, claimed)

/-- All further findings that belong into the report. -/
def claimRest (r : Router σ) : Router σ × List Message :=
  let (findings, claimed) := r.findings.claimRest
  ({ r with findings }, claimed)

end Router

end ApiReview
