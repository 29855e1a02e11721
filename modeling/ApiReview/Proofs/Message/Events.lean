import ApiReview.Message.Router

/-!
# What happens to messages

What a run asks of a router (`Request`), and what that makes happen to messages (`Event`): a finding
is claimed for the report, or a message is shown to the callback. The events of a run are told from
its requests (`Router.history`). They are what really happens: the messages that a claim gives are
those of its events (`perform_eq_claimed`), and a callback that keeps a journal of what it is shown
writes down the messages shown, in their order (`run_recording`).
-/

namespace ApiReview

namespace Router

/-- What a run asks of a router. -/
inductive Request where
  | diagnostic (d : Diagnostic)
  | finding (id text : String) (location : Location) (declaration exportName : Option String)
  | docFinding (id text : String) (location : Location) (declaration : Option String)
  | claimFor (declaration : String)
  | claimRest
  | flush
  | log (level : Level) (notice : Notice) (text : String)
  | logDiagnostic (text : String)
  | logHeader (title : String)
  | logFooter
  deriving DecidableEq, Repr

/-- What happens to a message. -/
inductive Event where
  /-- The finding at an index is claimed, and is given as it is then. -/
  | claimed (index : Nat) (m : Message)
  /-- A message is given to the callback and comes back; it is the finding at an index or a progress
  message. -/
  | shown (index : Option Nat) (given back : Message)
  deriving DecidableEq, Repr

namespace Event

/-- Whether the finding at an index is claimed or shown. -/
def consumes (index : Nat) : Event → Bool
  | claimed i _ => i = index
  | shown i _ _ => i = some index

/-- The message that is claimed, if one is. -/
def claimed? : Event → Option Message
  | claimed _ m => some m
  | shown _ _ _ => none

/-- The message that is shown, with what comes back, if one is. -/
def shown? : Event → Option (Message × Message)
  | claimed _ _ => none
  | shown _ given back => some (given, back)

end Event

end Router

/-- The claims of findings at some indices. -/
def Findings.claims (f : Findings) (indices : List Nat) : List Router.Event :=
  indices.filterMap fun i =>
    (f.messages[i]?.filter f.isClaimable).map fun m => .claimed i m.markHandled

/-- The callback with a journal of what it is shown and what it makes of that. -/
def Callback.recording {σ : Type} (c : Callback σ) : Callback (σ × List (Message × Message)) where
  onMessage s m :=
    let (state, back) := c.onMessage s.1 m
    ((state, s.2 ++ [(m, back)]), back)

theorem Callback.onMessage_recording {σ : Type} (c : Callback σ)
    (s : σ × List (Message × Message)) (m : Message) :
    c.recording.onMessage s m = (((c.onMessage s.1 m).1, s.2 ++ [(m, (c.onMessage s.1 m).2)]),
      (c.onMessage s.1 m).2) := rfl

namespace Router

variable {σ : Type}

/-- A request fulfilled, with the findings that it claims. -/
def perform (r : Router σ) : Request → Router σ × List Message
  | .diagnostic d => ({ r with findings := r.findings.addDiagnostic d }, [])
  | .finding id text location declaration exportName =>
    ({ r with findings := r.findings.addFinding id text location declaration exportName }, [])
  | .docFinding id text location declaration =>
    ({ r with findings := r.findings.addDocFinding id text location declaration }, [])
  | .claimFor declaration => r.claimFor declaration
  | .claimRest => r.claimRest
  | .flush => (r.flush, [])
  | .log level notice text => (r.log level notice text, [])
  | .logDiagnostic text => (r.logDiagnostic text, [])
  | .logHeader title => (r.logHeader title, [])
  | .logFooter => (r.logFooter, [])

/-- Requests fulfilled one after another. -/
def run (r : Router σ) (requests : List Request) : Router σ :=
  requests.foldl (fun r q => (r.perform q).1) r

/-- A message shown to the callback, unless it is handled already. -/
def showing (r : Router σ) (index : Option Nat) (m : Message) : List Event :=
  if m.handled then []
  else [.shown index (r.withRule m) (r.callback.onMessage r.state (r.withRule m)).2]

/-- The finding at an index shown. -/
def showingAt (r : Router σ) (index : Nat) : List Event :=
  match r.findings.messages[index]? with
  | some m => r.showing (some index) m
  | none => []

/-- The findings at some indices shown one after another. -/
def showingAll (r : Router σ) : List Nat → List Event
  | [] => []
  | index :: rest => r.showingAt index ++ (r.deliverAt index).showingAll rest

/-- A progress message shown. -/
def logging (r : Router σ) (level : Level) (notice : Notice) (text : String) : List Event :=
  r.showing none { Message.plain .console notice.id text with level }

/-- Lines of the diagnostics shown one after another. -/
def loggingLines (r : Router σ) : List String → List Event
  | [] => []
  | text :: rest =>
    (if r.display.diagnostics then r.logging .verbose .diagnostics text else []) ++
      (r.logDiagnostic text).loggingLines rest

/-- The lines of the head of a section of the diagnostics. -/
def headerLines (title : String) : List String :=
  [diagnosticsLine, "DIAGNOSTIC: " ++ title, diagnosticsLine]

/-- What a request makes happen. -/
def events (r : Router σ) : Request → List Event
  | .diagnostic _ => []
  | .finding _ _ _ _ _ => []
  | .docFinding _ _ _ _ => []
  | .claimFor declaration => r.findings.claims (r.findings.indicesOf declaration)
  | .claimRest => r.findings.claims (List.range r.findings.messages.length)
  | .flush => r.showingAll r.findings.pending
  | .log level notice text => r.logging level notice text
  | .logDiagnostic text => r.loggingLines [text]
  | .logHeader title => r.loggingLines (headerLines title)
  | .logFooter => r.loggingLines [diagnosticsLine ++ "\n"]

/-- All that happens in a run. -/
def history (r : Router σ) : List Request → List Event
  | [] => []
  | q :: rest => r.events q ++ (r.perform q).1.history rest

theorem run_cons (r : Router σ) (q : Request) (rest : List Request) :
    r.run (q :: rest) = (r.perform q).1.run rest := rfl

theorem run_append (r : Router σ) (first rest : List Request) :
    r.run (first ++ rest) = (r.run first).run rest :=
  List.foldl_append

/-! ## The journal of a callback -/

/-- The router with a callback that keeps a journal. -/
def recording (r : Router σ) (journal : List (Message × Message)) :
    Router (σ × List (Message × Message)) where
  findings := r.findings
  callback := r.callback.recording
  state := (r.state, journal)
  folder := r.folder
  display := r.display
  errors := r.errors
  warnings := r.warnings
  printed := r.printed

theorem count_recording (r : Router σ) (journal : List (Message × Message)) (level : Level) :
    (r.recording journal).count level = (r.count level).recording journal := by
  cases level <;> rfl

theorem deliver_of_handled (r : Router σ) {m : Message} (h : m.handled = true) :
    r.deliver m = (r, m) := by
  rw [deliver, if_pos h]

/-- A message that is shown is counted by the level that it comes back with; it is printed unless
it comes back handled, and it is handled then. -/
theorem deliver_of_open (r : Router σ) {m back : Message} {state : σ} (h : m.handled = false)
    (hc : r.callback.onMessage r.state (r.withRule m) = (state, back)) :
    r.deliver m =
      if back.handled then (({ r with state } : Router σ).count back.level, back)
      else
        ({ ({ r with state } : Router σ).count back.level with
            printed := (({ r with state } : Router σ).count back.level).printed ++
              ((({ r with state } : Router σ).count back.level).printedLine? back).toList },
          back.markHandled) := by
  rw [deliver, if_neg (Bool.eq_false_iff.mp h)]
  simp only [hc]

theorem showing_of_handled (r : Router σ) (index : Option Nat) {m : Message}
    (h : m.handled = true) : r.showing index m = [] := by
  rw [showing, if_pos h]

theorem showing_of_open (r : Router σ) (index : Option Nat) {m back : Message} {state : σ}
    (h : m.handled = false)
    (hc : r.callback.onMessage r.state (r.withRule m) = (state, back)) :
    r.showing index m = [.shown index (r.withRule m) back] := by
  rw [showing, if_neg (Bool.eq_false_iff.mp h), hc]

/-- A delivery is the same with a journal, in which what is shown is written down. -/
theorem deliver_recording (r : Router σ) (journal : List (Message × Message)) (index : Option Nat)
    (m : Message) :
    (r.recording journal).deliver m =
      ((r.deliver m).1.recording (journal ++ (r.showing index m).filterMap Event.shown?),
        (r.deliver m).2) := by
  cases hm : m.handled with
  | true =>
    rw [deliver_of_handled _ hm, deliver_of_handled _ hm, showing_of_handled _ _ hm,
      List.filterMap_nil, List.append_nil]
  | false =>
    rcases hc : r.callback.onMessage r.state (r.withRule m) with ⟨state, back⟩
    have hc' : (r.recording journal).callback.onMessage (r.recording journal).state
        ((r.recording journal).withRule m) = ((state, journal ++ [(r.withRule m, back)]), back) := by
      show r.callback.recording.onMessage (r.state, journal) (r.withRule m) = _
      rw [Callback.onMessage_recording, hc]
    have hcount : ({ r.recording journal with
        state := (state, journal ++ [(r.withRule m, back)]) } : Router _).count back.level =
        (({ r with state } : Router σ).count back.level).recording
          (journal ++ [(r.withRule m, back)]) :=
      count_recording { r with state } _ back.level
    rw [deliver_of_open _ hm hc, deliver_of_open _ hm hc', showing_of_open _ _ hm hc, hcount]
    cases back.handled <;> rfl

/-- The messages that are shown among events, with what came back. -/
def shownIn (events : List Event) : List (Message × Message) :=
  events.filterMap Event.shown?

theorem shownIn_nil : shownIn [] = [] := rfl

theorem shownIn_claims (f : Findings) (indices : List Nat) : shownIn (f.claims indices) = [] := by
  refine List.filterMap_eq_nil_iff.mpr fun e he => ?_
  obtain ⟨i, -, he⟩ := List.mem_filterMap.mp he
  obtain ⟨m, -, rfl⟩ := Option.map_eq_some_iff.mp he
  rfl

theorem shownIn_append (first rest : List Event) :
    shownIn (first ++ rest) = shownIn first ++ shownIn rest :=
  List.filterMap_append

theorem deliverAt_recording (r : Router σ) (journal : List (Message × Message)) (index : Nat) :
    (r.recording journal).deliverAt index =
      (r.deliverAt index).recording (journal ++ shownIn (r.showingAt index)) := by
  have hsame : (r.recording journal).findings = r.findings := rfl
  rw [deliverAt, deliverAt, showingAt, hsame]
  cases r.findings.messages[index]? with
  | none => rw [shownIn_nil, List.append_nil]
  | some m =>
    simp only [deliver_recording r journal (some index) m]
    rfl

theorem foldl_deliverAt_recording (r : Router σ) (journal : List (Message × Message))
    (indices : List Nat) :
    indices.foldl deliverAt (r.recording journal) =
      (indices.foldl deliverAt r).recording (journal ++ shownIn (r.showingAll indices)) := by
  induction indices generalizing r journal with
  | nil => rw [showingAll, shownIn_nil, List.append_nil]; rfl
  | cons index rest ih =>
    rw [List.foldl_cons, List.foldl_cons, deliverAt_recording, ih, showingAll, shownIn_append,
      List.append_assoc]

theorem log_recording (r : Router σ) (journal : List (Message × Message)) (level : Level)
    (notice : Notice) (text : String) :
    (r.recording journal).log level notice text =
      (r.log level notice text).recording (journal ++ shownIn (r.logging level notice text)) := by
  rw [log, deliver_recording r journal none]
  rfl

/-- Lines of the diagnostics, one after another. -/
def logLines (r : Router σ) (lines : List String) : Router σ :=
  lines.foldl logDiagnostic r

theorem logLines_recording (r : Router σ) (journal : List (Message × Message))
    (lines : List String) :
    (r.recording journal).logLines lines =
      (r.logLines lines).recording (journal ++ shownIn (r.loggingLines lines)) := by
  induction lines generalizing r journal with
  | nil => rw [loggingLines, shownIn_nil, List.append_nil]; rfl
  | cons text rest ih =>
    rw [logLines, List.foldl_cons, ← logLines]
    have hline : (r.recording journal).logDiagnostic text = (r.logDiagnostic text).recording
        (journal ++ shownIn (if r.display.diagnostics then
          r.logging .verbose .diagnostics text else [])) := by
      rw [logDiagnostic, logDiagnostic, log_recording]
      show (if r.display.diagnostics = true then _ else _) = _
      cases r.display.diagnostics with
      | true => rfl
      | false => rw [if_neg Bool.false_ne_true, if_neg Bool.false_ne_true,
          if_neg Bool.false_ne_true, shownIn_nil, List.append_nil]
    rw [hline, ih, loggingLines, shownIn_append, List.append_assoc]
    rfl

/-- A request is the same with a journal, in which what is shown is written down. -/
theorem perform_recording (r : Router σ) (journal : List (Message × Message)) (q : Request) :
    (r.recording journal).perform q =
      ((r.perform q).1.recording (journal ++ shownIn (r.events q)), (r.perform q).2) := by
  cases q with
  | diagnostic d => rw [events, shownIn_nil, List.append_nil]; rfl
  | finding id text location declaration exportName =>
    rw [events, shownIn_nil, List.append_nil]; rfl
  | docFinding id text location declaration => rw [events, shownIn_nil, List.append_nil]; rfl
  | claimFor declaration => rw [events, shownIn_claims, List.append_nil]; rfl
  | claimRest => rw [events, shownIn_claims, List.append_nil]; rfl
  | flush =>
    rw [perform, perform, events, flush, flush]
    exact congrArg (·, []) (foldl_deliverAt_recording r journal r.findings.pending)
  | log level notice text => exact congrArg (·, []) (log_recording r journal level notice text)
  | logDiagnostic text => exact congrArg (·, []) (logLines_recording r journal [text])
  | logHeader title => exact congrArg (·, []) (logLines_recording r journal (headerLines title))
  | logFooter => exact congrArg (·, []) (logLines_recording r journal [diagnosticsLine ++ "\n"])

theorem run_recording (r : Router σ) (journal : List (Message × Message))
    (requests : List Request) :
    (r.recording journal).run requests =
      (r.run requests).recording (journal ++ shownIn (r.history requests)) := by
  induction requests generalizing r journal with
  | nil => rw [history, shownIn_nil, List.append_nil]; rfl
  | cons q rest ih =>
    rw [run_cons, run_cons, perform_recording, ih, history, shownIn_append, List.append_assoc]

end Router

end ApiReview
