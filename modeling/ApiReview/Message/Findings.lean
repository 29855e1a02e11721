import ApiReview.Message.Basic
import ApiReview.Message.Rules

/-!
# Findings

The findings of a run in the order in which they were made, the declarations that they belong to,
and the rules that apply to them. The report of a declaration claims its findings: those whose rule
wants them in the report and that nobody has handled. A claimed finding is marked as handled.
-/

namespace ApiReview

/-- The rules of all categories: one table of ids, and a rule for the other ids of each category. -/
structure RuleBook where
  byId : RuleTable
  compilerDefault : Rule
  extractorDefault : Rule
  tsdocDefault : Rule
  deriving DecidableEq, Repr

namespace RuleBook

/-- The rules by id with those of a table put among them. -/
def addTable (byId : RuleTable) (table : RuleTable) : RuleTable :=
  (table.filter fun e => e.1 ≠ Reporting.defaultKey).foldl
    (fun rules e => Json.Codec.putEntry e.1 e.2 rules) byId

/-- The rule that a table gives for the other ids. -/
def defaultOf (table : RuleTable) : Rule :=
  ((table.filter fun e => e.1 = Reporting.defaultKey).getLast?.map (·.2)).getD .builtin

/-- The rules of reporting settings. -/
def ofReporting (r : Reporting) : RuleBook where
  byId := addTable (addTable (addTable [] r.compiler) r.extractor) r.tsdoc
  compilerDefault := defaultOf r.compiler
  extractorDefault := defaultOf r.extractor
  tsdocDefault := defaultOf r.tsdoc

/-- The rule for the ids of a category that are not listed. -/
def otherwise (book : RuleBook) : Category → Rule
  | .compiler => book.compilerDefault
  | .extractor => book.extractorDefault
  | .tsdoc => book.tsdocDefault
  | .console => .builtin

/-- The rule for a message. -/
def ruleFor (book : RuleBook) (m : Message) : Rule :=
  (book.byId.lookup m.id).getD (book.otherwise m.category)

end RuleBook

/-- The findings of a run. -/
structure Findings where
  messages : List Message
  /-- The indices of the findings of each declaration. -/
  declarations : List (String × List Nat)
  rules : RuleBook
  deriving DecidableEq, Repr

namespace Findings

/-- No findings yet. -/
def ofReporting (reporting : Reporting) : Findings :=
  ⟨[], [], .ofReporting reporting⟩

/-- The findings with one more finding. -/
def add (f : Findings) (m : Message) : Findings :=
  { f with messages := f.messages ++ [m] }

/-- The table with an index added for a declaration. -/
def linkIn (index : Nat) (declaration : String) :
    List (String × List Nat) → List (String × List Nat)
  | [] => [(declaration, [index])]
  | (d, indices) :: rest =>
    if d = declaration then (d, indices ++ [index]) :: rest
    else (d, indices) :: linkIn index declaration rest

/-- The findings with one more finding, which belongs to a declaration if one is given. -/
def addFor (f : Findings) (m : Message) (declaration : Option String) : Findings :=
  match declaration with
  | some d =>
    { f.add m with declarations := linkIn f.messages.length d f.declarations }
  | none => f.add m

/-- The findings with a diagnostic of the compiler. Suggestions and plain messages are ignored. -/
def addDiagnostic (f : Findings) (d : Diagnostic) : Findings :=
  match d.severity with
  | .error | .warning =>
    f.add { Message.plain .compiler ("TS" ++ toString d.code) d.text with location := d.location }
  | .suggestion | .message => f

/-- The findings with a finding of the analysis. -/
def addFinding (f : Findings) (id text : String) (location : Location)
    (declaration exportName : Option String) : Findings :=
  f.addFor { Message.plain .extractor id text with location := some location, exportName }
    declaration

/-- The findings with a finding about a doc comment. -/
def addDocFinding (f : Findings) (id text : String) (location : Location)
    (declaration : Option String) : Findings :=
  f.addFor { Message.plain .tsdoc id text with location := some location } declaration

/-- The findings with one finding replaced. -/
def replace (f : Findings) (index : Nat) (m : Message) : Findings :=
  { f with messages := f.messages.set index m }

/-- Whether a finding may be claimed for the report. -/
def isClaimable (f : Findings) (m : Message) : Bool :=
  !m.handled && (f.rules.ruleFor m).addToReport

/-- The findings claimed at some indices, in the order of the indices, and all findings, these
being handled. -/
def claimAt (f : Findings) : List Nat → Findings × List Message
  | [] => (f, [])
  | index :: rest =>
    match f.messages[index]? with
    | some m =>
      if f.isClaimable m then
        let (f, claimed) := claimAt (f.replace index m.markHandled) rest
        (f, m.markHandled :: claimed)
      else claimAt f rest
    | none => claimAt f rest

/-- Messages in the order in which they are shown. -/
def sorted (messages : List Message) : List Message :=
  messages.mergeSort Message.mayPrecede

/-- The indices of the findings of a declaration. -/
def indicesOf (f : Findings) (declaration : String) : List Nat :=
  (f.declarations.lookup declaration).getD []

/-- The findings about a declaration that belong into the report, in the order in which they are
shown. -/
def claimFor (f : Findings) (declaration : String) : Findings × List Message :=
  let (f, claimed) := f.claimAt (f.indicesOf declaration)
  (f, sorted claimed)

/-- All further findings that belong into the report. -/
def claimRest (f : Findings) : Findings × List Message :=
  let (f, claimed) := f.claimAt (List.range f.messages.length)
  (f, sorted claimed)

/-- The indices of the findings that nobody has handled, in the order in which they are shown;
findings that are shown alike keep the order in which they were made. -/
def pending (f : Findings) : List Nat :=
  let open_ := (List.range f.messages.length).zip f.messages |>.filter fun e => !e.2.handled
  (open_.mergeSort fun a b => a.2.mayPrecede b.2).map (·.1)

end Findings

end ApiReview
