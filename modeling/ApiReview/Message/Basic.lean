import ApiReview.Message.Level
import ApiReview.Path.Normal

/-!
# Messages

A finding about the analyzed code, or a line of progress. A message has a level and may be marked
as handled; once it is, it stays so (`setHandled?_of_handled`).
-/

namespace ApiReview

/-- The origin of a message. -/
inductive Category where
  | compiler
  | console
  | extractor
  | tsdoc
  deriving DecidableEq, Repr

/-- The category as a word. -/
def Category.word : Category → String
  | compiler => "compiler"
  | console => "console"
  | extractor => "extractor"
  | tsdoc => "tsdoc"

/-- A place in a source file. -/
structure Location where
  file : Path
  line : Option Nat
  column : Option Nat
  deriving DecidableEq, Repr

namespace Location

/-- The place as text, with the path relative to a folder that it lies in. -/
def format (l : Location) (folder : Option Path) : String :=
  let file :=
    match folder with
    | some folder => Path.shortFrom folder l.file
    | none => l.file.text
  match l.line, l.column with
  | some line, some column => file ++ ":" ++ toString line ++ ":" ++ toString column
  | some line, none => file ++ ":" ++ toString line
  | none, _ => file

/-- A number in a document, null for none. -/
def numberJson (n : Option Nat) : Json :=
  .ofOption (n.map fun n => .number (.integer (Int.ofNat n)))

/-- The place as a document. -/
def toJson (l : Location) : Json :=
  .object
    [("filePath", .string l.file.text), ("line", numberJson l.line),
      ("column", numberJson l.column)]

end Location

/-- A message. -/
structure Message where
  category : Category
  id : String
  text : String
  location : Option Location
  /-- The exported name that the message is about. -/
  exportName : Option String
  level : Level
  handled : Bool
  deriving DecidableEq, Repr

/-- Why a message cannot be marked: it was handled, and that is not taken back. -/
inductive HandledReset where
  | mk
  deriving DecidableEq, Repr

/-- The wording of the refusal. -/
def HandledReset.message (_ : HandledReset) : String :=
  "Once a message has been marked as handled, the \"handled\" property cannot be set to false"

namespace Message

/-- A message without a place, silent and not handled. -/
def plain (category : Category) (id text : String) : Message :=
  ⟨category, id, text, none, none, .silent, false⟩

/-- The message, handled. -/
def markHandled (m : Message) : Message :=
  { m with handled := true }

/-- The message with its mark set, which cannot be taken back. -/
def setHandled? (m : Message) (handled : Bool) : Except HandledReset Message :=
  if m.handled && !handled then .error .mk else .ok { m with handled }

theorem setHandled?_of_handled {m n : Message} (h : m.handled = true) {b : Bool}
    (hn : m.setHandled? b = .ok n) : n.handled = true := by
  simp only [setHandled?, h, Bool.true_and] at hn
  split at hn
  · simp at hn
  · simp_all [← Except.ok.inj hn]

/-- The message without its place. -/
def formatPlain (m : Message) : String :=
  "(" ++ m.id ++ ") " ++ m.text

/-- The message behind its place, if it has one. -/
def format (m : Message) (folder : Option Path) : String :=
  match m.location with
  | some location => location.format folder ++ " - " ++ m.formatPlain
  | none => m.formatPlain

/-- The message as a document. -/
def toJson (m : Message) : Json :=
  .object
    [("category", .string m.category.word), ("messageId", .string m.id),
      ("text", .string m.text), ("location", .ofOption (m.location.map Location.toJson)),
      ("properties", .object
        (match m.exportName with
          | some name => [("exportName", .string name)]
          | none => [])),
      ("logLevel", .string m.level.word), ("handled", .boolean m.handled)]

/-! ## The order in which messages are shown -/

/-- The order of two optional values; none comes first. -/
def compareOptions {α : Type} (cmp : α → α → Ordering) : Option α → Option α → Ordering
  | none, none => .eq
  | none, some _ => .lt
  | some _, none => .gt
  | some a, some b => cmp a b

/-- The order of messages: by file, then by line, then by id. -/
def compare (a b : Message) : Ordering :=
  (compareOptions Path.compare (a.location.map (·.file)) (b.location.map (·.file))).then
    ((compareOptions Ord.compare (a.location.bind (·.line)) (b.location.bind (·.line))).then
      (Path.compareChars a.id.toList b.id.toList))

/-- Whether `a` may stand before `b`. -/
def mayPrecede (a b : Message) : Bool :=
  a.compare b ≠ .gt

end Message

/-- The severity of a diagnostic of the compiler. -/
inductive Severity where
  | error
  | warning
  | suggestion
  | message
  deriving DecidableEq, Repr

/-- A diagnostic of the compiler. -/
structure Diagnostic where
  code : Nat
  severity : Severity
  text : String
  location : Option Location
  deriving DecidableEq, Repr

/-- The kinds of progress messages. -/
inductive Notice where
  | preamble
  | compilerVersion
  | diagnostics
  | reportUnchanged
  | reportCopied
  | reportNotCopied
  | reportCreated
  | reportFolderMissing
  | writingModel
  | writingRollup
  | customDocComments
  deriving DecidableEq, Repr

/-- The id of a kind of progress message. -/
def Notice.id : Notice → String
  | preamble => "console-preamble"
  | compilerVersion => "console-compiler-version-notice"
  | diagnostics => "console-diagnostics"
  | reportUnchanged => "console-api-report-unchanged"
  | reportCopied => "console-api-report-copied"
  | reportNotCopied => "console-api-report-not-copied"
  | reportCreated => "console-api-report-created"
  | reportFolderMissing => "console-api-report-folder-missing"
  | writingModel => "console-writing-doc-model-file"
  | writingRollup => "console-writing-dts-rollup"
  | customDocComments => "console-using-custom-tsdoc-config"

/-- All kinds of progress messages. -/
def Notice.all : List Notice :=
  [.preamble, .compilerVersion, .diagnostics, .reportUnchanged, .reportCopied, .reportNotCopied,
    .reportCreated, .reportFolderMissing, .writingModel, .writingRollup, .customDocComments]

end ApiReview
