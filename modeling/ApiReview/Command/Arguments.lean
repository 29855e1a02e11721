import ApiReview.Path.Basic

/-!
# Command line arguments

The commands and their options. An option has a long name and may have a letter; letters may be
written together, and a value stands behind `=`, directly behind a letter, or in the next argument.
After `--` every argument is a word. An option is given once, except for those that are counted.
-/

namespace ApiReview.Command

/-- What the program is asked for. -/
inductive Request where
  /-- Load and prepare a settings file, then summarize it. -/
  | check (settingsFile : Option Path) (diagnostics : Bool)
  /-- Write a first settings file into a folder. -/
  | init (folder : Path) (force : Bool)
  /-- Tell the version of the program. -/
  | version
  deriving DecidableEq, Repr

/-- Why arguments are refused. -/
inductive UsageError where
  | unknownOption (arg : String)
  | unexpectedValue (option : String)
  | missingValue (option : String)
  | badValue (option value : String)
  | repeated (option : String)
  | unexpectedWord (word : String)
  | missingCommand
  | unknownCommand (word : String)
  | badFolder
  deriving DecidableEq, Repr

/-- The wording of a refusal. -/
def UsageError.message : UsageError → String
  | unknownOption arg => "unexpected argument '" ++ arg ++ "' found"
  | unexpectedValue option => "unexpected value for '--" ++ option ++ "'"
  | missingValue option => "a value is required for '--" ++ option ++ "' but none was supplied"
  | badValue option value => "invalid value '" ++ value ++ "' for '--" ++ option ++ "'"
  | repeated option => "the argument '--" ++ option ++ "' cannot be used multiple times"
  | unexpectedWord word => "unexpected argument '" ++ word ++ "' found"
  | missingCommand => "a command is required: check or init"
  | unknownCommand word => "unrecognized subcommand '" ++ word ++ "'"
  | badFolder => "the folder must not be empty"

/-! ## Options -/

/-- An option of the command line. -/
structure OptionSpec where
  name : String
  letter : Option Char
  takesValue : Bool
  mayRepeat : Bool
  /-- Whether nothing behind it is read. -/
  isLast : Bool
  /-- The values it takes. -/
  accepts : String → Bool

namespace OptionSpec

/-- An option that is there or not. -/
def flag (name : String) (letter : Option Char) : OptionSpec :=
  ⟨name, letter, false, false, false, fun _ => true⟩

/-- How much is logged. -/
def verbose : OptionSpec :=
  { flag "verbose" (some 'v') with mayRepeat := true }

/-- The format of the log. -/
def logFormat : OptionSpec :=
  ⟨"log-format", none, true, false, false, fun value => value = "text" || value = "json"⟩

/-- The options of every command. -/
def shared : List OptionSpec :=
  [verbose, logFormat]

/-- The settings file. -/
def config : OptionSpec :=
  ⟨"config", some 'c', true, false, false, (· ≠ "")⟩

/-- Whether the prepared settings are listed. -/
def diagnostics : OptionSpec :=
  flag "diagnostics" none

/-- Whether an existing file is replaced. -/
def force : OptionSpec :=
  flag "force" (some 'f')

/-- The version of the program. -/
def version : OptionSpec :=
  { flag "version" (some 'V') with isLast := true }

end OptionSpec

/-- What arguments were read as. -/
structure Given where
  /-- The options with their values; a flag has an empty one. -/
  options : List (String × String)
  words : List String
  deriving DecidableEq, Repr

namespace Given

/-- Nothing yet. -/
def none : Given := ⟨[], []⟩

/-- Whether an option is given. -/
def has (g : Given) (spec : OptionSpec) : Bool :=
  g.options.any fun o => o.1 = spec.name

/-- The value of an option. -/
def value? (g : Given) (spec : OptionSpec) : Option String :=
  g.options.lookup spec.name

/-- One more option. -/
def add (g : Given) (spec : OptionSpec) (value : String) : Except UsageError Given :=
  if !spec.accepts value then .error (.badValue spec.name value)
  else if g.has spec && !spec.mayRepeat then .error (.repeated spec.name)
  else .ok { g with options := g.options ++ [(spec.name, value)] }

end Given

/-! ## Reading -/

/-- What is read after an argument: the next one, the value of an option, or nothing. -/
inductive After where
  | argument
  | value (spec : OptionSpec)
  | nothing

/-- An option added that needs no further argument. -/
def Given.close (g : Given) (spec : OptionSpec) (value : String) :
    Except UsageError (Given × After) :=
  (g.add spec value).map (·, if spec.isLast then .nothing else .argument)

/-- An option by its long name, with the value behind `=` if there is one. -/
def readLong (specs : List OptionSpec) (g : Given) (body : List Char) :
    Except UsageError (Given × After) :=
  let (name, value) :=
    match Text.cutAt? '=' body with
    | some (name, value) => (name, some (String.ofList value))
    | none => (body, none)
  match specs.find? fun spec => spec.name.toList = name, value with
  | none, _ => .error (.unknownOption ("--" ++ String.ofList body))
  | some spec, some value =>
    if spec.takesValue then g.close spec value else .error (.unexpectedValue spec.name)
  | some spec, none =>
    if spec.takesValue then .ok (g, .value spec) else g.close spec ""

/-- Options by their letters. The first that takes a value takes the rest. -/
def readLetters (specs : List OptionSpec) (g : Given) :
    List Char → Except UsageError (Given × After)
  | [] => .ok (g, .argument)
  | c :: rest =>
    match specs.find? fun spec => spec.letter = some c with
    | none => .error (.unknownOption (String.ofList ['-', c]))
    | some spec =>
      if spec.takesValue then
        match rest with
        | [] => .ok (g, .value spec)
        | '=' :: value => g.close spec (String.ofList value)
        | value => g.close spec (String.ofList value)
      else
        match g.close spec "" with
        | .ok (g, .argument) => readLetters specs g rest
        | other => other

/-- What an argument is. -/
inductive ArgumentKind where
  | long (body : List Char)
  | letters (body : List Char)
  | escape
  | word

/-- The kind of an argument. -/
def ArgumentKind.of (arg : String) : ArgumentKind :=
  match arg.toList with
  | ['-', '-'] => .escape
  | '-' :: '-' :: body => .long body
  | '-' :: c :: body => .letters (c :: body)
  | _ => .word

/-- What reading arguments leaves: everything is read, or a word and what is behind it is left. -/
structure Reading where
  given : Given
  rest : Option (String × List String)

/-- Arguments read up to the end, or up to the first word if asked to stop there. -/
def readArguments (specs : List OptionSpec) (stopAtWord : Bool) (g : Given) :
    After → List String → Except UsageError Reading
  | .nothing, _ => .ok ⟨g, none⟩
  | .argument, [] => .ok ⟨g, none⟩
  | .value spec, [] => .error (.missingValue spec.name)
  | .value spec, arg :: rest =>
    match ArgumentKind.of arg with
    | .word =>
      match g.close spec arg with
      | .ok (g, after) => readArguments specs stopAtWord g after rest
      | .error e => .error e
    | _ => .error (.missingValue spec.name)
  | .argument, arg :: rest =>
    match ArgumentKind.of arg with
    | .escape => .ok ⟨{ g with words := g.words ++ rest }, none⟩
    | .long body =>
      match readLong specs g body with
      | .ok (g, after) => readArguments specs stopAtWord g after rest
      | .error e => .error e
    | .letters body =>
      match readLetters specs g body with
      | .ok (g, after) => readArguments specs stopAtWord g after rest
      | .error e => .error e
    | .word =>
      if stopAtWord then .ok ⟨g, some (arg, rest)⟩
      else readArguments specs stopAtWord { g with words := g.words ++ [arg] } .argument rest

/-- The arguments behind a command. -/
def readRest (specs : List OptionSpec) (args : List String) : Except UsageError Given :=
  (readArguments (OptionSpec.shared ++ specs) false .none .argument args).map (·.given)

/-! ## Commands -/

/-- The arguments of `check`. -/
def readCheck (args : List String) : Except UsageError Request := do
  let g ← readRest [.config, .diagnostics] args
  match g.words with
  | [] => return .check ((g.value? .config).map (⟨·⟩)) (g.has .diagnostics)
  | word :: _ => .error (.unexpectedWord word)

/-- The arguments of `init`. -/
def readInit (args : List String) : Except UsageError Request := do
  let g ← readRest [.force] args
  match g.words with
  | [] => return .init ⟨"."⟩ (g.has .force)
  | [folder] => if folder = "" then .error .badFolder else return .init ⟨folder⟩ (g.has .force)
  | _ :: word :: _ => .error (.unexpectedWord word)

/-- The request of a command line. -/
def Request.ofArguments (args : List String) : Except UsageError Request := do
  let reading ← readArguments (OptionSpec.shared ++ [.version]) true .none .argument args
  if reading.given.has .version then return .version
  match reading.rest, reading.given.words with
  | some ("check", rest), _ => readCheck rest
  | some ("init", rest), _ => readInit rest
  | some (word, _), _ => .error (.unknownCommand word)
  | none, word :: _ => .error (.unknownCommand word)
  | none, [] => .error .missingCommand

end ApiReview.Command
