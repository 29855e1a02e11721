import ApiReview.Json.Value
import ApiReview.Text.Position

/-!
# JSON texts with their places and faults

A text is turned into a tree that also exists when the text is broken: a fault stands in the tree
where it was met, and what comes before it can still be read. A tree is read in one of two ways,
as a value (`Node.value?`) or only to get past it (`Node.pass?`), and the first fault met wins.
Getting past a value is more lenient: it looks neither at the size of a number nor at the pairing
of surrogates nor at the depth of nesting. It also words some faults differently, and it stops
before a control character where a reader of values takes it.
-/

namespace ApiReview.Json

open Text

/-- Why a text is not JSON. -/
inductive SyntaxError where
  | endInValue
  | endInArray
  | endInObject
  | endInString
  | expectedValue
  | expectedWord
  | keyNotString
  | trailingComma
  | expectedColon
  | expectedItemEnd
  | expectedMemberEnd
  | trailingCharacters
  | invalidNumber
  | numberTooLarge
  | controlCharacter
  | invalidEscape
  | brokenSurrogatePair
  | loneSurrogate
  | tooDeep
  deriving DecidableEq, Repr

/-- The wording of a syntax error. -/
def SyntaxError.message : SyntaxError → String
  | endInValue => "EOF while parsing a value"
  | endInArray => "EOF while parsing a list"
  | endInObject => "EOF while parsing an object"
  | endInString => "EOF while parsing a string"
  | expectedValue => "expected value"
  | expectedWord => "expected ident"
  | keyNotString => "key must be a string"
  | trailingComma => "trailing comma"
  | expectedColon => "expected \x60:\x60"
  | expectedItemEnd => "expected \x60,\x60 or \x60]\x60"
  | expectedMemberEnd => "expected \x60,\x60 or \x60\x7d\x60"
  | trailingCharacters => "trailing characters"
  | invalidNumber => "invalid number"
  | numberTooLarge => "number out of range"
  | controlCharacter => "control character (\\u0000-\\u001F) found while parsing a string"
  | invalidEscape => "invalid escape"
  | brokenSurrogatePair => "unexpected end of hex escape"
  | loneSurrogate => "lone leading surrogate in hex escape"
  | tooDeep => "recursion limit exceeded"

/-- Something at a place of a text. -/
structure Placed (α : Type) where
  what : α
  place : Position
  deriving DecidableEq, Repr

/-- The end of a message that names a place. -/
def placeSuffix (p : Position) : String :=
  " at line " ++ toString p.line ++ " column " ++ toString p.column

/-- The message of a syntax error with its place. -/
def Placed.syntaxMessage (e : Placed SyntaxError) : String :=
  e.what.message ++ placeSuffix e.place

/-- A fault, as a reader of values and as a reader that only gets past it meets it. -/
structure Fault where
  read : Placed SyntaxError
  pass : Placed SyntaxError
  deriving Repr

/-- A fault that both readers meet alike. -/
def Fault.both (e : SyntaxError) (p : Position) : Fault :=
  ⟨⟨e, p⟩, ⟨e, p⟩⟩

/-- The fault that words the two readings differently. -/
def Fault.split (read pass : SyntaxError) (p : Position) : Fault :=
  ⟨⟨read, p⟩, ⟨pass, p⟩⟩

/-- How an array or object ends: with its bracket, given the place behind it, or in a fault. -/
inductive Closing where
  | closed (after : Position)
  | broken (fault : Fault)
  deriving Repr

/-- A key, the place behind it, and the place that is blamed when the key is not wanted. -/
structure Key where
  name : Except (Placed SyntaxError) String
  after : Position
  blame : Position

/-- The places before and behind a word or number. -/
structure Span where
  before : Position
  after : Position

/-- The words that are values. -/
inductive Word where
  | null
  | boolean (value : Bool)
  deriving DecidableEq, Repr

/-- The letters of a word behind its first one. -/
def Word.tail : Word → List Char
  | null => "ull".toList
  | boolean true => "rue".toList
  | boolean false => "alse".toList

/-- The beginning of a word or number: its place, and the word that the first letter tells. -/
structure Start where
  place : Position
  word : Option Word
  deriving Repr

/-- A text as a tree. An item of an array comes with the fault of a reader that wants the array
to end behind it, unless it ends there; a member of an object comes with the place of what follows
its value. A fault inside a word or number keeps how that began. -/
inductive Node where
  | null (span : Span)
  | boolean (value : Bool) (span : Span)
  | number (value : Except (Placed SyntaxError) Number) (span : Span)
  | string (value : Except (Placed SyntaxError) String) (after : Position)
  | array (before : Position) (items : List (Node × Option (Placed SyntaxError)))
    (closing : Closing)
  | object (before : Position) (members : List (Key × Node × Position)) (closing : Closing)
  | broken (fault : Fault) (began : Option Start)

/-- The tree of a word. -/
def Word.node : Word → Span → Node
  | null, span => .null span
  | boolean b, span => .boolean b span

/-- A tree, and the place of the first character behind it that is not blank. -/
structure Document where
  root : Node
  rest : Option Position

/-- The greatest depth of nesting, plus one. -/
def depthLimit : Nat := 128

/-- The place behind an opening bracket. -/
def openingPlace (before : Position) : Position :=
  ⟨before.line, before.column + 1⟩

/-- The end of a container as a reader of values meets it. -/
def Closing.read? : Closing → Except (Placed SyntaxError) Position
  | .closed after => .ok after
  | .broken fault => .error fault.read

/-- The end of a container as a reader that gets past it meets it. -/
def Closing.pass? : Closing → Except (Placed SyntaxError) Unit
  | .closed _ => .ok ()
  | .broken fault => .error fault.pass

/-- The depth left inside a container, if any. -/
def descend? (before : Position) : Nat → Except (Placed SyntaxError) Nat
  | 0 => .error ⟨.tooDeep, openingPlace before⟩
  | 1 => .error ⟨.tooDeep, openingPlace before⟩
  | depth + 2 => .ok (depth + 1)

mutual

/-- The value of a tree, read with the given depth left. -/
def Node.value? (depth : Nat) : Node → Except (Placed SyntaxError) Json
  | .null _ => .ok .null
  | .boolean b _ => .ok (.boolean b)
  | .number n _ => n.map .number
  | .string s _ => s.map .string
  | .array before items closing => do
    let depth ← descend? before depth
    let values ← itemValues? depth items
    let _ ← closing.read?
    return .array values
  | .object before members closing => do
    let depth ← descend? before depth
    let values ← memberValues? depth [] members
    let _ ← closing.read?
    return .object values
  | .broken fault _ => .error fault.read

/-- The values of items. -/
def itemValues? (depth : Nat) :
    List (Node × Option (Placed SyntaxError)) → Except (Placed SyntaxError) (List Json)
  | [] => .ok []
  | (node, _) :: rest => do
    let v ← node.value? depth
    let vs ← itemValues? depth rest
    return v :: vs

/-- The members read so far, and the further ones put among them. -/
def memberValues? (depth : Nat) (done : Members) :
    List (Key × Node × Position) → Except (Placed SyntaxError) Members
  | [] => .ok done
  | (key, node, _) :: rest => do
    let name ← key.name
    let v ← node.value? depth
    memberValues? depth (put name v done) rest

end

mutual

/-- Nothing, or the first fault that stops a reader from getting past a tree. -/
def Node.pass? : Node → Except (Placed SyntaxError) Unit
  | .null _ | .boolean _ _ | .number _ _ | .string _ _ => .ok ()
  | .array _ items closing => do
    passItems? items
    closing.pass?
  | .object _ members closing => do
    passMembers? members
    closing.pass?
  | .broken fault _ => .error fault.pass

/-- `Node.pass?` for each item. -/
def passItems? : List (Node × Option (Placed SyntaxError)) → Except (Placed SyntaxError) Unit
  | [] => .ok ()
  | (node, _) :: rest => do
    node.pass?
    passItems? rest

/-- `Node.pass?` for each member. -/
def passMembers? : List (Key × Node × Position) → Except (Placed SyntaxError) Unit
  | [] => .ok ()
  | (_, node, _) :: rest => do
    node.pass?
    passMembers? rest

end

/-- Nothing may follow a document. -/
def Document.finish? (d : Document) : Except (Placed SyntaxError) Unit :=
  match d.rest with
  | none => .ok ()
  | some p => .error ⟨.trailingCharacters, p⟩

end ApiReview.Json
