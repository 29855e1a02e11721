import ApiReview.Json.Syntax

/-!
# Reading JSON texts

A machine that takes one character at a time and keeps the containers that are still open. Its
`Mode` says what is being read, and each step either goes on or, at the end of the text or at a
fault, hands out the tree built so far (`Document.ofText`). `Json.parse` reads the tree as a value.
-/

namespace ApiReview.Json

open Text

/-- An open container: its items or members so far, the last one first. -/
inductive Frame where
  | array (before : Position) (items : List (Node × Option (Placed SyntaxError)))
  | object (before : Position) (members : List (Key × Node × Position)) (key : Key)

/-- Where in a number literal the reader is. -/
inductive NumberState where
  | sign
  | zero
  | whole
  | point
  | fraction
  | mark
  | markSign
  | exponent
  deriving DecidableEq

/-- Where in an escape sequence the reader is. The number of a surrogate that waits for its
partner is kept. -/
inductive EscapeState where
  | none
  | backslash
  | hex (bytesLeft : Nat) (code : Option Nat) (high : Option Nat)
  | high (code : Nat)
  | highBackslash (code : Nat)

/-- A string being read: what it is read for, its characters so far, the last one first, and the
first fault that only a reader of values minds. -/
structure StringState where
  key : Option (Position × List (Key × Node × Position))
  chars : List Char
  soft : Option (Placed SyntaxError)
  escape : EscapeState

/-- What is being read. -/
inductive Mode where
  /-- A value at the top or behind a colon. -/
  | value
  | firstItem
  /-- An item behind a comma, with the item before it. -/
  | nextItem (previous : Node)
  | afterItem (item : Node)
  | firstKey (before : Position)
  | nextKey (before : Position) (members : List (Key × Node × Position))
  | colon (before : Position) (members : List (Key × Node × Position))
    (name : Except (Placed SyntaxError) String) (after : Position)
  | afterMember (before : Position) (members : List (Key × Node × Position)) (key : Key)
    (value : Node)
  | string (state : StringState)
  | number (state : NumberState) (start : Position) (chars : List Char)
  | word (word : Word) (left : List Char) (start : Position)
  | finished (root : Node)

/-- The machine between two characters. -/
structure Machine where
  mode : Mode
  frames : List Frame
  place : Position

/-- A step goes on or ends the reading. -/
inductive Progress where
  | next (mode : Mode) (frames : List Frame)
  | stop (document : Document)

/-- White space between the signs of a document. -/
def isSpace (c : Char) : Bool :=
  c = ' ' || c = '\n' || c = '\t' || c = '\r'

/-! ## Closing what is open -/

/-- The tree when a fault ends the text inside the open containers. -/
def unwind : List Frame → Node → Node
  | [], node => node
  | .array before items :: frames, node =>
    unwind frames (.array before ((node, none) :: items).reverse (.closed before))
  | .object before members key :: frames, node =>
    unwind frames (.object before ((key, node, before) :: members).reverse (.closed before))

/-- The reading ends in a fault where a value should be. -/
def failAt (frames : List Frame) (fault : Fault) (began : Option Start) : Progress :=
  .stop ⟨unwind frames (.broken fault began), none⟩

/-- The reading ends in a fault inside an object, between its members. -/
def failInObject (frames : List Frame) (before : Position) (members : List (Key × Node × Position))
    (fault : Fault) : Progress :=
  .stop ⟨unwind frames (.object before members.reverse (.broken fault)), none⟩

/-- The reading ends in a fault inside an array, behind an item. -/
def failInArray (frames : List Frame) (item : Node) (stop : Placed SyntaxError) (fault : Fault) :
    Progress :=
  match frames with
  | .array before items :: outer =>
    .stop ⟨unwind outer (.array before ((item, some stop) :: items).reverse (.broken fault)), none⟩
  | _ => failAt frames fault none

/-- A value is complete. -/
def complete (frames : List Frame) (node : Node) : Progress :=
  match frames with
  | [] => .next (.finished node) []
  | .array before items :: outer => .next (.afterItem node) (.array before items :: outer)
  | .object before members key :: outer =>
    .next (.afterMember before members key node) outer

/-- The array on top is complete. -/
def closeArray (frames : List Frame) (after : Position) : Progress :=
  match frames with
  | .array before items :: outer =>
    complete outer (.array before items.reverse (.closed after))
  | _ => failAt frames (.both .expectedValue after) none

/-- An item is added to the array on top. -/
def addItem (frames : List Frame) (item : Node) (stop : Option (Placed SyntaxError)) :
    List Frame :=
  match frames with
  | .array before items :: outer => .array before ((item, stop) :: items) :: outer
  | _ => frames

/-! ## Numbers -/

/-- The digits of a text. -/
def digitsOf (s : List Char) : List Nat :=
  s.map fun c => c.toNat - '0'.toNat

/-- The pieces of a complete number literal. -/
def literalOf (s : List Char) : Literal :=
  let negative := s.head? = some '-'
  let body := if negative then s.drop 1 else s
  let isMark := fun c => c = 'e' || c = 'E'
  let mantissa := body.takeWhile (!isMark ·)
  let tail := (body.dropWhile (!isMark ·)).drop 1
  let signed := tail.head? = some '-' || tail.head? = some '+'
  { negative
    whole := digitsOf (mantissa.takeWhile (· ≠ '.'))
    fraction := digitsOf ((mantissa.dropWhile (· ≠ '.')).drop 1)
    hasFraction := mantissa.contains '.'
    exponentNegative := tail.head? = some '-'
    exponent := digitsOf (if signed then tail.drop 1 else tail)
    hasExponent := body.any isMark }

/-- The tree of a complete literal that starts and ends at the given places. A literal found too
large before its end is blamed where that was found. -/
def numberNode (start after : Position) (s : List Char) : Node :=
  let literal := literalOf s
  match literal.number with
  | .ok n => .number (.ok n) ⟨start, after⟩
  | .error none => .number (.error ⟨.numberTooLarge, after⟩) ⟨start, after⟩
  | .error (some read) =>
    let unread := literal.exponent.length - read
    .number (.error ⟨.numberTooLarge, ⟨start.line, start.column + s.length - unread⟩⟩)
      ⟨start, after⟩

/-- What a character does to a literal: it goes on in a state, ends before the character, or is
broken by it. -/
inductive NumberStep where
  | more (state : NumberState)
  | done
  | bad

/-- One more character of a literal. -/
def NumberState.step (state : NumberState) (c : Char) : NumberStep :=
  let digit := c.isDigit
  let mark := c = 'e' || c = 'E'
  match state with
  | .sign => if c = '0' then .more .zero else if digit then .more .whole else .bad
  | .zero =>
    if digit then .bad else if c = '.' then .more .point else if mark then .more .mark else .done
  | .whole =>
    if digit then .more .whole
    else if c = '.' then .more .point
    else if mark then .more .mark
    else .done
  | .point => if digit then .more .fraction else .bad
  | .fraction => if digit then .more .fraction else if mark then .more .mark else .done
  | .mark =>
    if c = '+' || c = '-' then .more .markSign else if digit then .more .exponent else .bad
  | .markSign => if digit then .more .exponent else .bad
  | .exponent => if digit then .more .exponent else .done

/-- Whether a literal may end in this state. -/
def NumberState.mayEnd : NumberState → Bool
  | .zero | .whole | .fraction | .exponent => true
  | _ => false

/-! ## Strings -/

/-- The value of a hexadecimal digit. -/
def hexDigit? (c : Char) : Option Nat :=
  if c.isDigit then some (c.toNat - '0'.toNat)
  else if 'a' ≤ c ∧ c ≤ 'f' then some (c.toNat - 'a'.toNat + 10)
  else if 'A' ≤ c ∧ c ≤ 'F' then some (c.toNat - 'A'.toNat + 10)
  else none

/-- The character that a letter stands for behind a backslash. -/
def simpleEscape? (c : Char) : Option Char :=
  if c = '"' then some '"'
  else if c = '\\' then some '\\'
  else if c = '/' then some '/'
  else if c = 'b' then some (Char.ofNat 8)
  else if c = 'f' then some (Char.ofNat 12)
  else if c = 'n' then some '\n'
  else if c = 'r' then some '\r'
  else if c = 't' then some '\t'
  else none

/-- The string with a fault that only a reader of values minds, unless there is one already. -/
def StringState.mind (s : StringState) (e : SyntaxError) (p : Position) : StringState :=
  { s with soft := s.soft <|> some ⟨e, p⟩ }

/-- The string with one more character. -/
def StringState.add (s : StringState) (c : Char) : StringState :=
  { s with chars := c :: s.chars, escape := .none }

/-- The fault of a string that ends in an error, with the places that the two readers blame. -/
def StringState.fault (s : StringState) (e : SyntaxError) (read pass : Position) : Fault :=
  ⟨s.soft.getD ⟨e, read⟩, ⟨e, pass⟩⟩

/-- The string behind a complete escape of four digits, whose code is known and whose last byte
stands at the place. -/
def StringState.addCode (s : StringState) (code : Nat) (high : Option Nat) (p : Position) :
    StringState :=
  let isHigh : Bool := 0xD800 ≤ code && code ≤ 0xDBFF
  let isLow : Bool := 0xDC00 ≤ code && code ≤ 0xDFFF
  match high with
  | some h =>
    if isLow then s.add (Char.ofNat ((h - 0xD800) * 0x400 + (code - 0xDC00) + 0x10000))
    else { s.mind .loneSurrogate p with escape := .none }
  | none =>
    if isLow then { s.mind .loneSurrogate p with escape := .none }
    else if isHigh then { s with escape := .high code }
    else s.add (Char.ofNat code)

/-- What a character does to a string: it goes on, is complete, or is broken. -/
inductive StringStep where
  | more (state : StringState)
  | done (state : StringState)
  | bad (fault : Fault)

/-- A character outside an escape. -/
def StringState.plainStep (s : StringState) (place : Position) (c : Char) : StringStep :=
  if c = '"' then .done s
  else if c = '\\' then .more { s with escape := .backslash }
  else if c.toNat < 0x20 then .bad (s.fault .controlCharacter (place.pointAt c) place)
  else .more (s.add c)

/-- A character behind a backslash. -/
def StringState.escapeStep (s : StringState) (place : Position) (c : Char) : StringStep :=
  if c = 'u' then .more { s with escape := .hex 4 (some 0) none }
  else
    match simpleEscape? c with
    | some e => .more (s.add e)
    | none => .bad (s.fault .invalidEscape (place.pointAt c) (place.pointAt c))

/-- A character among the four bytes behind `\u`. -/
def StringState.hexStep (s : StringState) (place : Position) (c : Char) (bytesLeft : Nat)
    (code high : Option Nat) : StringStep :=
  let code := do
    let n ← code
    let d ← hexDigit? c
    return n * 16 + d
  if c.utf8Size < bytesLeft then
    .more { s with escape := .hex (bytesLeft - c.utf8Size) code high }
  else
    let last := place.advanceBytes c bytesLeft
    match code with
    | some n => .more (s.addCode n high last)
    | none => .bad (s.fault .invalidEscape last last)

/-- One more character of a string. -/
def StringState.step (s : StringState) (place : Position) (c : Char) : StringStep :=
  match s.escape with
  | .none => s.plainStep place c
  | .backslash => s.escapeStep place c
  | .hex bytesLeft code high => s.hexStep place c bytesLeft code high
  | .high code =>
    if c = '\\' then .more { s with escape := .highBackslash code }
    else { s.mind .brokenSurrogatePair (place.pointAt c) with escape := .none }.plainStep place c
  | .highBackslash code =>
    if c = 'u' then .more { s with escape := .hex 4 (some 0) (some code) }
    else (s.mind .brokenSurrogatePair (place.pointAt c)).escapeStep place c

/-- The content of a complete string. -/
def StringState.content (s : StringState) : Except (Placed SyntaxError) String :=
  match s.soft with
  | some e => .error e
  | none => .ok (String.ofList s.chars.reverse)

/-! ## The machine -/

/-- A value begins with the character. -/
def beginValue (frames : List Frame) (place : Position) (c : Char) : Progress :=
  let beginWord (word : Word) : Progress := .next (.word word word.tail place) frames
  if c = '"' then .next (.string ⟨none, [], none, .none⟩) frames
  else if c = '-' then .next (.number .sign place [c]) frames
  else if c = '0' then .next (.number .zero place [c]) frames
  else if c.isDigit then .next (.number .whole place [c]) frames
  else if c = 't' then beginWord (.boolean true)
  else if c = 'f' then beginWord (.boolean false)
  else if c = 'n' then beginWord .null
  else if c = '[' then .next .firstItem (.array place [] :: frames)
  else if c = '\x7b' then .next (.firstKey place) frames
  else failAt frames (.both .expectedValue (place.pointAt c)) none

/-- A key begins with the character, behind the given members. -/
def beginKey (before : Position) (members : List (Key × Node × Position)) (frames : List Frame)
    (place : Position) (c : Char) : Progress :=
  if c = '"' then .next (.string ⟨some (before, members), [], none, .none⟩) frames
  else failInObject frames before members (.both .keyNotString (place.pointAt c))

/-- A character in any mode but that of a number. -/
def stepOther (mode : Mode) (frames : List Frame) (place : Position) (c : Char) : Progress :=
  let here := place.pointAt c
  let after := place.advance c
  match mode with
  | .value => if isSpace c then .next .value frames else beginValue frames place c
  | .firstItem =>
    if isSpace c then .next .firstItem frames
    else if c = ']' then closeArray frames after
    else beginValue frames place c
  | .nextItem previous =>
    if isSpace c then .next (.nextItem previous) frames
    else if c = ']' then
      failInArray frames previous ⟨.trailingComma, here⟩
        (.split .trailingComma .expectedValue here)
    else beginValue (addItem frames previous (some ⟨.trailingCharacters, here⟩)) place c
  | .afterItem item =>
    if isSpace c then .next (.afterItem item) frames
    else if c = ',' then .next (.nextItem item) frames
    else if c = ']' then closeArray (addItem frames item none) after
    else failInArray frames item ⟨.trailingCharacters, here⟩ (.both .expectedItemEnd here)
  | .firstKey before =>
    if isSpace c then .next (.firstKey before) frames
    else if c = '\x7d' then complete frames (.object before [] (.closed after))
    else beginKey before [] frames place c
  | .nextKey before members =>
    if isSpace c then .next (.nextKey before members) frames
    else if c = '\x7d' then
      failInObject frames before members (.split .trailingComma .keyNotString here)
    else beginKey before members frames place c
  | .colon before members name behind =>
    if isSpace c then .next (.colon before members name behind) frames
    else
      let blame := if c = '\x7d' then after else place
      let frames := .object before members ⟨name, behind, blame⟩ :: frames
      if c = ':' then .next .value frames else failAt frames (.both .expectedColon here) none
  | .afterMember before members key value =>
    if isSpace c then .next (.afterMember before members key value) frames
    else
      let members := (key, value, place) :: members
      if c = ',' then .next (.nextKey before members) frames
      else if c = '\x7d' then complete frames (.object before members.reverse (.closed after))
      else failInObject frames before members (.both .expectedMemberEnd here)
  | .string s =>
    match s.step place c with
    | .more s => .next (.string s) frames
    | .done s =>
      match s.key with
      | none => complete frames (.string s.content after)
      | some (before, members) => .next (.colon before members s.content after) frames
    | .bad fault =>
      match s.key with
      | none => failAt frames fault none
      | some (before, members) => failInObject frames before members fault
  | .word word left start =>
    match left with
    | [] => complete frames (word.node ⟨start, place⟩)
    | expected :: left =>
      if c ≠ expected then failAt frames (.both .expectedWord here) (some ⟨start, some word⟩)
      else if left = [] then complete frames (word.node ⟨start, after⟩)
      else .next (.word word left start) frames
  | .number _ start _ => failAt frames (.both .invalidNumber here) (some ⟨start, none⟩)
  | .finished root =>
    if isSpace c then .next (.finished root) frames else .stop ⟨root, some here⟩

/-- A character in any mode. The character that ends a number is read again behind it. -/
def step (m : Machine) (c : Char) : Progress :=
  match m.mode with
  | .number state start chars =>
    match state.step c with
    | .more state => .next (.number state start (c :: chars)) m.frames
    | .bad => failAt m.frames (.both .invalidNumber (m.place.pointAt c)) (some ⟨start, none⟩)
    | .done =>
      match complete m.frames (numberNode start m.place chars.reverse) with
      | .next mode frames => stepOther mode frames m.place c
      | .stop document => .stop document
  | mode => stepOther mode m.frames m.place c

/-- The end of the text in any mode but that of a number. -/
def endOther (mode : Mode) (frames : List Frame) (place : Position) : Document :=
  let stop : Progress → Document := fun
    | .stop document => document
    | .next _ _ => ⟨.broken (.both .endInValue place) none, none⟩
  match mode with
  | .value => stop (failAt frames (.both .endInValue place) none)
  | .word word _ start => stop (failAt frames (.both .endInValue place) (some ⟨start, some word⟩))
  | .number _ start _ => stop (failAt frames (.both .endInValue place) (some ⟨start, none⟩))
  | .firstItem =>
    match frames with
    | .array before items :: outer =>
      ⟨unwind outer (.array before items.reverse (.broken (.both .endInArray place))), none⟩
    | _ => stop (failAt frames (.both .endInArray place) none)
  | .nextItem previous =>
    stop (failInArray frames previous ⟨.trailingCharacters, place⟩ (.both .endInValue place))
  | .afterItem item =>
    stop (failInArray frames item ⟨.endInArray, place⟩ (.both .endInArray place))
  | .firstKey before => stop (failInObject frames before [] (.both .endInObject place))
  | .nextKey before members =>
    stop (failInObject frames before members (.split .endInValue .endInObject place))
  | .colon before members name behind =>
    stop (failAt (.object before members ⟨name, behind, place⟩ :: frames)
      (.both .endInObject place) none)
  | .afterMember before members key value =>
    stop (failInObject frames before ((key, value, place) :: members) (.both .endInObject place))
  | .string s =>
    match s.key with
    | none => stop (failAt frames (s.fault .endInString place place) none)
    | some (before, members) =>
      stop (failInObject frames before members (s.fault .endInString place place))
  | .finished root => ⟨root, none⟩

/-- The end of the text. -/
def finish (m : Machine) : Document :=
  match m.mode with
  | .number state start chars =>
    if state.mayEnd then
      match complete m.frames (numberNode start m.place chars.reverse) with
      | .next mode frames => endOther mode frames m.place
      | .stop document => document
    else
      match failAt m.frames (.split .endInValue .invalidNumber m.place) (some ⟨start, none⟩) with
      | .stop document => document
      | .next mode frames => endOther mode frames m.place
  | mode => endOther mode m.frames m.place

/-- The machine over the rest of the text. -/
def run (m : Machine) : List Char → Document
  | [] => finish m
  | c :: s =>
    match step m c with
    | .next mode frames => run ⟨mode, frames, m.place.advance c⟩ s
    | .stop document => document

/-- The tree of a text. -/
def Document.ofText (s : String) : Document :=
  run ⟨.value, [], .start⟩ s.toList

/-- The value that a text is, or the first syntax error. -/
def parse (s : String) : Except (Placed SyntaxError) Json := do
  let d := Document.ofText s
  let v ← d.root.value? depthLimit
  d.finish?
  return v

end ApiReview.Json
