import ApiReview.Json.Misfit
import ApiReview.Json.Reader

/-!
# Typed definitions of documents

A `Codec` reads a type from a value, reads it from the tree of a text, and writes it. Codecs are
built from a few kinds: strings, booleans, lists, tables, optional values, choices of words, and
records. A record is a list of fields, each with a codec and the way to get and set it, so that
one table serves for reading and for writing. It may also be given as an array of its fields in
order. The members of a document are read in their order, and the first problem is the answer.

`Codec.Lawful` says that what a codec writes it reads back. A choice is lawful if it knows each name
that it writes (`Codec.choice_lawful`).
-/

namespace ApiReview.Json

open Text

/-- How a type is read and written. A text is read with a depth of nesting left. -/
structure Codec (α : Type) where
  read : Json → Except Misfit α
  readNode : Nat → Node → Except (Placed TextMisfit) α
  write : α → Json

/-- What is written reads back. -/
def Codec.Lawful {α : Type} (c : Codec α) : Prop :=
  ∀ a, c.read (c.write a) = .ok a

namespace Codec

/-- The refusal of a value that should have been something else. -/
def mismatch {α : Type} (v : Json) (expected : String) : Except Misfit α :=
  .error (.invalidType (found v) expected)

/-- A string. -/
def string : Codec String where
  read
    | .string s => .ok s
    | v => mismatch v "a string"
  readNode _
    | .string s _ => orRefusal s
    | node => .error (node.mismatch "a string")
  write := .string

/-- A truth value. -/
def boolean : Codec Bool where
  read
    | .boolean b => .ok b
    | v => mismatch v "a boolean"
  readNode _
    | .boolean b _ => .ok b
    | node => .error (node.mismatch "a boolean")
  write := .boolean

variable {α : Type}

/-- A value or null. What begins like null has to be null. -/
def optional (c : Codec α) : Codec (Option α) where
  read
    | .null => .ok none
    | v => (c.read v).map some
  readNode depth
    | .null _ => .ok none
    | .broken fault (some ⟨_, some .null⟩) => .error fault.read.refusal
    | node => (c.readNode depth node).map some
  write
    | none => .null
    | some a => c.write a

/-- Each item read by a codec. -/
def readItems (read : Json → Except Misfit α) : List Json → Except Misfit (List α)
  | [] => .ok []
  | v :: rest => do
    let a ← read v
    let as ← readItems read rest
    return a :: as

/-- Each item of a text read by a codec. -/
def readNodeItems (read : Node → Except (Placed TextMisfit) α) :
    List (Node × Option (Placed SyntaxError)) → Except (Placed TextMisfit) (List α)
  | [] => .ok []
  | (node, _) :: rest => do
    let a ← read node
    let as ← readNodeItems read rest
    return a :: as

/-- A list. -/
def list (c : Codec α) : Codec (List α) where
  read
    | .array items => readItems c.read items
    | v => mismatch v "a sequence"
  readNode depth
    | .array before items closing => do
      let depth ← orRefusal (descend? before depth)
      let as ← readNodeItems (c.readNode depth) items
      let _ ← orRefusal closing.read?
      return as
    | node => .error (node.mismatch "a sequence")
  write as := .array (as.map c.write)

/-- A table with the value of a key put in: in the key's place, or at the end. -/
def putEntry (key : String) (a : α) : List (String × α) → List (String × α)
  | [] => [(key, a)]
  | (k, b) :: rest => if k = key then (k, a) :: rest else (k, b) :: putEntry key a rest

/-- The entries read so far, with the members read by a codec put among them. -/
def readEntries (read : Json → Except Misfit α) (done : List (String × α)) :
    Members → Except Misfit (List (String × α))
  | [] => .ok done
  | (key, v) :: rest => do
    let a ← read v
    readEntries read (putEntry key a done) rest

/-- The entries read so far, with the members of a text put among them. -/
def readNodeEntries (read : Node → Except (Placed TextMisfit) α) (done : List (String × α)) :
    List (Key × Node × Position) → Except (Placed TextMisfit) (List (String × α))
  | [] => .ok done
  | (key, node, _) :: rest => do
    let name ← orRefusal key.name
    let a ← read node
    readNodeEntries read (putEntry name a done) rest

/-- A table from keys to values, in the order of the keys' first mention. -/
def table (c : Codec α) : Codec (List (String × α)) where
  read
    | .object members => readEntries c.read [] members
    | v => mismatch v "a map"
  readNode depth
    | .object before members closing => do
      let depth ← orRefusal (descend? before depth)
      let entries ← readNodeEntries (c.readNode depth) [] members
      let _ ← orRefusal closing.read?
      return entries
    | node => .error (node.mismatch "a map")
  write entries := .object (entries.map fun e => (e.1, c.write e.2))

/-- Any object, as its members. -/
def members : Codec Members where
  read
    | .object members => .ok members
    | v => mismatch v "a map"
  readNode depth
    | .object before members closing => do
      let depth ← orRefusal (descend? before depth)
      let values ← orRefusal (memberValues? depth [] members)
      let _ ← orRefusal closing.read?
      return values
    | node => .error (node.mismatch "a map")
  write := .object

/-! ## Choices -/

/-- The value of a word, or that the word is unknown. -/
def chooseWord (variants : List (String × α)) (word : String) : Except Misfit α :=
  match variants.lookup word with
  | some a => .ok a
  | none => .error (.unknownVariant word (variants.map (·.1)))

/-- The place just behind a place, on its line. -/
def justBehind (p : Position) : Position :=
  ⟨p.line, p.column + 1⟩

/-- The refusal of a tree that is neither a word nor an object. -/
def notAWord : Node → Placed TextMisfit
  | .null span | .boolean _ span | .number _ span =>
    ⟨.malformed .expectedValue, justBehind span.before⟩
  | .array before _ _ | .object before _ _ => ⟨.malformed .expectedValue, justBehind before⟩
  | .broken _ (some start) => ⟨.malformed .expectedValue, justBehind start.place⟩
  | .broken fault none => fault.read.refusal
  | .string _ after => ⟨.malformed .expectedValue, after⟩

/-- The refusal of an object without a first member where a word is its key. -/
def noWord : Closing → Placed TextMisfit
  | .closed after => ⟨.malformed .expectedValue, after⟩
  | .broken fault => fault.read.refusal

/-- Nothing may follow the only member of an object that stands for a word. -/
def onlyMember (behind : Position) (rest : List (Key × Node × Position)) (closing : Closing) :
    Except (Placed TextMisfit) Unit :=
  match rest, closing with
  | [], .closed _ => .ok ()
  | [], .broken fault =>
    if fault.read.what = .endInObject then .error fault.read.refusal
    else .error ⟨.malformed .expectedValue, behind⟩
  | _ :: _, _ => .error ⟨.malformed .expectedValue, behind⟩

/-- A choice of words, each standing for a value. A word may also be the only key of an object,
with null as its value. -/
def choice (variants : List (String × α)) (nameOf : α → String) : Codec α where
  read
    | .string word => chooseWord variants word
    | .object [(word, v)] => do
      let a ← chooseWord variants word
      match v with
      | .null => return a
      | v => mismatch v "unit"
    | .object _ => .error .notSingleKey
    | v => mismatch v "string or map"
  readNode depth
    | .string word after => do
      let word ← orRefusal word
      (chooseWord variants word).mapError fun m => ⟨.misfit m, after⟩
    | .object before members closing => do
      let _ ← orRefusal (descend? before depth)
      match members with
      | [] => .error (noWord closing)
      | (key, node, behind) :: rest =>
        let word ← orRefusal key.name
        let a ← (chooseWord variants word).mapError fun m => ⟨.misfit m, key.after⟩
        match node with
        | .null _ => onlyMember behind rest closing
        | node => .error (node.mismatch "unit")
        return a
    | node => .error (notAWord node)
  write a := .string (nameOf a)

theorem choice_lawful {variants : List (String × α)} {nameOf : α → String}
    (h : ∀ a, variants.lookup (nameOf a) = some a) : (choice variants nameOf).Lawful := by
  intro a
  simp [choice, chooseWord, h a]

end Codec

/-! ## Records -/

/-- A field of a record: its name, whether it must be given, how a value or a tree sets it, and
what is written for it, if anything. -/
structure Field (σ : Type) where
  name : String
  required : Bool
  read : Json → σ → Except Misfit σ
  readNode : Nat → Node → σ → Except (Placed TextMisfit) σ
  write : σ → Option Json

namespace Field

variable {σ α : Type}

/-- A field that may be left out. -/
def of (name : String) (c : Codec α) (get : σ → α) (set : α → σ → σ) : Field σ where
  name
  required := false
  read v s := (c.read v).map (set · s)
  readNode depth node s := (c.readNode depth node).map (set · s)
  write s := some (c.write (get s))

/-- A field that must be given. -/
def needed (name : String) (c : Codec α) (get : σ → α) (set : α → σ → σ) : Field σ :=
  { of name c get set with required := true }

/-- An optional field that is not written when it is absent. -/
def ofPresent (name : String) (c : Codec α) (get : σ → Option α) (set : Option α → σ → σ) :
    Field σ :=
  { of name c.optional get set with write := fun s => (get s).map c.write }

end Field

/-- A record: its name in messages, its fields in order, the instance in which every field is
absent, and whether members that are no fields are passed over. -/
structure Record (σ : Type) where
  name : String
  fields : List (Field σ)
  blank : σ
  lenient : Bool

namespace Record

variable {σ : Type}

/-- What a record is called where one was expected. -/
def expected (r : Record σ) : String :=
  "struct " ++ r.name

/-- The names of the fields. -/
def fieldNames (r : Record σ) : List String :=
  r.fields.map Field.name

/-- What an array of too few fields should have been. -/
def expectedLength (r : Record σ) : String :=
  r.expected ++ " with " ++ toString r.fields.length ++
    (if r.fields.length = 1 then " element" else " elements")

/-- The field of a name. -/
def field? (r : Record σ) (name : String) : Option (Field σ) :=
  r.fields.find? fun f => f.name = name

/-- The first field that must be given and is not among the names. -/
def missing? (r : Record σ) (given : List String) : Option String :=
  (r.fields.find? fun f => f.required && !given.contains f.name).map Field.name

/-- The fields set by members, in their order. -/
def readMembers (r : Record σ) (s : σ) : Members → Except Misfit σ
  | [] => .ok s
  | (name, v) :: rest => do
    match r.field? name with
    | some f =>
      let s ← f.read v s
      readMembers r s rest
    | none => if r.lenient then readMembers r s rest else .error (.unknownField name r.fieldNames)

/-- The fields set by the items of an array. -/
def readArray (r : Record σ) (s : σ) : List (Field σ) → List Json → Except Misfit σ
  | [], _ => .ok s
  | f :: fields, [] =>
    if (f :: fields).any Field.required then
      .error (.invalidLength
        (r.fields.length - ((f :: fields).dropWhile (!·.required)).length) r.expectedLength)
    else .ok s
  | f :: fields, v :: items => do
    let s ← f.read v s
    readArray r s fields items

/-- A record from a value. -/
def read (r : Record σ) : Json → Except Misfit σ
  | .object members => do
    let s ← r.readMembers r.blank members
    match r.missing? (keys members) with
    | some name => .error (.missingField name)
    | none => return s
  | .array items => do
    let s ← r.readArray r.blank r.fields items
    if r.fields.length < items.length then
      .error (.invalidLength items.length "fewer elements in array")
    else return s
  | v => Codec.mismatch v r.expected

/-- The fields set by the members of a text, given the names set before. -/
def readNodeMembers (r : Record σ) (depth : Nat) (s : σ) (given : List String) :
    List (Key × Node × Position) → Except (Placed TextMisfit) (σ × List String)
  | [] => .ok (s, given)
  | (key, node, _) :: rest => do
    let name ← orRefusal key.name
    match r.field? name with
    | some f =>
      if given.contains name then .error ⟨.misfit (.duplicateField name), key.blame⟩
      else
        let s ← f.readNode depth node s
        readNodeMembers r depth s (name :: given) rest
    | none =>
      if r.lenient then
        orRefusal node.pass?
        readNodeMembers r depth s given rest
      else .error ⟨.misfit (.unknownField name r.fieldNames), key.blame⟩

/-- The fields set by the items of an array in a text, which has to end behind the last field. -/
def readNodeArray (r : Record σ) (depth : Nat) (closing : Closing) (s : σ) :
    List (Field σ) → List (Node × Option (Placed SyntaxError)) →
    Except (Placed TextMisfit) σ
  | [], _ => .ok s
  | f :: fields, [] => do
    let after ← orRefusal closing.read?
    if (f :: fields).any Field.required then
      .error ⟨.misfit (.invalidLength
        (r.fields.length - ((f :: fields).dropWhile (!·.required)).length) r.expectedLength), after⟩
    else return s
  | f :: fields, (node, stop) :: items => do
    let s ← f.readNode depth node s
    match fields, stop with
    | [], some e => .error e.refusal
    | _, _ => readNodeArray r depth closing s fields items

/-- A record from the tree of a text. -/
def readNode (r : Record σ) (depth : Nat) : Node → Except (Placed TextMisfit) σ
  | .object before members closing => do
    let depth ← orRefusal (descend? before depth)
    let (s, given) ← r.readNodeMembers depth r.blank [] members
    let after ← orRefusal closing.read?
    match r.missing? given with
    | some name => .error ⟨.misfit (.missingField name), after⟩
    | none => return s
  | .array before items closing => do
    let depth ← orRefusal (descend? before depth)
    r.readNodeArray depth closing r.blank r.fields items
  | node => .error (node.mismatch r.expected)

/-- The members of a record, in the order of its fields. -/
def writeMembers (r : Record σ) (s : σ) : Members :=
  r.fields.filterMap fun f => (f.write s).map fun v => (f.name, v)

/-- The codec of a record. -/
def codec (r : Record σ) : Codec σ where
  read := r.read
  readNode := r.readNode
  write s := .object (r.writeMembers s)

end Record

/-- An instance of a definition from a text. -/
def Codec.parse {α : Type} (c : Codec α) (s : String) : Except (Placed TextMisfit) α := do
  let d := Document.ofText s
  let a ← c.readNode depthLimit d.root
  orRefusal d.finish?
  return a

end ApiReview.Json
