import ApiReview.Json.Syntax
import ApiReview.Json.Printer
import ApiReview.Text.Escape

/-!
# When a document does not fit its definition

The causes for which a value, or a text, is not an instance of a typed definition, and their
wording. A text is also refused for its syntax; every refusal of a text names a place.
-/

namespace ApiReview.Json

open Text

/-- What was found instead of the expected. -/
inductive Found where
  | null
  | boolean (value : Bool)
  | number (value : Number)
  | string (value : String)
  | sequence
  | map
  deriving DecidableEq, Repr

/-- The wording of what was found. -/
def Found.message : Found → String
  | null => "null"
  | boolean b => "boolean \x60" ++ (if b then "true" else "false") ++ "\x60"
  | number (.integer n) => "integer \x60" ++ toString n ++ "\x60"
  | number (.double x) => "floating point \x60" ++ String.ofList (doubleLayout.write x) ++ "\x60"
  | string s => "string " ++ escaped s
  | sequence => "sequence"
  | map => "map"

/-- What a value is found to be. -/
def found : Json → Found
  | .null => .null
  | .boolean b => .boolean b
  | .number n => .number n
  | .string s => .string s
  | .array _ => .sequence
  | .object _ => .map

/-- Why a value is not an instance of a definition. -/
inductive Misfit where
  | invalidType (found : Found) (expected : String)
  | notSingleKey
  | unknownField (name : String) (known : List String)
  | unknownVariant (name : String) (known : List String)
  | missingField (name : String)
  | duplicateField (name : String)
  | invalidLength (length : Nat) (expected : String)
  /-- A text that is refused by its own rule. -/
  | refused (reason : String)
  deriving DecidableEq, Repr

/-- A name between backticks. -/
def ticked (s : String) : String :=
  "\x60" ++ s ++ "\x60"

/-- The names that would have been known, as the end of a message. -/
def expectedNames : List String → String
  | [] => "there are no fields"
  | [a] => "expected " ++ ticked a
  | [a, b] => "expected " ++ ticked a ++ " or " ++ ticked b
  | names => "expected one of " ++ join ", " (names.map ticked)

/-- The wording of a misfit. -/
def Misfit.message : Misfit → String
  | invalidType found expected => "invalid type: " ++ found.message ++ ", expected " ++ expected
  | notSingleKey => "invalid value: map, expected map with a single key"
  | unknownField name known => "unknown field " ++ ticked name ++ ", " ++ expectedNames known
  | unknownVariant name known => "unknown variant " ++ ticked name ++ ", " ++ expectedNames known
  | missingField name => "missing field " ++ ticked name
  | duplicateField name => "duplicate field " ++ ticked name
  | invalidLength length expected =>
    "invalid length " ++ toString length ++ ", expected " ++ expected
  | refused reason => reason

/-- Why a text is not an instance of a definition. -/
inductive TextMisfit where
  | malformed (e : SyntaxError)
  | misfit (m : Misfit)
  deriving DecidableEq, Repr

/-- The wording without the place. -/
def TextMisfit.message : TextMisfit → String
  | malformed e => e.message
  | misfit m => m.message

/-- The wording with the place. -/
def Placed.textMessage (e : Placed TextMisfit) : String :=
  e.what.message ++ placeSuffix e.place

/-- A syntax error as the refusal of a text. -/
def Placed.refusal (e : Placed SyntaxError) : Placed TextMisfit :=
  ⟨.malformed e.what, e.place⟩

/-- The outcome of reading a tree, with its syntax error as the refusal of a text. -/
def orRefusal {α : Type} (r : Except (Placed SyntaxError) α) : Except (Placed TextMisfit) α :=
  r.mapError Placed.refusal

/-- The refusal of a tree that should have been something else. A container is blamed before its
bracket, and anything else behind it. -/
def Node.mismatch (expected : String) : Node → Placed TextMisfit
  | .null span => ⟨.misfit (.invalidType .null expected), span.after⟩
  | .boolean b span => ⟨.misfit (.invalidType (.boolean b) expected), span.after⟩
  | .number (.ok n) span => ⟨.misfit (.invalidType (.number n) expected), span.after⟩
  | .number (.error e) _ => e.refusal
  | .string (.ok s) after => ⟨.misfit (.invalidType (.string s) expected), after⟩
  | .string (.error e) _ => e.refusal
  | .array before _ _ => ⟨.misfit (.invalidType .sequence expected), before⟩
  | .object before _ _ => ⟨.misfit (.invalidType .map expected), before⟩
  | .broken fault _ => fault.read.refusal

end ApiReview.Json
