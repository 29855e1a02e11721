import ApiReview.Number.Literal

/-!
# JSON values

A document as a value. The members of an object keep the order in which their keys were first
written; a later value for a key takes the earlier one's place (`put`). `Distinct` is what every
object that was read satisfies, at every level: no key occurs twice. A value is looked up along a
path of keys with `at?`.
-/

namespace ApiReview

/-- A JSON value. -/
inductive Json where
  | null
  | boolean (value : Bool)
  | number (value : Number)
  | string (value : String)
  | array (items : List Json)
  | object (members : List (String × Json))
  deriving Repr, Inhabited

namespace Json

/-- The members of an object, in order. -/
abbrev Members := List (String × Json)

mutual

/-- Whether two values are equal. -/
def decideEq : (a b : Json) → Decidable (a = b)
  | .null, .null => isTrue rfl
  | .boolean a, .boolean b =>
    if h : a = b then isTrue (by rw [h]) else isFalse (by simp [h])
  | .number a, .number b =>
    if h : a = b then isTrue (by rw [h]) else isFalse (by simp [h])
  | .string a, .string b =>
    if h : a = b then isTrue (by rw [h]) else isFalse (by simp [h])
  | .array a, .array b =>
    match decideEqItems a b with
    | isTrue h => isTrue (by rw [h])
    | isFalse h => isFalse (by simp [h])
  | .object a, .object b =>
    match decideEqMembers a b with
    | isTrue h => isTrue (by rw [h])
    | isFalse h => isFalse (by simp [h])
  | .null, .boolean _ | .null, .number _ | .null, .string _ | .null, .array _
  | .null, .object _ => isFalse nofun
  | .boolean _, .null | .boolean _, .number _ | .boolean _, .string _ | .boolean _, .array _
  | .boolean _, .object _ => isFalse nofun
  | .number _, .null | .number _, .boolean _ | .number _, .string _ | .number _, .array _
  | .number _, .object _ => isFalse nofun
  | .string _, .null | .string _, .boolean _ | .string _, .number _ | .string _, .array _
  | .string _, .object _ => isFalse nofun
  | .array _, .null | .array _, .boolean _ | .array _, .number _ | .array _, .string _
  | .array _, .object _ => isFalse nofun
  | .object _, .null | .object _, .boolean _ | .object _, .number _ | .object _, .string _
  | .object _, .array _ => isFalse nofun

/-- Whether two lists of values are equal. -/
def decideEqItems : (a b : List Json) → Decidable (a = b)
  | [], [] => isTrue rfl
  | [], _ :: _ => isFalse nofun
  | _ :: _, [] => isFalse nofun
  | a :: as, b :: bs =>
    match decideEq a b with
    | isFalse h => isFalse (by simp [h])
    | isTrue h =>
      match decideEqItems as bs with
      | isTrue h' => isTrue (by rw [h, h'])
      | isFalse h' => isFalse (by simp [h'])

/-- Whether two objects have equal members in the same order. -/
def decideEqMembers : (a b : Members) → Decidable (a = b)
  | [], [] => isTrue rfl
  | [], _ :: _ => isFalse nofun
  | _ :: _, [] => isFalse nofun
  | (k, a) :: as, (l, b) :: bs =>
    if hk : k = l then
      match decideEq a b with
      | isFalse h => isFalse (by simp [h])
      | isTrue h =>
        match decideEqMembers as bs with
        | isTrue h' => isTrue (by rw [hk, h, h'])
        | isFalse h' => isFalse (by simp [h'])
    else isFalse (by simp [hk])

end

instance : DecidableEq Json := decideEq

/-! ## Members -/

/-- The value of a key. -/
def find? (key : String) : Members → Option Json
  | [] => none
  | (k, v) :: rest => if k = key then some v else find? key rest

/-- The members with a value for a key: in the key's place if it has one, else at the end. -/
def put (key : String) (value : Json) : Members → Members
  | [] => [(key, value)]
  | (k, v) :: rest => if k = key then (k, value) :: rest else (k, v) :: put key value rest

/-- The members without a key, the last member moving into its place. -/
def takeOut (key : String) : Members → Members
  | [] => []
  | (k, v) :: rest =>
    if k = key then
      match rest.getLast? with
      | none => []
      | some last => last :: rest.dropLast
    else (k, v) :: takeOut key rest

/-- The members with the value of a key changed, if it has one. -/
def change (key : String) (f : Json → Json) : Members → Members
  | [] => []
  | (k, v) :: rest => if k = key then (k, f v) :: rest else (k, v) :: change key f rest

/-- The keys, in order. -/
def keys (members : Members) : List String :=
  members.map (·.1)

@[simp] theorem find?_put_self (key : String) (value : Json) (members : Members) :
    find? key (put key value members) = some value := by
  induction members with
  | nil => simp [put, find?]
  | cons m rest ih =>
    simp only [put]
    split
    · rename_i h; simp [find?, h]
    · rename_i h; simp [find?, h, ih]

theorem find?_put_of_ne {key other : String} (h : other ≠ key) (value : Json)
    (members : Members) : find? other (put key value members) = find? other members := by
  induction members with
  | nil => simp [put, find?, Ne.symm h]
  | cons m rest ih =>
    simp only [put]
    split
    · rename_i hk; simp [find?, hk, Ne.symm h]
    · simp [find?, ih]

/-! ## Views -/

/-- The value of a key, if the value is an object that has it. -/
def get? (key : String) : Json → Option Json
  | .object members => find? key members
  | _ => none

/-- The value at a path of keys. -/
def at? : List String → Json → Option Json
  | [], v => some v
  | key :: path, v => (v.get? key).bind (at? path)

/-- Whether the value is an object. -/
def isObject : Json → Bool
  | .object _ => true
  | _ => false

/-- The text of a string. -/
def text? : Json → Option String
  | .string s => some s
  | _ => none

/-- The items of an array. -/
def items? : Json → Option (List Json)
  | .array items => some items
  | _ => none

/-- The members of an object. -/
def members? : Json → Option Members
  | .object members => some members
  | _ => none

/-- An array of strings. -/
def ofStrings (items : List String) : Json :=
  .array (items.map .string)

/-- An optional value, null for none. -/
def ofOption (value : Option Json) : Json :=
  value.getD .null

mutual

/-- No object in the value has a key twice. -/
def Distinct : Json → Prop
  | .array items => DistinctItems items
  | .object members => DistinctMembers members
  | _ => True

/-- `Distinct` for each item. -/
def DistinctItems : List Json → Prop
  | [] => True
  | v :: rest => Distinct v ∧ DistinctItems rest

/-- `Distinct` for each member, and each key differs from the later ones. -/
def DistinctMembers : Members → Prop
  | [] => True
  | (k, v) :: rest => find? k rest = none ∧ Distinct v ∧ DistinctMembers rest

end

end Json

end ApiReview
