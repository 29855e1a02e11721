import ApiReview.Text.Basic

/-!
# Release tags and tag names

How mature an exported item is. The tags are ordered from the most private to the published one; an
item without a tag comes before them all. A tag name is an at sign, an ASCII letter, and ASCII
letters and digits; the names of the release tags are reserved.
-/

namespace ApiReview

/-- The maturity of an item. -/
inductive ReleaseTag where
  | untagged
  | internal
  | alpha
  | beta
  | published
  deriving DecidableEq, Repr

namespace ReleaseTag

/-- The tags in ascending order. -/
def all : List ReleaseTag :=
  [.untagged, .internal, .alpha, .beta, .published]

/-- The place of a tag in the order. -/
def rank : ReleaseTag → Nat
  | .untagged => 0
  | .internal => 1
  | .alpha => 2
  | .beta => 3
  | .published => 4

/-- The tag as a word. -/
def word : ReleaseTag → String
  | .untagged => "none"
  | .internal => "internal"
  | .alpha => "alpha"
  | .beta => "beta"
  | .published => "public"

/-- The name of the tag in a doc comment. -/
def tagName? : ReleaseTag → Option String
  | .untagged => none
  | .internal => some "@internal"
  | .alpha => some "@alpha"
  | .beta => some "@beta"
  | .published => some "@public"

/-- The tag with a name. -/
def ofTagName? (name : String) : Option ReleaseTag :=
  all.find? fun tag => tag.tagName? = some name

/-- Whether a name belongs to a release tag. -/
def isReserved (name : String) : Bool :=
  (ofTagName? name).isSome

theorem ofTagName?_eq_some_iff {name : String} {tag : ReleaseTag} :
    ofTagName? name = some tag ↔ tag.tagName? = some name := by
  constructor
  · intro h
    simpa using List.find?_some h
  · intro h
    cases tag <;> simp only [tagName?, Option.some.injEq, reduceCtorEq] at h <;> subst h <;> decide

end ReleaseTag

namespace TagName

/-- The rules that a tag name may break. -/
inductive Problem where
  | noAtSign
  | empty
  | noLetter
  | badCharacter
  deriving DecidableEq, Repr

/-- The wording of a broken rule. -/
def Problem.message : Problem → String
  | noAtSign => "tag names must start with \"@\""
  | empty => "tag names cannot be empty"
  | noLetter => "tag names must have a letter after \"@\""
  | badCharacter => "tag names may only contain letters and digits"

/-- The first rule that a name breaks. -/
def problem? (name : String) : Option Problem :=
  match name.toList with
  | ['@'] => some .empty
  | '@' :: c :: rest =>
    if !c.isAlpha then some .noLetter
    else if rest.all Char.isAlphanum then none
    else some .badCharacter
  | _ => some .noAtSign

/-- Whether a name breaks no rule. -/
def isValid (name : String) : Bool :=
  (problem? name).isNone

end TagName

end ApiReview
