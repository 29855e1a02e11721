import ApiReview.Json.Codec

/-!
# Message levels

How loudly a message is shown; a silent one is not shown at all.
-/

namespace ApiReview

/-- The level of a message. -/
inductive Level where
  | error
  | warning
  | info
  | verbose
  | silent
  deriving DecidableEq, Repr

namespace Level

/-- The level as a word. -/
def word : Level → String
  | error => "error"
  | warning => "warning"
  | info => "info"
  | verbose => "verbose"
  | silent => "none"

/-- All levels with their words. -/
def named : List (String × Level) :=
  [("error", .error), ("warning", .warning), ("info", .info), ("verbose", .verbose),
    ("none", .silent)]

/-- A level in a document. -/
def codec : Json.Codec Level :=
  .choice named word

theorem codec_lawful : codec.Lawful :=
  Json.Codec.choice_lawful fun a => by cases a <;> decide

end Level

end ApiReview
