import ApiReview.Proofs.Json.Faults
import ApiReview.Settings.Failure
import Mathlib.Logic.ExistsUnique

/-!
# The label of a malformed text

A malformed text is shown with a label at a byte offset. Line and column of a byte always lead back
to it, and a syntax error is about one byte of the text or is met at its end. But a line feed is
taken as the start of the next line, and so the label of an error that is about a line feed stands
one byte behind it (`pointsAtBytes_iff`).
-/

namespace ApiReview.SettingsError

open Json (Placed SyntaxError TextMisfit)
open Text

/-- The byte offset of the label. -/
def label? (e : SettingsError) : Option Nat :=
  e.detail?.bind (·.2)

/-- Bytes are found by line and column, and no offset lies behind the text. -/
structure FindsBytes (s : List Char) : Prop where
  found : ∀ i < byteLength s, offsetOf s (placeOf (bytes s) i) = some i
  bounded : ∀ line column, 1 ≤ line → ∃ n, offsetOf s ⟨line, column⟩ = some n ∧ n ≤ byteLength s

/-- Bytes are found by line and column, and so the label of a syntax error is where the byte is that
the error is about. -/
structure PointsAtBytes (source : String) : Prop extends FindsBytes source.toList where
  labelled : ∀ file e i, Json.parse source = .error e → e.Blames source.toList i →
    (malformed file source e.refusal).label? = some i

theorem findsBytes (s : List Char) : FindsBytes s :=
  ⟨fun _ => offsetOf_placeOf, fun line column => exists_offsetOf s (p := ⟨line, column⟩)⟩

/-- Wherever a reading stops behind a byte, the label is at the byte, unless that ends a line. -/
theorem label?_malformed_iff (file : Path) {source : String} {cause : Placed TextMisfit} {i : Nat}
    (hi : i < byteLength source.toList)
    (h : cause.place = placeBehind ((bytes source.toList).take (i + 1))) :
    (malformed file source cause).label? = some i ↔
      (bytes source.toList)[i]? ≠ some lineFeed := by
  rw [← offsetOf_placeBehind_iff hi, ← h]
  rfl

/-- The offsets of a text are right, and each of its syntax errors is met at its end or is about one
byte. The labels of the latter point at their bytes exactly if none of these is a line feed, and
only an error inside a string, a word or a number can be about one. -/
theorem pointsAtBytes_iff (source : String) :
    FindsBytes source.toList ∧
    (∀ e, Json.parse source = .error e →
      (e.what.isEnd = true ∧ e.place = placeBehind (bytes source.toList)) ∨
        ∃! i, e.Blames source.toList i) ∧
    (PointsAtBytes source ↔ ∀ e i, Json.parse source = .error e → e.Blames source.toList i →
      (bytes source.toList)[i]? ≠ some lineFeed) ∧
    ∀ (e : Placed SyntaxError) i, e.Blames source.toList i → e.what.mayRefuseSpace = false →
      (bytes source.toList)[i]? ≠ some lineFeed := by
  refine ⟨findsBytes _, fun e h => ?_, ⟨fun h e i he hi => ?_, fun h => ⟨findsBytes _, ?_⟩⟩, ?_⟩
  · refine (Json.locatedIn_parse h).imp_right fun ⟨i, hi⟩ => ⟨i, hi, fun j hj => hj.unique hi⟩
  · exact (label?_malformed_iff ⟨source⟩ hi.lt hi.place).mp (h.labelled _ e i he hi)
  · exact fun file e i he hi => (label?_malformed_iff file hi.lt hi.place).mpr (h e i he hi)
  · exact fun e i hi hw => hi.not_lineFeed hw

/-- Behind lines that end in two bytes, and in a line with a character of two bytes. -/
theorem pointsAtBytes_iff_crlf :
    Json.parse "\x7b\r\n\t\"é\": oops\x7d" = .error ⟨.expectedValue, ⟨2, 8⟩⟩ ∧
      PointsAtBytes "\x7b\r\n\t\"é\": oops\x7d" := by
  have hparse : Json.parse "\x7b\r\n\t\"é\": oops\x7d" = .error ⟨.expectedValue, ⟨2, 8⟩⟩ := by
    decide +kernel
  have h := pointsAtBytes_iff "\x7b\r\n\t\"é\": oops\x7d"
  refine ⟨hparse, h.2.2.1.mpr fun e i he hi => h.2.2.2 e i hi ?_⟩
  cases hparse.symm.trans he
  rfl

/-- The line feed in a string is the third byte, but the label is at the fourth. -/
theorem not_pointsAtBytes_lineFeed : ¬ PointsAtBytes "\"a\nb\"" := by
  intro h
  have hparse : Json.parse "\"a\nb\"" = .error ⟨.controlCharacter, ⟨2, 0⟩⟩ := by
    decide +kernel
  have hblames : (⟨.controlCharacter, ⟨2, 0⟩⟩ : Placed SyntaxError).Blames "\"a\nb\"".toList 2 :=
    ⟨by decide +kernel, '\n', by decide +kernel, show '\n'.toNat < 0x20 by decide⟩
  have := h.labelled ⟨"api-surface.json"⟩ _ _ hparse hblames
  revert this
  decide

end ApiReview.SettingsError
