import ApiReview.Text.Basic

/-!
# Line endings

A text file is written in one of three styles. `convert` first brings every ending (CR LF, a lone
CR, a lone LF) to a line feed and then writes each line feed as the style's mark. Each text has
one form with line feeds (`unify_unify`).
-/

namespace ApiReview

/-- The style in which line ends are written. -/
inductive LineEnding where
  | crlf
  | lf
  /-- The style of the platform, a line feed. -/
  | os
  deriving DecidableEq, Repr, Inhabited

namespace LineEnding

/-- All styles with their names. -/
def named : List (String × LineEnding) :=
  [("crlf", .crlf), ("lf", .lf), ("os", .os)]

/-- The style's name. -/
def name : LineEnding → String
  | crlf => "crlf"
  | lf => "lf"
  | os => "os"

/-- What stands at the end of a line. -/
def mark : LineEnding → List Char
  | crlf => ['\r', '\n']
  | lf => ['\n']
  | os => ['\n']

/-- Every line end becomes a line feed. -/
def unify : List Char → List Char
  | [] => []
  | '\r' :: '\n' :: s => '\n' :: unify s
  | c :: s => (if c = '\r' then '\n' else c) :: unify s

/-- Every line feed becomes the style's mark. -/
def expand (kind : LineEnding) (s : List Char) : List Char :=
  s.flatMap fun c => if c = '\n' then kind.mark else [c]

/-- The text with every line end in the style. -/
def convert (kind : LineEnding) (s : String) : String :=
  String.ofList (kind.expand (unify s.toList))

theorem not_mem_unify (s : List Char) : '\r' ∉ unify s := by
  fun_induction unify s with
  | case1 => simp
  | case2 s ih => simp [ih]
  | case3 c s _ ih =>
    simp only [List.mem_cons, not_or]
    refine ⟨?_, ih⟩
    split <;> simp_all [eq_comm]

theorem unify_of_not_mem {s : List Char} (h : '\r' ∉ s) : unify s = s := by
  fun_induction unify s with
  | case1 => rfl
  | case2 s ih => simp at h
  | case3 c s _ ih =>
    simp only [List.mem_cons, not_or] at h
    rw [ih h.2, if_neg (Ne.symm h.1)]

theorem unify_unify (s : List Char) : unify (unify s) = unify s :=
  unify_of_not_mem (not_mem_unify s)

end LineEnding

end ApiReview
