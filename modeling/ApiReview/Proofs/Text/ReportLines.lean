import ApiReview.Pipeline.Toolchain
import ApiReview.Proofs.Text.Pieces
import Mathlib.Data.List.DropRight

/-!
# Report lines under line endings

Reports are compared by their lines without blanks at the ends, and are stored with every line end
in one style. The two disagree on a carriage return alone: the comparison takes it for a blank
character of its line, and the style takes it for a line end. So a stored report has the same lines
as the report itself exactly if no carriage return alone comes before anything but blank characters
(`reportsEquivalent_convert_iff`).
-/

namespace ApiReview

open Text

/-- What is dropped from the end, told from the front. -/
theorem rdropWhile_cons {α : Type} (p : α → Bool) (a : α) (l : List α) :
    (a :: l).rdropWhile p =
      if p a = true ∧ l.rdropWhile p = [] then [] else a :: l.rdropWhile p := by
  induction l using List.reverseRecOn with
  | nil =>
    rw [List.rdropWhile_singleton, List.rdropWhile_nil]
    by_cases ha : p a = true
    · rw [if_pos ha, if_pos ⟨ha, rfl⟩]
    · rw [if_neg ha, if_neg fun h => ha h.1]
  | append_singleton l b ih =>
    rw [← List.cons_append]
    by_cases hb : p b = true
    · rw [List.rdropWhile_concat_pos p (a :: l) b hb, List.rdropWhile_concat_pos p l b hb, ih]
    · have hne : l ++ [b] ≠ [] := List.append_ne_nil_of_right_ne_nil l (List.cons_ne_nil b [])
      rw [List.rdropWhile_concat_neg p (a :: l) b hb, List.rdropWhile_concat_neg p l b hb,
        if_neg fun h => hne h.2, List.cons_append]

/-! ## The lines that count, character by character -/

/-- The lines of a text that count. -/
def linesOf (s : List Char) : List (List Char) :=
  ((splitOn '\n' s).map trimEnd).rdropWhile (· = [])

theorem reportLines_eq (s : String) : reportLines s = linesOf s.toList := rfl

/-- Lines behind one more line end; before nothing it does not count. -/
def openLine : List (List Char) → List (List Char)
  | [] => []
  | line :: rest => [] :: line :: rest

/-- Lines behind one more character; a blank one does not count before a line end. -/
def putChar (c : Char) : List (List Char) → List (List Char)
  | [] => if isBlank c then [] else [[c]]
  | line :: rest => (if isBlank c ∧ line = [] then [] else c :: line) :: rest

theorem openLine_eq_nil {lines : List (List Char)} : openLine lines = [] ↔ lines = [] := by
  cases lines with
  | nil => exact iff_of_true rfl rfl
  | cons line rest => exact iff_of_false (List.cons_ne_nil _ _) (List.cons_ne_nil _ _)

theorem length_openLine {lines : List (List Char)} (h : lines ≠ []) :
    (openLine lines).length = lines.length + 1 := by
  cases lines with
  | nil => exact absurd rfl h
  | cons line rest => rfl

theorem putChar_eq_nil {c : Char} {lines : List (List Char)} :
    putChar c lines = [] ↔ isBlank c = true ∧ lines = [] := by
  cases lines with
  | nil =>
    rw [putChar]
    split
    · rename_i hc
      exact iff_of_true rfl ⟨hc, rfl⟩
    · rename_i hc
      exact iff_of_false (List.cons_ne_nil _ _) fun h => hc h.1
  | cons line rest =>
    exact iff_of_false (List.cons_ne_nil _ _) fun h => List.cons_ne_nil _ _ h.2

theorem length_putChar {lines : List (List Char)} (h : lines ≠ []) (c : Char) :
    (putChar c lines).length = lines.length := by
  cases lines with
  | nil => exact absurd rfl h
  | cons line rest => rfl

/-- A blank character before a line end does not count. -/
theorem putChar_openLine {c : Char} (hc : isBlank c = true) (lines : List (List Char)) :
    putChar c (openLine lines) = openLine lines := by
  cases lines with
  | nil => rw [openLine, putChar, if_pos hc]
  | cons line rest => rw [openLine, putChar, if_pos ⟨hc, rfl⟩]

theorem linesOf_newline (s : List Char) : linesOf ('\n' :: s) = openLine (linesOf s) := by
  have hempty : trimEnd [] = [] := rfl
  rw [linesOf, splitOn_cons_self, List.map_cons, hempty, rdropWhile_cons, ← linesOf]
  cases linesOf s with
  | nil => rfl
  | cons line rest => rw [if_neg fun h => List.cons_ne_nil _ _ h.2]; rfl

theorem linesOf_cons {c : Char} (hc : c ≠ '\n') (s : List Char) :
    linesOf (c :: s) = putChar c (linesOf s) := by
  obtain ⟨piece, pieces, hs⟩ := List.exists_cons_of_ne_nil (splitOn_ne_nil '\n' s)
  have hpiece : trimEnd (c :: piece) =
      if isBlank c = true ∧ trimEnd piece = [] then [] else c :: trimEnd piece :=
    rdropWhile_cons isBlank c piece
  rw [linesOf, linesOf, splitOn_cons_of_ne hc hs, hs, List.map_cons, List.map_cons,
    rdropWhile_cons, rdropWhile_cons, hpiece]
  generalize (pieces.map trimEnd).rdropWhile (· = []) = rest
  -- What is left of the line decides together with what is left below it.
  by_cases hline : trimEnd piece = [] <;> by_cases hblank : isBlank c = true <;>
    by_cases hrest : rest = [] <;> simp [hline, hblank, hrest, putChar]

/-- A text has no lines that count exactly if all of it is blank. -/
theorem linesOf_eq_nil_iff {s : List Char} : linesOf s = [] ↔ ∀ c ∈ s, isBlank c = true := by
  induction s with
  | nil => exact iff_of_true rfl fun _ h => absurd h List.not_mem_nil
  | cons c s ih =>
    rw [List.forall_mem_cons, ← ih]
    by_cases hc : c = '\n'
    · subst hc
      rw [linesOf_newline, openLine_eq_nil]
      exact (and_iff_right (by decide)).symm
    · rw [linesOf_cons hc, putChar_eq_nil]

/-! ## Line endings -/

theorem isBlank_return : isBlank '\r' = true := by decide

/-- Lines do not hang on the style of the line ends. -/
theorem linesOf_expand (kind : LineEnding) (s : List Char) :
    linesOf (kind.expand s) = linesOf s := by
  induction s with
  | nil => rfl
  | cons c s ih =>
    by_cases hc : c = '\n'
    · subst hc
      have hmark : kind.expand ('\n' :: s) = kind.mark ++ kind.expand s := by
        rw [LineEnding.expand, List.flatMap_cons, if_pos rfl]
        rfl
      rw [hmark, linesOf_newline, ← ih]
      cases kind with
      | crlf =>
        rw [LineEnding.mark, List.cons_append, List.cons_append, List.nil_append,
          linesOf_cons (by decide), linesOf_newline, putChar_openLine isBlank_return]
      | lf => exact linesOf_newline _
      | os => exact linesOf_newline _
    · have hkept : kind.expand (c :: s) = c :: kind.expand s := by
        rw [LineEnding.expand, List.flatMap_cons, if_neg hc]
        rfl
      rw [hkept, linesOf_cons hc, linesOf_cons hc, ih]

/-- Every carriage return stands before a line feed or has only blank characters behind it. -/
def HasPlainReturns (s : List Char) : Prop :=
  ∀ front behind, s = front ++ '\r' :: behind →
    behind.head? = some '\n' ∨ ∀ c ∈ behind, isBlank c = true

theorem hasPlainReturns_cons {c : Char} {s : List Char} :
    HasPlainReturns (c :: s) ↔
      (c = '\r' → s.head? = some '\n' ∨ ∀ d ∈ s, isBlank d = true) ∧ HasPlainReturns s := by
  constructor
  · intro h
    refine ⟨?_, fun front behind hs => h (c :: front) behind (congrArg (c :: ·) hs)⟩
    rintro rfl
    exact h [] s rfl
  · rintro ⟨hfirst, hrest⟩ front behind hs
    cases front with
    | nil =>
      obtain ⟨rfl, rfl⟩ := List.cons.inj hs
      exact hfirst rfl
    | cons d front => exact hrest front behind (List.cons.inj hs).2

theorem hasPlainReturns_cons_of_ne {c : Char} (hc : c ≠ '\r') {s : List Char} :
    HasPlainReturns (c :: s) ↔ HasPlainReturns s := by
  rw [hasPlainReturns_cons]
  exact and_iff_right fun h => absurd h hc

theorem hasPlainReturns_of_blank {s : List Char} (h : ∀ c ∈ s, isBlank c = true) :
    HasPlainReturns s := by
  rintro front behind rfl
  exact .inr fun c hc => h c (List.mem_append_right _ (List.mem_cons_of_mem _ hc))

/-- With each line end a line feed, a text has the same lines if its carriage returns are plain, and
more of them otherwise. -/
theorem linesOf_unify (s : List Char) :
    (HasPlainReturns s ∧ linesOf (LineEnding.unify s) = linesOf s) ∨
      ¬ HasPlainReturns s ∧ linesOf s ≠ [] ∧
        (linesOf s).length < (linesOf (LineEnding.unify s)).length := by
  fun_induction LineEnding.unify s with
  | case1 => exact .inl ⟨hasPlainReturns_of_blank fun _ h => absurd h List.not_mem_nil, rfl⟩
  | case2 s ih =>
    have hplain : HasPlainReturns ('\r' :: '\n' :: s) ↔ HasPlainReturns s := by
      rw [hasPlainReturns_cons, hasPlainReturns_cons_of_ne (by decide)]
      exact and_iff_right fun _ => .inl rfl
    rw [hplain, linesOf_cons (show '\r' ≠ '\n' by decide), linesOf_newline, linesOf_newline,
      putChar_openLine isBlank_return]
    rcases ih with ⟨hs, heq⟩ | ⟨hs, hne, hlt⟩
    · exact .inl ⟨hs, congrArg openLine heq⟩
    · refine .inr ⟨hs, fun h => hne (openLine_eq_nil.mp h), ?_⟩
      rw [length_openLine hne, length_openLine (List.length_pos_iff.mp (by omega))]
      omega
  | case3 c s hpair ih =>
    by_cases hreturn : c = '\r'
    · subst hreturn
      have hhead : s.head? ≠ some '\n' := fun h => by
        obtain ⟨rest, rfl⟩ := List.head?_eq_some_iff.mp h
        exact hpair rest rfl rfl
      rw [if_pos rfl, linesOf_newline, linesOf_cons (show '\r' ≠ '\n' by decide)]
      by_cases hblank : ∀ d ∈ s, isBlank d = true
      · have hnone := linesOf_eq_nil_iff.mpr hblank
        have hs := hasPlainReturns_of_blank hblank
        have hunify : linesOf (LineEnding.unify s) = [] := by
          rcases ih with ⟨-, heq⟩ | ⟨hs', -, -⟩
          · rw [heq, hnone]
          · exact absurd hs hs'
        refine .inl ⟨hasPlainReturns_cons.mpr ⟨fun _ => .inr hblank, hs⟩, ?_⟩
        rw [hunify, hnone, openLine, putChar, if_pos isBlank_return]
      · have hsome : linesOf s ≠ [] := fun h => hblank (linesOf_eq_nil_iff.mp h)
        have hle : (linesOf s).length ≤ (linesOf (LineEnding.unify s)).length := by
          rcases ih with ⟨-, heq⟩ | ⟨-, -, hlt⟩
          · exact Nat.le_of_eq (congrArg List.length heq.symm)
          · exact Nat.le_of_lt hlt
        have hpos := List.length_pos_iff.mpr hsome
        refine .inr ⟨fun h => ?_, fun h => hsome (putChar_eq_nil.mp h).2, ?_⟩
        · exact ((hasPlainReturns_cons.mp h).1 rfl).elim hhead hblank
        · -- The carriage return opens a line on one side alone.
          rw [length_putChar hsome, length_openLine (List.length_pos_iff.mp (by omega))]
          omega
    · rw [if_neg hreturn, hasPlainReturns_cons_of_ne hreturn]
      by_cases hc : c = '\n'
      · subst hc
        rw [linesOf_newline, linesOf_newline]
        rcases ih with ⟨hs, heq⟩ | ⟨hs, hne, hlt⟩
        · exact .inl ⟨hs, congrArg openLine heq⟩
        · refine .inr ⟨hs, fun h => hne (openLine_eq_nil.mp h), ?_⟩
          rw [length_openLine hne, length_openLine (List.length_pos_iff.mp (by omega))]
          omega
      · rw [linesOf_cons hc, linesOf_cons hc]
        rcases ih with ⟨hs, heq⟩ | ⟨hs, hne, hlt⟩
        · exact .inl ⟨hs, congrArg (putChar c) heq⟩
        · refine .inr ⟨hs, fun h => hne (putChar_eq_nil.mp h).2, ?_⟩
          rw [length_putChar hne, length_putChar (List.length_pos_iff.mp (by omega))]
          exact hlt

/-- A report in a style of line endings has the same lines as the report itself exactly if its
carriage returns are plain. -/
theorem reportsEquivalent_convert_iff (kind : LineEnding) (s : String) :
    reportsEquivalent s (kind.convert s) = true ↔ HasPlainReturns s.toList := by
  rw [reportsEquivalent, decide_eq_true_iff, reportLines_eq, reportLines_eq, LineEnding.convert,
    String.toList_ofList, linesOf_expand]
  rcases linesOf_unify s.toList with ⟨hplain, heq⟩ | ⟨hplain, -, hlt⟩
  · exact iff_of_true heq.symm hplain
  · refine iff_of_false (fun heq => ?_) hplain
    rw [← heq] at hlt
    exact Nat.lt_irrefl _ hlt

end ApiReview
