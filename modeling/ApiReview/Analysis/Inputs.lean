import ApiReview.Analysis.Failure
import ApiReview.Text.Capital

/-!
# Input files

The files that an analysis starts from, out of a list of candidates: each path once, whatever the
case of its letters, and only declaration files. All candidates have to be absolute. The inputs
keep the order and the spelling of the candidates (`collectInputs_sublist`).
-/

namespace ApiReview.Analysis

/-- What two spellings of a path have in common that differ by the case of letters. -/
def caseKey (p : Path) : String :=
  Text.capitals p.text

/-- The candidates whose key is none of the given ones, each key at its first mention. -/
def distinctByCase (seen : List String) : List Path → List Path
  | [] => []
  | p :: rest =>
    if seen.contains (caseKey p) then distinctByCase seen rest
    else p :: distinctByCase (caseKey p :: seen) rest

/-- The files that an analysis starts from. -/
def collectInputs (candidates : List Path) : Except AnalysisError (List Path) :=
  let distinct := distinctByCase [] candidates
  match distinct.find? fun p => !p.isAbsolute with
  | some p => .error (.relativeInput p)
  | none => .ok (distinct.filter Path.isDeclarationFile)

theorem distinctByCase_sublist (seen : List String) (candidates : List Path) :
    (distinctByCase seen candidates).Sublist candidates := by
  induction candidates generalizing seen with
  | nil => exact List.Sublist.slnil
  | cons p rest ih =>
    simp only [distinctByCase]
    split
    · exact (ih seen).cons p
    · exact (ih _).cons_cons p

theorem collectInputs_sublist {candidates inputs : List Path}
    (h : collectInputs candidates = .ok inputs) : inputs.Sublist candidates := by
  simp only [collectInputs] at h
  split at h
  · simp at h
  · simp only [Except.ok.injEq] at h
    exact h ▸ List.filter_sublist.trans (distinctByCase_sublist [] candidates)

end ApiReview.Analysis
