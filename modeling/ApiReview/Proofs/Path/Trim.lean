import ApiReview.Proofs.Path.Above
import ApiReview.Proofs.Text.Replace
import Mathlib.Data.List.Basic

/-!
# Trimming read paths

A relative text may be trimmed before it is read from a folder, or behind that. The steps are alike
(`TrimsAlike`) if the text does not start with a blank character, and if it ends in one or its
reading does not.
-/

namespace ApiReview.Path

open Text

variable {names : List Step}

theorem normalSteps_concat_name (absolute : Bool) (steps : List Step) (name : List Char) :
    normalSteps absolute (steps ++ [.name name]) = normalSteps absolute steps ++ [.name name] := by
  rw [normalSteps, List.foldl_append]
  show (Step.name name :: steps.foldl (push absolute) []).reverse = _
  rw [List.reverse_cons, normalSteps]

/-- A piece that ends in a blank character is a name. -/
theorem stepOf?_of_not_endsFilled {piece : List Char} (h : ¬ EndsFilled piece) :
    stepOf? piece = some (.name piece) := by
  rcases piece_cases piece with ⟨-, rfl | rfl⟩ | ⟨step, hstep, rfl⟩
  · exact absurd (fun c hc => by cases hc) h
  · exact absurd (fun c hc => by cases hc; decide) h
  · cases step with
    | name name => exact hstep
    | up => exact absurd (fun c hc => by cases hc; decide) h
    | root => cases hstep
    | here => cases hstep

/-- The text of a relative path that is read from a path of names. -/
theorem toList_resolve_fromRoot (hn : AllNames names) {p : Path} (hp : p.isAbsolute = false) :
    ((fromRoot names).resolve p).text.toList =
      '/' :: joinWith '/'
        ((normalSteps true (names ++ pieceSteps p.text.toList)).map Step.chars) := by
  rw [resolve_of_relative hp, normalize,
    if_pos (isAbsolute_join (isAbsolute_fromRoot names)), steps_join (isAbsolute_fromRoot names) hp,
    steps_fromRoot hn, toList_fromRoot]
  rfl

/-- A path from the root and one below a path of names, which come to the same steps. -/
theorem resolve_eq_resolve (hn : AllNames names) {p q : Path} {tail : List Char}
    (hp : p.text.toList = '/' :: tail) (hq : q.isAbsolute = false)
    (hs : normalSteps true (pieceSteps tail) =
      normalSteps true (names ++ pieceSteps q.text.toList)) :
    (fromRoot names).resolve p = (fromRoot names).resolve q := by
  have habsolute : p.isAbsolute = true := isAbsolute_iff.mpr ⟨_, hp⟩
  have hfolder := isAbsolute_fromRoot names
  rw [resolve_of_isAbsolute habsolute, resolve_of_relative hq, normalize, if_pos habsolute,
    normalize, if_pos (isAbsolute_join hfolder), steps_of_slash hp, steps_join hfolder hq,
    steps_fromRoot hn]
  exact congrArg fromRoot hs

theorem allNames_normalSteps (hn : AllNames names) (s : List Char) :
    AllNames (normalSteps true (names ++ pieceSteps s)) := by
  intro step hm
  refine isName_foldl_push (fun _ h => absurd h List.not_mem_nil) ?_ step (List.mem_reverse.mp hm)
  rintro step hm' name rfl
  rcases List.mem_append.mp hm' with h | h
  · exact hn _ h
  · exact (mem_pieceSteps h).resolve_left fun e => by cases e

theorem startsFilled_slash (tail : List Char) : StartsFilled ('/' :: tail) := by
  intro c hc
  cases hc
  decide

/-- A text, and its reading from a path of names, come to alike steps when they are trimmed: to the
same up to some point, taken back in the reading, and to the same behind it. -/
def TrimsAlike (names : List Step) (s read : List Char) : Prop :=
  ∃ steps more tail, steps <+: pieceSteps s ∧ pieceSteps (trim s) = steps ++ more ∧
    trim read = '/' :: tail ∧ pieceSteps tail = normalSteps true (names ++ steps) ++ more

/-- The text of names from the root, with the steps of another text taken back in it. -/
def readText (names : List Step) (s : List Char) : List Char :=
  '/' :: joinWith '/' ((normalSteps true (names ++ pieceSteps s)).map Step.chars)

theorem trimsAlike_of_endsFilled (hn : AllNames names) {s : List Char} (hs : StartsFilled s)
    (he : EndsFilled s) (hread : EndsFilled (readText names s)) :
    TrimsAlike names s (readText names s) := by
  refine ⟨pieceSteps s, [],
    joinWith '/' ((normalSteps true (names ++ pieceSteps s)).map Step.chars), List.prefix_rfl, ?_,
    ?_, ?_⟩
  · rw [trim, hs.trimStart, he.trimEnd, List.append_nil]
  · rw [trim, readText, (startsFilled_slash _).trimStart]
    exact hread.trimEnd
  · rw [List.append_nil, pieceSteps_joinWith_chars (allNames_normalSteps hn s).isPiece]

/-- Blank characters at the end stand in the last name, in the text and in its reading alike. -/
theorem trimsAlike_of_not_endsFilled (hn : AllNames names) {s : List Char} (hs : StartsFilled s)
    (he : ¬ EndsFilled s) : TrimsAlike names s (readText names s) := by
  obtain ⟨blank, hblank, hall⟩ := exists_append_of_trimEnd s
  have hslash : '/' ∉ blank := fun hm => absurd (hall _ hm) (by decide)
  obtain ⟨front, last, hcore, hsplit⟩ := splitOn_append_of_not_mem hslash (trimEnd s)
  rw [← hblank] at hsplit
  have hfilled : EndsFilled last := by
    refine EndsFilled.of_joinWith front ?_
    rw [← hcore, joinWith_splitOn]
    exact endsFilled_trimEnd s
  have hname : stepOf? (last ++ blank) = some (.name (last ++ blank)) := by
    refine stepOf?_of_not_endsFilled fun h => he ?_
    have hne : blank ≠ [] := by
      rintro rfl
      rw [List.append_nil] at hblank
      exact he (hblank ▸ endsFilled_trimEnd s)
    rw [hblank]
    exact (endsFilled_append_iff hne).mpr ((endsFilled_append_iff hne).mp h)
  have hsteps : pieceSteps s = front.filterMap stepOf? ++ [.name (last ++ blank)] := by
    rw [pieceSteps, hsplit, List.filterMap_append, List.filterMap_cons_some hname]
    rfl
  have hnormal : normalSteps true (names ++ pieceSteps s) =
      normalSteps true (names ++ front.filterMap stepOf?) ++ [.name (last ++ blank)] := by
    rw [hsteps, ← List.append_assoc, normalSteps_concat_name]
  generalize hupper : normalSteps true (names ++ front.filterMap stepOf?) = upper at hnormal
  have hread : readText names s =
      '/' :: joinWith '/' (upper.map Step.chars ++ [last]) ++ blank := by
    obtain ⟨before, -, hjoin⟩ := joinWith_concat_eq '/' (upper.map Step.chars)
    rw [readText, hnormal, List.map_append, List.map_singleton, Step.chars, hjoin, hjoin,
      List.cons_append, List.append_assoc]
  have hone : [last].filterMap stepOf? = (stepOf? last).toList := by
    rw [List.filterMap_eq_flatMap_toList, List.flatMap_singleton]
  refine ⟨front.filterMap stepOf?, (stepOf? last).toList,
    joinWith '/' (upper.map Step.chars ++ [last]), ⟨_, hsteps.symm⟩, ?_, ?_, ?_⟩
  · rw [trim, hs.trimStart, pieceSteps, hcore, List.filterMap_append, hone]
  · rw [trim, hread, List.cons_append, (startsFilled_slash _).trimStart, ← List.cons_append,
      trimEnd_append hall]
    exact (endsFilled_slash_joinWith hfilled).trimEnd
  · have hupperNames : AllNames upper := by
      have hall := allNames_normalSteps hn s
      rw [hnormal] at hall
      exact hall.of_concat.1
    have hlast : '/' ∉ last :=
      not_mem_of_mem_splitOn (hcore ▸ List.mem_append_right _ List.mem_cons_self)
    rw [pieceSteps_joinWith, List.filterMap_append, filterMap_stepOf?_chars hupperNames.isPiece,
      hone, hupper]
    exact List.forall_mem_append.mpr
      ⟨hupperNames.not_mem_slash, List.forall_mem_singleton.mpr hlast⟩

end ApiReview.Path
