import ApiReview.Proofs.Path.Above
import ApiReview.Proofs.Text.Capital

/-!
# Paths in capitals

Capitals keep the slashes of a path and the pieces that say nothing, so a path from the root is told
in capitals by its steps but for the case of letters, and by what says nothing between them
(`capitals_eq_iff_of_isAbsolute`). They do not keep whether it is the path of a declaration file:
the long s has the capital of the s at the end of such a path (`isDeclarationFile_or_endsInLongS`).
-/

namespace ApiReview.Path

open Text

/-! ## Declaration files -/

/-- The path of a declaration file, but for a long s at its end. -/
def EndsInLongS (p : Path) : Prop :=
  ∃ stem, p.text.toList = stem ++ ['ſ'] ∧
    (Path.mk (String.ofList (stem ++ ['s']))).isDeclarationFile = true

instance (p : Path) : Decidable p.EndsInLongS :=
  decidable_of_iff
    (p.text.toList.getLast? = some 'ſ' ∧
      (Path.mk (String.ofList (p.text.toList.dropLast ++ ['s']))).isDeclarationFile = true) <| by
    constructor
    · rintro ⟨hlast, hstem⟩
      exact ⟨_, (List.dropLast_append_getLast? _ hlast).symm, hstem⟩
    · rintro ⟨stem, htext, hstem⟩
      rw [htext, List.getLast?_concat, List.dropLast_concat]
      exact ⟨rfl, hstem⟩

theorem isDeclarationFile_iff {p : Path} :
    p.isDeclarationFile = true ↔ ∃ suffix ∈ declarationSuffixes, ∃ last front,
      p.text.toList.reverse = last ++ front ∧ last.map Char.toLower = suffix.toList.reverse := by
  rw [isDeclarationFile, List.any_eq_true]
  refine exists_congr fun suffix => and_congr_right fun _ => ?_
  rw [List.isPrefixOf_iff_prefix, lowerAscii, ← List.map_reverse]
  constructor
  · rintro ⟨more, hmore⟩
    obtain ⟨last, front, he, hlast, -⟩ := List.map_eq_append_iff.mp hmore.symm
    exact ⟨last, front, he, hlast⟩
  · rintro ⟨last, front, he, hlast⟩
    rw [he, List.map_append, hlast]
    exact List.prefix_append _ _

/-- The suffixes of declaration files from the right: an s and no other one, and all of it small
letters and marks of ASCII. -/
theorem declarationSuffixes_reverse :
    ∀ suffix ∈ declarationSuffixes, suffix.toList.reverse = 's' :: suffix.toList.reverse.tail ∧
      's' ∉ suffix.toList.reverse.tail ∧
      (∀ x ∈ suffix.toList.reverse, x.toNat < 128 ∧ x.toUpper.toLower = x) ∧
      IsEnding (suffix.toList.reverse.map Char.toUpper) := by
  simp only [← List.all_iff_forall_prop]
  decide

/-- A character with its small form in ASCII has the capital of that form. -/
theorem capital_of_toLower {c : Char} (h : c.toLower.toNat < 128) :
    capital c = [c.toLower.toUpper] := by
  by_cases hc : c.toNat < 128
  · rw [capital_of_ascii hc]
    exact forall_ascii (P := fun c => [c.toUpper] = [c.toLower.toUpper]) (by decide) hc
  · have hsame : c.toLower = c := by
      refine dif_neg fun hletter => hc ?_
      exact Nat.lt_of_le_of_lt (UInt32.le_iff_toNat_le.mp hletter.2) (by decide)
    exact absurd (hsame ▸ h) hc

theorem flatMap_capital_of_map_toLower {last t : List Char} (hlast : last.map Char.toLower = t)
    (h : ∀ x ∈ t, x.toNat < 128) :
    last.flatMap (fun c => (capital c).reverse) = t.map Char.toUpper := by
  subst hlast
  rw [List.map_map, List.map_eq_flatMap]
  refine List.flatMap_congr fun c hc => ?_
  rw [capital_of_toLower (h _ (List.mem_map_of_mem hc))]
  rfl

/-- Without an s, no long s stands for one. -/
theorem map_toLower_of_forall₂ {last t : List Char} (hs : 's' ∉ t)
    (ht : ∀ x ∈ t, x.toNat < 128 ∧ x.toUpper.toLower = x)
    (h : List.Forall₂ (fun c x => c.toLower = x.toLower ∨ c = 'ſ' ∧ x = 'S') last
      (t.map Char.toUpper)) : last.map Char.toLower = t := by
  induction t generalizing last with
  | nil => rw [List.forall₂_nil_right_iff.mp h, List.map_nil]
  | cons x t ih =>
    obtain ⟨c, rest, hc, hrest, rfl⟩ := List.forall₂_cons_right_iff.mp h
    obtain ⟨⟨-, hx⟩, ht⟩ := List.forall_mem_cons.mp ht
    rw [List.mem_cons, not_or] at hs
    have hlower : c.toLower = x := by
      rcases hc with hc | ⟨-, hupper⟩
      · rw [hc, hx]
      · rw [hupper] at hx
        exact absurd hx hs.1
    rw [List.map_cons, hlower, ih hs.2 ht hrest]

/-- A path that in capitals is that of a declaration file is so itself, but for a long s. -/
theorem isDeclarationFile_or_endsInLongS {p q : Path} (h : capitals p.text = capitals q.text)
    (hq : q.isDeclarationFile = true) : p.isDeclarationFile = true ∨ p.EndsInLongS := by
  obtain ⟨suffix, hsuffix, last, front, hsplit, hlast⟩ := isDeclarationFile_iff.mp hq
  obtain ⟨hcons, hone, hsmall, hending⟩ := declarationSuffixes_reverse suffix hsuffix
  have hreverse : p.text.toList.reverse.flatMap (fun c => (capital c).reverse) =
      q.text.toList.reverse.flatMap fun c => (capital c).reverse := by
    have hlists := congrArg (fun s => s.toList.reverse) h
    simp only [capitals, String.toList_ofList, List.reverse_flatMap] at hlists
    exact hlists
  rw [hsplit, List.flatMap_append,
    flatMap_capital_of_map_toLower hlast fun x hx => (hsmall x hx).1] at hreverse
  obtain ⟨last', front', hsplit', hends⟩ :=
    hending.exists_of_prefix (hreverse ▸ List.prefix_append _ _)
  generalize suffix.toList.reverse.tail = body at hcons hone
  rw [hcons] at hends hsmall
  obtain ⟨c, rest, hc, hrest, rfl⟩ := List.forall₂_cons_right_iff.mp hends
  have hbody := map_toLower_of_forall₂ hone (List.forall_mem_cons.mp hsmall).2 hrest
  rcases hc with hc | ⟨rfl, -⟩
  · refine .inl (isDeclarationFile_iff.mpr ⟨suffix, hsuffix, c :: rest, front', hsplit', ?_⟩)
    rw [List.map_cons, hc, hbody, hcons]
    rfl
  · refine .inr ⟨(rest ++ front').reverse, ?_, ?_⟩
    · rw [← List.reverse_cons, ← List.cons_append, ← hsplit', List.reverse_reverse]
    · refine isDeclarationFile_iff.mpr ⟨suffix, hsuffix, 's' :: rest, front', ?_, ?_⟩
      · rw [String.toList_ofList, List.reverse_append, List.reverse_reverse]
        rfl
      · rw [List.map_cons, hbody, hcons]
        rfl

theorem EndsInLongS.not_isDeclarationFile {p : Path} (h : p.EndsInLongS) :
    p.isDeclarationFile = false := by
  obtain ⟨stem, htext, -⟩ := h
  refine Bool.eq_false_iff.mpr fun hp => ?_
  obtain ⟨suffix, hsuffix, last, front, hsplit, hlast⟩ := isDeclarationFile_iff.mp hp
  rw [(declarationSuffixes_reverse suffix hsuffix).1] at hlast
  obtain ⟨c, rest, rfl, hc, -⟩ := List.map_eq_cons_iff.mp hlast
  rw [htext, List.reverse_append] at hsplit
  obtain rfl : 'ſ' = c := (List.cons.inj hsplit).1
  exact absurd hc (by decide)

/-! ## Pieces -/

/-- A text in capitals, as its characters. -/
def capitalChars (s : List Char) : List Char :=
  s.flatMap capital

theorem toList_capitals (s : String) : (capitals s).toList = capitalChars s.toList :=
  String.toList_ofList

theorem capitals_eq_iff {s s' : String} :
    capitals s = capitals s' ↔ capitalChars s.toList = capitalChars s'.toList := by
  rw [← String.toList_inj, toList_capitals, toList_capitals]

theorem capitalChars_eq_nil_iff {s : List Char} : capitalChars s = [] ↔ s = [] := by
  rw [capitalChars, List.flatMap_eq_nil_iff]
  refine ⟨fun h => List.eq_nil_iff_forall_not_mem.mpr fun c hc => capital_ne_nil c (h c hc), ?_⟩
  rintro rfl c hc
  cases hc

/-- What holds no separator goes before the first piece. -/
theorem splitOn_append_of_splitOn {sep : Char} {front : List Char} (h : sep ∉ front)
    {s piece : List Char} {pieces : List (List Char)} (hs : splitOn sep s = piece :: pieces) :
    splitOn sep (front ++ s) = (front ++ piece) :: pieces := by
  induction front with
  | nil => exact hs
  | cons c front ih =>
    rw [List.mem_cons, not_or] at h
    exact splitOn_cons_of_ne (Ne.symm h.1) (ih h.2)

/-- A path has its slashes where it has them in capitals. -/
theorem splitOn_capitalChars (s : List Char) :
    splitOn '/' (capitalChars s) = (splitOn '/' s).map capitalChars := by
  induction s with
  | nil => rfl
  | cons c s ih =>
    have hcons : capitalChars (c :: s) = capital c ++ capitalChars s := List.flatMap_cons
    by_cases hc : c = '/'
    · subst hc
      rw [hcons, capital_of_ascii (by decide)]
      show splitOn '/' ('/' :: capitalChars s) = _
      rw [splitOn_cons_self, splitOn_cons_self, List.map_cons, ih]
      rfl
    · obtain ⟨piece, pieces, hs⟩ := List.exists_cons_of_ne_nil (splitOn_ne_nil '/' s)
      rw [hs, List.map_cons] at ih
      rw [hcons, splitOn_append_of_splitOn (fun hm => hc (slash_mem_capital_iff.mp hm)) ih,
        splitOn_cons_of_ne hc hs, List.map_cons]
      rfl

theorem isAbsolute_capitals (s : String) :
    (Path.mk (capitals s)).isAbsolute = (Path.mk s).isAbsolute := by
  rw [Bool.eq_iff_iff, isAbsolute, isAbsolute, decide_eq_true_iff, decide_eq_true_iff,
    toList_capitals]
  show (capitalChars s.toList).head? = _ ↔ s.toList.head? = _
  cases s.toList with
  | nil => rfl
  | cons c s =>
    obtain ⟨x, more, hx⟩ := List.exists_cons_of_ne_nil (capital_ne_nil c)
    have hhead : (capitalChars (c :: s)).head? = some x := by
      rw [capitalChars, List.flatMap_cons, hx]
      rfl
    rw [hhead, List.head?_cons, Option.some_inj, Option.some_inj]
    constructor
    · rintro rfl
      exact slash_mem_capital_iff.mp (hx ▸ List.mem_cons_self)
    · rintro rfl
      rw [capital_of_mark (by decide) (by decide)] at hx
      exact (List.cons.inj hx).1.symm

/-- Nothing but marks is what is nothing but marks in capitals. -/
theorem capitalChars_eq_iff_of_marks {s t : List Char}
    (h : ∀ x ∈ t, x.toNat < 128 ∧ x.isAlpha = false) : capitalChars s = t ↔ s = t := by
  induction t generalizing s with
  | nil => exact capitalChars_eq_nil_iff
  | cons x t ih =>
    obtain ⟨⟨hx, hmark⟩, ht⟩ := List.forall_mem_cons.mp h
    cases s with
    | nil => exact iff_of_false (List.cons_ne_nil x t).symm (List.cons_ne_nil x t).symm
    | cons c s =>
      have hcons : capitalChars (c :: s) = capital c ++ capitalChars s := List.flatMap_cons
      rw [hcons, List.cons_eq_cons, ← ih ht]
      constructor
      · intro he
        obtain ⟨y, more, hy⟩ := List.exists_cons_of_ne_nil (capital_ne_nil c)
        rw [hy, List.cons_append] at he
        obtain ⟨rfl, he⟩ := List.cons.inj he
        obtain rfl : c = y := (mem_capital_iff_of_mark hx hmark).mp (hy ▸ List.mem_cons_self)
        rw [capital_of_mark hx hmark] at hy
        obtain rfl : [] = more := (List.cons.inj hy).2
        exact ⟨rfl, (List.cons.inj he).2⟩
      · rintro ⟨rfl, he⟩
        rw [capital_of_mark hx hmark, he]
        rfl

theorem isSilent_capitalChars (piece : List Char) :
    isSilent (capitalChars piece) = isSilent piece := by
  have hdot : capitalChars piece = ['.'] ↔ piece = ['.'] :=
    capitalChars_eq_iff_of_marks (List.all_iff_forall_prop.mp (by decide))
  rw [Bool.eq_iff_iff, isSilent, isSilent]
  simp only [Bool.or_eq_true, decide_eq_true_eq, capitalChars_eq_nil_iff, hdot]

/-- A silent piece is its own form in capitals. -/
theorem capitalChars_of_isSilent {piece : List Char} (h : isSilent piece = true) :
    capitalChars piece = piece := by
  rcases Bool.or_eq_true_iff.mp h with h | h <;> rw [of_decide_eq_true h] <;> rfl

/-! ## Steps -/

/-- A step with its name in capitals. -/
def Step.inCapitals : Step → Step
  | .name s => .name (capitalChars s)
  | step => step

theorem stepOf?_capitalChars (piece : List Char) :
    stepOf? (capitalChars piece) = (stepOf? piece).map Step.inCapitals := by
  have hup : capitalChars piece = ['.', '.'] ↔ piece = ['.', '.'] :=
    capitalChars_eq_iff_of_marks (List.all_iff_forall_prop.mp (by decide))
  rw [stepOf?, stepOf?, isSilent_capitalChars]
  by_cases hs : isSilent piece = true
  · rw [if_pos hs, if_pos hs, Option.map_none]
  · rw [if_neg hs, if_neg hs]
    by_cases hpiece : piece = ['.', '.']
    · rw [if_pos hpiece, if_pos (hup.mpr hpiece)]
      rfl
    · rw [if_neg hpiece, if_neg fun e => hpiece (hup.mp e)]
      rfl

/-- Whether two paths make the same steps, but for the case of letters. -/
def SameButCase (p q : Path) : Prop :=
  p.steps.map Step.inCapitals = q.steps.map Step.inCapitals

instance (p q : Path) : Decidable (p.SameButCase q) :=
  inferInstanceAs (Decidable (_ = _))

/-- A piece that says nothing. -/
def silentPiece? (piece : List Char) : Option (List Char) :=
  if isSilent piece then some piece else none

/-- What says nothing in a path, with gaps for the pieces that make a step. -/
def silentPieces (p : Path) : List (Option (List Char)) :=
  (split p.text.toList).2.map silentPiece?

theorem stepOf?_eq_none_iff {piece : List Char} : stepOf? piece = none ↔ isSilent piece = true := by
  rw [stepOf?]
  split
  · rename_i h
    exact iff_of_true rfl h
  · rename_i h
    refine iff_of_false ?_ h
    split <;> exact Option.some_ne_none _

theorem silentPiece?_eq_some_iff {piece other : List Char} :
    silentPiece? other = some piece ↔ isSilent other = true ∧ piece = other := by
  rw [silentPiece?, Option.ite_none_right_eq_some, Option.some_inj, eq_comm (a := other)]

theorem silentPiece?_capitalChars (piece : List Char) :
    silentPiece? (capitalChars piece) = silentPiece? piece := by
  rw [silentPiece?, silentPiece?, isSilent_capitalChars]
  split
  · rename_i h
    rw [capitalChars_of_isSilent h]
  · rfl

theorem capitalChars_chars {piece : List Char} {step : Step} (h : stepOf? piece = some step) :
    step.inCapitals.chars = capitalChars piece := by
  rcases piece_cases piece with ⟨hnone, -⟩ | ⟨step', hstep, rfl⟩
  · rw [hnone] at h
    cases h
  · obtain rfl : step' = step := Option.some.inj (hstep.symm.trans h)
    cases step' with
    | name s => rfl
    | up => rfl
    | root => cases hstep
    | here => cases hstep

/-- Pieces are the same in capitals exactly if their steps are, and if they say nothing in the same
places. -/
theorem map_capitalChars_eq_iff {pieces more : List (List Char)} :
    pieces.map capitalChars = more.map capitalChars ↔
      (pieces.filterMap stepOf?).map Step.inCapitals =
          (more.filterMap stepOf?).map Step.inCapitals ∧
        pieces.map silentPiece? = more.map silentPiece? := by
  have hsteps : ∀ pieces : List (List Char), (pieces.filterMap stepOf?).map Step.inCapitals =
      (pieces.map capitalChars).filterMap stepOf? := fun pieces => by
    rw [List.map_filterMap, List.filterMap_map]
    exact List.filterMap_congr fun piece _ => (stepOf?_capitalChars piece).symm
  have hsilent : ∀ pieces : List (List Char),
      pieces.map silentPiece? = (pieces.map capitalChars).map silentPiece? := fun pieces => by
    rw [List.map_map]
    exact List.map_congr_left fun piece _ => (silentPiece?_capitalChars piece).symm
  constructor
  · intro h
    rw [hsteps, hsteps, hsilent pieces, hsilent more, h]
    exact ⟨rfl, rfl⟩
  · rintro ⟨hs, hn⟩
    induction pieces generalizing more with
    | nil => rw [List.map_eq_nil_iff.mp (hn.symm.trans List.map_nil)]
    | cons piece pieces ih =>
      cases more with
      | nil => exact absurd hn (List.cons_ne_nil _ _)
      | cons other more =>
        rw [List.map_cons, List.map_cons, List.cons_eq_cons] at hn
        rw [List.map_cons, List.map_cons, List.cons_eq_cons]
        cases hstep : stepOf? piece with
        | none =>
          have hpiece := stepOf?_eq_none_iff.mp hstep
          obtain ⟨hother, rfl⟩ : isSilent other = true ∧ piece = other :=
            silentPiece?_eq_some_iff.mp (hn.1 ▸ silentPiece?_eq_some_iff.mpr ⟨hpiece, rfl⟩)
          rw [List.filterMap_cons_none hstep, List.filterMap_cons_none hstep] at hs
          exact ⟨rfl, ih hs hn.2⟩
        | some step =>
          cases hother : stepOf? other with
          | none =>
            have hsilent := silentPiece?_eq_some_iff.mp
              (hn.1.trans (silentPiece?_eq_some_iff.mpr ⟨stepOf?_eq_none_iff.mp hother, rfl⟩))
            rw [stepOf?_eq_none_iff.mpr hsilent.1] at hstep
            cases hstep
          | some step' =>
            rw [List.filterMap_cons_some hstep, List.filterMap_cons_some hother, List.map_cons,
              List.map_cons, List.cons_eq_cons] at hs
            refine ⟨?_, ih hs.2 hn.2⟩
            rw [← capitalChars_chars hstep, hs.1, capitalChars_chars hother]

/-- Paths from the root are the same in capitals exactly if they make the same steps, but for the
case of letters, and say nothing in the same places. -/
theorem capitals_eq_iff_of_isAbsolute {p q : Path} (hp : p.isAbsolute = true)
    (hq : q.isAbsolute = true) :
    capitals p.text = capitals q.text ↔ p.SameButCase q ∧ p.silentPieces = q.silentPieces := by
  obtain ⟨s, hs⟩ := isAbsolute_iff.mp hp
  obtain ⟨s', hs'⟩ := isAbsolute_iff.mp hq
  have hcapitals : capitals p.text = capitals q.text ↔ capitalChars s = capitalChars s' := by
    rw [capitals_eq_iff, hs, hs']
    exact List.append_right_inj (capital '/')
  have hpieces : capitalChars s = capitalChars s' ↔
      (splitOn '/' s).map capitalChars = (splitOn '/' s').map capitalChars := by
    rw [← splitOn_capitalChars, ← splitOn_capitalChars]
    refine ⟨fun h => by rw [h], fun h => ?_⟩
    rw [← joinWith_splitOn '/' (capitalChars s), h, joinWith_splitOn]
  have hsame : p.SameButCase q ↔ (pieceSteps s).map Step.inCapitals =
      (pieceSteps s').map Step.inCapitals := by
    rw [SameButCase, steps_of_slash hs, steps_of_slash hs']
    exact List.cons_eq_cons.trans (and_iff_right rfl)
  rw [hcapitals, hpieces, map_capitalChars_eq_iff, hsame, silentPieces, silentPieces, hs, hs',
    split_slash, split_slash]
  exact Iff.rfl

/-- Normal paths that make the same steps, but for the case of letters, say nothing in the same
places. -/
theorem IsNormal.silentPieces_eq {p q : Path} (hp : p.IsNormal) (hq : q.IsNormal)
    (h : p.SameButCase q) : p.silentPieces = q.silentPieces := by
  have hpieces : ∀ {names : List Step}, AllNames names → names ≠ [] →
      (fromRoot names).silentPieces = names.map fun _ => none := by
    intro names hn hne
    rw [silentPieces, toList_fromRoot, split_slash,
      splitOn_joinWith (fun e => hne (List.map_eq_nil_iff.mp e)) hn.not_mem_slash, List.map_map]
    refine List.map_congr_left fun step hm => ?_
    rw [Function.comp_apply, silentPiece?, (hn step hm).isSilent_chars]
    rfl
  obtain ⟨names, hn, rfl⟩ := hp
  obtain ⟨names', hn', rfl⟩ := hq
  rw [SameButCase, steps_fromRoot hn, steps_fromRoot hn'] at h
  have hlength : names.length = names'.length := by
    have hlengths := congrArg List.length h
    simpa only [List.length_map, List.length_cons, Nat.add_right_cancel_iff] using hlengths
  by_cases hne : names = []
  · subst hne
    rw [List.length_eq_zero_iff.mp hlength.symm]
  · have hne' : names' ≠ [] := fun e => hne (List.length_eq_zero_iff.mp (hlength.trans (e ▸ rfl)))
    rw [hpieces hn hne, hpieces hn' hne', List.map_const', List.map_const', hlength]

end ApiReview.Path
