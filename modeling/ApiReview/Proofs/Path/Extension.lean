import ApiReview.Proofs.Path.Above

/-!
# Extensions

A path gets an extension behind the stem of its file name, at the end of its text
(`toList_setExtension`). In place of one that it has, it gets another one in two steps: as many
characters are cut off as the old one has, and the new one is put in. What is left by the cut has a
file name again, unless the path ends in two dots and the extension: then it ends in a step up
(`endsInDots_of_cutEnd`).
-/

namespace ApiReview

open Text

namespace Path

/-! ## The last piece -/

/-- But for silent ones at the start, the pieces of a path are those between its slashes. -/
theorem split_eq_append (s : List Char) :
    ∃ before before' pieces, (split s).2 = before ++ pieces ∧
      splitOn '/' s = before' ++ pieces ∧ (∀ piece ∈ before, isSilent piece = true) ∧
      ∀ piece ∈ before', isSilent piece = true := by
  unfold split
  split
  · exact ⟨[], [[]], _, rfl, splitOn_cons_self _, by simp, by simp [isSilent]⟩
  · exact ⟨[[]], [['.']], [], rfl, rfl, by simp [isSilent], by simp [isSilent]⟩
  · exact ⟨[[]], [['.']], _, rfl, splitOn_append_sep ['.'] _, by simp [isSilent],
      by simp [isSilent]⟩
  · exact ⟨[], [], _, rfl, rfl, by simp, by simp⟩

/-- The last of some pieces that makes a step. -/
def lastLoud? (pieces : List (List Char)) : Option (List Char) :=
  pieces.reverse.find? fun piece => !isSilent piece

theorem lastLoud?_append (pieces more : List (List Char)) :
    lastLoud? (pieces ++ more) = (lastLoud? more).or (lastLoud? pieces) := by
  rw [lastLoud?, List.reverse_append, List.find?_append]
  rfl

theorem lastLoud?_of_silent {pieces : List (List Char)}
    (h : ∀ piece ∈ pieces, isSilent piece = true) : lastLoud? pieces = none := by
  rw [lastLoud?, List.find?_eq_none]
  intro piece hp
  rw [h piece (List.mem_reverse.mp hp)]
  exact Bool.false_ne_true

theorem lastLoud?_concat {pieces : List (List Char)} {last : List Char}
    (h : isSilent last = false) : lastLoud? (pieces ++ [last]) = some last := by
  rw [lastLoud?, List.reverse_append]
  exact List.find?_cons_of_pos (by rw [h]; rfl)

theorem lastLoud?_eq_some {pieces : List (List Char)} {name : List Char}
    (h : lastLoud? pieces = some name) :
    isSilent name = false ∧ ∃ front behind, pieces = front ++ name :: behind ∧
      ∀ piece ∈ behind, isSilent piece = true := by
  obtain ⟨hname, before, after, hsplit, hsilent⟩ := List.find?_eq_some_iff_append.mp h
  refine ⟨by simpa using hname, after.reverse, before.reverse, ?_, fun piece hp => ?_⟩
  · rw [← List.reverse_reverse pieces, hsplit, List.reverse_append, List.reverse_cons,
      List.append_assoc, List.singleton_append]
  · simpa using hsilent piece (List.mem_reverse.mp hp)

theorem head?_dropWhile_isSilent (pieces : List (List Char)) :
    (pieces.dropWhile isSilent).head? = pieces.find? fun piece => !isSilent piece := by
  induction pieces with
  | nil => rfl
  | cons piece pieces ih =>
    cases hs : isSilent piece with
    | true =>
      rw [List.dropWhile_cons_of_pos hs, ih, List.find?_cons_of_neg (by simp [hs])]
    | false =>
      rw [List.dropWhile_cons_of_neg (by simp [hs]), List.find?_cons_of_pos (by simp [hs])]
      rfl

/-- The file name is the last piece that makes a step, unless this is a step up. -/
theorem map_lastPiece? (p : Path) :
    p.lastPiece?.map (·.1) = (lastLoud? (splitOn '/' p.text.toList)).filter (· ≠ ['.', '.']) := by
  obtain ⟨before, before', pieces, hsplit, hpieces, hb, hb'⟩ := split_eq_append p.text.toList
  have hlast : ((split p.text.toList).2.reverse.dropWhile isSilent).head? =
      lastLoud? (splitOn '/' p.text.toList) := by
    rw [head?_dropWhile_isSilent, hsplit, hpieces]
    show lastLoud? (before ++ pieces) = _
    rw [lastLoud?_append, lastLoud?_append, lastLoud?_of_silent hb, lastLoud?_of_silent hb']
  rw [← hlast, lastPiece?]
  cases (split p.text.toList).2.reverse.dropWhile isSilent with
  | nil => rfl
  | cons piece rest =>
    rw [List.head?_cons]
    by_cases hup : piece = ['.', '.'] <;> simp [hup, Option.filter]

/-! ## A cut at the end -/

/-- Whether a path ends in two dots and its extension. -/
def EndsInDots (p : Path) : Prop :=
  ∃ ext, p.extension? = some ext ∧
    (splitOn '/' p.text.toList).getLast? = some ('.' :: '.' :: ext.toList)

theorem cutExtension?_eq_some {name stem ext : List Char}
    (h : cutExtension? name = some (stem, ext)) : stem ≠ [] ∧ name = stem ++ '.' :: ext := by
  rw [cutExtension?] at h
  split at h
  · rename_i ext' stem' hcut
    split at h
    · cases h
    · rename_i hne
      obtain ⟨-, hname⟩ := cutAt?_eq_some_iff.mp hcut
      cases h
      refine ⟨by simpa using hne, ?_⟩
      rw [← List.reverse_reverse name, hname, List.reverse_append, List.reverse_cons,
        List.append_assoc, List.singleton_append]
  · cases h

/-- A name that is cut in its extension, or behind the dot, keeps its stem and the dot. -/
theorem exists_kept_of_append {stem ext last off : List Char}
    (h : stem ++ '.' :: ext = last ++ off) (hshort : off.length ≤ ext.length) :
    ∃ kept, last = stem ++ '.' :: kept ∧ ext = kept ++ off := by
  rcases List.append_eq_append_iff.mp h with ⟨more, rfl, hmore⟩ | ⟨more, -, rfl⟩
  · cases more with
    | nil =>
      rw [← show '.' :: ext = off from hmore, List.length_cons] at hshort
      omega
    | cons c more =>
      obtain ⟨rfl, rfl⟩ := List.cons.inj hmore
      exact ⟨more, rfl, rfl⟩
  · rw [List.length_append, List.length_cons] at hshort
    omega

theorem isSilent_append_dot {stem : List Char} (h : stem ≠ []) (kept : List Char) :
    isSilent (stem ++ '.' :: kept) = false := by
  obtain ⟨c, stem, rfl⟩ := List.exists_cons_of_ne_nil h
  simp [isSilent]

theorem dots_of_append_dot {stem kept : List Char} (h : stem ≠ [])
    (hdots : stem ++ '.' :: kept = ['.', '.']) : stem = ['.'] ∧ kept = [] := by
  rcases stem with _ | ⟨c, _ | ⟨c', stem⟩⟩
  · exact absurd rfl h
  · simpa using hdots
  · simp at hdots

/-- A piece that is left when another one behind it is cut off says nothing, if the whole said
nothing. -/
theorem isSilent_of_append {piece behind : List Char} (h : isSilent (piece ++ behind) = true) :
    isSilent piece = true := by
  rw [isSilent, Bool.or_eq_true, decide_eq_true_iff, decide_eq_true_iff] at h ⊢
  rcases h with h | h
  · exact .inl (List.append_eq_nil_iff.mp h).1
  · exact (List.append_eq_singleton_iff.mp h).imp And.left And.left

/-- When a text is cut, its last piece that makes a step is left, or the cut goes through it or
before it. -/
theorem lastLoud?_of_append {s s' name : List Char}
    (h : lastLoud? (splitOn '/' (s ++ s')) = some name) :
    lastLoud? (splitOn '/' s) = some name ∨
      (∃ front last off behind, splitOn '/' s = front ++ [last] ∧ name = last ++ off ∧
        splitOn '/' (s ++ s') = front ++ name :: behind ∧ splitOn '/' s' = off :: behind) ∨
      name.length < s'.length := by
  obtain ⟨hloud, before, behind, hpieces, hbehind⟩ := lastLoud?_eq_some h
  obtain ⟨off, rest, hoff⟩ := List.exists_cons_of_ne_nil (splitOn_ne_nil '/' s')
  obtain ⟨front, last, hfront, hwhole⟩ := splitOn_append hoff s
  rw [hpieces] at hwhole
  have through : before = front → name = last ++ off → behind = rest →
      ∃ front last off behind, splitOn '/' s = front ++ [last] ∧ name = last ++ off ∧
        splitOn '/' (s ++ s') = front ++ name :: behind ∧ splitOn '/' s' = off :: behind := by
    rintro rfl hname rfl
    exact ⟨before, last, off, behind, hfront, hname, hpieces, hoff⟩
  rcases List.append_eq_append_iff.mp hwhole with ⟨more, hmore, hrest⟩ | ⟨more, hmore, hrest⟩
  · cases more with
    | nil =>
      obtain ⟨hname, hbehind'⟩ := List.cons.inj hrest
      exact .inr (.inl (through (by rw [hmore, List.append_nil]) hname hbehind'))
    | cons next more =>
      -- The cut goes through a silent piece behind the name, or behind such pieces.
      obtain ⟨rfl, rfl⟩ := List.cons.inj hrest
      have hsilent : ∀ piece ∈ more ++ [last], isSilent piece = true := fun piece hp => by
        rcases List.mem_append.mp hp with hp | hp
        · exact hbehind piece (List.mem_append_left _ hp)
        · rw [List.mem_singleton.mp hp]
          exact isSilent_of_append (hbehind _ (List.mem_append_right _ List.mem_cons_self))
      refine .inl ?_
      rw [hfront, hmore, List.append_cons before, List.append_assoc, lastLoud?_append,
        lastLoud?_of_silent hsilent, lastLoud?_concat hloud]
      rfl
  · cases more with
    | nil =>
      obtain ⟨hname, hbehind'⟩ := List.cons.inj hrest
      exact .inr (.inl (through (by rw [hmore, List.append_nil]) hname.symm hbehind'.symm))
    | cons next more =>
      obtain ⟨-, rfl⟩ := List.cons.inj hrest
      have hlength := length_lt_of_splitOn hoff (List.mem_append_right _ List.mem_cons_self)
      exact .inr (.inr (by omega))

/-- Without as many characters at its end as its extension has, a path has a file name, unless it
ended in two dots and the extension. Then a step up is left at the end. -/
theorem endsInDots_of_cutEnd {p : Path} {old : String} (h : p.extension? = some old)
    (hcut : (p.cutEnd old.toList.length).lastPiece? = none) :
    p.EndsInDots ∧ ∃ front, splitOn '/' (p.cutEnd old.toList.length).text.toList =
      front ++ [['.', '.']] := by
  obtain ⟨⟨name, left⟩, hlast, h'⟩ := Option.bind_eq_some_iff.mp h
  obtain ⟨⟨stem, ext⟩, hname, hext⟩ := Option.bind_eq_some_iff.mp h'
  obtain ⟨hstem, rfl⟩ := cutExtension?_eq_some hname
  obtain rfl : String.ofList ext = old := Option.some.inj hext
  have hloud := map_lastPiece? p
  rw [hlast, Option.map_some] at hloud
  obtain ⟨hloud, hup⟩ := Option.filter_eq_some_iff.mp hloud.symm
  have hnone : ∀ piece, lastLoud? (splitOn '/' (p.cutEnd ext.length).text.toList) = some piece →
      piece = ['.', '.'] := by
    have hfiltered := map_lastPiece? (p.cutEnd ext.length)
    rw [String.toList_ofList] at hcut
    rw [hcut, Option.map_none, eq_comm, Option.filter_eq_none_iff] at hfiltered
    exact fun piece hp => by simpa using hfiltered piece hp
  have htext : (p.cutEnd ext.length).text.toList ++
      p.text.toList.drop (p.text.toList.length - ext.length) = p.text.toList := by
    rw [cutEnd, String.toList_ofList, List.take_append_drop]
  have hoff : (p.text.toList.drop (p.text.toList.length - ext.length)).length ≤ ext.length := by
    rw [List.length_drop]
    omega
  rw [← htext] at hloud
  rcases lastLoud?_of_append hloud with hleft | ⟨front, last, off, behind, hfront, hname', hpieces,
    hcutoff⟩ | hlong
  · exact absurd (hnone _ hleft) (by simpa using hup)
  · -- The stem and its dot are left of the name, and they are a step up.
    have hfirst := length_le_of_mem_splitOn (hcutoff ▸ List.mem_cons_self)
    have hshort := Nat.le_trans hfirst hoff
    obtain ⟨kept, rfl, rfl⟩ := exists_kept_of_append hname' hshort
    have hdots := hnone _ (by rw [hfront]; exact lastLoud?_concat (isSilent_append_dot hstem _))
    obtain ⟨rfl, rfl⟩ := dots_of_append_dot hstem hdots
    have hbehind : behind = [] := List.eq_nil_iff_forall_not_mem.mpr fun piece hp => by
      have hlength := length_lt_of_splitOn hcutoff hp
      rw [List.nil_append] at hlength hoff
      omega
    refine ⟨⟨_, h, ?_⟩, front, ?_⟩
    · rw [← htext, hpieces, hbehind, List.getLast?_concat, String.toList_ofList]
      rfl
    · rw [String.toList_ofList, hfront]
      rfl
  · rw [List.length_append, List.length_cons] at hlong
    omega

/-! ## Put in -/

/-- What stands at the end of the last piece stands at the end of the written path. -/
theorem written_concat_append (anchor : Anchor) (pieces : List (List Char)) (s tail : List Char) :
    written anchor (pieces ++ [s ++ tail]) = written anchor (pieces ++ [s]) ++ tail := by
  by_cases h : pieces = []
  · subst h
    simp [written, joinWith]
  · rw [written, written, joinWith_concat h, joinWith_concat h]
    simp

theorem toList_setExtension {p : Path} (h : p.lastPiece? ≠ none) (ext : String) :
    ∃ front, (p.setExtension ext).text.toList = front ++ '.' :: ext.toList := by
  obtain ⟨⟨name, rest⟩, hlast⟩ := Option.ne_none_iff_exists'.mp h
  rw [setExtension, hlast, String.toList_ofList, List.reverse_cons]
  exact ⟨_, written_concat_append _ _ _ _⟩

/-- What is put in place of an extension ends the text, unless the path ends in two dots and the
extension: that becomes a step up. -/
theorem withExtension_cases {p : Path} {old : String} (h : p.extension? = some old)
    (ext : String) :
    (∃ front, (p.withExtension ext).text.toList = front ++ '.' :: ext.toList) ∨
      p.EndsInDots ∧ (p.withExtension ext).lastPiece? = none ∧
        ∃ front, splitOn '/' (p.withExtension ext).text.toList = front ++ [['.', '.']] := by
  have hwith : p.withExtension ext = (p.cutEnd old.toList.length).setExtension ext := by
    rw [withExtension, h]
  rw [hwith]
  by_cases hcut : (p.cutEnd old.toList.length).lastPiece? = none
  · have hsame : (p.cutEnd old.toList.length).setExtension ext = p.cutEnd old.toList.length := by
      rw [setExtension, hcut]
    rw [hsame]
    obtain ⟨hends, hleft⟩ := endsInDots_of_cutEnd h hcut
    exact .inr ⟨hends, hcut, hleft⟩
  · exact .inl (toList_setExtension hcut ext)

end Path

end ApiReview
