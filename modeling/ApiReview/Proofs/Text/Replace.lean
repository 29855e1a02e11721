import ApiReview.Proofs.Text.Pieces
import ApiReview.Text.Blank
import Mathlib.Data.List.DropRight

/-!
# Replacing and trimming piece by piece

A replacement does not reach over a character that the replaced text does not have
(`replaceAll_append_cons`), so it goes piece by piece (`replaceAll_joinWith`). Trimming takes blank
characters from the ends only, and leaves a text whose ends are not blank.
-/

namespace ApiReview.Text

variable {part new : List Char} {c : Char}

/-! ## Replacing -/

/-- Replacing one character goes character by character. -/
theorem replaceAll_singleton (c : Char) (new s : List Char) :
    replaceAll [c] new s = s.flatMap fun d => if d = c then new else [d] := by
  induction s with
  | nil => rfl
  | cons d s ih =>
    rw [List.flatMap_cons, ← ih, replaceAll, replaceFrom]
    by_cases hd : d = c
    · rw [if_pos hd, hd, if_pos (by simp)]
      rfl
    · rw [if_neg hd, if_neg (by simp [Ne.symm hd])]
      rfl

theorem prefix_append_cons_iff (hc : c ∉ part) {s s' : List Char} :
    part <+: s ++ c :: s' ↔ part <+: s := by
  refine ⟨fun h => ?_, fun h => h.trans (List.prefix_append s _)⟩
  rcases List.prefix_or_prefix_of_prefix h (List.prefix_append s (c :: s')) with hs | ⟨tail, rfl⟩
  · exact hs
  · -- The prefix would have to go on with the character.
    cases tail with
    | nil => exact (List.append_nil s).symm ▸ List.prefix_rfl
    | cons d tail =>
      obtain ⟨rfl, -⟩ := List.cons_prefix_cons.mp ((List.prefix_append_right_inj s).mp h)
      exact absurd (List.mem_append_right _ List.mem_cons_self) hc

/-- A replacement stops at a character that the replaced text does not have. -/
theorem replaceFrom_append_cons (hc : c ∉ part) (hne : part ≠ []) (s' : List Char) :
    ∀ {s : List Char} {n : Nat}, n ≤ s.length →
      replaceFrom part new n (s ++ c :: s') =
        replaceFrom part new n s ++ c :: replaceFrom part new 0 s'
  | [], 0, _ => by
    show (if part.isPrefixOf (c :: s') then _ else c :: replaceFrom part new 0 s') =
      c :: replaceFrom part new 0 s'
    refine if_neg fun h => hne ?_
    exact List.prefix_nil.mp
      ((prefix_append_cons_iff (s := []) hc).mp (List.isPrefixOf_iff_prefix.mp h))
  | d :: s, n + 1, hn => by
    rw [List.cons_append, replaceFrom, replaceFrom,
      replaceFrom_append_cons hc hne s' (Nat.le_of_succ_le_succ hn)]
  | d :: s, 0, _ => by
    have hstart : part.isPrefixOf (d :: (s ++ c :: s')) = part.isPrefixOf (d :: s) := by
      rw [Bool.eq_iff_iff, List.isPrefixOf_iff_prefix, List.isPrefixOf_iff_prefix]
      exact prefix_append_cons_iff (s := d :: s) hc
    rw [List.cons_append, replaceFrom, replaceFrom, hstart]
    split
    · rename_i h
      have hlength := (List.isPrefixOf_iff_prefix.mp h).length_le
      rw [List.length_cons] at hlength
      rw [replaceFrom_append_cons hc hne s' (Nat.sub_le_of_le_add hlength), List.append_assoc]
    · rw [replaceFrom_append_cons hc hne s' (Nat.zero_le _), List.cons_append]

theorem replaceAll_append_cons (hc : c ∉ part) (hne : part ≠ []) (s s' : List Char) :
    replaceAll part new (s ++ c :: s') = replaceAll part new s ++ c :: replaceAll part new s' :=
  replaceFrom_append_cons hc hne s' (Nat.zero_le _)

/-- A replacement goes piece by piece. -/
theorem replaceAll_joinWith (hc : c ∉ part) (hne : part ≠ []) (pieces : List (List Char)) :
    replaceAll part new (joinWith c pieces) = joinWith c (pieces.map (replaceAll part new)) := by
  induction pieces with
  | nil => rfl
  | cons piece pieces ih =>
    cases pieces with
    | nil => rfl
    | cons next pieces => rw [joinWith, replaceAll_append_cons hc hne, ih]; rfl

/-- A character that the replaced text does not start at stays as it is. -/
theorem replaceAll_cons_of_not_start {d : Char} {s : List Char} (h : ¬ part <+: d :: s) :
    replaceAll part new (d :: s) = d :: replaceAll part new s := by
  rw [replaceAll, replaceFrom, if_neg (mt List.isPrefixOf_iff_prefix.mp h)]
  rfl

/-- What does not have the first character of the replaced text stays as it is before others. -/
theorem replaceAll_append_of_not_mem {rest front : List Char} (hc : c ∉ front) (s : List Char) :
    replaceAll (c :: rest) new (front ++ s) = front ++ replaceAll (c :: rest) new s := by
  induction front with
  | nil => rfl
  | cons d front ih =>
    rw [List.mem_cons, not_or] at hc
    rw [List.cons_append, replaceAll_cons_of_not_start fun h =>
      hc.1 (List.cons_prefix_cons.mp h).1, ih hc.2, List.cons_append]

/-- A text without the first character of the replaced one stays as it is. -/
theorem replaceAll_of_not_mem {rest s : List Char} (hc : c ∉ s) :
    replaceAll (c :: rest) new s = s := by
  have happend : replaceAll (c :: rest) new (s ++ []) = s ++ replaceAll (c :: rest) new [] :=
    replaceAll_append_of_not_mem hc []
  have hempty : replaceAll (c :: rest) new [] = [] := rfl
  rwa [hempty, List.append_nil] at happend

theorem replaceFrom_length (s : List Char) : replaceFrom part new s.length s = [] := by
  induction s with
  | nil => rfl
  | cons d s ih => exact ih

/-- A text that is replaced as a whole. -/
theorem replaceAll_self (hne : part ≠ []) : replaceAll part new part = new := by
  obtain ⟨c, rest, rfl⟩ := List.exists_cons_of_ne_nil hne
  rw [replaceAll, replaceFrom, if_pos (List.isPrefixOf_iff_prefix.mpr List.prefix_rfl),
    List.length_cons, Nat.add_sub_cancel, replaceFrom_length, List.append_nil]

/-! ## Trimming -/

/-- The text does not start with a blank character. -/
def StartsFilled (s : List Char) : Prop :=
  ∀ c, s.head? = some c → isBlank c = false

/-- The text does not end in a blank character. -/
def EndsFilled (s : List Char) : Prop :=
  ∀ c, s.getLast? = some c → isBlank c = false

instance (s : List Char) : Decidable (StartsFilled s) :=
  decidable_of_iff ((s.head?.all fun c => !isBlank c) = true)
    (by simp only [StartsFilled, Option.all_eq_true, Bool.not_eq_true'])

instance (s : List Char) : Decidable (EndsFilled s) :=
  decidable_of_iff ((s.getLast?.all fun c => !isBlank c) = true)
    (by simp only [EndsFilled, Option.all_eq_true, Bool.not_eq_true'])

theorem StartsFilled.trimStart {s : List Char} (h : StartsFilled s) : trimStart s = s := by
  cases s with
  | nil => rfl
  | cons c s => exact List.dropWhile_cons_of_neg (Bool.eq_false_iff.mp (h c rfl))

theorem EndsFilled.trimEnd {s : List Char} (h : EndsFilled s) : trimEnd s = s := by
  refine List.rdropWhile_eq_self_iff.mpr fun hne => Bool.eq_false_iff.mp (h _ ?_)
  exact List.getLast?_eq_some_getLast hne

theorem endsFilled_trimEnd (s : List Char) : EndsFilled (trimEnd s) := by
  intro c hc
  by_cases hne : trimEnd s = []
  · rw [hne] at hc
    cases hc
  · rw [List.getLast?_eq_some_getLast hne] at hc
    rw [← Option.some.inj hc]
    exact Bool.eq_false_iff.mpr (List.rdropWhile_last_not isBlank s hne)

theorem startsFilled_trimStart (s : List Char) : StartsFilled (trimStart s) := by
  intro c hc
  have hhead := List.head?_dropWhile_not isBlank s
  rw [show (s.dropWhile isBlank).head? = some c from hc] at hhead
  exact hhead

/-- What trimming takes from the end is blank. -/
theorem exists_append_of_trimEnd (s : List Char) :
    ∃ blank, s = trimEnd s ++ blank ∧ ∀ c ∈ blank, isBlank c = true := by
  refine ⟨s.rtakeWhile isBlank, (List.rdropWhile_append_rtakeWhile ..).symm, fun c hc => ?_⟩
  exact List.mem_rtakeWhile_imp hc

theorem StartsFilled.startsFilled_trimEnd {s : List Char} (h : StartsFilled s) :
    StartsFilled (Text.trimEnd s) := by
  intro c hc
  obtain ⟨blank, hblank, -⟩ := exists_append_of_trimEnd s
  refine h c ?_
  rw [hblank, List.head?_append, hc]
  rfl

/-- What was trimmed is trimmed. -/
theorem trimmed_trimmed (s : String) : trimmed (trimmed s) = trimmed s := by
  have hstarts := (startsFilled_trimStart s.toList).startsFilled_trimEnd
  rw [trimmed, trimmed, String.toList_ofList, trim, trim, hstarts.trimStart,
    (endsFilled_trimEnd _).trimEnd]

/-- What begins with a character that is not blank does so when it is trimmed. -/
theorem exists_trim_eq_cons {c : Char} (hc : isBlank c = false) (tail : List Char) :
    ∃ rest, trim (c :: tail) = c :: rest := by
  have hstarts : StartsFilled (c :: tail) := fun d hd => Option.some.inj hd ▸ hc
  obtain ⟨blank, hblank, hall⟩ := exists_append_of_trimEnd (c :: tail)
  rw [trim, hstarts.trimStart]
  cases htrim : trimEnd (c :: tail) with
  | nil =>
    rw [htrim, List.nil_append] at hblank
    rw [hall c (hblank ▸ List.mem_cons_self)] at hc
    cases hc
  | cons d rest =>
    rw [htrim] at hblank
    exact ⟨rest, congrArg (· :: rest) (List.cons_eq_cons.mp hblank).1.symm⟩

theorem trimEnd_append {blank : List Char} (h : ∀ c ∈ blank, isBlank c = true) (s : List Char) :
    trimEnd (s ++ blank) = trimEnd s := by
  induction blank using List.reverseRecOn with
  | nil => rw [List.append_nil]
  | append_singleton blank c ih =>
    rw [← List.append_assoc, ← ih fun d hd => h d (List.mem_append_left _ hd)]
    exact List.rdropWhile_concat_pos _ _ _ (h c List.mem_concat_self)

/-- Trimming stops at what does not end in a blank character. -/
theorem EndsFilled.trimEnd_append {s : List Char} (h : EndsFilled s) (s' : List Char) :
    Text.trimEnd (s ++ s') = s ++ Text.trimEnd s' := by
  induction s' using List.reverseRecOn with
  | nil => rw [List.append_nil, h.trimEnd]; exact (List.append_nil s).symm
  | append_singleton s' c ih =>
    have hconcat : ∀ t, Text.trimEnd (t ++ [c]) =
        if isBlank c then Text.trimEnd t else t ++ [c] := by
      intro t
      split
      · rename_i hc
        exact List.rdropWhile_concat_pos _ _ _ hc
      · rename_i hc
        exact List.rdropWhile_concat_neg _ _ _ hc
    rw [← List.append_assoc, hconcat, hconcat, ih]
    split
    · rfl
    · rw [List.append_assoc]

theorem endsFilled_append_iff {s s' : List Char} (h : s' ≠ []) :
    EndsFilled (s ++ s') ↔ EndsFilled s' := by
  rw [EndsFilled, List.getLast?_append_of_ne_nil s h]
  rfl

/-- Joined pieces are the last one behind nothing or a separator. -/
theorem joinWith_concat_eq (sep : Char) (pieces : List (List Char)) :
    ∃ before, (before = [] ∨ before.getLast? = some sep) ∧
      ∀ last, joinWith sep (pieces ++ [last]) = before ++ last := by
  induction pieces with
  | nil => exact ⟨[], .inl rfl, fun _ => rfl⟩
  | cons piece pieces ih =>
    obtain ⟨before, hbefore, hjoin⟩ := ih
    refine ⟨piece ++ sep :: before, .inr ?_, fun last => ?_⟩
    · rw [List.getLast?_append_of_ne_nil _ (List.cons_ne_nil _ _)]
      rcases hbefore with rfl | h
      · rfl
      · rw [List.getLast?_cons, h]
        rfl
    · rw [List.cons_append, List.append_assoc, List.cons_append, ← hjoin last]
      cases pieces <;> rfl

/-- A slash before joined pieces ends as the last of them ends. -/
theorem endsFilled_slash_joinWith {pieces : List (List Char)} {last : List Char}
    (h : EndsFilled last) : EndsFilled ('/' :: joinWith '/' (pieces ++ [last])) := by
  obtain ⟨before, hbefore, hjoin⟩ := joinWith_concat_eq '/' pieces
  rw [hjoin, ← List.cons_append]
  by_cases hlast : last = []
  · have hslash : ('/' :: before).getLast? = some '/' := by
      rcases hbefore with rfl | h
      · rfl
      · rw [List.getLast?_cons, h]
        rfl
    rw [hlast, List.append_nil, EndsFilled, hslash]
    rintro c hc
    cases hc
    decide
  · exact (endsFilled_append_iff hlast).mpr h

theorem EndsFilled.of_joinWith (pieces : List (List Char)) {last : List Char}
    (h : EndsFilled (joinWith '/' (pieces ++ [last]))) : EndsFilled last := by
  obtain ⟨before, -, hjoin⟩ := joinWith_concat_eq '/' pieces
  rw [hjoin] at h
  by_cases hlast : last = []
  · rw [hlast]
    exact fun c hc => by cases hc
  · exact (endsFilled_append_iff hlast).mp h

end ApiReview.Text
