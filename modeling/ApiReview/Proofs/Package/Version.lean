import ApiReview.Package.Version
import ApiReview.Proofs.Text.Replace
import Mathlib.Data.Prod.Lex

/-!
# How versions are spelled

A text spells a version (`Version.Spells`) if three numerals with dots between them are left of it
without the blanks around it, one letter before it and the suffix behind it. Reading accepts these
texts and no others, and gives their three numbers (`parse_eq_ok_iff_spells`). A version that was
written is spelled so, whatever of this is put around it, so reading undoes writing
(`parse_accepts`). Only the release, the first two numbers in their order, makes an engine newer
(`isNewerMinorThan_iff`).
-/

namespace ApiReview.Version

open Text

variable {s body rest core major minor patch digits suffix : List Char} {n : UInt32}
  {v : Version}

/-! ## Releases -/

/-- The numbers of a version that decide whether another engine is newer, in their order. -/
def release (v : Version) : Nat ×ₗ Nat :=
  toLex (v.major.toNat, v.minor.toNat)

theorem isNewerMinorThan_iff {theirs ours : Version} :
    theirs.isNewerMinorThan ours = true ↔ ours.release < theirs.release := by
  rw [release, release, Prod.Lex.toLex_lt_toLex, isNewerMinorThan]
  simp only [Bool.or_eq_true, Bool.and_eq_true, decide_eq_true_eq, UInt32.lt_iff_toNat_lt,
    UInt32.toNat_inj, eq_comm (a := theirs.major)]

/-! ## Numerals -/

/-- Decimal digits, at least one of them, with the number that they denote. -/
structure IsNumeral (digits : List Char) (n : UInt32) : Prop where
  ne_nil : digits ≠ []
  isDigit : ∀ c ∈ digits, c.isDigit = true
  value : Nat.ofDigitChars 10 digits 0 = n.toNat

theorem numberOf_eq_ofDigitChars (digits : List Char) :
    numberOf digits = Nat.ofDigitChars 10 digits 0 := by
  rw [numberOf, Nat.ofDigitChars]
  simp only [Nat.mul_comm]

/-- A part is read exactly if it is a numeral. -/
theorem part?_eq_some_iff : part? digits = some n ↔ IsNumeral digits n := by
  rw [part?]
  constructor
  · intro h
    split at h
    · rename_i hpart
      obtain ⟨hne, hdigits, hlt⟩ := hpart
      refine ⟨hne, List.all_eq_true.mp hdigits, ?_⟩
      rw [← Option.some.inj h, UInt32.toNat_ofNat_of_lt' hlt, numberOf_eq_ofDigitChars]
    · cases h
  · rintro ⟨hne, hdigits, hvalue⟩
    rw [← numberOf_eq_ofDigitChars] at hvalue
    rw [if_pos ⟨hne, List.all_eq_true.mpr hdigits, hvalue ▸ n.toNat_lt⟩, hvalue,
      UInt32.ofNat_toNat]

/-- The decimal text of a number is a numeral for it. -/
theorem isNumeral_toDigits (n : UInt32) : IsNumeral (Nat.toDigits 10 n.toNat) n where
  ne_nil := Nat.toDigits_ne_nil
  isDigit _ hc := Nat.isDigit_of_mem_toDigits (by decide) (by decide) hc
  value := Nat.ofDigitChars_ten_toDigits

theorem IsNumeral.not_mem (h : IsNumeral digits n) {c : Char} (hc : c.isDigit = false) :
    c ∉ digits := fun hm => Bool.eq_false_iff.mp hc (h.isDigit c hm)

theorem isBlank_of_isDigit {c : Char} (hc : c.isDigit = true) : isBlank c = false := by
  refine Bool.eq_false_iff.mpr fun hblank => ?_
  have hcodes : ∀ n ∈ blankCodes, n < '0'.toNat ∨ '9'.toNat < n := by decide
  have hbounds : '0'.toNat ≤ c.toNat ∧ c.toNat ≤ '9'.toNat := by
    simpa [Char.isDigit, UInt32.le_iff_toNat_le] using hc
  rcases hcodes c.toNat (List.contains_iff_mem.mp hblank) with h | h
  · exact absurd hbounds.1 (Nat.not_le_of_lt h)
  · exact absurd hbounds.2 (Nat.not_le_of_lt h)

/-! ## What stands around the numbers -/

/-- A text without the blank characters at its ends. -/
def Trims (s body : List Char) : Prop :=
  ∃ before behind, s = before ++ body ++ behind ∧ (∀ c ∈ before, isBlank c = true) ∧
    (∀ c ∈ behind, isBlank c = true) ∧ StartsFilled body ∧ EndsFilled body

/-- A text without one letter `v` at its start, if it starts with one. -/
def DropsLetter (body rest : List Char) : Prop :=
  body = 'v' :: rest ∨ body = rest ∧ body.head? ≠ some 'v'

/-- What may stand behind the numbers: nothing, or a hyphen or a plus sign and any text. -/
def IsSuffix (suffix : List Char) : Prop :=
  ∀ c, suffix.head? = some c → c = '-' ∨ c = '+'

/-- A text up to its first hyphen or plus sign. -/
def CutsSuffix (rest core : List Char) : Prop :=
  ∃ suffix, rest = core ++ suffix ∧ IsSuffix suffix ∧ ∀ c ∈ core, c ≠ '-' ∧ c ≠ '+'

/-- What is left of a text when it is trimmed, loses a letter at its start, and is cut at its first
hyphen or plus sign. -/
def HasCore (s : String) (core : List Char) : Prop :=
  ∃ body rest, Trims s.toList body ∧ DropsLetter body rest ∧ CutsSuffix rest core

theorem trimStart_append {before : List Char} (h : ∀ c ∈ before, isBlank c = true)
    (s : List Char) : trimStart (before ++ s) = trimStart s :=
  List.dropWhile_append_of_pos h

theorem trims_iff : Trims s body ↔ trim s = body := by
  constructor
  · rintro ⟨before, behind, rfl, hbefore, hbehind, hstarts, hends⟩
    rw [trim, List.append_assoc, trimStart_append hbefore]
    cases body with
    | nil =>
      have hall : trimStart behind = [] := List.dropWhile_eq_nil_iff.mpr hbehind
      rw [List.nil_append, hall]
      rfl
    | cons c body =>
      have hstarts' : StartsFilled (c :: body ++ behind) := hstarts
      rw [hstarts'.trimStart, trimEnd_append hbehind, hends.trimEnd]
  · rintro rfl
    obtain ⟨behind, hbehind, hall⟩ := exists_append_of_trimEnd (trimStart s)
    refine ⟨s.takeWhile isBlank, behind, ?_, fun c hc => List.mem_takeWhile_imp hc, hall,
      (startsFilled_trimStart s).startsFilled_trimEnd, endsFilled_trimEnd _⟩
    rw [List.append_assoc, trim, ← hbehind]
    exact List.takeWhile_append_dropWhile.symm

theorem dropsLetter_iff :
    DropsLetter body rest ↔ (match body with | 'v' :: rest => rest | rest => rest) = rest := by
  split
  · simp [DropsLetter]
  · rename_i hnot
    have hv : body.head? ≠ some 'v' := by
      intro hhead
      obtain ⟨tail, htail⟩ := List.head?_eq_some_iff.mp hhead
      exact hnot tail htail
    simp only [DropsLetter, hv, not_false_eq_true, and_true, or_iff_right_iff_imp, ne_eq]
    rintro rfl
    exact absurd rfl hv

theorem cutsSuffix_iff :
    CutsSuffix rest core ↔ rest.takeWhile (fun c => c ≠ '-' && c ≠ '+') = core := by
  constructor
  · rintro ⟨suffix, rfl, hsuffix, hcore⟩
    rw [List.takeWhile_append_of_pos fun c hc => by simpa using hcore c hc]
    cases suffix with
    | nil => rw [List.takeWhile_nil, List.append_nil]
    | cons c suffix =>
      rw [List.takeWhile_cons_of_neg, List.append_nil]
      rcases hsuffix c rfl with rfl | rfl <;> decide
  · rintro rfl
    refine ⟨rest.dropWhile fun c => c ≠ '-' && c ≠ '+', List.takeWhile_append_dropWhile.symm,
      fun c hc => ?_, fun c hc => by simpa using List.mem_takeWhile_imp hc⟩
    have hstop := List.head?_dropWhile_not (fun c => c ≠ '-' && c ≠ '+') rest
    rw [hc] at hstop
    by_contra hneither
    simp_all

theorem hasCore_iff {s : String} : HasCore s core ↔ Version.core s = core := by
  simp only [HasCore, trims_iff, dropsLetter_iff, cutsSuffix_iff]
  constructor
  · rintro ⟨body, rest, rfl, rfl, hcore⟩
    exact hcore
  · exact fun hcore => ⟨_, _, rfl, rfl, hcore⟩

/-! ## Reading -/

/-- Three texts with dots between them. -/
def dotted (major minor patch : List Char) : List Char :=
  major ++ '.' :: (minor ++ '.' :: patch)

/-- A text that spells a version: three numerals with dots between them are left of it. -/
def Spells (s : String) (v : Version) : Prop :=
  ∃ major minor patch, HasCore s (dotted major minor patch) ∧
    IsNumeral major v.major ∧ IsNumeral minor v.minor ∧ IsNumeral patch v.patch

theorem splitOn_eq_iff (hmajor : '.' ∉ major) (hminor : '.' ∉ minor) (hpatch : '.' ∉ patch) :
    splitOn '.' core = [major, minor, patch] ↔ core = dotted major minor patch := by
  constructor
  · intro h
    rw [← joinWith_splitOn '.' core, h]
    rfl
  · rintro rfl
    refine splitOn_joinWith (List.cons_ne_nil major [minor, patch]) ?_
    simp only [List.forall_mem_cons, hmajor, hminor, hpatch, not_false_eq_true, true_and]
    exact fun _ h => absurd h List.not_mem_nil

/-- Reading accepts the texts that spell a version, and gives that version. -/
theorem parse_eq_ok_iff_spells {s : String} : parse s = .ok v ↔ Spells s v := by
  simp only [Spells, hasCore_iff]
  rw [parse]
  constructor
  · intro h
    split at h
    · rename_i major minor patch hsplit
      split at h
      · rename_i hmajor hminor hpatch
        cases h
        have hmajor := part?_eq_some_iff.mp hmajor
        have hminor := part?_eq_some_iff.mp hminor
        have hpatch := part?_eq_some_iff.mp hpatch
        exact ⟨major, minor, patch, (splitOn_eq_iff (hmajor.not_mem rfl) (hminor.not_mem rfl)
          (hpatch.not_mem rfl)).mp hsplit, hmajor, hminor, hpatch⟩
      all_goals cases h
    · cases h
  · rintro ⟨major, minor, patch, hcore, hmajor, hminor, hpatch⟩
    have hsplit := (splitOn_eq_iff (hmajor.not_mem rfl) (hminor.not_mem rfl)
      (hpatch.not_mem rfl)).mpr hcore
    simp only [hsplit, part?_eq_some_iff.mpr hmajor, part?_eq_some_iff.mpr hminor,
      part?_eq_some_iff.mpr hpatch]

/-! ## Reading what was written -/

theorem toList_text (v : Version) :
    v.text.toList = dotted (Nat.toDigits 10 v.major.toNat) (Nat.toDigits 10 v.minor.toNat)
      (Nat.toDigits 10 v.patch.toNat) := by
  simp [text, dotted, Nat.toString_eq_repr, Nat.toList_repr]

theorem IsSuffix.trimEnd (h : IsSuffix suffix) : IsSuffix (Text.trimEnd suffix) := by
  obtain ⟨blank, hblank, -⟩ := exists_append_of_trimEnd suffix
  intro c hc
  refine h c ?_
  rw [hblank, List.head?_append, hc]
  rfl

/-- The text of a version: digits and dots, with a digit at either end. -/
structure IsPlain (core : List Char) : Prop where
  startsWithDigit : ∃ c rest, core = c :: rest ∧ c.isDigit = true
  endsWithDigit : ∃ c ∈ core.getLast?, c.isDigit = true
  isDigit_or_dot : ∀ c ∈ core, c.isDigit = true ∨ c = '.'

theorem isPlain_dotted {x y z : UInt32} (hmajor : IsNumeral major x) (hminor : IsNumeral minor y)
    (hpatch : IsNumeral patch z) : IsPlain (dotted major minor patch) where
  startsWithDigit := by
    obtain ⟨c, digits, rfl⟩ := List.exists_cons_of_ne_nil hmajor.ne_nil
    exact ⟨c, _, rfl, hmajor.isDigit c List.mem_cons_self⟩
  endsWithDigit := by
    refine ⟨patch.getLast hpatch.ne_nil, ?_, hpatch.isDigit _ (List.getLast_mem _)⟩
    simp [dotted, List.getLast?_append, List.getLast?_cons,
      List.getLast?_eq_some_getLast hpatch.ne_nil]
  isDigit_or_dot := by
    intro c hc
    simp only [dotted, List.mem_append, List.mem_cons] at hc
    rcases hc with hc | rfl | hc | rfl | hc
    · exact .inl (hmajor.isDigit c hc)
    · exact .inr rfl
    · exact .inl (hminor.isDigit c hc)
    · exact .inr rfl
    · exact .inl (hpatch.isDigit c hc)

/-- A plain text is what is left of it when blanks, a letter and a suffix are put around it. -/
theorem IsPlain.hasCore (h : IsPlain core) {before letter behind : List Char}
    (hbefore : ∀ c ∈ before, isBlank c = true) (hletter : letter = [] ∨ letter = ['v'])
    (hsuffix : IsSuffix suffix) (hbehind : ∀ c ∈ behind, isBlank c = true) {s : String}
    (hs : s.toList = before ++ (letter ++ (core ++ suffix)) ++ behind) : HasCore s core := by
  obtain ⟨blank, hblank, hall⟩ := exists_append_of_trimEnd suffix
  obtain ⟨first, rest, hfirst, hdigit⟩ := h.startsWithDigit
  obtain ⟨last, hlast, hlastDigit⟩ := h.endsWithDigit
  -- Blanks at the end of the suffix are trimmed as well.
  refine ⟨letter ++ (core ++ trimEnd suffix), core ++ trimEnd suffix,
    ⟨before, blank ++ behind, ?_, hbefore, List.forall_mem_append.mpr ⟨hall, hbehind⟩, ?_, ?_⟩, ?_,
    ⟨trimEnd suffix, rfl, hsuffix.trimEnd, fun c hc => ?_⟩⟩
  · rw [hs]
    conv => lhs; rw [hblank]
    simp only [List.append_assoc]
  · intro c hc
    rcases hletter with rfl | rfl
    · rw [hfirst] at hc
      exact isBlank_of_isDigit (Option.some.inj hc ▸ hdigit)
    · obtain rfl : 'v' = c := Option.some.inj hc
      decide
  · intro c hc
    by_cases hnil : trimEnd suffix = []
    · rw [hnil, List.append_nil, List.getLast?_append, hlast] at hc
      exact isBlank_of_isDigit (Option.some.inj hc ▸ hlastDigit)
    · rw [← List.append_assoc, List.getLast?_append_of_ne_nil _ hnil] at hc
      exact endsFilled_trimEnd suffix c hc
  · rcases hletter with rfl | rfl
    · refine .inr ⟨rfl, fun hc => ?_⟩
      rw [hfirst] at hc
      exact absurd (Option.some.inj hc ▸ hdigit) (by decide)
    · exact .inl rfl
  · rcases h.isDigit_or_dot c hc with hdigit | rfl
    · exact ⟨fun e => absurd (e ▸ hdigit) (by decide), fun e => absurd (e ▸ hdigit) (by decide)⟩
    · decide

/-- A version as it is written, with blanks, a letter and a suffix put around it, spells the
version. -/
theorem spells_text (v : Version) {before letter suffix behind : String}
    (hbefore : isBlankText before = true) (hletter : letter = "" ∨ letter = "v")
    (hsuffix : IsSuffix suffix.toList) (hbehind : isBlankText behind = true) :
    Spells (before ++ letter ++ v.text ++ suffix ++ behind) v := by
  have hmajor := isNumeral_toDigits v.major
  have hminor := isNumeral_toDigits v.minor
  have hpatch := isNumeral_toDigits v.patch
  refine ⟨_, _, _, ?_, hmajor, hminor, hpatch⟩
  have hletters : letter.toList = [] ∨ letter.toList = ['v'] :=
    hletter.imp (congrArg String.toList) (congrArg String.toList)
  refine (isPlain_dotted hmajor hminor hpatch).hasCore (List.all_eq_true.mp hbefore) hletters
    hsuffix (List.all_eq_true.mp hbehind) ?_
  simp only [String.toList_append, toList_text, List.append_assoc]

theorem spells_text_append (v : Version) {suffix : String} (h : IsSuffix suffix.toList) :
    Spells (v.text ++ suffix) v := by
  have hspells : Spells ("" ++ "" ++ v.text ++ suffix ++ "") v :=
    spells_text v rfl (.inl rfl) h rfl
  rwa [String.append_empty, String.empty_append, String.empty_append] at hspells

/-- Reading accepts exactly the texts that spell a version, and gives the numbers that they spell;
what is written of a version is read as that version, with blanks, a letter and a suffix put around
it. -/
theorem parse_accepts :
    (∀ s v, parse s = .ok v ↔ Spells s v) ∧
    ∀ (v : Version) (before letter suffix behind : String), isBlankText before = true →
      (letter = "" ∨ letter = "v") → IsSuffix suffix.toList → isBlankText behind = true →
      parse (before ++ letter ++ v.text ++ suffix ++ behind) = .ok v :=
  ⟨fun _ _ => parse_eq_ok_iff_spells, fun v _ _ _ _ hbefore hletter hsuffix hbehind =>
    parse_eq_ok_iff_spells.mpr (spells_text v hbefore hletter hsuffix hbehind)⟩

/-- Leading zeros, the largest number, and a suffix with further suffixes, dots and a blank. -/
theorem parse_accepts_suffixed :
    Spells "007.0.4294967295" ⟨7, 0, 4294967295⟩ ∧ (∀ v, ¬ Spells "1.2.4294967296" v) ∧
    isBlankText "\t " = true ∧ IsSuffix "-v1.2.3+4 ".toList ∧
    parse ("\t " ++ "v" ++ text ⟨10, 20, 30⟩ ++ "-v1.2.3+4 " ++ "\n") = .ok ⟨10, 20, 30⟩ := by
  have hsuffix : IsSuffix "-v1.2.3+4 ".toList := fun c hc => .inl (Option.some.inj hc).symm
  refine ⟨(parse_accepts.1 _ _).mp (by decide), fun v hv => ?_, by decide, hsuffix,
    parse_accepts.2 ⟨10, 20, 30⟩ "\t " "v" "-v1.2.3+4 " "\n" (by decide) (.inr rfl) hsuffix
      (by decide)⟩
  have hparse := (parse_accepts.1 _ v).mpr hv
  have hrefused : parse "1.2.4294967296" = .error .badPatch := by decide
  cases hrefused.symm.trans hparse

end ApiReview.Version
