import ApiReview.Proofs.Settings.Reading

/-!
# Angle brackets left in a value

What is refused in a value with its placeholders put in. A token is a pair of angle brackets with
none between them. The pattern `<[^<]*?>` is looked for from the left and matches as little as it
can, and so it finds the leftmost token (`isFirstMatch_iff`), whatever brackets stand around it. The
value is refused for that token, or for its brackets if it has brackets but no token; what is
accepted has none (`refusal?_tells`).
-/

namespace ApiReview

open Text

namespace Placeholder

variable {token token' part s body : List Char} {c : Char}

/-- A pair of angle brackets with no angle bracket between them. -/
def IsToken (token : List Char) : Prop :=
  ∃ body, token = '<' :: body ++ ['>'] ∧ '<' ∉ body ∧ '>' ∉ body

/-- The leftmost token of a text. -/
def IsFirstToken (token s : List Char) : Prop :=
  IsToken token ∧ ∃ before behind, s = before ++ token ++ behind ∧
    ∀ token' before' behind', IsToken token' → s = before' ++ token' ++ behind' →
      before.length ≤ before'.length

/-- What the pattern `<[^<]*>` stands for. -/
def Matches (part : List Char) : Prop :=
  ∃ body, part = '<' :: body ++ ['>'] ∧ '<' ∉ body

/-- Where the pattern `<[^<]*?>` is found: its leftmost match, and of those that begin there the
shortest. -/
def IsFirstMatch (part s : List Char) : Prop :=
  Matches part ∧ ∃ before behind, s = before ++ part ++ behind ∧
    ∀ part' before' behind', Matches part' → s = before' ++ part' ++ behind' →
      before.length < before'.length ∨
        before.length = before'.length ∧ part.length ≤ part'.length

/-! ## Tokens at the start of a text -/

theorem bracketBody?_eq_some_iff :
    bracketBody? s = some body ↔
      '<' ∉ body ∧ '>' ∉ body ∧ ∃ behind, s = body ++ '>' :: behind := by
  induction s generalizing body with
  | nil => simp [bracketBody?]
  | cons c s ih =>
    rw [bracketBody?]
    by_cases hclose : c = '>'
    · rw [if_pos hclose, hclose]
      constructor
      · rintro ⟨⟩
        exact ⟨List.not_mem_nil, List.not_mem_nil, s, rfl⟩
      · rintro ⟨-, hbody, behind, he⟩
        cases body with
        | nil => rfl
        | cons d body =>
          obtain ⟨rfl, -⟩ := List.cons_eq_cons.mp he
          exact absurd List.mem_cons_self hbody
    · rw [if_neg hclose]
      by_cases hopen : c = '<'
      · rw [if_pos hopen, hopen]
        refine iff_of_false nofun ?_
        rintro ⟨hbody, -, behind, he⟩
        cases body with
        | nil => exact absurd (List.cons_eq_cons.mp he).1 (by decide)
        | cons d body =>
          obtain ⟨rfl, -⟩ := List.cons_eq_cons.mp he
          exact hbody List.mem_cons_self
      · rw [if_neg hopen, Option.map_eq_some_iff]
        constructor
        · rintro ⟨body, hbody, rfl⟩
          obtain ⟨hno, hnc, behind, rfl⟩ := ih.mp hbody
          simp only [List.mem_cons, not_or]
          exact ⟨⟨Ne.symm hopen, hno⟩, ⟨Ne.symm hclose, hnc⟩, behind, rfl⟩
        · rintro ⟨hno, hnc, behind, he⟩
          cases body with
          | nil => exact absurd (List.cons_eq_cons.mp he).1 hclose
          | cons d body =>
            obtain ⟨rfl, rfl⟩ := List.cons_eq_cons.mp he
            simp only [List.mem_cons, not_or] at hno hnc
            exact ⟨body, ih.mpr ⟨hno.2, hnc.2, behind, rfl⟩, rfl⟩

/-- The token at the start of a text is the one that is read there. -/
theorem isToken_and_prefix_iff :
    IsToken token ∧ token <+: c :: s ↔
      c = '<' ∧ ∃ body, bracketBody? s = some body ∧ token = '<' :: body ++ ['>'] := by
  constructor
  · rintro ⟨⟨body, rfl, hno, hnc⟩, behind, he⟩
    rw [List.append_assoc, List.cons_append, List.cons_eq_cons, List.singleton_append] at he
    exact ⟨he.1.symm, body, bracketBody?_eq_some_iff.mpr ⟨hno, hnc, behind, he.2.symm⟩, rfl⟩
  · rintro ⟨rfl, body, hbody, rfl⟩
    obtain ⟨hno, hnc, behind, rfl⟩ := bracketBody?_eq_some_iff.mp hbody
    exact ⟨⟨body, rfl, hno, hnc⟩, behind, by simp⟩

theorem IsToken.eq_of_prefix (h : IsToken token) (h' : IsToken token') (hs : token <+: s)
    (hs' : token' <+: s) : token = token' := by
  cases s with
  | nil =>
    obtain ⟨body, rfl, -⟩ := h
    cases List.prefix_nil.mp hs
  | cons c s =>
    obtain ⟨-, body, hbody, rfl⟩ := isToken_and_prefix_iff.mp ⟨h, hs⟩
    obtain ⟨-, body', hbody', rfl⟩ := isToken_and_prefix_iff.mp ⟨h', hs'⟩
    rw [Option.some.inj (hbody.symm.trans hbody')]

/-! ## The leftmost token -/

theorem firstToken?_of_token (h : IsToken token) (hs : token <+: c :: s) :
    firstToken? (c :: s) = some token := by
  obtain ⟨rfl, body, hbody, rfl⟩ := isToken_and_prefix_iff.mp ⟨h, hs⟩
  rw [firstToken?, if_pos rfl, hbody]

theorem firstToken?_of_no_token (h : ∀ token, IsToken token → ¬ token <+: c :: s) :
    firstToken? (c :: s) = firstToken? s := by
  rw [firstToken?]
  split
  · rename_i hopen
    cases hbody : bracketBody? s with
    | none => rfl
    | some body =>
      obtain ⟨htoken, hs⟩ := isToken_and_prefix_iff.mpr ⟨hopen, body, hbody, rfl⟩
      exact absurd hs (h _ htoken)
  · rfl

theorem isFirstToken_of_prefix (h : IsToken token) (hs : token <+: c :: s) :
    IsFirstToken token' (c :: s) ↔ token = token' := by
  obtain ⟨rest, hrest⟩ := hs
  constructor
  · rintro ⟨h', before, behind, he, hfirst⟩
    have hlength := hfirst token [] rest h hrest.symm
    obtain rfl := List.eq_nil_of_length_eq_zero (Nat.le_zero.mp hlength)
    exact h.eq_of_prefix h' ⟨rest, hrest⟩ ⟨behind, he.symm⟩
  · rintro rfl
    exact ⟨h, [], rest, hrest.symm, fun _ _ _ _ _ => Nat.zero_le _⟩

theorem isFirstToken_of_no_prefix (h : ∀ token, IsToken token → ¬ token <+: c :: s) :
    IsFirstToken token (c :: s) ↔ IsFirstToken token s := by
  -- No token begins with the first character, so each has that one before it.
  have hbehind : ∀ {token before behind}, IsToken token → c :: s = before ++ token ++ behind →
      ∃ before', before = c :: before' ∧ s = before' ++ token ++ behind := by
    intro token before behind htoken he
    cases before with
    | nil => exact absurd ⟨behind, he.symm⟩ (h token htoken)
    | cons d before =>
      obtain ⟨rfl, hs⟩ := List.cons_eq_cons.mp he
      exact ⟨before, rfl, hs⟩
  refine and_congr_right fun htoken => ?_
  constructor
  · rintro ⟨before, behind, he, hfirst⟩
    obtain ⟨before, rfl, hs⟩ := hbehind htoken he
    exact ⟨before, behind, hs, fun token' before' behind' h' he' =>
      Nat.le_of_succ_le_succ (hfirst token' (c :: before') behind' h' (congrArg (c :: ·) he'))⟩
  · rintro ⟨before, behind, rfl, hfirst⟩
    refine ⟨c :: before, behind, rfl, fun token' before' behind' h' he' => ?_⟩
    obtain ⟨before', rfl, hs'⟩ := hbehind h' he'
    exact Nat.succ_le_succ (hfirst token' before' behind' h' hs')

/-- The token that is looked for is the leftmost one. -/
theorem firstToken?_eq_some_iff : firstToken? s = some token ↔ IsFirstToken token s := by
  induction s with
  | nil =>
    refine iff_of_false nofun ?_
    rintro ⟨⟨body, rfl, -⟩, before, behind, he, -⟩
    simp at he
  | cons c s ih =>
    by_cases hstart : ∃ token, IsToken token ∧ token <+: c :: s
    · obtain ⟨token', h', hs'⟩ := hstart
      rw [firstToken?_of_token h' hs', isFirstToken_of_prefix h' hs', Option.some_inj]
    · have hno : ∀ token, IsToken token → ¬ token <+: c :: s :=
        fun token h hs => hstart ⟨token, h, hs⟩
      rw [firstToken?_of_no_token hno, isFirstToken_of_no_prefix hno, ih]

/-- None is found exactly if there is none. -/
theorem firstToken?_eq_none_iff :
    firstToken? s = none ↔ ∀ token, IsToken token → ¬ token <:+: s := by
  induction s with
  | nil =>
    refine iff_of_true rfl ?_
    rintro token ⟨body, rfl, -⟩ hs
    cases List.infix_nil.mp hs
  | cons c s ih =>
    simp only [List.infix_cons_iff, not_or]
    by_cases hstart : ∃ token, IsToken token ∧ token <+: c :: s
    · obtain ⟨token, h, hs⟩ := hstart
      rw [firstToken?_of_token h hs]
      exact iff_of_false nofun fun hall => (hall token h).1 hs
    · have hno : ∀ token, IsToken token → ¬ token <+: c :: s :=
        fun token h hs => hstart ⟨token, h, hs⟩
      rw [firstToken?_of_no_token hno, ih]
      exact forall₂_congr fun token h => (and_iff_right (hno token h)).symm

/-! ## The pattern -/

theorem IsToken.matches (h : IsToken token) : Matches token := by
  obtain ⟨body, rfl, hno, -⟩ := h
  exact ⟨body, rfl, hno⟩

/-- A match ends at its first closing bracket, or goes on behind it. -/
theorem Matches.exists_token (h : Matches part) : ∃ token, IsToken token ∧ token <+: part := by
  obtain ⟨body, rfl, hno⟩ := h
  obtain ⟨front, rest, he, hnc⟩ := List.eq_append_cons_of_mem
    (List.mem_append_right body (List.mem_singleton_self '>'))
  refine ⟨'<' :: front ++ ['>'], ⟨front, rfl, fun hm => ?_, hnc⟩, rest, ?_⟩
  · have hm' : '<' ∈ body ++ ['>'] := he ▸ List.mem_append_left _ hm
    exact (List.mem_append.mp hm').elim hno (by decide)
  · rw [List.cons_append, List.cons_append, List.cons_append, he, List.append_assoc]
    rfl

/-- The pattern finds the leftmost token. -/
theorem isFirstMatch_iff : IsFirstMatch part s ↔ IsFirstToken part s := by
  constructor
  · rintro ⟨hmatch, before, behind, he, hfirst⟩
    obtain ⟨token, htoken, rest, rfl⟩ := hmatch.exists_token
    -- The token that the match begins with is no longer, so it is the match.
    have hshort := hfirst token before (rest ++ behind) htoken.matches
      (by rw [he]; simp only [List.append_assoc])
    obtain rfl : rest = [] := by
      rw [List.length_append] at hshort
      exact List.eq_nil_of_length_eq_zero (by omega)
    rw [List.append_nil] at he hfirst ⊢
    refine ⟨htoken, before, behind, he, fun token' before' behind' h' he' => ?_⟩
    have hleft := hfirst token' before' behind' h'.matches he'
    omega
  · rintro ⟨htoken, before, behind, he, hfirst⟩
    refine ⟨htoken.matches, before, behind, he, fun part' before' behind' h' he' => ?_⟩
    obtain ⟨token', htoken', rest, rfl⟩ := h'.exists_token
    have hleft := hfirst token' before' (rest ++ behind') htoken'
      (by rw [he']; simp only [List.append_assoc])
    refine (Nat.lt_or_eq_of_le hleft).imp id fun hlength => ⟨hlength, ?_⟩
    -- Two tokens that begin at one place are the same.
    have hsame : before ++ (part ++ behind) = before' ++ (token' ++ (rest ++ behind')) := by
      simpa only [List.append_assoc] using he.symm.trans he'
    have hbehind := (List.append_inj hsame hlength).2
    have htokens := htoken.eq_of_prefix htoken' (List.prefix_append part behind)
      ⟨rest ++ behind', hbehind.symm⟩
    rw [htokens, List.length_append]
    exact Nat.le_add_right _ _

/-! ## What is refused -/

theorem hasBracket_iff : hasBracket s = true ↔ '<' ∈ s ∨ '>' ∈ s := by
  rw [hasBracket, List.any_eq_true]
  simp only [Bool.or_eq_true, decide_eq_true_eq, and_or_left, exists_or, exists_eq_right]

theorem IsFirstToken.hasBracket (h : IsFirstToken token s) : hasBracket s = true := by
  obtain ⟨⟨body, rfl, -⟩, before, behind, rfl, -⟩ := h
  exact hasBracket_iff.mpr (.inl (by simp))

variable {field value : String}

/-- A value with brackets is refused, for its first token if it has one. -/
theorem refusal?_of_hasBracket (h : hasBracket value.toList = true) (field : String) :
    refusal? field value =
      some (((firstToken? value.toList).map fun token =>
        .unrecognized field (String.ofList token)).getD (.extraCharacters field value)) := by
  rw [refusal?, h, Bool.not_true, if_neg Bool.false_ne_true]
  cases firstToken? value.toList <;> rfl

theorem refusal?_eq_unrecognized_iff {field' token : String} :
    refusal? field value = some (.unrecognized field' token) ↔
      field' = field ∧ IsFirstToken token.toList value.toList := by
  cases hbracket : hasBracket value.toList with
  | false =>
    rw [refusal?_eq_none_iff.mpr hbracket]
    refine iff_of_false nofun fun htoken => ?_
    rw [htoken.2.hasBracket] at hbracket
    cases hbracket
  | true =>
    rw [refusal?_of_hasBracket hbracket, ← firstToken?_eq_some_iff]
    cases firstToken? value.toList with
    | none => simp
    | some first => simp [eq_comm, String.ext_iff]

theorem refusal?_eq_extraCharacters_iff {field' value' : String} :
    refusal? field value = some (.extraCharacters field' value') ↔
      (field' = field ∧ value' = value) ∧ hasBracket value.toList = true ∧
        ∀ token, IsToken token → ¬ token <:+: value.toList := by
  cases hbracket : hasBracket value.toList with
  | false =>
    rw [refusal?_eq_none_iff.mpr hbracket]
    exact iff_of_false nofun fun h => by cases h.2.1
  | true =>
    rw [refusal?_of_hasBracket hbracket, ← firstToken?_eq_none_iff]
    cases firstToken? value.toList with
    | none => simp [eq_comm]
    | some first => simp

end Placeholder

theorem PlaceholderValues.hasBracket_of_expand {values : PlaceholderValues} {field : String}
    {input : Option String} {text : String} (h : values.expand field input = .ok text) :
    Placeholder.hasBracket text.toList = false := by
  have haccepted := values.toOption_expand field input
  rw [h] at haccepted
  split at haccepted
  · cases haccepted
  · rename_i hbracket
    rw [Option.some.inj haccepted]
    exact Bool.eq_false_iff.mpr hbracket

/-- A text is accepted exactly if it has no angle bracket. It is refused for a token exactly if that
is its leftmost pair of brackets with none between them, where the pattern finds it, and for its
brackets in all other cases. So a value whose placeholders are put in has no angle bracket. -/
theorem Placeholder.refusal?_tells (field value : String) :
    (refusal? field value = none ↔ '<' ∉ value.toList ∧ '>' ∉ value.toList) ∧
      (∀ field' token, refusal? field value = some (.unrecognized field' token) ↔
        field' = field ∧ IsFirstToken token.toList value.toList) ∧
      (∀ part, IsFirstMatch part value.toList ↔ IsFirstToken part value.toList) ∧
      (∀ field' value', refusal? field value = some (.extraCharacters field' value') ↔
        (field' = field ∧ value' = value) ∧ ('<' ∈ value.toList ∨ '>' ∈ value.toList) ∧
          ∀ token, IsToken token → ¬ token <:+: value.toList) ∧
      ∀ (values : PlaceholderValues) (input : Option String) (text : String),
        values.expand field input = .ok text → '<' ∉ text.toList ∧ '>' ∉ text.toList := by
  have hno : ∀ {s}, hasBracket s = false ↔ '<' ∉ s ∧ '>' ∉ s := fun {s} => by
    rw [← Bool.not_eq_true, hasBracket_iff, not_or]
  refine ⟨refusal?_eq_none_iff.trans hno, fun _ _ => refusal?_eq_unrecognized_iff,
    fun _ => isFirstMatch_iff, fun _ _ => ?_, fun values input text h => ?_⟩
  · rw [refusal?_eq_extraCharacters_iff, hasBracket_iff]
  · exact hno.mp (PlaceholderValues.hasBracket_of_expand h)

/-- Brackets inside each other and out of place, and a value whose placeholders are all known. -/
theorem Placeholder.refusal?_tells_nested :
    IsFirstToken "<c>".toList "a><b<c>d><e>".toList ∧
      PlaceholderValues.widgets.expand "reportFolder" (some "<projectFolder>/<packageName>") =
        .ok "/repo/widgets/unknown-package" ∧
      '<' ∉ "/repo/widgets/unknown-package".toList := by
  obtain ⟨-, hunrecognized, -, -, haccepted⟩ := refusal?_tells "reportFolder" "a><b<c>d><e>"
  have hvalue : PlaceholderValues.widgets.expand "reportFolder"
      (some "<projectFolder>/<packageName>") = .ok "/repo/widgets/unknown-package" :=
    eq_ok_of_toOption (by decide +kernel)
  exact ⟨((hunrecognized "reportFolder" "<c>").mp (by decide +kernel)).2, hvalue,
    (haccepted _ _ _ hvalue).1⟩

end ApiReview
