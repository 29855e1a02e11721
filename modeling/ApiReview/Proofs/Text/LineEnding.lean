import ApiReview.Proofs.Text.Replace
import ApiReview.Text.LineEnding

/-!
# Texts in a style of line endings

A text is cut at its line ends in one way (`isCut_iff`): into lines without carriage returns and
line feeds, each with the ending behind it, where a carriage return before a line feed belongs to
it. Writing the text in a style puts the style's ending in the place of each of them and changes
nothing else (`isCut_convert`). So the last style wins, and there are as many endings as before
(`convert_settles`). Three replacements, one after the other, come to the same
(`toList_convert_eq_replaceAll`).
-/

namespace ApiReview.LineEnding

open Text

variable {s last line : List Char} {rest : List (List Char × Ending)}

/-! ## Cut at the line ends -/

/-- A line end as it may stand in a text. -/
inductive Ending where
  | returnFeed
  | feed
  | loneReturn
  deriving DecidableEq, Repr

/-- The characters of a line end. -/
def Ending.chars : Ending → List Char
  | returnFeed => ['\r', '\n']
  | feed => ['\n']
  | loneReturn => ['\r']

/-- Lines with the endings behind them, and what stands behind the last ending. -/
structure Cut where
  ended : List (List Char × Ending)
  last : List Char
  deriving DecidableEq, Repr

/-- Lines with their endings, one after the other. -/
def joined (last : List Char) : List (List Char × Ending) → List Char
  | [] => last
  | (line, ending) :: rest => line ++ (ending.chars ++ joined last rest)

/-- A text without line ends. -/
def IsPlain (s : List Char) : Prop :=
  ∀ c ∈ s, c ≠ '\r' ∧ c ≠ '\n'

/-- Lines without line ends, where a carriage return that is an ending of its own has no line feed
behind it. -/
def IsApart (last : List Char) : List (List Char × Ending) → Prop
  | [] => IsPlain last
  | (line, ending) :: rest =>
    IsPlain line ∧ (ending = .loneReturn → (joined last rest).head? ≠ some '\n') ∧
      IsApart last rest

/-- The cut is that of the text: at each line end, and nowhere else. -/
structure IsCut (cut : Cut) (s : List Char) : Prop where
  joined_eq : joined cut.last cut.ended = s
  apart : IsApart cut.last cut.ended

/-- The ending that a style writes. -/
def ending : LineEnding → Ending
  | crlf => .returnFeed
  | lf => .feed
  | os => .feed

/-- The same lines with the ending of a style behind each. -/
def Cut.inStyle (cut : Cut) (kind : LineEnding) : Cut where
  ended := cut.ended.map fun l => (l.1, kind.ending)
  last := cut.last

theorem chars_ending (kind : LineEnding) : kind.ending.chars = kind.mark := by
  cases kind <;> rfl

theorem Cut.inStyle_inStyle (cut : Cut) (kind other : LineEnding) :
    (cut.inStyle other).inStyle kind = cut.inStyle kind := by
  simp only [inStyle, List.map_map, Function.comp_def]

theorem isPlain_cons {c : Char} : IsPlain (c :: s) ↔ (c ≠ '\r' ∧ c ≠ '\n') ∧ IsPlain s :=
  List.forall_mem_cons

/-! ## There is one cut -/

/-- A cut with one more character at its start. -/
def Cut.put (c : Char) : Cut → Cut
  | ⟨[], last⟩ => ⟨[], c :: last⟩
  | ⟨(line, ending) :: rest, last⟩ => ⟨(c :: line, ending) :: rest, last⟩

/-- A cut with one more ending at its start. -/
def Cut.begin (ending : Ending) (cut : Cut) : Cut :=
  ⟨([], ending) :: cut.ended, cut.last⟩

/-- The cut of a text. -/
def cutOf : List Char → Cut
  | [] => ⟨[], []⟩
  | '\r' :: '\n' :: s => (cutOf s).begin .returnFeed
  | '\r' :: s => (cutOf s).begin .loneReturn
  | '\n' :: s => (cutOf s).begin .feed
  | c :: s => (cutOf s).put c

theorem Cut.joined_put (c : Char) (cut : Cut) :
    joined (cut.put c).last (cut.put c).ended = c :: joined cut.last cut.ended := by
  obtain ⟨ended, last⟩ := cut
  cases ended <;> rfl

theorem Cut.isApart_put {c : Char} (hc : c ≠ '\r' ∧ c ≠ '\n') {cut : Cut}
    (h : IsApart cut.last cut.ended) : IsApart (cut.put c).last (cut.put c).ended := by
  obtain ⟨ended, last⟩ := cut
  cases ended with
  | nil => exact isPlain_cons.mpr ⟨hc, h⟩
  | cons l rest => exact ⟨isPlain_cons.mpr ⟨hc, h.1⟩, h.2⟩

theorem isPlain_nil : IsPlain [] := fun _ h => absurd h List.not_mem_nil

theorem isCut_cutOf (s : List Char) : IsCut (cutOf s) s := by
  fun_induction cutOf s with
  | case1 => exact ⟨rfl, isPlain_nil⟩
  | case2 s ih => exact ⟨congrArg ('\r' :: '\n' :: ·) ih.joined_eq, isPlain_nil, nofun, ih.apart⟩
  | case3 s hpair ih =>
    refine ⟨congrArg ('\r' :: ·) ih.joined_eq, isPlain_nil, fun _ hfeed => ?_, ih.apart⟩
    obtain ⟨rest, hrest⟩ := List.head?_eq_some_iff.mp hfeed
    exact hpair rest (ih.joined_eq.symm.trans hrest)
  | case4 s ih => exact ⟨congrArg ('\n' :: ·) ih.joined_eq, isPlain_nil, nofun, ih.apart⟩
  | case5 c s hpair hreturn hfeed ih =>
    refine ⟨?_, Cut.isApart_put ⟨hreturn, hfeed⟩ ih.apart⟩
    rw [Cut.joined_put, ih.joined_eq]

theorem cutOf_ending {ending : Ending} (h : ending = .loneReturn → s.head? ≠ some '\n') :
    cutOf (ending.chars ++ s) = (cutOf s).begin ending := by
  cases ending with
  | returnFeed => rfl
  | feed => rfl
  | loneReturn =>
    refine cutOf.eq_3 s fun rest hrest => h rfl ?_
    rw [hrest]
    rfl

theorem cutOf_cons {c : Char} (hc : c ≠ '\r' ∧ c ≠ '\n') (s : List Char) :
    cutOf (c :: s) = (cutOf s).put c :=
  cutOf.eq_5 c s (fun _ h => absurd h hc.1) hc.1 hc.2

theorem cutOf_append (h : IsPlain line) (ending : Ending) (cut : Cut)
    (hs : cutOf s = cut.begin ending) :
    cutOf (line ++ s) = ⟨(line, ending) :: cut.ended, cut.last⟩ := by
  induction line with
  | nil => exact hs
  | cons c line ih =>
    obtain ⟨hc, hline⟩ := isPlain_cons.mp h
    rw [List.cons_append, cutOf_cons hc, ih hline]
    rfl

theorem cutOf_of_isPlain (h : IsPlain s) : cutOf s = ⟨[], s⟩ := by
  induction s with
  | nil => rfl
  | cons c s ih =>
    obtain ⟨hc, hs⟩ := isPlain_cons.mp h
    rw [cutOf_cons hc, ih hs]
    rfl

/-- Lines that were joined are cut again. -/
theorem cutOf_joined (h : IsApart last rest) : cutOf (joined last rest) = ⟨rest, last⟩ := by
  induction rest with
  | nil => exact cutOf_of_isPlain h
  | cons l rest ih =>
    obtain ⟨hline, hreturn, hrest⟩ := h
    exact cutOf_append hline l.2 ⟨rest, last⟩ ((cutOf_ending hreturn).trans (by rw [ih hrest]))

/-- A text has one cut. -/
theorem isCut_iff {cut : Cut} : IsCut cut s ↔ cut = cutOf s := by
  constructor
  · rintro ⟨rfl, hapart⟩
    exact (cutOf_joined hapart).symm
  · rintro rfl
    exact isCut_cutOf s

/-- Endings side by side are neither merged nor split. -/
example : cutOf "a\r\r\n\n\rb\r".toList =
    ⟨[(['a'], .loneReturn), ([], .returnFeed), ([], .feed), ([], .loneReturn),
      (['b'], .loneReturn)], []⟩ := by decide

/-! ## Writing in a style -/

theorem unify_return {s : List Char} (h : s.head? ≠ some '\n') :
    unify ('\r' :: s) = '\n' :: unify s := by
  refine unify.eq_3 '\r' s fun rest _ hrest => h ?_
  rw [hrest]
  rfl

theorem unify_cons_of_ne {c : Char} (hc : c ≠ '\r') (s : List Char) :
    unify (c :: s) = c :: unify s := by
  rw [unify.eq_3 c s fun _ e => absurd e hc, if_neg hc]

theorem unify_append (h : IsPlain line) (s : List Char) : unify (line ++ s) = line ++ unify s := by
  induction line with
  | nil => rfl
  | cons c line ih =>
    obtain ⟨hc, hline⟩ := isPlain_cons.mp h
    rw [List.cons_append, unify_cons_of_ne hc.1, ih hline, List.cons_append]

/-- Every line end becomes one line feed. -/
theorem unify_ending {ending : Ending} (h : ending = .loneReturn → s.head? ≠ some '\n') :
    unify (ending.chars ++ s) = '\n' :: unify s := by
  cases ending with
  | returnFeed => rfl
  | feed => exact unify_cons_of_ne (by decide) s
  | loneReturn => exact unify_return (h rfl)

theorem expand_append (kind : LineEnding) (s s' : List Char) :
    kind.expand (s ++ s') = kind.expand s ++ kind.expand s' :=
  List.flatMap_append

theorem expand_feed (kind : LineEnding) (s : List Char) :
    kind.expand ('\n' :: s) = kind.mark ++ kind.expand s := by
  rw [expand, List.flatMap_cons, if_pos rfl]
  rfl

theorem expand_cons_of_ne (kind : LineEnding) {c : Char} (hc : c ≠ '\n') (s : List Char) :
    kind.expand (c :: s) = c :: kind.expand s := by
  rw [expand, List.flatMap_cons, if_neg hc]
  rfl

theorem expand_of_isPlain (kind : LineEnding) (h : IsPlain s) : kind.expand s = s := by
  induction s with
  | nil => rfl
  | cons c s ih =>
    obtain ⟨hc, hs⟩ := isPlain_cons.mp h
    rw [expand_cons_of_ne kind hc.2, ih hs]

/-- Writing in a style puts its ending in the place of each ending. -/
theorem expand_unify_joined (kind : LineEnding) (h : IsApart last rest) :
    kind.expand (unify (joined last rest)) =
      joined last (rest.map fun l => (l.1, kind.ending)) := by
  induction rest with
  | nil =>
    have hunified : unify last = last := unify_of_not_mem fun hm => (h _ hm).1 rfl
    rw [joined, hunified, expand_of_isPlain kind h]
    rfl
  | cons l rest ih =>
    obtain ⟨hline, hreturn, hrest⟩ := h
    rw [joined, unify_append hline, unify_ending hreturn, expand_append, expand_feed,
      expand_of_isPlain kind hline, ih hrest, ← chars_ending]
    rfl

theorem IsApart.inStyle (kind : LineEnding) (h : IsApart last rest) :
    IsApart last (rest.map fun l => (l.1, kind.ending)) := by
  induction rest with
  | nil => exact h
  | cons l rest ih =>
    have hending : kind.ending ≠ .loneReturn := by cases kind <;> decide
    exact ⟨h.1, fun e => absurd e hending, ih h.2.2⟩

/-- A text in a style is cut into the same lines, each with the style's ending. -/
theorem isCut_convert {cut : Cut} {s : String} (h : IsCut cut s.toList) (kind : LineEnding) :
    IsCut (cut.inStyle kind) (kind.convert s).toList := by
  refine ⟨?_, h.apart.inStyle kind⟩
  rw [convert, String.toList_ofList, ← h.joined_eq, expand_unify_joined kind h.apart]
  rfl

/-- The last style wins. -/
theorem convert_convert (kind other : LineEnding) (s : String) :
    kind.convert (other.convert s) = kind.convert s := by
  have hcut := isCut_cutOf s.toList
  have htwice := isCut_convert (isCut_convert hcut other) kind
  rw [Cut.inStyle_inStyle] at htwice
  exact String.toList_inj.mp (htwice.joined_eq.symm.trans (isCut_convert hcut kind).joined_eq)

theorem convert_of_mark {kind : LineEnding} (h : kind.mark = ['\n']) (s : String) :
    (kind.convert s).toList = unify s.toList := by
  rw [convert, String.toList_ofList, expand, h]
  refine (List.flatMap_congr fun c _ => ?_).trans (List.flatMap_singleton' _)
  split
  · rename_i hc
    rw [hc]
  · rfl

/-- Without a carriage return, a text comes back from every style. -/
theorem convert_lf_convert {s : String} (h : '\r' ∉ s.toList) (kind : LineEnding) :
    lf.convert (kind.convert s) = s := by
  rw [convert_convert]
  exact String.toList_inj.mp ((convert_of_mark rfl s).trans (unify_of_not_mem h))

/-! ## Carriage returns and line feeds -/

/-- A line feed stands behind each carriage return, and a carriage return before each line feed. -/
structure InPairs (s : List Char) : Prop where
  behind : ∀ i, s[i]? = some '\r' → s[i + 1]? = some '\n'
  before : ∀ i, s[i]? = some '\n' → ∃ j, i = j + 1 ∧ s[j]? = some '\r'

theorem InPairs.cons {c : Char} (hc : c ≠ '\r' ∧ c ≠ '\n') (h : InPairs s) : InPairs (c :: s) where
  behind i hi := by
    cases i with
    | zero => exact absurd (Option.some.inj hi) hc.1
    | succ i => exact h.behind i hi
  before i hi := by
    cases i with
    | zero => exact absurd (Option.some.inj hi) hc.2
    | succ i =>
      obtain ⟨j, rfl, hj⟩ := h.before i hi
      exact ⟨j + 1, rfl, hj⟩

theorem InPairs.pair (h : InPairs s) : InPairs ('\r' :: '\n' :: s) where
  behind
    | 0, _ => rfl
    | 1, hi => absurd (Option.some.inj hi) (by decide)
    | i + 2, hi => h.behind i hi
  before
    | 0, hi => absurd (Option.some.inj hi) (by decide)
    | 1, _ => ⟨0, rfl, rfl⟩
    | i + 2, hi => by
      obtain ⟨j, rfl, hj⟩ := h.before i hi
      exact ⟨j + 2, rfl, hj⟩

/-- Where each line end is a carriage return and a line feed, there are no others. -/
theorem inPairs_expand (h : '\r' ∉ s) : InPairs (crlf.expand s) := by
  induction s with
  | nil => exact ⟨nofun, nofun⟩
  | cons c s ih =>
    rw [List.mem_cons, not_or] at h
    by_cases hfeed : c = '\n'
    · rw [hfeed, expand_feed]
      exact (ih h.2).pair
    · rw [expand_cons_of_ne crlf hfeed]
      exact (ih h.2).cons ⟨Ne.symm h.1, hfeed⟩

/-! ## One replacement after the other -/

theorem unify_eq_replaceAll (s : List Char) :
    unify s = replaceAll ['\r'] ['\n'] (replaceAll ['\r', '\n'] ['\n'] s) := by
  fun_induction unify s with
  | case1 => rfl
  | case2 s ih =>
    have hpair : replaceAll ['\r', '\n'] ['\n'] ('\r' :: '\n' :: s) =
        '\n' :: replaceAll ['\r', '\n'] ['\n'] s := rfl
    rw [hpair, replaceAll_singleton, List.flatMap_cons, ← replaceAll_singleton, ← ih]
    rfl
  | case3 c s hpair ih =>
    have hstart : ¬ ['\r', '\n'] <+: c :: s := by
      rintro ⟨rest, hrest⟩
      obtain ⟨rfl, rfl⟩ := List.cons_eq_cons.mp hrest
      exact hpair rest rfl rfl
    rw [replaceAll_cons_of_not_start hstart, replaceAll_singleton, List.flatMap_cons,
      ← replaceAll_singleton, ← ih]
    split <;> rfl

theorem toList_convert_eq_replaceAll (kind : LineEnding) (s : String) :
    (kind.convert s).toList = replaceAll ['\n'] kind.mark
      (replaceAll ['\r'] ['\n'] (replaceAll ['\r', '\n'] ['\n'] s.toList)) := by
  rw [← unify_eq_replaceAll, replaceAll_singleton, convert, String.toList_ofList]
  rfl

/-! ## Together -/

/-- A text in a style: one conversion settles it, the styles keep to their characters, and it has
the lines of the text, as they were, with one ending for each of its endings. -/
theorem convert_settles (s : String) :
    (∀ kind other : LineEnding, kind.convert (other.convert s) = kind.convert s) ∧
    '\r' ∉ (lf.convert s).toList ∧
    InPairs (crlf.convert s).toList ∧
    (∃ cut, (∀ cut', IsCut cut' s.toList ↔ cut' = cut) ∧
      ∀ kind cut', IsCut cut' (kind.convert s).toList ↔ cut' = cut.inStyle kind) ∧
    ('\r' ∉ s.toList → ∀ kind : LineEnding, lf.convert (kind.convert s) = s) ∧
    ∀ kind : LineEnding, (kind.convert s).toList = replaceAll ['\n'] kind.mark
      (replaceAll ['\r'] ['\n'] (replaceAll ['\r', '\n'] ['\n'] s.toList)) := by
  refine ⟨fun kind other => convert_convert kind other s, ?_, ?_,
    ⟨cutOf s.toList, fun _ => isCut_iff, fun kind cut' => ?_⟩, convert_lf_convert,
    fun kind => toList_convert_eq_replaceAll kind s⟩
  · rw [convert_of_mark rfl]
    exact not_mem_unify _
  · rw [convert, String.toList_ofList]
    exact inPairs_expand (not_mem_unify _)
  · rw [isCut_iff, ← isCut_iff.mp (isCut_convert (isCut_cutOf s.toList) kind)]

/-- Line feeds come back, and of carriage returns in a row the last style is left. -/
theorem convert_settles_runs :
    '\r' ∉ "a\n\nb\n".toList ∧ lf.convert (crlf.convert "a\n\nb\n") = "a\n\nb\n" ∧
      crlf.convert (lf.convert "a\r\r\n\n\rb\r") = crlf.convert "a\r\r\n\n\rb\r" := by
  have feeds : '\r' ∉ "a\n\nb\n".toList := by decide
  obtain ⟨-, -, -, -, back, -⟩ := convert_settles "a\n\nb\n"
  obtain ⟨last, -⟩ := convert_settles "a\r\r\n\n\rb\r"
  exact ⟨feeds, back feeds crlf, last crlf lf⟩

end ApiReview.LineEnding
