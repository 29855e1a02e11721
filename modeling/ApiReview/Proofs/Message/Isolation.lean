import ApiReview.Message.Router
import ApiReview.Proofs.Text.Search

/-!
# The rules of each category

The rules by id of all categories stand in one table. Still, the rule for a message is told from the
table of its category alone (`ruleFor_eq`): the ids that the tables may list differ in their first
letter, so none puts its rules in the place of another's. Settings that agree on the table of a
category thus treat its messages alike (`ruleFor_eq_of_table_eq`).
-/

namespace ApiReview

open Json (Codec)
open Text

/-! ## Entries of tables -/

namespace RuleTable

/-- The rule of the entry for an id, of the last one if there are several. -/
def lastRule? (table : RuleTable) (id : String) : Option Rule :=
  (table.filter fun e => e.1 = id).getLast?.map (·.2)

/-- The rule that a table gives for an id: that of the entry for the id, else that of the entry for
all other ids, wherever it stands, else the built-in one. -/
def ruleOf (table : RuleTable) (id : String) : Rule :=
  ((lastRule? table id).or (lastRule? table Reporting.defaultKey)).getD .builtin

theorem lastRule?_cons (e : String × Rule) (table : RuleTable) (id : String) :
    lastRule? (e :: table) id = (lastRule? table id).or (if e.1 = id then some e.2 else none) := by
  rw [lastRule?, lastRule?, List.filter_cons]
  by_cases h : e.1 = id
  · rw [if_pos (decide_eq_true h), if_pos h, List.getLast?_cons]
    cases (table.filter fun e => decide (e.1 = id)).getLast? <;> rfl
  · rw [if_neg (by simpa using h), if_neg h, Option.or_none]

theorem lastRule?_eq_none {table : RuleTable} {id : String} (h : ∀ e ∈ table, e.1 ≠ id) :
    lastRule? table id = none := by
  rw [lastRule?, List.filter_eq_nil_iff.mpr fun e he => by simpa using h e he]
  rfl

/-- In a table without repeated keys there is one entry for an id. -/
theorem lastRule?_eq_lookup {table : RuleTable} (h : (table.map Prod.fst).Nodup) (id : String) :
    lastRule? table id = table.lookup id := by
  induction table with
  | nil => rfl
  | cons e table ih =>
    obtain ⟨hnew, hrest⟩ := List.nodup_cons.mp h
    rw [lastRule?_cons, List.lookup_cons]
    by_cases he : e.1 = id
    · have hnone : lastRule? table id = none :=
        lastRule?_eq_none fun e' he' heq => hnew (List.mem_map.mpr ⟨e', he', heq.trans he.symm⟩)
      rw [hnone, if_pos he, Option.none_or, beq_iff_eq.mpr he.symm]
    · rw [if_neg he, Option.or_none, ih hrest, beq_eq_false_iff_ne.mpr (Ne.symm he)]

end RuleTable

theorem lookup_putEntry {α : Type} (key : String) (a : α) (entries : List (String × α))
    (id : String) :
    (Codec.putEntry key a entries).lookup id = if key = id then some a else entries.lookup id := by
  induction entries with
  | nil =>
    rw [Codec.putEntry, List.lookup_cons]
    by_cases h : key = id
    · rw [if_pos h, beq_iff_eq.mpr h.symm]
    · rw [if_neg h, beq_eq_false_iff_ne.mpr (Ne.symm h)]
  | cons e rest ih =>
    obtain ⟨k, b⟩ := e
    rw [Codec.putEntry]
    by_cases hk : k = key
    · subst hk
      rw [if_pos rfl, List.lookup_cons, List.lookup_cons]
      by_cases h : k = id
      · rw [if_pos h, beq_iff_eq.mpr h.symm]
      · rw [if_neg h, beq_eq_false_iff_ne.mpr (Ne.symm h)]
    · rw [if_neg hk, List.lookup_cons, List.lookup_cons, ih]
      by_cases h : key = id
      · rw [if_pos h, if_pos h, beq_eq_false_iff_ne.mpr fun e => hk (e.symm.trans h.symm)]
      · rw [if_neg h, if_neg h]

namespace RuleBook

/-- Among rules by id, those of entries put there come first, the last one before the others. -/
theorem lookup_foldl_putEntry (entries byId : RuleTable) (id : String) :
    (entries.foldl (fun rules e => Codec.putEntry e.1 e.2 rules) byId).lookup id =
      (RuleTable.lastRule? entries id).or (byId.lookup id) := by
  induction entries generalizing byId with
  | nil => rfl
  | cons e rest ih =>
    rw [List.foldl_cons, ih, lookup_putEntry, RuleTable.lastRule?_cons]
    by_cases h : e.1 = id
    · rw [if_pos h, if_pos h, Option.or_assoc, Option.some_or]
    · rw [if_neg h, if_neg h, Option.or_none]

theorem lookup_addTable (byId table : RuleTable) {id : String} (h : id ≠ Reporting.defaultKey) :
    (addTable byId table).lookup id = (RuleTable.lastRule? table id).or (byId.lookup id) := by
  have hsame : RuleTable.lastRule? (table.filter fun e => e.1 ≠ Reporting.defaultKey) id =
      RuleTable.lastRule? table id := by
    rw [RuleTable.lastRule?, RuleTable.lastRule?, List.filter_filter]
    refine congrArg (fun l => (List.getLast? l).map Prod.snd) (List.filter_congr fun e _ => ?_)
    by_cases he : e.1 = id
    · subst he
      simp [h]
    · simp [he]
  rw [addTable, lookup_foldl_putEntry, hsame]

end RuleBook

/-! ## Ids of categories -/

/-- Whether an id has the shape that the ids of a category have. -/
def Category.lists : Category → String → Bool
  | compiler, id => Reporting.isCompilerId id
  | extractor, id => startsWith "ae-" id
  | tsdoc, id => startsWith "tsdoc-" id
  | console, _ => false

/-- The first letter of the ids of a category. -/
def Category.letter? : Category → Option Char
  | compiler => some 'T'
  | extractor => some 'a'
  | tsdoc => some 't'
  | console => none

theorem Category.head?_of_lists {c : Category} {id : String} (h : c.lists id = true) :
    id.toList.head? = c.letter? := by
  cases c with
  | compiler =>
    rw [lists, Reporting.isCompilerId] at h
    split at h
    · rename_i digits hdigits
      rw [afterStart?_eq_some_iff.mp hdigits]
      rfl
    · cases h
  | extractor =>
    obtain ⟨rest, hrest⟩ := startsWith_iff.mp h
    rw [← hrest]
    rfl
  | tsdoc =>
    obtain ⟨rest, hrest⟩ := startsWith_iff.mp h
    rw [← hrest]
    rfl
  | console => cases h

/-- No id has the shape of two categories. -/
theorem Category.eq_of_lists {c c' : Category} {id : String} (h : c.lists id = true)
    (h' : c'.lists id = true) : c = c' := by
  have hletter : c.letter? = c'.letter? := (head?_of_lists h).symm.trans (head?_of_lists h')
  cases c <;> cases c' <;> first | rfl | cases h | cases h' | exact absurd hletter (by decide)

theorem Category.ne_defaultKey_of_lists {c : Category} {id : String} (h : c.lists id = true) :
    id ≠ Reporting.defaultKey := by
  rintro rfl
  cases c <;> exact absurd h (by decide)

namespace Reporting

/-- The table of a category; progress messages have none. -/
def table (r : Reporting) : Category → RuleTable
  | .compiler => r.compiler
  | .extractor => r.extractor
  | .tsdoc => r.tsdoc
  | .console => []

/-- The tables of valid settings list ids of their categories, and the key for all other ids. -/
theorem lists_of_mem_table {r : Reporting} (h : r.problem? = none) {c : Category}
    {e : String × Rule} (he : e ∈ r.table c) : e.1 = defaultKey ∨ c.lists e.1 = true := by
  rw [problem?, Option.or_eq_none_iff, Option.or_eq_none_iff, List.findSome?_eq_none_iff,
    List.findSome?_eq_none_iff, List.findSome?_eq_none_iff] at h
  obtain ⟨hcompiler, hextractor, htsdoc⟩ := h
  have hkey : ∀ {t : RuleTable}, e ∈ t → e.1 ∈ t.map (·.1) := fun ht => List.mem_map_of_mem ht
  cases c with
  | compiler =>
    have hid := hcompiler e.1 (hkey he)
    rw [compilerProblem?] at hid
    split at hid
    · rename_i hshape
      simpa [Category.lists] using hshape
    · cases hid
  | extractor =>
    have hid := hextractor e.1 (hkey he)
    rw [extractorProblem?] at hid
    split at hid
    · exact .inl ‹_›
    · split at hid
      · cases hid
      · rename_i hstart
        exact .inr (by simpa [Category.lists] using hstart)
  | tsdoc =>
    have hid := htsdoc e.1 (hkey he)
    rw [tsdocProblem?] at hid
    split at hid
    · rename_i hshape
      simpa [Category.lists] using hshape
    · cases hid
  | console => cases he

/-- The tables of the other categories have no entry for an id. -/
theorem lastRule?_of_ne {r : Reporting} (h : r.problem? = none) {c c' : Category} {id : String}
    (hid : c.lists id = true) (hne : c' ≠ c) : RuleTable.lastRule? (r.table c') id = none := by
  refine RuleTable.lastRule?_eq_none fun e he heq => ?_
  subst heq
  rcases lists_of_mem_table h he with hdefault | hlists
  · exact Category.ne_defaultKey_of_lists hid hdefault
  · exact hne (Category.eq_of_lists hlists hid)

end Reporting

/-! ## Rules for messages -/

/-- The rule for a message whose id has the shape of its category's ids is told from the table of
that category. -/
theorem RuleBook.ruleFor_eq {r : Reporting} (h : r.problem? = none) {m : Message}
    (hm : m.category.lists m.id = true) :
    (ofReporting r).ruleFor m = RuleTable.ruleOf (r.table m.category) m.id := by
  have hne := Category.ne_defaultKey_of_lists hm
  have hlookup : (ofReporting r).byId.lookup m.id = (RuleTable.lastRule? r.tsdoc m.id).or
      ((RuleTable.lastRule? r.extractor m.id).or
        ((RuleTable.lastRule? r.compiler m.id).or none)) := by
    rw [ofReporting, lookup_addTable _ _ hne, lookup_addTable _ _ hne, lookup_addTable _ _ hne]
    rfl
  have hother : ∀ c, c ≠ m.category → RuleTable.lastRule? (r.table c) m.id = none := fun c hc =>
    Reporting.lastRule?_of_ne h hm hc
  have hotherwise : (ofReporting r).otherwise m.category =
      (RuleTable.lastRule? (r.table m.category) Reporting.defaultKey).getD .builtin := by
    cases m.category <;> rfl
  have hown : (ofReporting r).byId.lookup m.id = RuleTable.lastRule? (r.table m.category) m.id := by
    rw [hlookup]
    cases hc : m.category with
    | compiler =>
      rw [show RuleTable.lastRule? r.tsdoc m.id = none from hother .tsdoc (by rw [hc]; decide),
        show RuleTable.lastRule? r.extractor m.id = none from
          hother .extractor (by rw [hc]; decide)]
      simp only [Option.none_or, Option.or_none, Reporting.table]
    | extractor =>
      rw [show RuleTable.lastRule? r.tsdoc m.id = none from hother .tsdoc (by rw [hc]; decide),
        show RuleTable.lastRule? r.compiler m.id = none from hother .compiler (by rw [hc]; decide)]
      simp only [Option.none_or, Option.or_none, Reporting.table]
    | tsdoc =>
      rw [show RuleTable.lastRule? r.extractor m.id = none from
          hother .extractor (by rw [hc]; decide),
        show RuleTable.lastRule? r.compiler m.id = none from hother .compiler (by rw [hc]; decide)]
      simp only [Option.or_none, Reporting.table]
    | console =>
      rw [hc] at hm
      cases hm
  rw [ruleFor, hown, hotherwise, RuleTable.ruleOf]
  cases RuleTable.lastRule? (r.table m.category) m.id <;> rfl

/-- Valid settings that agree on the table of a category treat its messages alike: by the entry of
the table for their id, else by its entry for all other ids, else by the built-in rule. -/
theorem ruleFor_eq_of_table_eq {r r' : Reporting} (h : r.problem? = none) (h' : r'.problem? = none)
    {c : Category} (htable : r.table c = r'.table c) {m : Message} (hc : m.category = c)
    (hm : c.lists m.id = true) :
    (RuleBook.ofReporting r).ruleFor m = RuleTable.ruleOf (r.table c) m.id ∧
      (RuleBook.ofReporting r').ruleFor m = RuleTable.ruleOf (r.table c) m.id ∧
      (((r.table c).map Prod.fst).Nodup → RuleTable.ruleOf (r.table c) m.id =
        (((r.table c).lookup m.id).or ((r.table c).lookup Reporting.defaultKey)).getD .builtin) ∧
      ∀ {σ : Type} (callback : Callback σ) (state : σ) (folder : Option Path) (display : Display),
        (Router.start r callback state folder display).withRule m =
            (Router.start r' callback state folder display).withRule m ∧
          (Router.start r callback state folder display).findings.isClaimable m =
            (Router.start r' callback state folder display).findings.isClaimable m := by
  subst hc
  have hfirst := RuleBook.ruleFor_eq h hm
  have hsecond := RuleBook.ruleFor_eq h' hm
  rw [← htable] at hsecond
  refine ⟨hfirst, hsecond, fun hkeys => ?_, fun callback state folder display => ?_⟩
  · rw [RuleTable.ruleOf, RuleTable.lastRule?_eq_lookup hkeys, RuleTable.lastRule?_eq_lookup hkeys]
  · have hsame := hfirst.trans hsecond.symm
    have hbook : ∀ reporting,
        (Router.start reporting callback state folder display).findings.rules =
          RuleBook.ofReporting reporting := fun _ => rfl
    rw [Router.withRule, Router.withRule, Findings.isClaimable, Findings.isClaimable, hbook, hbook,
      hsame]
    exact ⟨rfl, rfl⟩

/-- Rules for the findings of the analysis, with the rule for all other ids in the middle. -/
def extractorRules : RuleTable :=
  [("ae-forgotten-export", ⟨.error, true⟩), ("default", ⟨.warning, false⟩),
    ("ae-undocumented", ⟨.silent, false⟩)]

/-- Other rules for the compiler change nothing for the findings of the analysis. -/
theorem ruleFor_eq_of_extractorRules :
    Reporting.problem? ⟨[("TS2304", ⟨.error, false⟩)], extractorRules, []⟩ = none ∧
      Reporting.problem? ⟨[("default", ⟨.info, true⟩)], extractorRules,
        [("tsdoc-undefined-tag", ⟨.error, true⟩)]⟩ = none ∧
      Category.extractor.lists "ae-unresolved-link" = true ∧
      (RuleBook.ofReporting ⟨[("TS2304", ⟨.error, false⟩)], extractorRules, []⟩).ruleFor
          (.plain .extractor "ae-unresolved-link" "x") = ⟨.warning, false⟩ ∧
      (RuleBook.ofReporting ⟨[("default", ⟨.info, true⟩)], extractorRules,
          [("tsdoc-undefined-tag", ⟨.error, true⟩)]⟩).ruleFor
          (.plain .extractor "ae-unresolved-link" "x") = ⟨.warning, false⟩ := by
  have hfirst : Reporting.problem? ⟨[("TS2304", ⟨.error, false⟩)], extractorRules, []⟩ = none := by
    decide +kernel
  have hsecond : Reporting.problem? ⟨[("default", ⟨.info, true⟩)], extractorRules,
    [("tsdoc-undefined-tag", ⟨.error, true⟩)]⟩ = none := by decide +kernel
  have hid : Category.extractor.lists "ae-unresolved-link" = true := by decide +kernel
  obtain ⟨hrule, hrule', -, -⟩ := ruleFor_eq_of_table_eq hfirst hsecond
    (c := .extractor) (m := .plain .extractor "ae-unresolved-link" "x") rfl rfl hid
  exact ⟨hfirst, hsecond, hid, hrule, hrule'⟩

end ApiReview
