import ApiReview.Proofs.Json.Overlay
import Mathlib.Data.List.Induction
import Mathlib.Tactic.ByContra

/-!
# Documents laid over each other

A list of documents comes to one document, the first one on top (`stack`). At a path of keys the
first document that holds anything there decides (`FirstAt`), unless a shorter path is cut off
before: the first value there is no object, and comes from a document above (`Prevails`). So what
the stack holds is told by the documents alone (`at?_stack_iff`).

It is not enough to look at each document for itself. A value that cuts a path off in one document
says nothing if a document above has an object in its place.
-/

namespace ApiReview.Json

/-- The document that a list of documents comes to, each laid over the next one. -/
def stack (docs : List Json) : Json :=
  docs.foldl (fun upper d => overlay d upper) (.object [])

/-- An object in which no key occurs twice at any level. -/
structure IsDocument (d : Json) : Prop where
  isObject : d.isObject = true
  distinct : Distinct d

/-- The first document that holds anything at the path is the `i`-th, and it holds `v`. -/
structure FirstAt (docs : List Json) (p : List String) (i : Nat) (v : Json) : Prop where
  holds : ∃ d, docs[i]? = some d ∧ d.at? p = some v
  first : ∀ j < i, ∀ d, docs[j]? = some d → d.at? p = none

/-- The first value at the path is `v`, and no document above its own cuts the path off: where such
a document holds the first value at a shorter path, that is an object. -/
def Prevails (docs : List Json) (p : List String) (v : Json) : Prop :=
  ∃ i, FirstAt docs p i v ∧
    ∀ q, Through q p → ∀ j < i, ∀ w, FirstAt docs q j w → w.isObject = true

theorem stack_concat (docs : List Json) (d : Json) :
    stack (docs ++ [d]) = overlay d (stack docs) := by
  simp only [stack, List.foldl_append, List.foldl_cons, List.foldl_nil]

theorem isDocument_stack {docs : List Json} (h : ∀ d ∈ docs, IsDocument d) :
    IsDocument (stack docs) := by
  induction docs using List.reverseRecOn with
  | nil => exact ⟨rfl, trivial⟩
  | append_singleton docs d ih =>
    have hs := ih fun d hd => h d (List.mem_append_left _ hd)
    have hd := h d (List.mem_append_right _ (List.mem_singleton_self d))
    rw [stack_concat]
    exact ⟨(isObject_overlay _ _).trans hs.isObject, distinct_overlay _ hd.distinct hs.distinct⟩

/-! ## The first value at a path -/

theorem FirstAt.lt_length {docs : List Json} {p : List String} {i : Nat} {v : Json}
    (h : FirstAt docs p i v) : i < docs.length := by
  obtain ⟨d, hd, -⟩ := h.holds
  exact (List.getElem?_eq_some_iff.mp hd).1

theorem FirstAt.unique {docs : List Json} {p : List String} {i j : Nat} {v w : Json}
    (h : FirstAt docs p i v) (h' : FirstAt docs p j w) : v = w := by
  obtain ⟨d, hd, hv⟩ := h.holds
  obtain ⟨d', hd', hw⟩ := h'.holds
  rcases Nat.lt_trichotomy i j with hlt | rfl | hlt
  · rw [h'.first i hlt d hd] at hv
    cases hv
  · rw [hd] at hd'
    cases hd'
    rw [hv] at hw
    exact Option.some.inj hw
  · rw [h.first j hlt d' hd'] at hw
    cases hw

/-- The first value at a path in a list with one more document below. -/
theorem firstAt_concat {docs : List Json} {d : Json} {p : List String} {i : Nat} {v : Json} :
    FirstAt (docs ++ [d]) p i v ↔
      FirstAt docs p i v ∨
        i = docs.length ∧ d.at? p = some v ∧ ∀ d' ∈ docs, d'.at? p = none := by
  constructor
  · intro h
    obtain ⟨e, he, hv⟩ := h.holds
    have above : ∀ j < i, j < docs.length → ∀ d', docs[j]? = some d' → d'.at? p = none :=
      fun j hj hl d' hd' => h.first j hj d' (by rw [List.getElem?_append_left hl, hd'])
    by_cases hl : i < docs.length
    · rw [List.getElem?_append_left hl] at he
      exact .inl ⟨⟨e, he, hv⟩, fun j hj => above j hj (Nat.lt_trans hj hl)⟩
    · have hi := h.lt_length
      rw [List.length_append, List.length_singleton] at hi
      have hi : i = docs.length := by omega
      subst hi
      rw [List.getElem?_concat_length] at he
      cases he
      refine .inr ⟨rfl, hv, fun d' hd' => ?_⟩
      obtain ⟨j, hj, hd'⟩ := List.mem_iff_getElem.mp hd'
      exact above j hj hj d' (by rw [List.getElem?_eq_getElem hj, hd'])
  · rintro (h | ⟨rfl, hv, h⟩)
    · obtain ⟨e, he, hv⟩ := h.holds
      have hl := h.lt_length
      exact ⟨⟨e, by rw [List.getElem?_append_left hl, he], hv⟩, fun j hj d' hd' =>
        h.first j hj d' (by rwa [List.getElem?_append_left (Nat.lt_trans hj hl)] at hd')⟩
    · exact ⟨⟨d, List.getElem?_concat_length, hv⟩, fun j hj d' hd' =>
        h d' (List.mem_of_getElem? (by rwa [List.getElem?_append_left hj] at hd'))⟩

/-! ## What a stack holds -/

/-- A path that is cut off in the upper document stays cut off. -/
theorem IsCut.overlay {base top : Json} (hd : Distinct top) {p : List String}
    (h : IsCut top p) : IsCut (Json.overlay base top) p := by
  obtain ⟨q, hq, w, hw, ho⟩ := h
  exact ⟨q, hq, w, at?_overlay_of_some hd hw ho, ho⟩

/-- Where the upper document has nothing and does not cut the path off, the base decides. -/
theorem at?_overlay_of_open {base top : Json} (hb : base.isObject = true) (ht : IsDocument top)
    {p : List String} (hp : p ≠ []) (hn : top.at? p = none) (hc : ¬ IsCut top p) :
    (overlay base top).at? p = base.at? p := by
  obtain ⟨base, rfl⟩ := exists_members hb
  obtain ⟨top, rfl⟩ := exists_members ht.isObject
  obtain ⟨key, p, rfl⟩ := List.exists_cons_of_ne_nil hp
  exact at?_overlay_of_none ht.distinct hn hc

/-- A stack that holds nothing at a path, which is not cut off, has no document that does. -/
theorem at?_eq_none_of_stack {docs : List Json} (h : ∀ d ∈ docs, IsDocument d)
    {p : List String} (hp : p ≠ []) (hn : (stack docs).at? p = none)
    (hc : ¬ IsCut (stack docs) p) : ∀ d ∈ docs, d.at? p = none := by
  induction docs using List.reverseRecOn with
  | nil => exact fun d hd => nomatch hd
  | append_singleton docs d ih =>
    have hdocs : ∀ d ∈ docs, IsDocument d := fun d hd => h d (List.mem_append_left _ hd)
    have hd := h d (List.mem_append_right _ (List.mem_singleton_self d))
    have hs := isDocument_stack hdocs
    rw [stack_concat] at hn hc
    have hc' : ¬ IsCut (stack docs) p := fun h => hc (h.overlay hs.distinct)
    have hn' : (stack docs).at? p = none := by
      cases hv : (stack docs).at? p with
      | none => rfl
      | some v =>
        cases ho : v.isObject with
        | false => rw [at?_overlay_of_some hs.distinct hv ho] at hn; cases hn
        | true =>
          obtain ⟨w, hw, -⟩ := at?_overlay_of_object d hs.distinct hv ho
          rw [hw] at hn
          cases hn
    rw [at?_overlay_of_open hd.isObject hs hp hn' hc'] at hn
    intro e he
    rcases List.mem_append.mp he with he | he
    · exact ih hdocs hn' hc' e he
    · rwa [List.mem_singleton.mp he]

/-- What a stack holds at a path comes from one of its documents. -/
theorem exists_at?_of_stack {docs : List Json} (h : ∀ d ∈ docs, IsDocument d)
    {p : List String} (hp : p ≠ []) {v : Json} (hv : (stack docs).at? p = some v) :
    ∃ d ∈ docs, d.at? p ≠ none := by
  by_contra hno
  have hall : ∀ d ∈ docs, d.at? p = none := fun d hd =>
    Classical.byContradiction fun e => hno ⟨d, hd, e⟩
  clear hno
  induction docs using List.reverseRecOn generalizing v with
  | nil =>
    obtain ⟨key, p, rfl⟩ := List.exists_cons_of_ne_nil hp
    cases hv
  | append_singleton docs d ih =>
    have hdocs : ∀ d ∈ docs, IsDocument d := fun d hd => h d (List.mem_append_left _ hd)
    have hd := h d (List.mem_append_right _ (List.mem_singleton_self d))
    have hs := isDocument_stack hdocs
    rw [stack_concat] at hv
    cases hu : (stack docs).at? p with
    | some u => exact ih hdocs hu fun d hd => hall d (List.mem_append_left _ hd)
    | none =>
      by_cases hc : IsCut (stack docs) p
      · rw [(hc.overlay hs.distinct).at?_eq_none] at hv
        cases hv
      · rw [at?_overlay_of_open hd.isObject hs hp hu hc,
          hall d (List.mem_append_right _ (List.mem_singleton_self d))] at hv
        cases hv

/-- Where each path's value in the stack is known, a path is cut off exactly if some first value on
its way is no object. -/
theorem isCut_stack_iff {docs : List Json}
    (ih : ∀ {q : List String}, q ≠ [] → ∀ {w : Json}, w.isObject = false →
      ((stack docs).at? q = some w ↔ Prevails docs q w)) {p : List String} :
    IsCut (stack docs) p ↔
      ∃ q, Through q p ∧ ∃ j w, FirstAt docs q j w ∧ w.isObject = false := by
  constructor
  · rintro ⟨q, hq, w, hw, ho⟩
    obtain ⟨j, hj, -⟩ := (ih hq.1 ho).mp hw
    exact ⟨q, hq, j, w, hj, ho⟩
  · rintro ⟨q, hq, j, w, hj, ho⟩
    -- The shortest such path is not itself cut off.
    induction hl : q.length using Nat.strongRecOn generalizing q j w with
    | ind l shorter =>
      by_cases hr : ∃ r, Through r q ∧ ∃ i < j, ∃ u, FirstAt docs r i u ∧ u.isObject = false
      · obtain ⟨r, hrq, i, -, u, hi, hu⟩ := hr
        exact shorter r.length (hl ▸ hrq.length_lt) r (hrq.trans hq) i u hi hu rfl
      · refine ⟨q, hq, w, (ih hq.1 ho).mpr ⟨j, hj, fun r hrq i hij u hu => ?_⟩, ho⟩
        exact Classical.byContradiction fun e =>
          hr ⟨r, hrq, i, hij, u, hu, Bool.eq_false_iff.mpr e⟩

/-- At a path where the documents above hold nothing and do not cut it off, the last document
decides. -/
theorem prevails_concat_of_open {docs : List Json} {d : Json} {p : List String} {v : Json}
    (hn : ∀ d' ∈ docs, d'.at? p = none)
    (hc : ¬ ∃ q, Through q p ∧ ∃ j w, FirstAt docs q j w ∧ w.isObject = false) :
    Prevails (docs ++ [d]) p v ↔ d.at? p = some v := by
  constructor
  · rintro ⟨i, hi, -⟩
    rcases firstAt_concat.mp hi with hi | ⟨-, hv, -⟩
    · obtain ⟨e, he, hv⟩ := hi.holds
      rw [hn e (List.mem_of_getElem? he)] at hv
      cases hv
    · exact hv
  · intro hv
    refine ⟨docs.length, firstAt_concat.mpr (.inr ⟨rfl, hv, hn⟩), fun q hq j hj w hw => ?_⟩
    rcases firstAt_concat.mp hw with hw | ⟨rfl, -, -⟩
    · exact Classical.byContradiction fun e =>
        hc ⟨q, hq, j, w, hw, Bool.eq_false_iff.mpr e⟩
    · exact absurd hj (Nat.lt_irrefl _)

/-- A value that prevails stays when a document is put below. -/
theorem Prevails.concat {docs : List Json} {p : List String} {v : Json} (h : Prevails docs p v)
    (d : Json) : Prevails (docs ++ [d]) p v := by
  obtain ⟨i, hi, hc⟩ := h
  refine ⟨i, firstAt_concat.mpr (.inl hi), fun q hq j hj w hw => ?_⟩
  rcases firstAt_concat.mp hw with hw | ⟨rfl, -, -⟩
  · exact hc q hq j hj w hw
  · exact absurd (Nat.lt_trans hj hi.lt_length) (Nat.lt_irrefl _)

theorem Prevails.unique {docs : List Json} {p : List String} {v w : Json} (h : Prevails docs p v)
    (h' : Prevails docs p w) : v = w := by
  obtain ⟨i, hi, -⟩ := h
  obtain ⟨j, hj, -⟩ := h'
  exact hi.unique hj

/-- A value prevails above a further document, or it is that document's own. -/
theorem Prevails.of_concat {docs : List Json} {d : Json} {p : List String} {v : Json}
    (h : Prevails (docs ++ [d]) p v) :
    Prevails docs p v ∨ (∀ d' ∈ docs, d'.at? p = none) ∧
      ¬ ∃ q, Through q p ∧ ∃ j w, FirstAt docs q j w ∧ w.isObject = false := by
  obtain ⟨i, hi, hc⟩ := h
  have above : ∀ q, Through q p → ∀ j < i, ∀ w, FirstAt docs q j w → w.isObject = true :=
    fun q hq j hj w hw => hc q hq j hj w (firstAt_concat.mpr (.inl hw))
  rcases firstAt_concat.mp hi with hi | ⟨rfl, -, hn⟩
  · exact .inl ⟨i, hi, above⟩
  · refine .inr ⟨hn, fun ⟨q, hq, j, w, hw, ho⟩ => ?_⟩
    rw [above q hq j hw.lt_length w hw] at ho
    cases ho

/-- What a stack holds at a path, told by its documents: a value other than an object is there
exactly if it prevails. -/
theorem at?_stack_iff {docs : List Json} (h : ∀ d ∈ docs, IsDocument d) {p : List String}
    (hp : p ≠ []) {v : Json} (ho : v.isObject = false) :
    (stack docs).at? p = some v ↔ Prevails docs p v := by
  induction docs using List.reverseRecOn generalizing p v with
  | nil =>
    obtain ⟨key, p, rfl⟩ := List.exists_cons_of_ne_nil hp
    exact ⟨fun hv => (by cases hv), fun ⟨i, hi, _⟩ => absurd hi.lt_length (Nat.not_lt_zero i)⟩
  | append_singleton docs d ih =>
    have hdocs : ∀ d ∈ docs, IsDocument d := fun d hd => h d (List.mem_append_left _ hd)
    have hd := h d (List.mem_append_right _ (List.mem_singleton_self d))
    have hs := isDocument_stack hdocs
    have ih : ∀ {q : List String}, q ≠ [] → ∀ {w : Json}, w.isObject = false →
        ((stack docs).at? q = some w ↔ Prevails docs q w) := fun hq _ hw => ih hdocs hq hw
    rw [stack_concat]
    cases hu : (stack docs).at? p with
    | some u =>
      cases hw : u.isObject with
      | false =>
        have hup := (ih hp hw).mp hu
        rw [at?_overlay_of_some hs.distinct hu hw, Option.some.injEq]
        exact ⟨fun e => e ▸ hup.concat d, fun hv => (hup.concat d).unique hv⟩
      | true =>
        obtain ⟨w, hw', hwo⟩ := at?_overlay_of_object d hs.distinct hu hw
        rw [hw']
        refine ⟨fun e => ?_, fun hv => ?_⟩
        · rw [Option.some.inj e, ho] at hwo
          cases hwo
        · rcases hv.of_concat with hv | ⟨hn, -⟩
          · rw [(ih hp ho).mpr hv] at hu
            rw [← Option.some.inj hu, ho] at hw
            cases hw
          · obtain ⟨e, he, hne⟩ := exists_at?_of_stack hdocs hp hu
            exact absurd (hn e he) hne
    | none =>
      by_cases hc : IsCut (stack docs) p
      · rw [(hc.overlay hs.distinct).at?_eq_none]
        refine ⟨fun e => (by cases e), fun hv => ?_⟩
        rcases hv.of_concat with hv | ⟨-, hno⟩
        · rw [(ih hp ho).mpr hv] at hu
          cases hu
        · exact absurd ((isCut_stack_iff ih).mp hc) hno
      · rw [at?_overlay_of_open hd.isObject hs hp hu hc]
        exact (prevails_concat_of_open (at?_eq_none_of_stack hdocs hp hu hc)
          fun hno => hc ((isCut_stack_iff ih).mpr hno)).symm

end ApiReview.Json
