import ApiReview.Proofs.Json.Keys
import ApiReview.Proofs.Json.Stack

/-!
# Documents laid beneath a value

Documents can be laid beneath a value one after the other (`beneath`), or come to one document first,
over which the value is laid then. Behind a key both start from the first value there
(`beneathFirst`). They differ where the value has an object and the first document there something
else: that hides the documents below it in their stack, while the object has taken its place in the
other order, and takes in what is below. So both come to the same exactly if nothing is there that
the object would take in (`beneath_eq_overlay_stack_iff`).
-/

namespace ApiReview.Json

/-- A value with documents laid beneath it, each beneath what was there before. -/
def beneath (docs : List Json) (top : Json) : Json :=
  docs.foldl (fun upper d => overlay d upper) top

/-- The objects that the documents hold at a path of keys, in their order. -/
def objectsAt (docs : List Json) (p : List String) : List Json :=
  (docs.filterMap (at? p)).filter isObject

/-- Wherever the value has an object and the stack of the documents has something else, the objects
of the documents add nothing to that of the value. -/
def ClosesOver (docs : List Json) (top : Json) : Prop :=
  ∀ p m u, top.at? p = some (.object m) → (stack docs).at? p = some u → u.isObject = false →
    beneath (objectsAt docs p) (.object m) = .object m

theorem beneath_cons (d : Json) (docs : List Json) (top : Json) :
    beneath (d :: docs) top = beneath docs (overlay d top) := rfl

theorem beneath_of_not_object (docs : List Json) {top : Json} (h : top.isObject = false) :
    beneath docs top = top := by
  induction docs with
  | nil => rfl
  | cons d docs ih => rw [beneath_cons, overlay_of_not_object h, ih]

/-- Beneath an object only objects matter. -/
theorem beneath_filter (docs : List Json) {top : Json} (h : top.isObject = true) :
    beneath (docs.filter isObject) top = beneath docs top := by
  induction docs generalizing top with
  | nil => rfl
  | cons d docs ih =>
    cases hd : d.isObject with
    | true =>
      rw [List.filter_cons_of_pos hd, beneath_cons, beneath_cons,
        ih ((isObject_overlay d top).trans h)]
    | false =>
      obtain ⟨members, rfl⟩ := exists_members h
      rw [List.filter_cons_of_neg (Bool.eq_false_iff.mp hd), beneath_cons,
        overlay_object_of_not_object hd, ih h]

theorem objectsAt_nil (docs : List Json) : objectsAt docs [] = docs.filter isObject := by
  have h : docs.filterMap (at? []) = docs := List.filterMap_some
  rw [objectsAt, h]

/-- What is no object holds no object at any path. -/
theorem objectsAt_filter (docs : List Json) (p : List String) :
    objectsAt (docs.filter isObject) p = objectsAt docs p := by
  cases p with
  | nil => rw [objectsAt_nil, objectsAt_nil, List.filter_filter]; simp
  | cons key p =>
    rw [objectsAt, objectsAt]
    congr 1
    induction docs with
    | nil => rfl
    | cons d docs ih =>
      cases hd : d.isObject with
      | true => rw [List.filter_cons_of_pos hd, List.filterMap_cons, List.filterMap_cons, ih]
      | false =>
        rw [List.filter_cons_of_neg (Bool.eq_false_iff.mp hd), ih,
          List.filterMap_cons_none (at?_cons_of_not_object hd key p)]

/-! ## Behind a key -/

/-- The first of the values with the others laid beneath it. -/
def beneathFirst : List Json → Option Json
  | [] => none
  | v :: rest => some (beneath rest v)

/-- The members of an object with those of others laid beneath them. -/
def beneathMembers (docs : List Members) (top : Members) : Members :=
  docs.foldl (fun upper d => overlayMembers d upper) top

theorem beneath_objects (docs : List Members) (top : Members) :
    beneath (docs.map .object) (.object top) = .object (beneathMembers docs top) := by
  induction docs generalizing top with
  | nil => rfl
  | cons d docs ih => rw [List.map_cons, beneath_cons, overlay_object, ih]; rfl

theorem stack_objects (docs : List Members) :
    stack (docs.map .object) = .object (beneathMembers docs []) :=
  beneath_objects docs []

theorem distinct_beneathMembers {docs : List Members} (h : ∀ d ∈ docs, DistinctMembers d)
    {top : Members} (ht : DistinctMembers top) : DistinctMembers (beneathMembers docs top) := by
  induction docs generalizing top with
  | nil => exact ht
  | cons d docs ih =>
    have hd := distinctMembers_overlay top (h d List.mem_cons_self) ht
    exact ih (fun d hd => h d (List.mem_cons_of_mem _ hd)) hd

/-- A key has the first of its values, with the further ones laid beneath it. -/
theorem find?_beneathMembers (key : String) {docs : List Members}
    (h : ∀ d ∈ docs, DistinctMembers d) {top : Members} (ht : DistinctMembers top) :
    find? key (beneathMembers docs top) =
      beneathFirst ((find? key top).toList ++ docs.filterMap (find? key)) := by
  induction docs generalizing top with
  | nil =>
    rw [List.filterMap_nil, List.append_nil]
    show find? key top = beneathFirst (find? key top).toList
    cases find? key top <;> rfl
  | cons d docs ih =>
    have hd := distinctMembers_overlay top (h d List.mem_cons_self) ht
    have ih := ih (fun d hd => h d (List.mem_cons_of_mem _ hd)) hd
    rw [find?_overlayMembers key ht] at ih
    refine Eq.trans ih ?_
    cases find? key top <;> cases hk : find? key d <;>
      simp only [List.filterMap_cons, hk, Option.map_none, Option.map_some, Option.getD_none,
        Option.getD_some] <;> rfl

/-- The keys beneath which documents are laid come last. -/
theorem keys_beneathMembers {docs : List Members} (h : ∀ d ∈ docs, DistinctMembers d)
    {top : Members} (ht : DistinctMembers top) :
    keys (beneathMembers docs top) =
      keys (overlayMembers (beneathMembers docs []) top) := by
  rw [keys_overlayMembers ht]
  induction docs using List.reverseRecOn with
  | nil =>
    show keys top = [] ++ (keys top).filter (· ∉ [])
    rw [List.nil_append, List.filter_eq_self.mpr (by simp)]
  | append_singleton docs d ih =>
    have hdocs : ∀ d ∈ docs, DistinctMembers d := fun d hd => h d (List.mem_append_left _ hd)
    have last : ∀ upper, beneathMembers (docs ++ [d]) upper =
        overlayMembers d (beneathMembers docs upper) := fun upper => by
      simp only [beneathMembers, List.foldl_append, List.foldl_cons, List.foldl_nil]
    rw [last, last, keys_overlayMembers (distinct_beneathMembers hdocs ht),
      keys_overlayMembers (distinct_beneathMembers hdocs (show DistinctMembers [] from trivial)),
      ih hdocs, List.filter_append, List.append_assoc, List.filter_filter]
    congr 2
    refine List.filter_congr fun key _ => ?_
    simp only [List.mem_append, List.mem_filter, decide_eq_true_eq]
    by_cases hd : key ∈ keys d <;> simp [hd]

/-! ## Both orders -/

theorem stack_of_head_object {v : Json} (rest : List Json) (h : v.isObject = true) :
    stack ((v :: rest).filter isObject) = beneath rest v := by
  obtain ⟨members, rfl⟩ := exists_members h
  have hv : overlay (.object members) (.object []) = .object members := by
    rw [overlay_object, overlayMembers]
  rw [List.filter_cons_of_pos h, stack, List.foldl_cons, hv]
  exact beneath_filter rest h

theorem exists_objects {docs : List Json} (h : ∀ d ∈ docs, IsDocument d) :
    ∃ ms : List Members, docs = ms.map .object ∧ ∀ m ∈ ms, DistinctMembers m := by
  induction docs with
  | nil => exact ⟨[], rfl, fun m hm => absurd hm List.not_mem_nil⟩
  | cons d docs ih =>
    obtain ⟨ms, rfl, hms⟩ := ih fun d hd => h d (List.mem_cons_of_mem _ hd)
    have hd := h d List.mem_cons_self
    obtain ⟨m, rfl⟩ := exists_members hd.isObject
    refine ⟨m :: ms, rfl, fun m' hm' => ?_⟩
    rcases List.mem_cons.mp hm' with rfl | hm'
    · exact hd.distinct
    · exact hms m' hm'

/-- The objects among the values that documents have behind a key are documents. -/
theorem isDocument_values {docs : List Members} (h : ∀ d ∈ docs, DistinctMembers d)
    (key : String) : ∀ d ∈ (docs.filterMap (find? key)).filter isObject, IsDocument d := by
  intro v hv
  obtain ⟨hv, ho⟩ := List.mem_filter.mp hv
  obtain ⟨d, hd, hk⟩ := List.mem_filterMap.mp hv
  exact ⟨ho, (h d hd).find? hk⟩

theorem objectsAt_objects_cons (docs : List Members) (key : String) (p : List String) :
    objectsAt (docs.map .object) (key :: p) = objectsAt (docs.filterMap (find? key)) p := by
  rw [objectsAt, objectsAt, List.filterMap_map, List.filterMap_filterMap]
  rfl

/-- What closing over documents comes to behind each key. -/
theorem closesOver_objects_iff {docs : List Members} (h : ∀ d ∈ docs, DistinctMembers d)
    {top : Members} :
    ClosesOver (docs.map .object) (.object top) ↔
      ∀ key e v, find? key top = some e → beneathFirst (docs.filterMap (find? key)) = some v →
        ∀ p m u, e.at? p = some (.object m) → v.at? p = some u → u.isObject = false →
          beneath (objectsAt (docs.filterMap (find? key)) p) (.object m) = .object m := by
  have value : ∀ key, find? key (beneathMembers docs []) =
      beneathFirst (docs.filterMap (find? key)) :=
    fun key => find?_beneathMembers key h (show DistinctMembers [] from trivial)
  rw [ClosesOver, stack_objects]
  constructor
  · intro closes key e v he hv p m u hm hu ho
    rw [← objectsAt_objects_cons]
    refine closes (key :: p) m u ?_ ?_ ho
    · rw [at?_cons_object, he]
      exact hm
    · rw [at?_cons_object, value, hv]
      exact hu
  · intro closes p m u hm hu ho
    cases p with
    | nil => cases hu; cases ho
    | cons key p =>
      rw [at?_cons_object] at hm hu
      obtain ⟨e, he, hm⟩ := Option.bind_eq_some_iff.mp hm
      obtain ⟨v, hv, hu⟩ := Option.bind_eq_some_iff.mp hu
      rw [objectsAt_objects_cons]
      exact closes key e v he ((value key).symm.trans hv) p m u hm hu ho

/-- Both orders behind one key, where the value has `e` and the documents have `x` first, if it is
known for the objects among the values of the documents. -/
theorem beneath_cons_eq_iff {e x : Json} {rest : List Json}
    (known : e.isObject = true →
      (beneath ((x :: rest).filter isObject) e = overlay (stack ((x :: rest).filter isObject)) e ↔
        ClosesOver ((x :: rest).filter isObject) e)) :
    beneath (x :: rest) e = overlay (beneath rest x) e ↔
      ∀ p m u, e.at? p = some (.object m) → (beneath rest x).at? p = some u →
        u.isObject = false → beneath (objectsAt (x :: rest) p) (.object m) = .object m := by
  cases he : e.isObject with
  | false =>
    rw [beneath_of_not_object _ he, overlay_of_not_object he]
    refine iff_of_true rfl fun p m u hm => ?_
    cases p with
    | nil => cases hm; cases he
    | cons key p => rw [at?_cons_of_not_object he] at hm; cases hm
  | true =>
    cases hx : x.isObject with
    | true =>
      have known := known he
      rw [beneath_filter _ he, stack_of_head_object rest hx] at known
      rw [known, ClosesOver, stack_of_head_object rest hx]
      simp only [objectsAt_filter]
    | false =>
      -- Nothing below `x` shows in the stack, and `e` takes the place of `x`.
      obtain ⟨members, rfl⟩ := exists_members he
      rw [beneath_of_not_object rest hx, overlay_object_of_not_object hx]
      have here : beneath (objectsAt (x :: rest) []) (.object members) =
          beneath (x :: rest) (.object members) := by
        rw [objectsAt_nil, beneath_filter _ he]
      constructor
      · intro hb p m u hm hu ho
        cases p with
        | nil => cases hm; rw [here, hb]
        | cons key p => rw [at?_cons_of_not_object hx] at hu; cases hu
      · intro closes
        rw [← here]
        exact closes [] members x rfl rfl hx

/-- Documents laid beneath a value one after the other come to the same as the value laid over
their stack, exactly if the value closes over them. -/
theorem beneath_eq_overlay_stack_iff {docs : List Json} (h : ∀ d ∈ docs, IsDocument d) {top : Json}
    (ht : IsDocument top) : beneath docs top = overlay (stack docs) top ↔ ClosesOver docs top := by
  induction top using induction_on_members generalizing docs with
  | step top inner =>
    obtain ⟨docs, rfl, hdocs⟩ := exists_objects h
    obtain ⟨top, rfl⟩ := exists_members ht.isObject
    have htop : DistinctMembers top := ht.distinct
    have hnil : DistinctMembers [] := trivial
    have hlaid := distinctMembers_overlay top (distinct_beneathMembers hdocs hnil) htop
    have ext : beneathMembers docs top = overlayMembers (beneathMembers docs []) top ↔
        ∀ key, find? key (beneathMembers docs top) =
          find? key (overlayMembers (beneathMembers docs []) top) :=
      ⟨fun e key => by rw [e], members_ext hlaid (keys_beneathMembers hdocs htop)⟩
    rw [beneath_objects, stack_objects, overlay_object, Json.object.injEq, ext,
      closesOver_objects_iff hdocs]
    refine forall_congr' fun key => ?_
    rw [find?_beneathMembers key hdocs htop, find?_overlayMembers key htop,
      find?_beneathMembers key hdocs hnil]
    have hvalues := isDocument_values hdocs key
    generalize docs.filterMap (find? key) = values at hvalues ⊢
    cases he : find? key top with
    | none => exact iff_of_true rfl fun e v hk => nomatch hk
    | some e =>
      cases values with
      | nil => exact iff_of_true rfl fun e v _ hv => nomatch hv
      | cons x rest =>
        have known := beneath_cons_eq_iff fun ho : e.isObject = true =>
          inner top key e rfl he hvalues ⟨ho, htop.find? he⟩
        refine Iff.trans ?_ (known.trans ⟨fun closes e' v hk hv => ?_, fun closes =>
          closes e _ rfl rfl⟩)
        · exact ⟨Option.some.inj, congrArg some⟩
        · cases hk
          cases hv
          exact closes

end ApiReview.Json
