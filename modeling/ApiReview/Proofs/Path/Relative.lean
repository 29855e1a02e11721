import ApiReview.Proofs.Path.Moved

/-!
# The way from a folder to a path

A normal path is told by its parts: steps up, none of them from the root, and names behind them
(`isParts_parts`). The way from a folder to a path is what the path's parts have behind those of
the folder, so it leads from the folder to the path (`normalize_join_of_relativeTo?`). The working
folder has no parts, yet its normal path has a step, the dot, which no other path begins with: there
is a way from it to itself only. And where the parts of a folder are all steps up, those of a path
further up begin with them: the way to it goes up. Otherwise the way is told as it should be
(`tellsWay_iff`).
-/

namespace ApiReview.Path

variable {absolute : Bool} {step : Step} {stack steps names rest : List Step} {p base r : Path}

/-! ## The parts of a normal path -/

/-- The steps of the normal form behind its anchor. -/
def parts (p : Path) : List Step :=
  normalSteps p.isAbsolute (pieceSteps p.text.toList)

/-- Steps up, none of them from the root, and names behind them. -/
def IsParts (absolute : Bool) (steps : List Step) : Prop :=
  ∃ ups names, steps = List.replicate ups .up ++ names ∧ AllNames names ∧
    (absolute = true → ups = 0)

/-- The anchor of the normal form with the given parts. -/
def anchorOf (absolute : Bool) (steps : List Step) : Anchor :=
  if absolute then .root else if steps = [] then .here else .free

theorem IsParts.append_names (h : IsParts absolute steps) (hn : AllNames names) :
    IsParts absolute (steps ++ names) := by
  obtain ⟨ups, front, rfl, hfront, hups⟩ := h
  exact ⟨ups, front ++ names, List.append_assoc .., allNames_append hfront hn, hups⟩

/-- A step up takes the last name of the parts back, or is one more step up; from the root, it is
none. -/
theorem IsParts.push_up (h : IsParts absolute stack.reverse) :
    IsParts absolute (push absolute stack .up).reverse := by
  obtain ⟨ups, names, hstack, hnames, hups⟩ := h
  have hstack := List.reverse_eq_iff.mp hstack
  rcases List.eq_nil_or_concat names with rfl | ⟨front, top, rfl⟩
  · rw [List.append_nil, List.reverse_replicate] at hstack
    have hfree : ∀ name, .name name ∉ stack := by
      rintro name hm
      rw [hstack] at hm
      cases List.eq_of_mem_replicate hm
    rw [push_up_of_not_mem hfree, hstack]
    cases absolute with
    | true => exact ⟨ups, [], by simp, allNames_nil, hups⟩
    | false =>
      exact ⟨ups + 1, [], by simp [← List.replicate_succ], allNames_nil, fun e => by cases e⟩
  · rw [List.concat_eq_append] at hstack hnames
    obtain ⟨hfront, htop⟩ := hnames.of_concat
    cases top with
    | name top =>
      rw [hstack, List.reverse_append, List.reverse_append]
      exact ⟨ups, front, by simp [push], hfront, hups⟩
    | _ => exact absurd htop id

/-- A step leaves parts on the stack. -/
theorem IsParts.push (h : IsParts absolute stack.reverse) (hs : step = .up ∨ step.IsName) :
    IsParts absolute (push absolute stack step).reverse := by
  rcases hs with rfl | hs
  · exact h.push_up
  · rw [push_of_isName hs, List.reverse_cons]
    exact h.append_names (List.forall_mem_singleton.mpr hs)

theorem isParts_foldl_push (h : IsParts absolute stack.reverse)
    (hs : ∀ step ∈ steps, step = .up ∨ step.IsName) :
    IsParts absolute (steps.foldl (push absolute) stack).reverse := by
  induction steps generalizing stack with
  | nil => exact h
  | cons step steps ih =>
    obtain ⟨hfirst, hrest⟩ := List.forall_mem_cons.mp hs
    exact ih (h.push hfirst) hrest

theorem isParts_parts (p : Path) : IsParts p.isAbsolute p.parts :=
  isParts_foldl_push ⟨0, [], rfl, allNames_nil, fun _ => rfl⟩ fun _ => mem_pieceSteps

theorem IsParts.isPiece (h : IsParts absolute steps) : ∀ step ∈ steps, step.IsPiece := by
  obtain ⟨ups, names, rfl, hnames, -⟩ := h
  intro step hm
  rcases List.mem_append.mp hm with hm | hm
  · rw [List.eq_of_mem_replicate hm]
    exact ⟨rfl, by decide⟩
  · exact (hnames step hm).isPiece

theorem foldl_push_ups (ups : Nat) :
    (List.replicate ups Step.up).foldl (push false) [] = List.replicate ups .up := by
  induction ups with
  | zero => rfl
  | succ ups ih =>
    rw [List.replicate_succ', List.foldl_append, ih, List.foldl_cons, List.foldl_nil,
      ← List.replicate_succ', List.replicate_succ]
    cases ups <;> rfl

/-- Parts go on the stack one by one. -/
theorem IsParts.foldl_push (h : IsParts absolute steps) :
    steps.foldl (Path.push absolute) [] = steps.reverse := by
  obtain ⟨ups, names, rfl, hnames, hups⟩ := h
  have hrise : (List.replicate ups Step.up).foldl (Path.push absolute) [] =
      List.replicate ups .up := by
    cases absolute with
    | true => rw [hups rfl]; rfl
    | false => exact foldl_push_ups ups
  rw [List.foldl_append, hrise, foldl_push_names hnames, List.reverse_append,
    List.reverse_replicate]

theorem IsParts.normalSteps_eq (h : IsParts absolute steps) :
    normalSteps absolute steps = steps := by
  rw [normalSteps, h.foldl_push, List.reverse_reverse]

/-! ## Normal forms -/

/-- An anchor leaves nothing on the stack. -/
theorem normalSteps_anchor (anchor : Anchor) (steps : List Step) :
    normalSteps absolute (anchor.steps ++ steps) = normalSteps absolute steps := by
  cases anchor <;> rfl

theorem normalSteps_steps (absolute : Bool) (p : Path) :
    normalSteps absolute p.steps = normalSteps absolute (pieceSteps p.text.toList) := by
  rw [steps_eq_append, normalSteps_anchor]

/-- The normal form is written by its parts. -/
theorem normalize_eq_written (p : Path) :
    p.normalize = ⟨String.ofList (written (anchorOf p.isAbsolute p.parts)
      (p.parts.map Step.chars))⟩ := by
  rw [normalize, normalSteps_steps, normalSteps_steps, parts, anchorOf]
  cases p.isAbsolute with
  | true => rfl
  | false =>
    rw [if_neg Bool.false_ne_true, if_neg Bool.false_ne_true]
    split
    · rename_i hnil
      rw [hnil]
      rfl
    · rename_i hne
      rw [if_neg hne]
      rfl

/-- The steps of the normal form are its anchor's and its parts. -/
theorem steps_normalize_eq_append (p : Path) :
    p.normalize.steps = (anchorOf p.isAbsolute p.parts).steps ++ p.parts := by
  have hpieces := (isParts_parts p).isPiece
  have hparts := isParts_parts p
  rw [normalize_eq_written]
  generalize p.parts = steps at hpieces hparts
  cases hp : p.isAbsolute with
  | true =>
    obtain ⟨ups, names, rfl, hnames, hups⟩ := hp ▸ hparts
    rw [hups rfl]
    exact steps_fromRoot hnames
  | false =>
    by_cases hne : steps = []
    · rw [hne]
      rfl
    · rw [anchorOf, if_neg Bool.false_ne_true, if_neg hne]
      exact steps_relative hpieces

theorem here_not_mem_parts (p : Path) : .here ∉ p.parts :=
  fun hm => absurd ((isParts_parts p).isPiece _ hm).1 (by decide)

theorem steps_normalize_of_relative (hp : p.isAbsolute = false) (hne : p.parts ≠ []) :
    p.normalize.steps = p.parts := by
  rw [steps_normalize_eq_append, hp, anchorOf, if_neg Bool.false_ne_true, if_neg hne]
  rfl

theorem head?_steps_eq_root_iff : p.steps.head? = some .root ↔ p.isAbsolute = true := by
  constructor
  · exact fun h => root_mem_steps.mp (List.mem_of_head? h)
  · intro hp
    rw [steps_of_isAbsolute hp]
    rfl

theorem steps_normalize_ne_nil (p : Path) : p.normalize.steps ≠ [] := by
  rw [steps_normalize_eq_append, anchorOf]
  split
  · exact List.cons_ne_nil _ _
  · split
    · exact List.cons_ne_nil _ _
    · assumption

theorem isAbsolute_normalize_eq (p : Path) : p.normalize.isAbsolute = p.isAbsolute := by
  rw [Bool.eq_iff_iff, ← root_mem_steps, steps_normalize_eq_append, anchorOf]
  have hroot : .root ∉ p.parts := fun hm =>
    ((isParts_parts p).isPiece _ hm).2 List.mem_cons_self
  cases p.isAbsolute with
  | true => exact iff_of_true List.mem_cons_self rfl
  | false =>
    refine iff_of_false ?_ Bool.false_ne_true
    rw [List.mem_append, or_iff_left hroot, if_neg Bool.false_ne_true]
    split
    · exact (nomatch List.mem_singleton.mp ·)
    · exact List.not_mem_nil

/-- Only a relative path without parts is the working folder. -/
theorem normalize_eq_dot_iff : p.normalize = ⟨"."⟩ ↔ p.isAbsolute = false ∧ p.parts = [] := by
  constructor
  · intro hdot
    have hp : p.isAbsolute = false := by
      rw [← isAbsolute_normalize_eq, hdot]
      rfl
    refine ⟨hp, by_contra fun hne => here_not_mem_parts p ?_⟩
    rw [← steps_normalize_of_relative hp hne, hdot]
    exact List.mem_cons_self
  · rintro ⟨hp, hparts⟩
    rw [normalize_eq_written, hp, hparts]
    rfl

theorem normalize_eq_of_parts {q : Path} (ha : p.isAbsolute = q.isAbsolute)
    (h : p.parts = q.parts) : p.normalize = q.normalize := by
  rw [normalize_eq_written, normalize_eq_written, ha, h]

theorem parts_normalize (p : Path) : p.normalize.parts = p.parts := by
  rw [parts, isAbsolute_normalize_eq, ← normalSteps_steps, steps_normalize_eq_append,
    normalSteps_anchor, (isParts_parts p).normalSteps_eq]

theorem normalize_normalize (p : Path) : p.normalize.normalize = p.normalize :=
  normalize_eq_of_parts (isAbsolute_normalize_eq p) (parts_normalize p)

/-- Behind the anchors of normal forms, steps go on from others exactly if they do so without the
anchors; from a dot, nothing goes on. -/
theorem anchorOf_append_iff {more : List Step} (hs : .here ∉ steps) (hm : .here ∉ more) :
    (anchorOf absolute steps).steps ++ steps = (anchorOf absolute more).steps ++ more ++ rest ↔
      steps = more ++ rest ∧ (absolute = false → more = [] → rest = []) := by
  cases absolute with
  | true => simp [anchorOf, Anchor.steps]
  | false =>
    cases steps <;> cases more <;> simp_all [anchorOf, Anchor.steps, eq_comm]

/-- The steps of a normal form begin with those of another exactly if its parts do. The dot of the
working folder is no step of any other path. -/
theorem steps_normalize_eq_append_iff :
    p.normalize.steps = base.normalize.steps ++ rest ↔
      p.isAbsolute = base.isAbsolute ∧ p.parts = base.parts ++ rest ∧
        (base.normalize = ⟨"."⟩ → rest = []) := by
  have habsolute : p.normalize.steps = base.normalize.steps ++ rest →
      p.isAbsolute = base.isAbsolute := by
    intro h
    rw [← isAbsolute_normalize_eq p, ← isAbsolute_normalize_eq base, Bool.eq_iff_iff,
      ← head?_steps_eq_root_iff, ← head?_steps_eq_root_iff, h,
      List.head?_append_of_ne_nil _ (steps_normalize_ne_nil base)]
  rw [← and_iff_right_of_imp habsolute]
  refine and_congr_right fun ha => ?_
  rw [steps_normalize_eq_append, steps_normalize_eq_append, ha,
    anchorOf_append_iff (here_not_mem_parts p) (here_not_mem_parts base), normalize_eq_dot_iff,
    and_imp]

/-! ## The way there -/

theorem relativeTo?_eq_some_iff :
    p.relativeTo? base = some r ↔
      ∃ rest, p.normalize.steps = base.normalize.steps ++ rest ∧ r = relative rest := by
  rw [relativeTo?, Option.map_eq_some_iff]
  exact exists_congr fun rest => and_congr stepsAfter?_eq_some eq_comm

/-- A path is at or below a folder exactly if there is a way from the folder to it. -/
theorem isUnderOrEqual_iff_isSome :
    p.isUnderOrEqual base = true ↔ (p.relativeTo? base).isSome = true := by
  rw [isUnderOrEqual, List.isPrefixOf_iff_prefix, Option.isSome_iff_exists]
  constructor
  · rintro ⟨rest, hrest⟩
    exact ⟨relative rest, relativeTo?_eq_some_iff.mpr ⟨rest, hrest.symm, rfl⟩⟩
  · rintro ⟨r, hr⟩
    obtain ⟨rest, hrest, -⟩ := relativeTo?_eq_some_iff.mp hr
    exact ⟨rest, hrest.symm⟩

theorem isAbsolute_join_of_relative (hr : r.isAbsolute = false) (base : Path) :
    (base.join r).isAbsolute = base.isAbsolute := by
  by_cases hempty : base.text = ""
  · rw [join, hempty, decide_eq_true rfl, Bool.or_true, if_pos rfl, hr, isAbsolute, hempty]
    rfl
  · obtain ⟨c, s, hs⟩ := List.exists_cons_of_ne_nil (mt String.toList_eq_nil_iff.mp hempty)
    have hhead : ∀ t, (Path.mk (base.text ++ t)).isAbsolute = base.isAbsolute := by
      intro t
      rw [isAbsolute, isAbsolute, String.toList_append, hs]
      rfl
    rw [join, hr, decide_eq_false hempty, Bool.or_self, if_neg Bool.false_ne_true]
    split
    · exact hhead r.text
    · rw [String.append_assoc]
      exact hhead _

/-- All relative paths are joined to a path behind one text, which is empty or ends in a slash. -/
theorem exists_join_eq (base : Path) :
    ∃ front : String, (front = "" ∨ front.toList.getLast? = some '/') ∧
      ∀ q : Path, q.isAbsolute = false → base.join q = ⟨front ++ q.text⟩ := by
  by_cases hempty : base.text = ""
  · exact ⟨"", .inl rfl, fun q _ => by simp [join, hempty]⟩
  · by_cases hlast : base.text.toList.getLast? = some '/'
    · exact ⟨base.text, .inr hlast, fun q hq => by simp [join, hq, hempty, hlast]⟩
    · exact ⟨base.text ++ "/", .inr (by simp), fun q hq => by simp [join, hq, hempty, hlast]⟩

/-- Relative paths may be joined to each other first. -/
theorem join_assoc {name : Path} (hname : name.isAbsolute = false) (hr : r.isAbsolute = false)
    (base : Path) : (base.join name).join r = base.join (name.join r) := by
  obtain ⟨front, hfront, hjoin⟩ := exists_join_eq base
  rw [hjoin name hname, hjoin _ ((isAbsolute_join_of_relative hr name).trans hname)]
  by_cases hempty : name.text = ""
  -- Joined to an empty name, the path goes on right behind the text in front, as on its own.
  · have hrest : name.join r = r := by simp [join, hempty]
    rw [hrest, hempty, String.append_empty]
    rcases hfront with rfl | hlast
    · simp [join]
    · have hfilled : front ≠ "" := by
        rintro rfl
        cases hlast
      simp [join, hr, hfilled, hlast]
  · have hlast : (front ++ name.text).toList.getLast? = name.text.toList.getLast? := by
      rw [String.toList_append,
        List.getLast?_append_of_ne_nil _ (mt String.toList_eq_nil_iff.mp hempty)]
    have hboth : front ++ name.text ≠ "" := fun h => hempty (String.append_eq_empty_iff.mp h).2
    simp only [join, hr, hempty, hboth, hlast, Bool.false_or, decide_false, Bool.false_eq_true,
      if_false]
    split <;> simp only [String.append_assoc]

/-- What is joined to a path goes on from its parts. -/
theorem parts_join (hr : r.isAbsolute = false) (base : Path) :
    (base.join r).parts =
      normalSteps base.isAbsolute (base.parts ++ pieceSteps r.text.toList) := by
  have hbase : base.parts.foldl (push base.isAbsolute) [] =
      (pieceSteps base.text.toList).foldl (push base.isAbsolute) [] := by
    rw [(isParts_parts base).foldl_push, parts, normalSteps, List.reverse_reverse]
  rw [parts, isAbsolute_join_of_relative hr, pieceSteps_join hr, normalSteps, normalSteps,
    List.foldl_append, List.foldl_append, hbase]

theorem isPiece_of_parts_eq_append (h : p.parts = steps ++ rest) : ∀ step ∈ rest, step.IsPiece :=
  fun step hm => (isParts_parts p).isPiece step (h ▸ List.mem_append_right _ hm)

/-- The way from a folder to a path leads there. -/
theorem normalize_join_of_relativeTo? (h : p.relativeTo? base = some r) :
    (base.join r).normalize = p.normalize := by
  obtain ⟨rest, hsteps, rfl⟩ := relativeTo?_eq_some_iff.mp h
  obtain ⟨ha, hparts, -⟩ := steps_normalize_eq_append_iff.mp hsteps
  have hpieces := isPiece_of_parts_eq_append hparts
  have hrelative := isAbsolute_relative hpieces
  refine normalize_eq_of_parts ((isAbsolute_join_of_relative hrelative base).trans ha.symm) ?_
  rw [parts_join hrelative, relative, String.toList_ofList, pieceSteps_joinWith_chars hpieces,
    ← hparts, ← ha, (isParts_parts p).normalSteps_eq]

/-! ## Ways up -/

/-- A folder whose normal form is all steps up, and a path that goes up further. -/
def LeadsAbove (p base : Path) : Prop :=
  ∃ ups, 0 < ups ∧ base.normalize.steps = List.replicate ups .up ∧
    List.replicate (ups + 1) .up <+: p.normalize.steps

/-- Before a step up there are only steps up, and no root. -/
theorem IsParts.eq_replicate {more : List Step} (h : IsParts absolute (steps ++ .up :: more)) :
    steps = List.replicate steps.length .up ∧ absolute = false := by
  obtain ⟨ups, names, he, hnames, hups⟩ := h
  have hname : .up ∉ names := fun hm => hnames _ hm
  rcases List.append_eq_append_iff.mp he with ⟨between, hreplicate, hmore⟩ | ⟨between, -, hlate⟩
  · cases between with
    | nil =>
      rw [List.nil_append] at hmore
      exact absurd (hmore ▸ List.mem_cons_self) hname
    | cons next between =>
      refine ⟨(List.append_eq_replicate_iff.mp hreplicate.symm).2.1, ?_⟩
      refine Bool.eq_false_iff.mpr fun ha => ?_
      rw [hups ha] at hreplicate
      exact List.cons_ne_nil _ _ (List.append_eq_nil_iff.mp hreplicate.symm).2
  · exact absurd (hlate ▸ List.mem_append_right _ List.mem_cons_self) hname

/-- What lies behind a folder's steps goes up exactly if the folder is all steps up, and the path
goes up further. -/
theorem up_mem_iff_leadsAbove (h : p.normalize.steps = base.normalize.steps ++ rest) :
    .up ∈ rest ↔ p.LeadsAbove base := by
  constructor
  · intro hup
    obtain ⟨ha, hparts, hdot⟩ := steps_normalize_eq_append_iff.mp h
    obtain ⟨front, back, rfl⟩ := List.append_of_mem hup
    have hp := isParts_parts p
    rw [hparts, ← List.append_assoc] at hp
    obtain ⟨hall, hrelative⟩ := hp.eq_replicate
    obtain ⟨-, hbase, hfront⟩ := List.append_eq_replicate_iff.mp hall
    have hne : base.parts ≠ [] := fun e =>
      absurd (hdot (normalize_eq_dot_iff.mpr ⟨ha ▸ hrelative, e⟩)) (by simp)
    have hsteps := steps_normalize_of_relative (ha ▸ hrelative) hne
    refine ⟨base.parts.length, List.length_pos_of_ne_nil hne, hsteps.trans hbase, ?_⟩
    rw [h, hsteps, List.replicate_succ', ← hbase, List.prefix_append_right_inj]
    cases front with
    | nil => exact ⟨back, rfl⟩
    | cons next front =>
      have hnext : next = .up := List.eq_of_mem_replicate (hfront ▸ List.mem_cons_self)
      rw [hnext]
      exact ⟨front ++ .up :: back, rfl⟩
  · rintro ⟨ups, -, hbase, hp⟩
    rw [h, hbase, List.replicate_succ', List.prefix_append_right_inj] at hp
    exact hp.subset List.mem_cons_self

/-- Of a folder other than the working folder, what is joined to it along names is found below it,
with the names as the way. -/
theorem relativeTo?_join (hbase : base.normalize ≠ ⟨"."⟩) (hr : r.isAbsolute = false)
    (hnormal : r.normalize = r) (hup : .up ∉ r.steps) :
    (base.join r).normalize.relativeTo? base = some (if r = ⟨"."⟩ then ⟨""⟩ else r) := by
  have hnames : AllNames (pieceSteps r.text.toList) := fun step hm =>
    (mem_pieceSteps hm).resolve_left fun e => hup (up_mem_steps.mpr (e ▸ hm))
  have hway : r.parts = pieceSteps r.text.toList :=
    IsParts.normalSteps_eq ⟨0, _, rfl, hnames, fun _ => rfl⟩
  have hjoin : (base.join r).parts = base.parts ++ pieceSteps r.text.toList :=
    (parts_join hr base).trans ((isParts_parts base).append_names hnames).normalSteps_eq
  have hsteps : (base.join r).normalize.steps =
      base.normalize.steps ++ pieceSteps r.text.toList :=
    steps_normalize_eq_append_iff.mpr
      ⟨isAbsolute_join_of_relative hr base, hjoin, fun hdot => absurd hdot hbase⟩
  refine relativeTo?_eq_some_iff.mpr ⟨pieceSteps r.text.toList, ?_, ?_⟩
  · rw [normalize_normalize, hsteps]
  · by_cases hempty : r.parts = []
    · have hdot := normalize_eq_dot_iff.mpr ⟨hr, hempty⟩
      rw [if_pos (hnormal ▸ hdot), ← hway, hempty]
      rfl
    · have hne : r ≠ ⟨"."⟩ := fun hdot =>
        hempty (normalize_eq_dot_iff.mp (hnormal.trans hdot)).2
      have hwritten := normalize_eq_written r
      rw [hnormal, hr, anchorOf, if_neg Bool.false_ne_true, if_neg hempty, hway] at hwritten
      rw [if_neg hne]
      exact hwritten

/-- The way from a folder to a path is told: there is one exactly if the path is at or below the
folder, it leads to the path and not up, and what is joined to the folder along a normal relative
path without steps up is found below it, with that path as the way; the dot is the folder itself. -/
structure TellsWay (p base : Path) : Prop where
  isUnderOrEqual_iff : p.isUnderOrEqual base = true ↔ (p.relativeTo? base).isSome = true
  leads : ∀ r, p.relativeTo? base = some r →
    .up ∉ r.steps ∧ (base.join r).normalize = p.normalize
  found : ∀ r : Path, r.isAbsolute = false → r.normalize = r → .up ∉ r.steps →
    (base.join r).normalize.isUnderOrEqual base = true ∧
      (base.join r).normalize.relativeTo? base = some (if r = ⟨"."⟩ then ⟨""⟩ else r)

/-- The way is told exactly if it does not start in the working folder, and does not lead from steps
up to more of them. -/
theorem tellsWay_iff (p base : Path) :
    p.TellsWay base ↔ base.normalize ≠ ⟨"."⟩ ∧ ¬ p.LeadsAbove base := by
  constructor
  · intro h
    constructor
    · intro hdot
      obtain ⟨-, hfound⟩ := h.found ⟨"a"⟩ (by decide) (by decide +kernel) (by decide)
      obtain ⟨rest, hsteps, hrest⟩ := relativeTo?_eq_some_iff.mp hfound
      rw [(steps_normalize_eq_append_iff.mp hsteps).2.2 hdot] at hrest
      exact absurd hrest (by decide)
    · rintro ⟨ups, hups, hbase, tail, htail⟩
      have hsteps : p.normalize.steps = base.normalize.steps ++ .up :: tail := by
        rw [← htail, hbase, List.replicate_succ', List.append_assoc, List.singleton_append]
      have hpieces := isPiece_of_parts_eq_append (steps_normalize_eq_append_iff.mp hsteps).2.1
      refine (h.leads _ (relativeTo?_eq_some_iff.mpr ⟨_, hsteps, rfl⟩)).1 ?_
      rw [steps_relative hpieces]
      exact List.mem_cons_self
  · rintro ⟨hdot, habove⟩
    refine ⟨isUnderOrEqual_iff_isSome, fun r hr => ⟨?_, normalize_join_of_relativeTo? hr⟩,
      fun r ha hnormal hup => ?_⟩
    · obtain ⟨rest, hsteps, rfl⟩ := relativeTo?_eq_some_iff.mp hr
      rw [steps_relative
        (isPiece_of_parts_eq_append (steps_normalize_eq_append_iff.mp hsteps).2.1)]
      exact fun hup => habove ((up_mem_iff_leadsAbove hsteps).mp hup)
    · have hway := relativeTo?_join hdot ha hnormal hup
      exact ⟨isUnderOrEqual_iff_isSome.mpr (by rw [hway]; rfl), hway⟩

theorem tellsWay_beside : TellsWay ⟨"a/../../lib/./b//c"⟩ ⟨"x/../../lib/"⟩ :=
  (tellsWay_iff _ _).mpr ⟨by decide +kernel, by
    rintro ⟨ups, -, hbase, -⟩
    have hname : .name "lib".toList ∈ List.replicate ups Step.up := hbase ▸ by decide +kernel
    cases List.eq_of_mem_replicate hname⟩

/-- From the working folder there is no way to a file in it, and from the folder above it there is
one up. -/
theorem not_tellsWay : ¬ TellsWay ⟨"a"⟩ ⟨"."⟩ ∧ ¬ TellsWay ⟨"../.."⟩ ⟨".."⟩ := by
  constructor
  · intro h
    have hfound := h.found ⟨"a"⟩ (by decide) (by decide +kernel) (by decide)
    exact absurd hfound.1 (by decide +kernel)
  · intro h
    have hleads := h.leads ⟨".."⟩ (by decide +kernel)
    exact hleads.1 (by decide)

end ApiReview.Path
