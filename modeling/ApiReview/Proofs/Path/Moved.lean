import ApiReview.Proofs.Path.Above
import ApiReview.Proofs.Path.Kept
import ApiReview.Proofs.Text.Replace
import Mathlib.Data.List.Forall2
import Mathlib.Data.List.Infix

/-!
# Moving paths from one folder to another

A path below a folder moves with it (`relocate`): the steps behind the folder stay as they are. Two
paths that go the same way from two folders, and never above them (`Twin`), have normal forms that
are moved into each other (`Twin.normalize`), and so has what is read from them (`Twin.resolve`). Of
the paths above them, those at or below the folders are twins again, and the others lie above the
folders (`Twin.ancestors`).
-/

namespace ApiReview.Path

open Text

/-- A path moved along with a folder, if it is the folder or lies below it. -/
def relocate (here there p : Path) : Path :=
  ((p.relativeTo? here).map there.resolve).getD p

/-- A path that starts at a folder and goes on without ever going up above it. -/
def StaysBelow (folder p : Path) : Prop :=
  ∃ rest, p.steps = folder.steps ++ rest ∧ RisesAtMost 0 rest

/-- Paths that go the same way from two folders, given by their names, and never above them. -/
def Twin (a b : List Step) (p q : Path) : Prop :=
  ∃ rest, p.steps = .root :: (a ++ rest) ∧ q.steps = .root :: (b ++ rest) ∧ RisesAtMost 0 rest

/-- Normal paths with the same names behind those of two folders. -/
def Moved (a b : List Step) (p q : Path) : Prop :=
  ∃ names, AllNames names ∧ p = fromRoot (a ++ names) ∧ q = fromRoot (b ++ names)

variable {a b names rest : List Step} {p q : Path} {depth : Nat}

/-! ## Steps that do not go up above a folder -/

theorem RisesAtMost.weaken {more : Nat} (h : RisesAtMost depth rest) (hm : depth ≤ more) :
    RisesAtMost more rest :=
  fun first hf => Nat.le_trans (h first hf) (Nat.add_le_add_left hm _)

theorem RisesAtMost.of_prefix {first : List Step} (h : RisesAtMost depth rest)
    (hf : first <+: rest) : RisesAtMost depth first :=
  fun more hm => h more (hm.trans hf)

theorem RisesAtMost.append {more : List Step} (h : RisesAtMost depth rest)
    (hm : RisesAtMost 0 more) : RisesAtMost depth (rest ++ more) := by
  intro first hf
  rcases List.prefix_or_prefix_of_prefix hf (List.prefix_append rest more) with hf | ⟨tail, rfl⟩
  · exact h first hf
  · have hrest := h rest List.prefix_rfl
    have htail := hm tail ((List.prefix_append_right_inj rest).mp hf)
    simp only [List.count_append, List.countP_append]
    omega

theorem risesAtMost_names (h : AllNames names) : RisesAtMost depth names :=
  risesAtMost_of_not_mem fun hm => h _ hm

/-- Steps that do not go up above the names on a stack leave what lies under the names. -/
theorem foldl_push_append {stack : List Step} (hs : ∀ step ∈ stack, step.isName = true)
    (h : RisesAtMost stack.length rest) (base : List Step) :
    rest.foldl (push true) (stack ++ base) = rest.foldl (push true) stack ++ base := by
  induction rest generalizing stack with
  | nil => rfl
  | cons step rest ih =>
    rw [List.foldl_cons, List.foldl_cons]
    cases step with
    | root => exact ih hs ((risesAtMost_cons_of_silent (by decide) rfl).mp h)
    | here => exact ih hs ((risesAtMost_cons_of_silent (by decide) rfl).mp h)
    | name name =>
      have hnames : ∀ step ∈ Step.name name :: stack, step.isName = true :=
        List.forall_mem_cons.mpr ⟨rfl, hs⟩
      exact ih hnames (risesAtMost_name_cons.mp h)
    | up =>
      cases stack with
      | nil => exact absurd h not_risesAtMost_up_cons
      | cons top stack =>
        obtain ⟨htop, hbelow⟩ := List.forall_mem_cons.mp hs
        cases top with
        | name top => exact ih hbelow (risesAtMost_up_cons.mp h)
        | _ => cases htop

/-- The names of a folder stay in the normal form of a path that does not go up above it. -/
theorem normalSteps_below (ha : AllNames a) (h : RisesAtMost 0 rest) :
    normalSteps true (.root :: (a ++ rest)) = a ++ normalSteps true rest := by
  have hstack : ∀ step ∈ ([] : List Step), step.isName = true :=
    fun _ hm => absurd hm List.not_mem_nil
  have hfold : rest.foldl (push true) a.reverse = rest.foldl (push true) [] ++ a.reverse :=
    foldl_push_append hstack h a.reverse
  rw [normalSteps, List.foldl_cons, List.foldl_append]
  show (rest.foldl (push true) (a.foldl (push true) [])).reverse = _
  rw [foldl_push_names ha, List.append_nil, hfold, List.reverse_append, List.reverse_reverse]
  rfl

theorem allNames_append (ha : AllNames a) (hn : AllNames names) : AllNames (a ++ names) :=
  List.forall_mem_append.mpr ⟨ha, hn⟩

/-! ## Twins -/

theorem Twin.isAbsolute (h : Twin a b p q) : p.isAbsolute = true ∧ q.isAbsolute = true := by
  obtain ⟨rest, hp, hq, -⟩ := h
  exact ⟨root_mem_steps.mp (hp ▸ List.mem_cons_self), root_mem_steps.mp (hq ▸ List.mem_cons_self)⟩

theorem Moved.twin (ha : AllNames a) (hb : AllNames b) (h : Moved a b p q) : Twin a b p q := by
  obtain ⟨names, hn, rfl, rfl⟩ := h
  exact ⟨names, steps_fromRoot (allNames_append ha hn), steps_fromRoot (allNames_append hb hn),
    risesAtMost_names hn⟩

theorem Moved.isNormal (ha : AllNames a) (hb : AllNames b) (h : Moved a b p q) :
    p.IsNormal ∧ q.IsNormal := by
  obtain ⟨names, hn, rfl, rfl⟩ := h
  exact ⟨⟨_, allNames_append ha hn, rfl⟩, ⟨_, allNames_append hb hn, rfl⟩⟩

theorem Moved.concat {step : Step} (hs : step.IsName) (hn : AllNames names) :
    Moved a b (fromRoot (a ++ (names ++ [step]))) (fromRoot (b ++ (names ++ [step]))) :=
  ⟨_, hn.concat hs, rfl, rfl⟩

/-- Moved paths stay moved along a name. -/
theorem Moved.join_name (ha : AllNames a) (hb : AllNames b) (h : Moved a b p q) {name : Path}
    (hs : (Step.name name.text.toList).IsName) : Moved a b (p.join name) (q.join name) := by
  obtain ⟨names, hn, rfl, rfl⟩ := h
  rw [fromRoot_join_name (allNames_append ha hn) hs, fromRoot_join_name (allNames_append hb hn) hs,
    List.append_assoc, List.append_assoc]
  exact .concat hs hn

theorem moved_folder (a b : List Step) : Moved a b (fromRoot a) (fromRoot b) :=
  ⟨[], allNames_nil, by rw [List.append_nil], by rw [List.append_nil]⟩

/-- The normal forms of twins are moved into each other. -/
theorem Twin.normalize (ha : AllNames a) (hb : AllNames b) (h : Twin a b p q) :
    Moved a b p.normalize q.normalize := by
  obtain ⟨hpa, hqa⟩ := h.isAbsolute
  obtain ⟨rest, hp, hq, hr⟩ := h
  refine ⟨normalSteps true rest, fun step hm => ?_, ?_, ?_⟩
  · refine isName_of_mem_normalSteps hpa step ?_
    rw [hp, normalSteps_below ha hr]
    exact List.mem_append_right _ hm
  · rw [Path.normalize, if_pos hpa, hp, normalSteps_below ha hr]
  · rw [Path.normalize, if_pos hqa, hq, normalSteps_below hb hr]

/-- Twins go on alike along a relative path that stays below the folder. -/
theorem Twin.join (ha : AllNames a) (h : Twin a b p q) {r : Path} (hr : r.isAbsolute = false)
    (hstays : StaysBelow (fromRoot a) (p.join r)) : Twin a b (p.join r) (q.join r) := by
  obtain ⟨hpa, hqa⟩ := h.isAbsolute
  obtain ⟨rest, hp, hq, -⟩ := h
  obtain ⟨more, hsteps, hrises⟩ := hstays
  have hjoined : (p.join r).steps = .root :: (a ++ (rest ++ pieceSteps r.text.toList)) := by
    rw [steps_join hpa hr, hp, List.cons_append, List.append_assoc]
  have hmore : more = rest ++ pieceSteps r.text.toList := by
    rw [hjoined, steps_fromRoot ha, List.cons_append, List.cons.injEq] at hsteps
    exact (List.append_cancel_left hsteps.2).symm
  refine ⟨_, hjoined, ?_, hmore ▸ hrises⟩
  rw [steps_join hqa hr, hq, List.cons_append, List.append_assoc]

/-- What is read from twins along a path that stays below the folder is moved. -/
theorem Twin.resolve (ha : AllNames a) (hb : AllNames b) (h : Twin a b p q) {r : Path}
    (hr : r.isAbsolute = false) (hstays : StaysBelow (fromRoot a) (p.join r)) :
    Moved a b (p.resolve r) (q.resolve r) := by
  rw [resolve_of_relative hr, resolve_of_relative hr]
  exact (h.join ha hr hstays).normalize ha hb

/-- What stays below a folder when it is read from there does so when it is read from below. -/
theorem Twin.staysBelow_append (ha : AllNames a) (h : Twin a b p q) {more : List Step}
    {start below : Path} (hs : start.steps = (fromRoot a).steps ++ more)
    (hb : below.steps = p.steps ++ more) (hstays : StaysBelow (fromRoot a) start) :
    StaysBelow (fromRoot a) below := by
  obtain ⟨rest, hp, -, hrises⟩ := h
  obtain ⟨more', hsteps, hmore⟩ := hstays
  rw [hs, List.append_cancel_left_eq] at hsteps
  refine ⟨rest ++ more, ?_, hrises.append (hsteps ▸ hmore)⟩
  rw [hb, hp, steps_fromRoot ha]
  simp

/-- Twins are the same place as other twins on both sides or on none. -/
theorem Twin.same_eq {p' q' : Path} (h : Twin a b p q) (h' : Twin a b p' q') :
    p.same p' = q.same q' := by
  obtain ⟨rest, hp, hq, -⟩ := h
  obtain ⟨rest', hp', hq', -⟩ := h'
  rw [Path.same, Path.same, hp, hq, hp', hq', Bool.eq_iff_iff, decide_eq_true_iff,
    decide_eq_true_iff, List.cons.injEq, List.cons.injEq, List.append_cancel_left_eq,
    List.append_cancel_left_eq]

theorem any_same_eq {paths paths' : List Path}
    (h : List.Forall₂ (Twin a b) paths paths') (hpq : Twin a b p q) :
    paths.any (·.same p) = paths'.any (·.same q) := by
  induction h with
  | nil => rfl
  | cons hfirst _ ih => rw [List.any_cons, List.any_cons, hfirst.same_eq hpq, ih]

/-- Twins that are normal are moved into each other. -/
theorem Twin.moved (ha : AllNames a) (hb : AllNames b) (h : Twin a b p q) (hp : p.IsNormal)
    (hq : q.IsNormal) : Moved a b p q := by
  have hmoved := h.normalize ha hb
  rwa [hp.normalize_eq, hq.normalize_eq] at hmoved

theorem RisesAtMost.concat_name {step : Step} (h : RisesAtMost depth rest) (hs : step.IsName) :
    RisesAtMost depth (rest ++ [step]) := by
  intro first hf
  rcases List.prefix_concat_iff.mp hf with rfl | hf
  · have hup : [step].count .up = 0 := List.count_eq_zero.mpr fun hm => by
      rw [← List.mem_singleton.mp hm] at hs
      exact hs
    have hall := h rest List.prefix_rfl
    rw [List.count_append, List.countP_append, hup]
    omega
  · exact h first hf

theorem isAbsolute_of_isName {name : Path} (h : (Step.name name.text.toList).IsName) :
    name.isAbsolute = false :=
  Bool.eq_false_iff.mpr fun ha => by
    obtain ⟨s, hs⟩ := isAbsolute_iff.mp ha
    exact h.2 (hs ▸ List.mem_cons_self)

/-- Twins go on alike along a name. -/
theorem Twin.join_name (h : Twin a b p q) {name : Path}
    (hname : (Step.name name.text.toList).IsName) :
    Twin a b (p.join name) (q.join name) := by
  obtain ⟨hpa, hqa⟩ := h.isAbsolute
  obtain ⟨rest, hp, hq, hr⟩ := h
  have hpieces : pieceSteps name.text.toList = [.name name.text.toList] := by
    rw [pieceSteps, splitOn_of_not_mem hname.2, List.filterMap_cons_some hname.1]
    rfl
  have hrelative := isAbsolute_of_isName hname
  refine ⟨rest ++ [.name name.text.toList], ?_, ?_, hr.concat_name hname⟩
  · rw [steps_join hpa hrelative, hp, hpieces, List.cons_append, List.append_assoc]
  · rw [steps_join hqa hrelative, hq, hpieces, List.cons_append, List.append_assoc]

/-! ## Moving -/

theorem stepsAfter?_append (base more : List Step) :
    stepsAfter? base (base ++ more) = some more := by
  induction base with
  | nil => rfl
  | cons step base ih => rw [List.cons_append, stepsAfter?, if_pos rfl, ih]

theorem stepsAfter?_eq_some {base steps rest : List Step} :
    stepsAfter? base steps = some rest ↔ steps = base ++ rest := by
  constructor
  · intro h
    fun_induction stepsAfter? base steps with
    | case1 steps => exact Option.some.inj h
    | case2 => cases h
    | case3 base step steps ih => rw [ih h, List.cons_append]
    | case4 => cases h
  · rintro rfl
    exact stepsAfter?_append base rest

instance : DecidablePred Step.IsName
  | .name _ => inferInstanceAs (Decidable (_ ∧ _))
  | .root | .here | .up => isFalse id

instance (depth : Nat) (steps : List Step) : Decidable (RisesAtMost depth steps) :=
  decidable_of_iff
    (∀ first ∈ steps.inits, first.count .up ≤ first.countP Step.isName + depth)
    (forall_congr' fun first => by rw [List.mem_inits])

instance (folder p : Path) : Decidable (StaysBelow folder p) :=
  decidable_of_iff (∃ rest ∈ stepsAfter? folder.steps p.steps, RisesAtMost 0 rest)
    (exists_congr fun _ => and_congr_left fun _ => stepsAfter?_eq_some)

/-- A path below the folder is moved by putting one folder for the other. -/
theorem Moved.relocate_eq (ha : AllNames a) (hb : AllNames b) (h : Moved a b p q) :
    relocate (fromRoot a) (fromRoot b) p = q := by
  obtain ⟨names, hn, rfl, rfl⟩ := h
  have hrelative : (fromRoot (a ++ names)).relativeTo? (fromRoot a) = some (relative names) := by
    rw [relativeTo?, normalize_fromRoot ha, normalize_fromRoot (allNames_append ha hn),
      steps_fromRoot ha, steps_fromRoot (allNames_append ha hn), ← List.cons_append,
      stepsAfter?_append, Option.map_some]
  have hfree := isAbsolute_relative hn.isPiece
  have hsteps : ((fromRoot b).join (relative names)).steps = .root :: (b ++ names) := by
    rw [steps_join (isAbsolute_fromRoot b) hfree, steps_fromRoot hb, relative,
      String.toList_ofList, pieceSteps_joinWith_chars hn.isPiece, List.cons_append]
  have hnormal : normalSteps true (.root :: (b ++ names)) = b ++ names := by
    rw [normalSteps, List.foldl_cons]
    show ((b ++ names).foldl (push true) []).reverse = _
    rw [foldl_push_names (allNames_append hb hn), List.append_nil, List.reverse_reverse]
  rw [relocate, hrelative, Option.map_some, Option.getD_some, resolve_of_relative hfree,
    Path.normalize, if_pos (isAbsolute_join (isAbsolute_fromRoot b)), hsteps, hnormal]

/-! ## Above twins -/

/-- The paths above pieces that are given from the right, told by their steps. -/
theorem map_steps_above {pieces : List (List Char)} (h : ∀ piece ∈ pieces, '/' ∉ piece) :
    (above .root pieces).map steps =
      (pieces.filterMap stepOf?).tails.tail.map fun more => .root :: more.reverse := by
  induction pieces with
  | nil => rfl
  | cons piece pieces ih =>
    obtain ⟨hpiece, hpieces⟩ := List.forall_mem_cons.mp h
    rcases piece_cases piece with ⟨hnone, hsilent⟩ | ⟨step, hstep, rfl⟩
    · have hs : isSilent piece = true := by rcases hsilent with rfl | rfl <;> rfl
      rw [above, if_pos hs, ih hpieces, List.filterMap_cons_none hnone]
    · have hs : ¬ isSilent step.chars = true := fun hs => by
        rw [stepOf?, if_pos hs] at hstep
        cases hstep
      have hfront : (pieces.dropWhile isSilent).filterMap stepOf? = pieces.filterMap stepOf? := by
        clear ih h hpieces
        induction pieces with
        | nil => rfl
        | cons next pieces ih =>
          rw [List.dropWhile_cons]
          split
          · rename_i hnext
            have hnone : stepOf? next = none := by rw [stepOf?, if_pos hnext]
            rw [ih, List.filterMap_cons_none hnone]
          · rfl
      have htext : (Path.mk (String.ofList
          (written .root (pieces.dropWhile isSilent).reverse))).text.toList =
            '/' :: joinWith '/' (pieces.dropWhile isSilent).reverse := by
        rw [String.toList_ofList]
        rfl
      rw [above, if_neg hs, List.map_cons, ih hpieces, List.filterMap_cons_some hstep,
        steps_of_slash htext, pieceSteps_joinWith fun p hp =>
          hpieces p ((List.dropWhile_sublist _).subset (List.mem_reverse.mp hp)),
        List.filterMap_reverse, hfront, List.tails_cons, List.tail_cons]
      cases pieces.filterMap stepOf? <;> rfl

theorem map_steps_ancestors {p : Path} (hp : p.steps = .root :: rest) :
    p.ancestors.map steps = rest.reverse.tails.map fun more => .root :: more.reverse := by
  obtain ⟨s, hs⟩ := isAbsolute_iff.mp (root_mem_steps.mp (hp ▸ List.mem_cons_self))
  have hrest : pieceSteps s = rest := by
    rw [steps_of_slash hs, List.cons.injEq] at hp
    exact hp.2
  have hfree : ∀ piece ∈ (splitOn '/' s).reverse, '/' ∉ piece := fun piece hm =>
    not_mem_of_mem_splitOn (List.mem_reverse.mp hm)
  have habove := map_steps_above hfree
  rw [List.filterMap_reverse, show (splitOn '/' s).filterMap stepOf? = rest from hrest] at habove
  rw [ancestors, List.map_cons, parents, hs, split_slash]
  show p.steps :: (above .root (splitOn '/' s).reverse).map steps = _
  rw [habove, hp]
  cases hreverse : rest.reverse with
  | nil =>
    rw [List.reverse_eq_nil_iff.mp hreverse]
    rfl
  | cons step more =>
    rw [List.tails_cons, List.tail_cons, List.map_cons, ← hreverse, List.reverse_reverse]

/-- A path that lies above a folder, which is given by its names. -/
def LiesAbove (a : List Step) (p : Path) : Prop :=
  ∃ front step behind, a = front ++ step :: behind ∧ p.steps = .root :: front

/-- The ways up from two paths go through related paths first, and then through paths above the
folders. -/
def Upwards (r : Path → Path → Prop) (a b : List Step) (p q : Path) : Prop :=
  ∃ near near' far far', p.ancestors = near ++ far ∧ q.ancestors = near' ++ far' ∧
    List.Forall₂ r near near' ∧ (∀ f ∈ far, LiesAbove a f) ∧ ∀ f ∈ far', LiesAbove b f

theorem Upwards.mem {r : Path → Path → Prop} (h : Upwards r a b p q) :
    Upwards (fun f f' => r f f' ∧ f ∈ p.ancestors ∧ f' ∈ q.ancestors) a b p q := by
  obtain ⟨near, near', far, far', hp, hq, hrel, habove⟩ := h
  refine ⟨near, near', far, far', hp, hq, ?_, habove⟩
  have hleft := (List.forall₂_and_left near near').mpr ⟨fun _ hf => hf, hrel⟩
  have hboth := (List.forall₂_and_left near' near).mpr ⟨fun _ hf => hf, hleft.flip⟩
  refine hboth.flip.imp fun f f' hf => ⟨hf.2.2, ?_, ?_⟩
  · exact hp ▸ List.mem_append_left _ hf.2.1
  · exact hq ▸ List.mem_append_left _ hf.1

/-- Of the paths above twins, those at or below the folders are twins; the others lie above them. -/
theorem Twin.ancestors (h : Twin a b p q) : Upwards (Twin a b) a b p q := by
  obtain ⟨rest, hp, hq, hr⟩ := h
  have split : ∀ (c : List Step) (r : Path), r.steps = .root :: (c ++ rest) →
      ∃ near far, r.ancestors = near ++ far ∧
        near.map steps = rest.reverse.tails.map (fun more => .root :: (c ++ more.reverse)) ∧
        ∀ r ∈ far, LiesAbove c r := by
    intro c r hr
    have hmap := map_steps_ancestors hr
    rw [List.reverse_append, List.tails_append, List.map_append, List.map_map] at hmap
    obtain ⟨near, far, hsplit, hnear, hfar⟩ := List.map_eq_append_iff.mp hmap
    refine ⟨near, far, hsplit, hnear.trans (List.map_congr_left fun more _ => ?_), fun r hm => ?_⟩
    · rw [Function.comp_apply, List.reverse_append, List.reverse_reverse]
    · have hsteps : r.steps ∈ c.reverse.tails.tail.map fun more => Step.root :: more.reverse :=
        hfar ▸ List.mem_map_of_mem hm
      obtain ⟨more, hmore, hsteps⟩ := List.mem_map.mp hsteps
      cases hc : c.reverse with
      | nil =>
        rw [hc] at hmore
        cases hmore
      | cons step before =>
        rw [hc, List.tails_cons, List.tail_cons, List.mem_tails] at hmore
        obtain ⟨between, hbetween⟩ := hmore
        have hfolder : c = more.reverse ++ (between.reverse ++ [step]) := by
          rw [← List.reverse_inj, hc, List.reverse_append, List.reverse_append,
            List.reverse_singleton, List.reverse_reverse, List.reverse_reverse, ← hbetween]
          rfl
        obtain ⟨next, behind, hnext⟩ := List.exists_cons_of_ne_nil
          (List.append_ne_nil_of_right_ne_nil between.reverse (List.cons_ne_nil step []))
        exact ⟨more.reverse, next, behind, hnext ▸ hfolder, hsteps.symm⟩
  obtain ⟨near, far, hsplit, hnear, hfar⟩ := split a p hp
  obtain ⟨near', far', hsplit', hnear', hfar'⟩ := split b q hq
  refine ⟨near, near', far, far', hsplit, hsplit', ?_, hfar, hfar'⟩
  have hrises : ∀ more ∈ rest.reverse.tails, RisesAtMost 0 more.reverse := fun more hm =>
    hr.of_prefix (List.reverse_reverse rest ▸ List.reverse_prefix.mpr ((List.mem_tails _ _).mp hm))
  clear hsplit hsplit'
  generalize rest.reverse.tails = ways at hnear hnear' hrises
  induction ways generalizing near near' with
  | nil =>
    rw [List.map_eq_nil_iff.mp hnear, List.map_eq_nil_iff.mp hnear']
    exact .nil
  | cons way ways ih =>
    obtain ⟨r, near, rfl, hr, hnear⟩ := List.map_eq_cons_iff.mp hnear
    obtain ⟨r', near', rfl, hr', hnear'⟩ := List.map_eq_cons_iff.mp hnear'
    obtain ⟨hway, hrises⟩ := List.forall_mem_cons.mp hrises
    exact .cons ⟨way.reverse, hr, hr', hway⟩ (ih near near' hnear hnear' hrises)

theorem isNormal_of_mem_ancestors {p q : Path} (hp : p.IsNormal) (hq : q ∈ p.ancestors) :
    q.IsNormal := by
  obtain ⟨names, hn, rfl⟩ := hp
  induction names using List.reverseRecOn with
  | nil =>
    rw [ancestors, parents_fromRoot_nil, List.mem_singleton] at hq
    exact ⟨[], hn, hq⟩
  | append_singleton names step ih =>
    obtain ⟨hnames, hstep⟩ := hn.of_concat
    rw [ancestors, parents_fromRoot_concat hnames hstep] at hq
    rcases List.mem_cons.mp hq with rfl | hq
    · exact ⟨_, hn, rfl⟩
    · exact ih hnames hq

/-- Of the paths above moved ones, those at or below the folders are moved. -/
theorem Moved.ancestors (ha : AllNames a) (hb : AllNames b) (h : Moved a b p q) :
    Upwards (Moved a b) a b p q := by
  obtain ⟨near, near', far, far', hp, hq, hnear, hfar⟩ := (h.twin ha hb).ancestors
  obtain ⟨names, hn, rfl, rfl⟩ := h
  have hnormal : ∀ f ∈ near, f.IsNormal := fun f hf =>
    isNormal_of_mem_ancestors ⟨_, allNames_append ha hn, rfl⟩ (hp ▸ List.mem_append_left _ hf)
  have hnormal' : ∀ f ∈ near', f.IsNormal := fun f hf =>
    isNormal_of_mem_ancestors ⟨_, allNames_append hb hn, rfl⟩ (hq ▸ List.mem_append_left _ hf)
  have hboth := (List.forall₂_and_left _ _).mpr
    ⟨hnormal', ((List.forall₂_and_left _ _).mpr ⟨hnormal, hnear⟩).flip⟩
  exact ⟨near, near', far, far', hp, hq,
    hboth.flip.imp fun f f' hf => hf.2.2.moved ha hb hf.2.1 hf.1, hfar⟩

/-- Twins that are not the folders themselves stand in folders that are twins. -/
theorem Twin.parent? (h : Twin a b p q) (hne : p.steps ≠ .root :: a) :
    ∃ f f', p.parent? = some f ∧ q.parent? = some f' ∧ Twin a b f f' := by
  obtain ⟨rest, hp, hq, hr⟩ := h
  rcases List.eq_nil_or_concat rest with rfl | ⟨front, last, rfl⟩
  · exact absurd (hp.trans (by rw [List.append_nil])) hne
  · rw [List.concat_eq_append] at hp hq hr
    have parent : ∀ (c : List Step) (r : Path), r.steps = .root :: (c ++ (front ++ [last])) →
        ∃ f, r.parent? = some f ∧ f.steps = .root :: (c ++ front) := by
      intro c r hr
      have hmap := map_steps_ancestors hr
      rw [← List.append_assoc, List.reverse_append, List.reverse_singleton, List.singleton_append,
        List.tails_cons, List.map_cons, Path.ancestors, List.map_cons, List.cons.injEq] at hmap
      obtain ⟨more, htails⟩ :
          ∃ more, (c ++ front).reverse.tails = (c ++ front).reverse :: more := by
        cases (c ++ front).reverse with
        | nil => exact ⟨[], rfl⟩
        | cons step before => exact ⟨_, List.tails_cons _ _⟩
      have hparents := hmap.2
      rw [htails, List.map_cons, List.reverse_reverse] at hparents
      obtain ⟨f, before, hf, hsteps, -⟩ := List.map_eq_cons_iff.mp hparents
      exact ⟨f, by rw [Path.parent?, hf, List.head?_cons], hsteps⟩
    obtain ⟨f, hf, hsteps⟩ := parent a p hp
    obtain ⟨f', hf', hsteps'⟩ := parent b q hq
    exact ⟨f, f', hf, hf', front, hsteps, hsteps', hr.of_prefix (List.prefix_append _ _)⟩

/-- Moved paths that are not the folders themselves stand in moved folders. -/
theorem Moved.parents (ha : AllNames a) (hb : AllNames b) (h : Moved a b p q)
    (hne : p ≠ fromRoot a) :
    ∃ f f', Moved a b f f' ∧ p.parents = f.ancestors ∧ q.parents = f'.ancestors := by
  obtain ⟨names, hn, rfl, rfl⟩ := h
  rcases List.eq_nil_or_concat names with rfl | ⟨front, last, rfl⟩
  · exact absurd (by rw [List.append_nil]) hne
  · rw [List.concat_eq_append] at hn ⊢
    obtain ⟨hfront, hlast⟩ := hn.of_concat
    refine ⟨_, _, ⟨front, hfront, rfl, rfl⟩, ?_, ?_⟩
    · rw [← List.append_assoc, parents_fromRoot_concat (allNames_append ha hfront) hlast,
        Path.ancestors]
    · rw [← List.append_assoc, parents_fromRoot_concat (allNames_append hb hfront) hlast,
        Path.ancestors]

/-! ## Searching upwards -/

/-- Searches through lists whose first parts are related, and whose last parts have nothing to
find. -/
theorem find?_rel {α : Type} {r : α → α → Prop} {f g : α → Bool} {near near' far far' : List α}
    (hnear : List.Forall₂ r near near') (hfg : ∀ x y, r x y → f x = g y)
    (hfar : ∀ x ∈ far, f x = false) (hfar' : ∀ x ∈ far', g x = false) :
    Option.Rel r ((near ++ far).find? f) ((near' ++ far').find? g) := by
  have hnone : ∀ {f : α → Bool} {far : List α}, (∀ x ∈ far, f x = false) → far.find? f = none :=
    fun h => List.find?_eq_none.mpr fun x hx => Bool.eq_false_iff.mp (h x hx)
  induction hnear with
  | nil =>
    rw [List.nil_append, List.nil_append, hnone hfar, hnone hfar']
    exact .none
  | @cons x y near near' hxy _ ih =>
    rw [List.cons_append, List.cons_append, List.find?_cons, List.find?_cons, hfg x y hxy]
    cases g y with
    | true => exact .some hxy
    | false => exact ih

/-- A search on the way up, through what each folder has to offer, ends alike if nothing is found
above the folders. -/
theorem Upwards.find? {r s : Path → Path → Prop} (h : Upwards r a b p q)
    {offers : Path → List Path} {found found' : Path → Bool}
    (hnear : ∀ f f', r f f' → List.Forall₂ s (offers f) (offers f'))
    (hsame : ∀ x y, s x y → found x = found' y)
    (hfar : ∀ f, LiesAbove a f → ∀ x ∈ offers f, found x = false)
    (hfar' : ∀ f, LiesAbove b f → ∀ x ∈ offers f, found' x = false) :
    Option.Rel s ((p.ancestors.flatMap offers).find? found)
      ((q.ancestors.flatMap offers).find? found') := by
  obtain ⟨near, near', far, far', hp, hq, hrel, habove, habove'⟩ := h
  have nothing : ∀ {c : List Step} {far : List Path} {found : Path → Bool},
      (∀ f ∈ far, LiesAbove c f) → (∀ f, LiesAbove c f → ∀ x ∈ offers f, found x = false) →
      ∀ x ∈ far.flatMap offers, found x = false := fun habove hfar x hx => by
    obtain ⟨f, hf, hx⟩ := List.mem_flatMap.mp hx
    exact hfar f (habove f hf) x hx
  rw [hp, hq, List.flatMap_append, List.flatMap_append]
  exact find?_rel (List.rel_flatMap hrel fun f f' hf => hnear f f' hf) hsame
    (nothing habove hfar) (nothing habove' hfar')

/-! ## Declaration files -/

/-- Whether a path names a declaration file hangs on its last name. -/
theorem isDeclarationFile_concat (names : List Step) (step : Step) :
    (fromRoot (names ++ [step])).isDeclarationFile =
      (Path.mk (String.ofList step.chars)).isDeclarationFile := by
  obtain ⟨before, hbefore⟩ : ∃ before, (fromRoot (names ++ [step])).text.toList =
      before ++ '/' :: step.chars := by
    rw [toList_fromRoot, List.map_append, List.map_singleton]
    by_cases hnames : names.map Step.chars = []
    · exact ⟨[], by rw [hnames]; rfl⟩
    · exact ⟨'/' :: joinWith '/' (names.map Step.chars), by rw [joinWith_concat hnames]; rfl⟩
  have hlower : (lowerAscii (fromRoot (names ++ [step])).text.toList).reverse =
      (lowerAscii step.chars).reverse ++ '/' :: (lowerAscii before).reverse := by
    rw [hbefore, lowerAscii, List.map_append, List.map_cons, List.reverse_append,
      List.reverse_cons, List.append_assoc]
    rfl
  have hslash : ∀ suffix ∈ declarationSuffixes, '/' ∉ suffix.toList.reverse := by decide
  rw [isDeclarationFile, isDeclarationFile, hlower, String.toList_ofList, Bool.eq_iff_iff,
    List.any_eq_true, List.any_eq_true]
  refine exists_congr fun suffix => and_congr_right fun hm => ?_
  rw [List.isPrefixOf_iff_prefix, List.isPrefixOf_iff_prefix]
  exact prefix_append_cons_iff (hslash suffix hm)

theorem Moved.isDeclarationFile_eq (h : Moved a b p q) (hne : p ≠ fromRoot a) :
    p.isDeclarationFile = q.isDeclarationFile := by
  obtain ⟨names, hn, rfl, rfl⟩ := h
  rcases List.eq_nil_or_concat names with rfl | ⟨front, step, rfl⟩
  · exact absurd (by rw [List.append_nil]) hne
  · rw [List.concat_eq_append, ← List.append_assoc, ← List.append_assoc,
      isDeclarationFile_concat, isDeclarationFile_concat]

end ApiReview.Path
