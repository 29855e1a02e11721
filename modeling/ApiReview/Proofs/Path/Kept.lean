import ApiReview.Proofs.Path.Normal
import ApiReview.Proofs.Text.Search

/-!
# What steps up take back

A step up takes back the name before it that is still there. A name is kept in the normal form
exactly if the steps behind it never go up above it (`name_mem_normalSteps_iff`): no number of the
first of them has more steps up than names. So a text without slashes occurs in the normal form
exactly if it occurs in a name that is kept (`infix_normalize_iff`).
-/

namespace ApiReview.Path

open Text

/-- Whether a step is by a name. -/
def Step.isName : Step → Bool
  | .name _ => true
  | _ => false

/-- Steps that never go up by more than `depth` from where they start. -/
def RisesAtMost (depth : Nat) (steps : List Step) : Prop :=
  ∀ first, first <+: steps → first.count .up ≤ first.countP Step.isName + depth

/-- One of the steps is the name, and those behind it never go up above it. -/
def KeepsName (steps : List Step) (name : List Char) : Prop :=
  ∃ before behind, steps = before ++ .name name :: behind ∧ RisesAtMost 0 behind

variable {depth : Nat} {step : Step} {steps stack : List Step} {name : List Char}

/-! ## Step by step -/

theorem risesAtMost_nil : RisesAtMost depth [] := by
  intro first h
  rw [List.prefix_nil.mp h]
  exact Nat.zero_le _

theorem risesAtMost_cons :
    RisesAtMost depth (step :: steps) ↔ ∀ first, first <+: steps →
      (step :: first).count .up ≤ (step :: first).countP Step.isName + depth := by
  constructor
  · exact fun h first hf => h _ (List.cons_prefix_cons.mpr ⟨rfl, hf⟩)
  · intro h first hf
    rcases List.prefix_cons_iff.mp hf with rfl | ⟨rest, rfl, hr⟩
    · exact Nat.zero_le _
    · exact h rest hr

theorem risesAtMost_name_cons :
    RisesAtMost depth (.name name :: steps) ↔ RisesAtMost (depth + 1) steps := by
  refine risesAtMost_cons.trans (forall₂_congr fun first _ => ?_)
  rw [List.count_cons_of_ne (fun e => by cases e), List.countP_cons_of_pos rfl]
  omega

theorem risesAtMost_up_cons :
    RisesAtMost (depth + 1) (.up :: steps) ↔ RisesAtMost depth steps := by
  refine risesAtMost_cons.trans (forall₂_congr fun first _ => ?_)
  rw [List.count_cons_self, List.countP_cons_of_neg Bool.false_ne_true]
  omega

theorem not_risesAtMost_up_cons : ¬ RisesAtMost 0 (.up :: steps) := by
  intro h
  exact absurd (risesAtMost_cons.mp h [] List.nil_prefix) (by decide)

/-- A step that is neither up nor a name says nothing. -/
theorem risesAtMost_cons_of_silent (hu : step ≠ .up) (hn : step.isName = false) :
    RisesAtMost depth (step :: steps) ↔ RisesAtMost depth steps := by
  refine risesAtMost_cons.trans (forall₂_congr fun first _ => ?_)
  rw [List.count_cons_of_ne hu, List.countP_cons_of_neg (by rw [hn]; exact Bool.false_ne_true)]

/-- Without a step up, nothing rises. -/
theorem risesAtMost_of_not_mem (h : .up ∉ steps) : RisesAtMost depth steps := by
  intro first hf
  rw [List.count_eq_zero.mpr fun hm => h (hf.subset hm)]
  exact Nat.zero_le _

theorem keepsName_cons :
    KeepsName (step :: steps) name ↔
      (step = .name name ∧ RisesAtMost 0 steps) ∨ KeepsName steps name := by
  constructor
  · rintro ⟨before, behind, he, hr⟩
    cases before with
    | nil =>
      obtain ⟨rfl, rfl⟩ := List.cons_eq_cons.mp he
      exact .inl ⟨rfl, hr⟩
    | cons first before =>
      obtain ⟨rfl, rfl⟩ := List.cons_eq_cons.mp he
      exact .inr ⟨before, behind, rfl, hr⟩
  · rintro (⟨rfl, hr⟩ | ⟨before, behind, rfl, hr⟩)
    · exact ⟨[], steps, rfl, hr⟩
    · exact ⟨step :: before, behind, rfl, hr⟩

/-! ## On a stack -/

/-- A name on a stack, under `depth` names and those above it, that further steps do not take
back. -/
def KeepsBelow (depth : Nat) (stack steps : List Step) (name : List Char) : Prop :=
  ∃ above below, stack = above ++ .name name :: below ∧ RisesAtMost (depth + above.length) steps

theorem not_keepsBelow_of_not_mem (h : .name name ∉ stack) :
    ¬ KeepsBelow depth stack steps name := by
  rintro ⟨above, below, rfl, -⟩
  exact h (List.mem_append_right _ List.mem_cons_self)

theorem keepsBelow_cons :
    KeepsBelow depth (step :: stack) steps name ↔
      (step = .name name ∧ RisesAtMost depth steps) ∨ KeepsBelow (depth + 1) stack steps name := by
  have hlength : ∀ above : List Step,
      depth + (step :: above).length = depth + 1 + above.length := fun above => by
    rw [List.length_cons, Nat.add_comm above.length, Nat.add_assoc]
  constructor
  · rintro ⟨above, below, he, hr⟩
    cases above with
    | nil =>
      obtain ⟨rfl, rfl⟩ := List.cons_eq_cons.mp he
      exact .inl ⟨rfl, hr⟩
    | cons first above =>
      obtain ⟨rfl, rfl⟩ := List.cons_eq_cons.mp he
      exact .inr ⟨above, below, rfl, hlength above ▸ hr⟩
  · rintro (⟨rfl, hr⟩ | ⟨above, below, rfl, hr⟩)
    · exact ⟨[], stack, rfl, hr⟩
    · exact ⟨step :: above, below, rfl, hlength above ▸ hr⟩

/-- Of a stack that steps were made on: nothing but names stands above a name. -/
def Layered : List Step → Prop
  | [] => True
  | .name _ :: rest => Layered rest
  | _ :: rest => ∀ name, .name name ∉ rest

/-- On the top of a stack is a name, or there is none in it. -/
theorem Layered.top_cases (h : Layered stack) :
    (∃ top rest, stack = .name top :: rest) ∨ ∀ name, .name name ∉ stack := by
  cases stack with
  | nil => exact .inr fun _ => List.not_mem_nil
  | cons top rest =>
    cases top with
    | name top => exact .inl ⟨top, rest, rfl⟩
    | _ =>
      refine .inr fun name hm => ?_
      rcases List.mem_cons.mp hm with e | hm
      · cases e
      · exact h name hm

/-- A step up has nothing to take back where there is no name. -/
theorem push_up_of_not_mem {absolute : Bool} (h : ∀ name, .name name ∉ stack) :
    push absolute stack .up = if absolute then stack else .up :: stack := by
  cases stack with
  | nil => rfl
  | cons top rest =>
    cases top with
    | name name => exact absurd List.mem_cons_self (h name)
    | _ => rfl

theorem not_mem_push_up {absolute : Bool} (h : ∀ name, .name name ∉ stack) (name : List Char) :
    .name name ∉ push absolute stack .up := by
  rw [push_up_of_not_mem h]
  cases absolute
  · exact fun hm => h name ((List.mem_cons.mp hm).resolve_left fun e => by cases e)
  · exact h name

theorem Layered.push (h : Layered stack) (absolute : Bool) (step : Step) :
    Layered (push absolute stack step) := by
  cases step with
  | up =>
    rcases h.top_cases with ⟨top, rest, rfl⟩ | hn
    · exact h
    · rw [push_up_of_not_mem hn]
      cases absolute
      · exact hn
      · exact h
  | _ => exact h

theorem KeepsBelow.congr {depth' : Nat} {steps' : List Step}
    (h : ∀ more, RisesAtMost (depth + more) steps ↔ RisesAtMost (depth' + more) steps') :
    KeepsBelow depth stack steps name ↔ KeepsBelow depth' stack steps' name :=
  exists_congr fun above => exists_congr fun _ => and_congr_right fun _ => h above.length

/-! ## In the normal form -/

theorem mem_iff_keepsBelow_nil : .name name ∈ stack ↔ KeepsBelow 0 stack [] name := by
  rw [List.mem_iff_append]
  exact exists_congr fun _ => exists_congr fun _ => (and_iff_left risesAtMost_nil).symm

/-- What is kept when a step has come on the stack: what the step leaves, or the step itself. -/
theorem keepsBelow_push_iff (absolute : Bool) (h : Layered stack) :
    KeepsBelow 0 (push absolute stack step) steps name ↔
      KeepsBelow 0 stack (step :: steps) name ∨ (step = .name name ∧ RisesAtMost 0 steps) := by
  have hsilent : ∀ step : Step, step ≠ .up → step.isName = false →
      (KeepsBelow 0 stack steps name ↔
        KeepsBelow 0 stack (step :: steps) name ∨ (step = .name name ∧ RisesAtMost 0 steps)) := by
    intro step hu hn
    rw [or_iff_left fun hname => by rw [hname.1] at hn; cases hn]
    exact KeepsBelow.congr fun _ => (risesAtMost_cons_of_silent hu hn).symm
  cases step with
  | root => exact hsilent .root (by decide) rfl
  | here => exact hsilent .here (by decide) rfl
  | name taken =>
    rw [push, keepsBelow_cons, or_comm]
    refine or_congr_left (KeepsBelow.congr fun more => ?_)
    rw [risesAtMost_name_cons, Nat.add_right_comm]
  | up =>
    rw [or_iff_left (fun hname => by cases hname.1)]
    rcases h.top_cases with ⟨top, rest, rfl⟩ | hn
    · rw [push, keepsBelow_cons, or_iff_right fun htop => not_risesAtMost_up_cons htop.2]
      refine KeepsBelow.congr fun more => ?_
      rw [Nat.add_right_comm, risesAtMost_up_cons]
    · exact iff_of_false (not_keepsBelow_of_not_mem (not_mem_push_up hn name))
        (not_keepsBelow_of_not_mem (hn name))

/-- A name that further steps leave is on the stack already and not taken back, or comes with the
steps and is kept. -/
theorem name_mem_foldl_push_iff (absolute : Bool) (h : Layered stack) :
    .name name ∈ steps.foldl (push absolute) stack ↔
      KeepsBelow 0 stack steps name ∨ KeepsName steps name := by
  induction steps generalizing stack with
  | nil =>
    rw [List.foldl_nil, mem_iff_keepsBelow_nil, or_iff_left]
    rintro ⟨before, behind, he, -⟩
    exact List.cons_ne_nil _ _ (List.append_eq_nil_iff.mp he.symm).2
  | cons step steps ih =>
    rw [List.foldl_cons, ih (h.push absolute step), keepsName_cons, keepsBelow_push_iff absolute h]
    exact or_assoc

/-- A name stands in the normal form exactly if the steps behind it never go up above it. -/
theorem name_mem_normalSteps_iff (absolute : Bool) :
    .name name ∈ normalSteps absolute steps ↔ KeepsName steps name := by
  have hempty : ¬ KeepsBelow 0 [] steps name := not_keepsBelow_of_not_mem List.not_mem_nil
  have hlayered : Layered [] := trivial
  rw [normalSteps, List.mem_reverse, name_mem_foldl_push_iff absolute hlayered]
  exact or_iff_right hempty

/-! ## Searching the normal form -/

theorem not_infix_of_all_dots {part s : List Char} (hd : ∃ c ∈ part, c ≠ '.')
    (hs : s.all (· = '.') = true) : ¬ part <:+: s := by
  obtain ⟨c, hc, hne⟩ := hd
  exact fun h => hne (of_decide_eq_true (List.all_eq_true.mp hs c (h.subset hc)))

/-- What has no slash, and more than dots, occurs in joined steps exactly if it occurs in one of
their names. -/
theorem infix_joinWith_chars_iff {part : List Char} (hs : '/' ∉ part) (hd : ∃ c ∈ part, c ≠ '.')
    {steps : List Step} :
    part <:+: joinWith '/' (steps.map Step.chars) ↔
      ∃ name, .name name ∈ steps ∧ part <:+: name := by
  have hne : part ≠ [] := by
    rintro rfl
    obtain ⟨c, hc, -⟩ := hd
    cases hc
  rw [infix_joinWith_iff hs hne]
  constructor
  · rintro ⟨piece, hp, h⟩
    obtain ⟨step, hm, rfl⟩ := List.mem_map.mp hp
    cases step with
    | name name => exact ⟨name, hm, h⟩
    | root =>
      obtain ⟨c, hc, -⟩ := hd
      exact absurd (List.mem_singleton.mp (h.subset hc) ▸ hc) hs
    | here => exact absurd h (not_infix_of_all_dots hd (by decide))
    | up => exact absurd h (not_infix_of_all_dots hd (by decide))
  · rintro ⟨name, hm, h⟩
    exact ⟨name, List.mem_map.mpr ⟨.name name, hm, rfl⟩, h⟩

/-- What has no slash, and more than dots, occurs in a normal form exactly if it occurs in a name
that is kept. -/
theorem infix_normalize_iff {part : List Char} (hs : '/' ∉ part) (hd : ∃ c ∈ part, c ≠ '.')
    {p : Path} :
    part <:+: p.normalize.text.toList ↔ ∃ name, KeepsName p.steps name ∧ part <:+: name := by
  have hnames : ∀ absolute, (∃ name, .name name ∈ normalSteps absolute p.steps ∧ part <:+: name) ↔
      ∃ name, KeepsName p.steps name ∧ part <:+: name := fun absolute =>
    exists_congr fun name => and_congr_left fun _ => name_mem_normalSteps_iff _
  rw [normalize]
  split
  · rw [← hnames true, ← infix_joinWith_chars_iff hs hd, fromRoot, String.toList_ofList]
    refine (infix_append_sep_iff hs (s := [])).trans (or_iff_right ?_)
    exact not_infix_of_all_dots hd (by decide)
  · rw [← hnames false, ← infix_joinWith_chars_iff hs hd]
    split
    · rename_i hnil
      rw [hnil]
      exact iff_of_false (not_infix_of_all_dots hd (by decide))
        (not_infix_of_all_dots hd (by decide))
    · rw [relative, String.toList_ofList]

end ApiReview.Path
