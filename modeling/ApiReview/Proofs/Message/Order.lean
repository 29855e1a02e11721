import ApiReview.Message.Basic
import Mathlib.Data.List.Basic

/-!
# The order of messages

Messages are ordered by file, then by line, then by id (`Message.Precedes`): one of them stands
before the other in the comparison exactly if it does by these cases (`Message.compare_eq_lt_iff`),
and they are equal for it exactly if file, line and id are the same (`Message.compare_eq_iff`). Paths
are compared step by step (`Path.compare_eq_lt_iff`), so paths with the same steps are equal, however
they are spelled. The order is total, as the one of each part is.
-/

namespace ApiReview

open Std (OrientedCmp TransCmp ReflCmp LawfulEqCmp)

section Pulled

variable {α β : Type} (cmp : β → β → Ordering) (f : α → β)

theorem transCmp_on [TransCmp cmp] : TransCmp fun a b => cmp (f a) (f b) where
  eq_swap := OrientedCmp.eq_swap
  isLE_trans := TransCmp.isLE_trans

end Pulled

namespace Path

theorem compareLists_eq {α : Type} (cmp : α → α → Ordering) (as bs : List α) :
    compareLists cmp as bs = List.compareLex cmp as bs := by
  induction as generalizing bs with
  | nil => cases bs <;> rfl
  | cons a as ih =>
    cases bs with
    | nil => rfl
    | cons b bs =>
      rw [compareLists, ih, List.compareLex_cons_cons]

/-- A list stands before another by its first difference, or if it ends there. -/
theorem compareLists_eq_lt_iff {α : Type} {cmp : α → α → Ordering} [LawfulEqCmp cmp]
    {as bs : List α} :
    compareLists cmp as bs = .lt ↔ List.Lex (fun a b => cmp a b = .lt) as bs := by
  induction as generalizing bs with
  | nil => cases bs <;> simp [compareLists]
  | cons a as ih =>
    cases bs with
    | nil => simp [compareLists]
    | cons b bs =>
      rw [compareLists, Ordering.then_eq_lt, ih, LawfulEqCmp.compare_eq_iff_eq,
        List.cons_lex_cons_iff]

instance {α : Type} (cmp : α → α → Ordering) [TransCmp cmp] : TransCmp (compareLists cmp) := by
  rw [show compareLists cmp = List.compareLex cmp from funext₂ (compareLists_eq cmp)]
  infer_instance

instance {α : Type} (cmp : α → α → Ordering) [LawfulEqCmp cmp] :
    LawfulEqCmp (compareLists cmp) := by
  rw [show compareLists cmp = List.compareLex cmp from funext₂ (compareLists_eq cmp)]
  infer_instance

instance : TransCmp fun a b : Char => Ord.compare a.toNat b.toNat :=
  transCmp_on Ord.compare Char.toNat

instance : LawfulEqCmp fun a b : Char => Ord.compare a.toNat b.toNat where
  compare_self := ReflCmp.compare_self
  eq_of_compare h := Char.toNat_inj.mp (LawfulEqCmp.eq_of_compare h)

instance : TransCmp compareChars :=
  inferInstanceAs (TransCmp (compareLists _))

instance : LawfulEqCmp compareChars :=
  inferInstanceAs (LawfulEqCmp (compareLists _))

theorem compareChars_eq_lt_iff {s s' : List Char} : compareChars s s' = .lt ↔ s < s' := by
  rw [compareChars, compareLists_eq_lt_iff]
  exact iff_of_eq (congrArg (List.Lex · s s') (funext₂ fun _ _ => propext Nat.compare_eq_lt))

/-- Steps are compared by their kinds, and names by their characters. -/
theorem Step.compare_eq (a b : Step) :
    a.compare b = (Ord.compare a.rank b.rank).then (compareChars a.chars b.chars) := by
  cases a <;> cases b <;> rfl

instance : TransCmp Step.compare := by
  have hsteps : TransCmp (compareLex (fun a b : Step => Ord.compare a.rank b.rank)
      fun a b => compareChars a.chars b.chars) :=
    have := transCmp_on Ord.compare Step.rank
    have := transCmp_on compareChars Step.chars
    inferInstance
  rwa [show Step.compare = compareLex _ _ from funext₂ Step.compare_eq]

instance : LawfulEqCmp Step.compare where
  compare_self {a} := by
    rw [Step.compare_eq]
    exact Ordering.then_eq_eq.mpr ⟨ReflCmp.compare_self, ReflCmp.compare_self⟩
  eq_of_compare {a b} h := by
    rw [Step.compare_eq, Ordering.then_eq_eq] at h
    have hrank := LawfulEqCmp.eq_of_compare h.1
    have hchars := LawfulEqCmp.eq_of_compare h.2
    cases a <;> cases b
    case name.name => exact congrArg Step.name hchars
    all_goals first | rfl | cases hrank

/-- The order of steps: the root stands first, then a step nowhere, then a step up, and then the
names by their characters. -/
inductive Step.Precedes : Step → Step → Prop
  | kind {a b : Step} (h : a.rank < b.rank) : Precedes a b
  | name {s s' : List Char} (h : s < s') : Precedes (.name s) (.name s')

theorem Step.compare_eq_lt_iff {a b : Step} : a.compare b = .lt ↔ a.Precedes b := by
  constructor
  · intro h
    cases a <;> cases b
    case name.name => exact .name (compareChars_eq_lt_iff.mp h)
    all_goals exact .kind (Nat.compare_eq_lt.mp h)
  · rintro (h | h)
    · rw [Step.compare_eq, Nat.compare_eq_lt.mpr h]
      rfl
    · exact compareChars_eq_lt_iff.mpr h

/-- A path stands before another by the first step that differs, or if it ends there. -/
theorem compare_eq_lt_iff {p q : Path} :
    p.compare q = .lt ↔ List.Lex Step.Precedes p.steps q.steps := by
  rw [compare, compareLists_eq_lt_iff]
  exact iff_of_eq (congrArg (List.Lex · _ _) (funext₂ fun _ _ => propext Step.compare_eq_lt_iff))

instance : TransCmp compare :=
  transCmp_on (compareLists Step.compare) steps

theorem compare_eq_iff {p q : Path} : p.compare q = .eq ↔ p.steps = q.steps := by
  show compareLists Step.compare p.steps q.steps = .eq ↔ _
  exact LawfulEqCmp.compare_eq_iff_eq

end Path

namespace Message

section Options

variable {α : Type} (cmp : α → α → Ordering)

instance [OrientedCmp cmp] : OrientedCmp (compareOptions cmp) where
  eq_swap {a b} := by
    cases a <;> cases b
    case some.some a b =>
      show cmp a b = (cmp b a).swap
      exact OrientedCmp.eq_swap
    all_goals rfl

instance [TransCmp cmp] : TransCmp (compareOptions cmp) where
  isLE_trans {a b c} hab hbc := by
    cases a <;> cases b <;> cases c
    case some.some.some a b c =>
      show (cmp a c).isLE = true
      exact TransCmp.isLE_trans (b := b) hab hbc
    all_goals first | rfl | cases hab | cases hbc

theorem compareOptions_eq_iff {a b : Option α} :
    compareOptions cmp a b = .eq ↔ Option.Rel (fun a b => cmp a b = .eq) a b := by
  cases a <;> cases b <;> simp [compareOptions]

theorem compareOptions_eq_lt_iff {a b : Option α} :
    compareOptions cmp a b = .lt ↔ Option.lt (fun a b => cmp a b = .lt) a b := by
  cases a <;> cases b <;> simp [compareOptions, Option.lt]

end Options

/-- What messages are ordered by: the steps to the file, the line and the id. -/
def key (m : Message) : Option (List Path.Step) × Option Nat × String :=
  (m.location.map (·.file.steps), m.location.bind (·.line), m.id)

instance : TransCmp compare := by
  have hfile : TransCmp fun a b : Message =>
      compareOptions Path.compare (a.location.map (·.file)) (b.location.map (·.file)) :=
    transCmp_on _ _
  have hline : TransCmp fun a b : Message =>
      compareOptions Ord.compare (a.location.bind (·.line)) (b.location.bind (·.line)) :=
    transCmp_on _ _
  have hid : TransCmp fun a b : Message => Path.compareChars a.id.toList b.id.toList :=
    transCmp_on _ _
  exact inferInstanceAs (TransCmp (compareLex _ (compareLex _ _)))

/-- The order of messages by cases: by the steps to the file, and messages without a file come
first; in one file by the line, and those without a line come first; and in one line by the id. -/
inductive Precedes (a b : Message) : Prop
  | file (h : Option.lt (List.Lex Path.Step.Precedes) a.key.1 b.key.1)
  | line (hfile : a.key.1 = b.key.1) (h : Option.lt (· < ·) a.key.2.1 b.key.2.1)
  | id (hfile : a.key.1 = b.key.1) (hline : a.key.2.1 = b.key.2.1) (h : a.key.2.2 < b.key.2.2)

section Parts

variable {a b : Message}

theorem compareFiles_eq_iff :
    compareOptions Path.compare (a.location.map (·.file)) (b.location.map (·.file)) = .eq ↔
      a.key.1 = b.key.1 := by
  rw [compareOptions_eq_iff, key, key]
  cases a.location <;> cases b.location <;> simp [Path.compare_eq_iff]

theorem compareFiles_eq_lt_iff :
    compareOptions Path.compare (a.location.map (·.file)) (b.location.map (·.file)) = .lt ↔
      Option.lt (List.Lex Path.Step.Precedes) a.key.1 b.key.1 := by
  rw [compareOptions_eq_lt_iff, key, key]
  cases a.location <;> cases b.location <;> simp [Option.lt, Path.compare_eq_lt_iff]

theorem compareLines_eq_iff :
    compareOptions Ord.compare (a.location.bind (·.line)) (b.location.bind (·.line)) = .eq ↔
      a.key.2.1 = b.key.2.1 := by
  rw [compareOptions_eq_iff, key, key]
  cases a.location.bind (·.line) <;> cases b.location.bind (·.line) <;> simp

theorem compareLines_eq_lt_iff :
    compareOptions Ord.compare (a.location.bind (·.line)) (b.location.bind (·.line)) = .lt ↔
      Option.lt (· < ·) a.key.2.1 b.key.2.1 := by
  rw [compareOptions_eq_lt_iff, key, key]
  cases a.location.bind (·.line) <;> cases b.location.bind (·.line) <;>
    simp [Option.lt, Nat.compare_eq_lt]

/-- Messages are equal in the order if they have the same key. -/
theorem compare_eq_iff : a.compare b = .eq ↔ a.key = b.key := by
  have hid : Path.compareChars a.id.toList b.id.toList = .eq ↔ a.key.2.2 = b.key.2.2 :=
    LawfulEqCmp.compare_eq_iff_eq.trans String.toList_inj
  rw [compare, Ordering.then_eq_eq, Ordering.then_eq_eq, compareFiles_eq_iff, compareLines_eq_iff,
    hid, Prod.ext_iff, Prod.ext_iff]

/-- A message stands before another in the order by file, line and id. -/
theorem compare_eq_lt_iff : a.compare b = .lt ↔ a.Precedes b := by
  have hid : Path.compareChars a.id.toList b.id.toList = .lt ↔ a.key.2.2 < b.key.2.2 :=
    Path.compareChars_eq_lt_iff.trans String.lt_iff.symm
  rw [compare, Ordering.then_eq_lt, Ordering.then_eq_lt, compareFiles_eq_lt_iff,
    compareFiles_eq_iff, compareLines_eq_lt_iff, compareLines_eq_iff, hid]
  constructor
  · rintro (hfile | ⟨hfile, hline | ⟨hline, hid⟩⟩)
    · exact .file hfile
    · exact .line hfile hline
    · exact .id hfile hline hid
  · rintro (hfile | ⟨hfile, hline⟩ | ⟨hfile, hline, hid⟩)
    · exact .inl hfile
    · exact .inr ⟨hfile, .inl hline⟩
    · exact .inr ⟨hfile, .inr ⟨hline, hid⟩⟩

theorem Precedes.asymm (h : a.Precedes b) : ¬ b.Precedes a := by
  have hswap : a.compare b = (b.compare a).swap := OrientedCmp.eq_swap
  intro h'
  rw [compare_eq_lt_iff.mpr h, compare_eq_lt_iff.mpr h'] at hswap
  cases hswap

end Parts

/-! ## Which may stand before the other -/

theorem mayPrecede_iff_isLE {a b : Message} :
    a.mayPrecede b = true ↔ (a.compare b).isLE = true := by
  rw [mayPrecede, decide_eq_true_iff]
  cases a.compare b <;> simp

/-- A message may stand before another if it does by file, line and id, or if these are the same. -/
theorem mayPrecede_iff {a b : Message} : a.mayPrecede b = true ↔ a.Precedes b ∨ a.key = b.key := by
  rw [mayPrecede_iff_isLE, ← compare_eq_lt_iff, ← compare_eq_iff]
  cases a.compare b <;> simp

theorem mayPrecede_trans (a b c : Message) (hab : a.mayPrecede b = true)
    (hbc : b.mayPrecede c = true) : a.mayPrecede c = true := by
  rw [mayPrecede_iff_isLE] at hab hbc ⊢
  exact TransCmp.isLE_trans hab hbc

theorem mayPrecede_total (a b : Message) : (a.mayPrecede b || b.mayPrecede a) = true := by
  have hswap : a.compare b = (b.compare a).swap := OrientedCmp.eq_swap
  rw [Bool.or_eq_true, mayPrecede_iff_isLE, mayPrecede_iff_isLE, hswap]
  cases b.compare a <;> simp

/-- Messages that may stand before each other have the same key. -/
theorem key_eq_of_mayPrecede {a b : Message} (hab : a.mayPrecede b = true)
    (hba : b.mayPrecede a = true) : a.key = b.key := by
  rcases mayPrecede_iff.mp hab with h | hkey
  · rcases mayPrecede_iff.mp hba with h' | hkey
    · exact absurd h' h.asymm
    · exact hkey.symm
  · exact hkey

end Message

end ApiReview
