import ApiReview.Pipeline.Script
import ApiReview.Proofs.Message.Accounting

/-!
# What is left to claim

A finding is claimed once, so behind a claim of all findings none is left (`spent_claimAll`): the
next report gets none (`claimAll_of_spent`). A claim of all findings comes to nothing exactly if
there was none that belongs into the report (`claimAll_eq_nil_iff`).
-/

namespace ApiReview

namespace Findings

/-- No finding may be claimed, or may be claimed any more. -/
def Spent (f : Findings) : Prop :=
  ∀ m ∈ f.messages, f.isClaimable m = false

theorem rules_claimAt (f : Findings) (indices : List Nat) :
    (f.claimAt indices).1.rules = f.rules := by
  induction indices generalizing f with
  | nil => rfl
  | cons index rest ih =>
    rw [claimAt]
    split
    · split
      · exact ih _
      · exact ih f
    · exact ih f

theorem claimAt_of_spent {f : Findings} (h : f.Spent) (indices : List Nat) :
    f.claimAt indices = (f, []) := by
  induction indices with
  | nil => rfl
  | cons index rest ih =>
    rw [claimAt]
    split
    · rename_i m hm
      rw [if_neg (Bool.eq_false_iff.mp (h m (List.mem_of_getElem? hm)))]
      exact ih
    · exact ih

/-- What may be claimed behind a claim stands at another index, and was there before. -/
theorem claimable_of_claimAt (f : Findings) {indices : List Nat} {i : Nat} {m : Message}
    (hm : (f.claimAt indices).1.messages[i]? = some m) (hc : f.isClaimable m = true) :
    i ∉ indices ∧ f.messages[i]? = some m := by
  induction indices generalizing f with
  | nil => exact ⟨List.not_mem_nil, hm⟩
  | cons index rest ih =>
    rw [claimAt] at hm
    cases hi : f.messages[index]? with
    | none =>
      simp only [hi] at hm
      obtain ⟨hrest, hbefore⟩ := ih f hm hc
      refine ⟨fun h => ?_, hbefore⟩
      rcases List.mem_cons.mp h with rfl | h
      · cases hi.symm.trans hbefore
      · exact hrest h
    | some m' =>
      simp only [hi] at hm
      by_cases hc' : f.isClaimable m' = true
      · rw [if_pos hc'] at hm
        obtain ⟨hrest, hbefore⟩ := ih (f.replace index m'.markHandled) hm hc
        -- The finding at the index itself is handled now.
        have hne : i ≠ index := by
          rintro rfl
          cases (getElem?_replace_self hi _).symm.trans hbefore
          cases hc
        rw [getElem?_replace_of_ne f hne] at hbefore
        exact ⟨fun h => (List.mem_cons.mp h).elim hne hrest, hbefore⟩
      · rw [if_neg hc'] at hm
        obtain ⟨hrest, hbefore⟩ := ih f hm hc
        refine ⟨fun h => ?_, hbefore⟩
        rcases List.mem_cons.mp h with rfl | h
        · cases hi.symm.trans hbefore
          exact hc' hc
        · exact hrest h

theorem spent_claimRest (f : Findings) : f.claimRest.1.Spent := by
  intro m hm
  obtain ⟨i, hi⟩ := List.mem_iff_getElem?.mp hm
  refine Bool.eq_false_iff.mpr fun hc => ?_
  have hrules : f.claimRest.1.rules = f.rules := f.rules_claimAt _
  have hc' : f.isClaimable m = true := by rwa [isClaimable, hrules] at hc
  obtain ⟨hout, hbefore⟩ := f.claimable_of_claimAt hi hc'
  obtain ⟨hlt, -⟩ := List.getElem?_eq_some_iff.mp hbefore
  exact hout (List.mem_range.mpr hlt)

/-- A claim that gives nothing changes nothing. -/
theorem claimAt_eq_self {f : Findings} {indices : List Nat} (h : (f.claimAt indices).2 = []) :
    (f.claimAt indices).1 = f := by
  induction indices with
  | nil => rfl
  | cons index rest ih =>
    rw [claimAt] at h ⊢
    split at h
    · split at h
      · cases h
      · rename_i hc
        rw [if_neg hc]
        exact ih h
    · exact ih h

theorem sorted_nil : sorted [] = [] := List.mergeSort_nil

theorem sorted_eq_nil {messages : List Message} (h : sorted messages = []) : messages = [] := by
  have hperm := (List.mergeSort_perm messages Message.mayPrecede).symm
  rw [sorted] at h
  rw [h] at hperm
  exact hperm.eq_nil

theorem claimFor_of_spent {f : Findings} (h : f.Spent) (declaration : String) :
    f.claimFor declaration = (f, []) := by
  rw [claimFor, claimAt_of_spent h]
  exact congrArg (f, ·) sorted_nil

theorem claimRest_of_spent {f : Findings} (h : f.Spent) : f.claimRest = (f, []) := by
  rw [claimRest, claimAt_of_spent h]
  exact congrArg (f, ·) sorted_nil

end Findings

namespace Script

theorem claimAll_of_spent {f : Findings} (h : f.Spent) (declarations : List String) :
    claimAll declarations f = (f, []) := by
  induction declarations with
  | nil => exact Findings.claimRest_of_spent h
  | cons d rest ih =>
    rw [claimAll, Findings.claimFor_of_spent h]
    simp only [ih, List.append_nil]

theorem spent_claimAll (declarations : List String) (f : Findings) :
    (claimAll declarations f).1.Spent := by
  induction declarations generalizing f with
  | nil => exact f.spent_claimRest
  | cons d rest ih => exact ih (f.claimFor d).1

theorem claimAll_eq_nil_iff (declarations : List String) (f : Findings) :
    (claimAll declarations f).2 = [] ↔ f.Spent := by
  constructor
  · intro h
    induction declarations with
    | nil =>
      have hsame := Findings.claimAt_eq_self (Findings.sorted_eq_nil h)
      exact hsame ▸ f.spent_claimRest
    | cons d rest ih =>
      obtain ⟨hd, hrest⟩ := List.append_eq_nil_iff.mp h
      have hsame := Findings.claimAt_eq_self (Findings.sorted_eq_nil hd)
      rw [hsame] at hrest
      exact ih hrest
  · intro h
    rw [claimAll_of_spent h]

end Script

end ApiReview
