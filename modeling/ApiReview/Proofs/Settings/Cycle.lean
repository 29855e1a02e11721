import ApiReview.Proofs.Path.Normal
import ApiReview.Proofs.Settings.Chain
import Mathlib.Data.List.Nodup
import Mathlib.Data.List.Perm.Subperm

/-!
# Cycles of settings files

Loading always ends (`exists_stop`), at a document that was read before or at one that refers to no
other. The documents that are read have paths of their own, and there are fewer paths that can be
looked up than the bound on a chain, so the bound is never what ends it (`loadChain_bound`). It ends
as a cycle exactly where a document was read before (`load_eq_extendsCycle_iff`).
-/

namespace ApiReview.Settings

open Json (Members)

/-- A document that can be read refers to the next one. -/
def Refers (t : FileTree) (p q : Path) : Prop :=
  ∃ members, readDocument t p = .ok members ∧ extended? t p members = .ok (some q)

/-- Where loading comes to from a root: the documents read so far, the last one first, each new and
referring to the next one, and the document that is next. -/
inductive Reaches (t : FileTree) (root : Path) : List Path → Path → Prop where
  | root : Reaches t root [] root
  | next {read : List Path} {p q : Path} (before : Reaches t root read p)
      (fresh : read.any (·.same p) = false) (refers : Refers t p q) :
      Reaches t root (p :: read) q

section Run

variable {t : FileTree} {root next : Path} {read : List Path}

/-- Loading passes through every point that it reaches. -/
theorem Reaches.loadChain_eq (h : Reaches t root read next) (top : Json) :
    ∃ upper, ∀ bound, loadChain t (bound + read.length) [] root top =
      loadChain t bound read next upper := by
  induction h with
  | root => exact ⟨top, fun bound => rfl⟩
  | @next read p q before fresh refers ih =>
    obtain ⟨upper, ih⟩ := ih
    obtain ⟨members, hr, hx⟩ := refers
    refine ⟨Json.overlay (ownDocument p members) upper, fun bound => ?_⟩
    rw [List.length_cons, show bound + (read.length + 1) = bound + 1 + read.length by omega,
      ih (bound + 1), loadChain_of_link fresh hr hx]

/-- The documents that are read have paths of their own. -/
theorem Reaches.nodup (h : Reaches t root read next) : (read.map Path.text).Nodup := by
  induction h with
  | root => exact List.nodup_nil
  | @next read p q before fresh refers ih =>
    refine List.nodup_cons.mpr ⟨fun hm => ?_, ih⟩
    obtain ⟨r, hr, ht⟩ := List.mem_map.mp hm
    have hs : r.same p = true := by
      rw [show r = p from congrArg Path.mk ht]
      exact p.same_refl
    exact List.any_eq_false.mp fresh r hr hs

theorem Reaches.readable (h : Reaches t root read next) :
    ∀ p ∈ read, ∃ members, readDocument t p = .ok members := by
  induction h with
  | root => exact fun p hp => absurd hp List.not_mem_nil
  | @next read p q before fresh refers ih =>
    obtain ⟨members, hr, -⟩ := refers
    intro r hm
    rcases List.mem_cons.mp hm with rfl | hm
    · exact ⟨members, hr⟩
    · exact ih r hm

end Run

/-! ## How many documents can be read -/

theorem utf8ByteSize_of_readText {t : FileTree} {p : Path} {s : String}
    (h : t.readText p = .ok s) : p.text.utf8ByteSize ≤ FileTree.maxPathBytes := by
  obtain ⟨entry, he, -⟩ := bind_eq_ok h
  obtain ⟨place, hl, -⟩ := bind_eq_ok he
  obtain ⟨start, hst, -⟩ := bind_eq_ok hl
  rw [FileTree.startOf] at hst
  split at hst
  · cases hst
  · split at hst
    · cases hst
    · split at hst
      · cases hst
      · rename_i hb
        exact Nat.le_of_not_lt hb

theorem utf8ByteSize_of_readDocument {t : FileTree} {p : Path} {members : Members}
    (h : readDocument t p = .ok members) : p.text.utf8ByteSize ≤ FileTree.maxPathBytes := by
  obtain ⟨s, hs, -⟩ := bind_eq_ok h
  exact utf8ByteSize_of_readText (mapError_eq_ok hs)

/-- Bytes as one number, the first byte lowest, with a one above the last. -/
def numberOf : List UInt8 → Nat
  | [] => 1
  | b :: bytes => b.toNat + 256 * numberOf bytes

theorem one_le_numberOf (bytes : List UInt8) : 1 ≤ numberOf bytes := by
  induction bytes with
  | nil => exact Nat.le_refl 1
  | cons b bytes ih =>
    rw [numberOf]
    omega

theorem numberOf_injective {as bs : List UInt8} (h : numberOf as = numberOf bs) : as = bs := by
  induction as generalizing bs with
  | nil =>
    cases bs with
    | nil => rfl
    | cons b bs =>
      have := one_le_numberOf bs
      rw [numberOf, numberOf] at h
      omega
  | cons a as ih =>
    cases bs with
    | nil =>
      have := one_le_numberOf as
      rw [numberOf, numberOf] at h
      omega
    | cons b bs =>
      have ha := a.toNat_lt
      have hb := b.toNat_lt
      rw [numberOf, numberOf] at h
      have hrest : as = bs := ih (by omega)
      have hfirst : a = b := UInt8.toNat_inj.mp (by omega)
      rw [hrest, hfirst]

theorem numberOf_lt (bytes : List UInt8) : numberOf bytes < Nat.pow 256 (bytes.length + 1) := by
  induction bytes with
  | nil => decide
  | cons b bytes ih =>
    have hb := b.toNat_lt
    show b.toNat + 256 * numberOf bytes < Nat.pow 256 (bytes.length + 1) * 256
    omega

/-- A text as one number. -/
def numberOfText (s : String) : Nat :=
  numberOf s.toByteArray.data.toList

theorem numberOfText_injective : Function.Injective numberOfText := fun _ _ h =>
  String.toByteArray_inj.mp (ByteArray.ext (Array.ext' (numberOf_injective h)))

theorem numberOfText_lt {s : String} {n : Nat} (h : s.utf8ByteSize ≤ n) :
    numberOfText s < Nat.pow 256 (n + 1) :=
  Nat.lt_of_lt_of_le (numberOf_lt _) (Nat.pow_le_pow_right (by decide) (Nat.succ_le_succ h))

/-- There are only so many texts of so many bytes. -/
theorem length_lt_of_utf8ByteSize {texts : List String} (hd : texts.Nodup) {n : Nat}
    (h : ∀ s ∈ texts, s.utf8ByteSize ≤ n) : texts.length < Nat.pow 256 (n + 1) := by
  have hnodup : (0 :: texts.map numberOfText).Nodup := by
    refine List.nodup_cons.mpr ⟨fun hm => ?_, List.Nodup.map numberOfText_injective hd⟩
    obtain ⟨s, -, hs⟩ := List.mem_map.mp hm
    have := one_le_numberOf s.toByteArray.data.toList
    rw [numberOfText] at hs
    omega
  have hsub : 0 :: texts.map numberOfText ⊆ List.range (Nat.pow 256 (n + 1)) := by
    intro k hk
    rw [List.mem_range]
    rcases List.mem_cons.mp hk with rfl | hk
    · exact Nat.pow_pos (by decide)
    · obtain ⟨s, hs, rfl⟩ := List.mem_map.mp hk
      exact numberOfText_lt (h s hs)
  have hle := (hnodup.subperm hsub).length_le
  rwa [List.length_cons, List.length_map, List.length_range] at hle

theorem two_pow_mul_eight (n : Nat) : Nat.pow 2 (8 * n) = Nat.pow 256 n :=
  Nat.pow_mul 2 8 n

theorem chainBound_eq : chainBound = Nat.pow 256 (FileTree.maxPathBytes + 1) := by
  have h : 32768 = 8 * (FileTree.maxPathBytes + 1) := rfl
  unfold chainBound
  rw [h, two_pow_mul_eight]

/-- Loading never comes to the bound. -/
theorem Reaches.length_lt {t : FileTree} {root next : Path} {read : List Path}
    (h : Reaches t root read next) : read.length < chainBound := by
  rw [chainBound_eq, ← List.length_map (f := Path.text)]
  refine length_lt_of_utf8ByteSize h.nodup fun s hs => ?_
  obtain ⟨p, hp, rfl⟩ := List.mem_map.mp hs
  obtain ⟨members, hr⟩ := h.readable p hp
  exact utf8ByteSize_of_readDocument hr

/-! ## Where loading ends -/

/-- A point from which loading does not go on. -/
def Stops (t : FileTree) (read : List Path) (next : Path) : Prop :=
  read.any (·.same next) = true ∨ ∀ q, ¬ Refers t next q

/-- Every chain ends. -/
theorem exists_stop (t : FileTree) (root : Path) :
    ∃ read next, Reaches t root read next ∧ Stops t read next := by
  -- By induction on how many more documents there could be.
  have go : ∀ n read next, read.length + n = chainBound → Reaches t root read next →
      ∃ read next, Reaches t root read next ∧ Stops t read next := by
    intro n
    induction n with
    | zero =>
      intro read next hn h
      have := h.length_lt
      omega
    | succ n ih =>
      intro read next hn h
      by_cases hs : Stops t read next
      · exact ⟨read, next, h, hs⟩
      · obtain ⟨hfresh, hrefers⟩ := not_or.mp hs
        obtain ⟨q, hq⟩ := Classical.not_forall_not.mp hrefers
        refine ih (next :: read) q ?_ (.next h (Bool.eq_false_iff.mpr hfresh) hq)
        rw [List.length_cons]
        omega
  refine go chainBound [] root ?_ .root
  rw [List.length_nil, Nat.zero_add]

section Stop

variable {t : FileTree} {next : Path} {read : List Path} {upper : Json}

theorem readDocument_ne_extendsCycle {p c : Path} :
    readDocument t p ≠ .error (.extendsCycle c) := by
  intro h
  rw [readDocument] at h
  cases hs : t.readText p with
  | error e => rw [hs] at h; cases h
  | ok s =>
    rw [hs] at h
    simp only [Except.mapError, bind, Except.bind] at h
    cases hv : Json.parse s with
    | error e => rw [hv] at h; cases h
    | ok v =>
      rw [hv] at h
      cases v <;> cases h

theorem extended?_ne_extendsCycle {p c : Path} {members : Members} :
    extended? t p members ≠ .error (.extendsCycle c) := by
  intro h
  rw [extended?] at h
  split at h
  · cases h
  · cases h
  · split at h
    · cases h
    · split at h <;> cases h
  · cases h

/-- Loading ends as a cycle at a document that was read before, and only there. -/
theorem loadChain_stop_iff (h : Stops t read next) (bound : Nat) (c : Path) :
    loadChain t (bound + 1) read next upper = .error (.extendsCycle c) ↔
      c = next ∧ read.any (·.same next) = true := by
  cases hv : read.any (·.same next) with
  | true =>
    rw [loadChain_of_visited hv]
    exact ⟨fun e => by cases e; exact ⟨rfl, rfl⟩, fun e => by rw [e.1]⟩
  | false =>
    have hn : ∀ q, ¬ Refers t next q := h.resolve_left (Bool.eq_false_iff.mp hv)
    refine ⟨fun e => ?_, fun e => absurd e.2 Bool.false_ne_true⟩
    cases hr : readDocument t next with
    | error e' =>
      rw [loadChain_of_unread hv hr] at e
      cases e
      exact absurd hr readDocument_ne_extendsCycle
    | ok members =>
      cases hx : extended? t next members with
      | error e' =>
        rw [loadChain_of_unresolved hv hr hx] at e
        cases e
        exact absurd hx extended?_ne_extendsCycle
      | ok q =>
        cases q with
        | none => rw [loadChain_of_last hv hr hx] at e; cases e
        | some q => exact absurd ⟨members, hr, hx⟩ (hn q)

/-- At its end, loading does not hang on how many more documents it could read. -/
theorem loadChain_stop_bound (h : Stops t read next) (bound bound' : Nat) :
    loadChain t (bound + 1) read next upper = loadChain t (bound' + 1) read next upper := by
  cases hv : read.any (·.same next) with
  | true => rw [loadChain_of_visited hv, loadChain_of_visited hv]
  | false =>
    have hn : ∀ q, ¬ Refers t next q := h.resolve_left (Bool.eq_false_iff.mp hv)
    cases hr : readDocument t next with
    | error e => rw [loadChain_of_unread hv hr, loadChain_of_unread hv hr]
    | ok members =>
      cases hx : extended? t next members with
      | error e => rw [loadChain_of_unresolved hv hr hx, loadChain_of_unresolved hv hr hx]
      | ok q =>
        cases q with
        | none => rw [loadChain_of_last hv hr hx, loadChain_of_last hv hr hx]
        | some q => exact absurd ⟨members, hr, hx⟩ (hn q)

end Stop

/-- Loading is the same under any larger bound. -/
theorem loadChain_bound (t : FileTree) (root : Path) (top : Json) {bound : Nat}
    (hb : chainBound ≤ bound) :
    loadChain t bound [] root top = loadChain t chainBound [] root top := by
  obtain ⟨read, next, h, hs⟩ := exists_stop t root
  obtain ⟨upper, hu⟩ := h.loadChain_eq top
  have hl := h.length_lt
  obtain ⟨k, hk⟩ := Nat.exists_eq_add_of_lt hl
  obtain ⟨k', hk'⟩ := Nat.exists_eq_add_of_lt (Nat.lt_of_lt_of_le hl hb)
  rw [show bound = k' + 1 + read.length by omega, show chainBound = k + 1 + read.length by omega,
    hu, hu]
  exact loadChain_stop_bound hs k' k

/-- Loading from a point on is all of loading. -/
theorem Reaches.load_eq {t : FileTree} {root next : Path} {read : List Path}
    (h : Reaches t root read next) (top : Json) :
    ∃ upper bound, loadChain t chainBound [] root top =
      loadChain t (bound + 1) read next upper := by
  obtain ⟨upper, hu⟩ := h.loadChain_eq top
  obtain ⟨k, hk⟩ := Nat.exists_eq_add_of_lt h.length_lt
  refine ⟨upper, k, ?_⟩
  rw [show chainBound = k + 1 + read.length by omega, hu]

theorem loadChecked_eq_extendsCycle_iff {violations : Json → List String} {t : FileTree}
    {path c : Path} :
    loadChecked violations t path = .error (.extendsCycle c) ↔
      loadChain t chainBound [] (t.absolute path) (.object []) = .error (.extendsCycle c) := by
  cases h : loadChain t chainBound [] (t.absolute path) (.object []) with
  | error e => rw [loadChecked_of_error h]
  | ok merged =>
    rw [loadChecked_of_chain h]
    refine ⟨fun e => ?_, fun e => by cases e⟩
    split at e <;> cases e

/-- Loading ends as a cycle at a document that was read before, and only there. -/
theorem load_eq_extendsCycle_iff {t : FileTree} {path next : Path} {read : List Path}
    (h : Reaches t (t.absolute path) read next) (hs : Stops t read next) (c : Path) :
    load t path = .error (.extendsCycle c) ↔ c = next ∧ read.any (·.same next) = true := by
  obtain ⟨upper, bound, hu⟩ := h.load_eq (.object [])
  rw [load, loadChecked_eq_extendsCycle_iff, hu]
  exact loadChain_stop_iff hs bound c

end ApiReview.Settings
