import ApiReview.Files.Snapshot
import ApiReview.Proofs.Files.Place
import ApiReview.Proofs.Settings.Cycle
import Mathlib.Data.List.Pairwise
import Mathlib.Tactic.ByContra

/-!
# Documents under several spellings

A document is known again by the steps of its path. Relative and absolute references give normal
paths, so it is always known; a name below `node_modules` stays as it is spelled, and with a step up
in it the same document may be read again under another spelling (`not_readsOnce_twiceTree`). No
document is read twice exactly if each is spelled one way (`load_readsOnce_iff`), as it is where no
name has a step up.
-/

namespace ApiReview.Settings

open Json (Members)
open ApiReview.Path (IsPlain pieceSteps)

/-- No document is read twice, however its path is spelled, and loading ends as a cycle as soon as
it comes to one that was read before. -/
def ReadsOnce (t : FileTree) (path : Path) : Prop :=
  ∀ read next, Reaches t (t.absolute path) read next →
    read.Pairwise (fun p q => p.normalize ≠ q.normalize) ∧
    ((∃ p ∈ read, p.normalize = next.normalize) → load t path = .error (.extendsCycle next))

/-- A document that loading comes to again has a path with the same steps as before. -/
def OneSpelling (t : FileTree) (path : Path) : Prop :=
  ∀ read next, Reaches t (t.absolute path) read next →
    ∀ p ∈ read, p.normalize = next.normalize → p.same next = true

/-- No name below `node_modules` that a document extends has a step up. -/
def NamesGoDown (t : FileTree) (path : Path) : Prop :=
  ∀ read next members name, Reaches t (t.absolute path) read next →
    readDocument t next = .ok members → Json.find? "extends" members = some (.string name) →
    isRelativeReference name = false → (Path.mk name).isAbsolute = false →
    .up ∉ (Path.mk name).steps

theorem any_same {read : List Path} {next : Path} :
    read.any (·.same next) = true ↔ ∃ p ∈ read, p.same next = true :=
  List.any_eq_true

theorem Reaches.pairwise_normalize {t : FileTree} {path next : Path} {read : List Path}
    (h : Reaches t (t.absolute path) read next) (one : OneSpelling t path) :
    read.Pairwise (fun p q => p.normalize ≠ q.normalize) := by
  induction h with
  | root => exact List.Pairwise.nil
  | @next read p q before fresh refers ih =>
    refine List.pairwise_cons.mpr ⟨fun r hr e => ?_, ih⟩
    exact List.any_eq_false.mp fresh r hr (one read p before r hr e.symm)

theorem OneSpelling.readsOnce {t : FileTree} {path : Path} (one : OneSpelling t path) :
    ReadsOnce t path := by
  intro read next h
  refine ⟨h.pairwise_normalize one, fun ⟨p, hp, e⟩ => ?_⟩
  have hv : read.any (·.same next) = true := any_same.mpr ⟨p, hp, one read next h p hp e⟩
  exact (load_eq_extendsCycle_iff h (.inl hv) next).mpr ⟨rfl, hv⟩

/-- In a list of paths with normal forms of their own, the normal form tells the path. -/
theorem eq_of_normalize_eq {read : List Path}
    (h : read.Pairwise fun p q => p.normalize ≠ q.normalize) {p q : Path} (hp : p ∈ read)
    (hq : q ∈ read) (e : p.normalize = q.normalize) : p = q := by
  have hsymm : Std.Symm fun p q : Path => p.normalize ≠ q.normalize := ⟨fun _ _ h => h.symm⟩
  by_contra hne
  exact h.forall hp hq hne e

theorem ReadsOnce.oneSpelling {t : FileTree} {path : Path} (once : ReadsOnce t path) :
    OneSpelling t path := by
  intro read next h p hp e
  cases hv : read.any (·.same next) with
  | true =>
    obtain ⟨r, hr, hs⟩ := any_same.mp hv
    have hrn := Path.normalize_congr hs
    rw [eq_of_normalize_eq (once read next h).1 hp hr (e.trans hrn.symm)]
    exact hs
  | false =>
    -- A document with the normal form of an earlier one neither ends loading nor is left again.
    have hload := (once read next h).2 ⟨p, hp, e⟩
    by_cases hs : Stops t read next
    · have hc := ((load_eq_extendsCycle_iff h hs next).mp hload).2
      exact absurd hc (Bool.eq_false_iff.mp hv)
    · obtain ⟨q, hq⟩ := Classical.not_forall_not.mp (not_or.mp hs).2
      have hpair := (once (next :: read) q (.next h hv hq)).1
      exact absurd e.symm ((List.pairwise_cons.mp hpair).1 p hp)

/-! ## Names that go down -/

/-- Silent pieces lead nowhere. -/
theorem walk_silent (t : FileTree) {pieces : List (List Char)}
    (h : ∀ piece ∈ pieces, Path.isSilent piece = true) : t.walk [] pieces = .ok [] := by
  induction pieces with
  | nil => rfl
  | cons piece pieces ih =>
    rw [FileTree.walk, if_neg (by simp [FileTree.entryAt?]), if_pos (h piece List.mem_cons_self)]
    exact ih fun p hp => h p (List.mem_cons_of_mem _ hp)

theorem isSilent_of_above_eq_nil {pieces : List (List Char)} (h : Path.above .root pieces = []) :
    ∀ piece ∈ pieces, Path.isSilent piece = true := by
  induction pieces with
  | nil => exact fun p hp => absurd hp List.not_mem_nil
  | cons piece pieces ih =>
    rw [Path.above] at h
    split at h
    · rename_i hs
      intro p hp
      rcases List.mem_cons.mp hp with rfl | hp
      · exact hs
      · exact ih h p hp
    · cases h

/-- The root is no document. -/
theorem parents_ne_nil_of_readDocument {t : FileTree} {p : Path} {members : Members}
    (hp : p.isAbsolute = true) (h : readDocument t p = .ok members) : p.parents ≠ [] := by
  intro hn
  obtain ⟨s, hs⟩ := Path.isAbsolute_iff.mp hp
  rw [Path.parents, hs, Path.split_slash] at hn
  obtain ⟨text, ht, -⟩ := bind_eq_ok h
  obtain ⟨entry, he, hv⟩ := bind_eq_ok (mapError_eq_ok ht)
  obtain ⟨place, hl, hv'⟩ := bind_eq_ok he
  obtain ⟨⟨start, pieces⟩, hst, hw⟩ := bind_eq_ok hl
  have hstart : start = [] ∧ pieces = Text.splitOn '/' s := by
    rw [FileTree.startOf, hs, Path.split_slash] at hst
    split at hst
    · cases hst
    · split at hst
      · cases hst
      · split at hst
        · cases hst
        · cases hst
          exact ⟨rfl, rfl⟩
  obtain ⟨rfl, rfl⟩ := hstart
  have hsilent : ∀ piece ∈ Text.splitOn '/' s, Path.isSilent piece = true := fun piece hp =>
    isSilent_of_above_eq_nil hn piece (List.mem_reverse.mpr hp)
  cases (walk_silent t hsilent).symm.trans hw
  cases hv'
  cases hv

/-- The folder of a document on a plain path is plain. -/
theorem isPlain_folderOf {t : FileTree} {p : Path} {members : Members} (hp : p.IsPlain)
    (h : readDocument t p = .ok members) : (folderOf p).IsPlain := by
  obtain ⟨q, rest, hq⟩ :=
    List.exists_cons_of_ne_nil (parents_ne_nil_of_readDocument hp.absolute h)
  have hf : folderOf p = q := by
    rw [folderOf, Path.parent?, hq]
    rfl
  have hm : q ∈ p.parents := hq ▸ List.mem_cons_self
  rw [hf]
  exact hp.of_mem_ancestors (List.mem_cons_of_mem _ hm)

/-- A piece that ends in `.json` is no step up. -/
theorem up_not_mem_pieceSteps_json {name : List Char} (h : .up ∉ pieceSteps name) :
    .up ∉ pieceSteps (name ++ ".json".toList) := by
  rw [Path.up_mem_pieceSteps] at h ⊢
  have hslash : '/' ∉ ".json".toList := by decide
  obtain ⟨front, last, hs, ht⟩ := Text.splitOn_append_of_not_mem hslash name
  rw [hs] at h
  rw [ht]
  intro hm
  rcases List.mem_append.mp hm with hm | hm
  · exact h (List.mem_append_left _ hm)
  · have hl := congrArg List.length (List.mem_singleton.mp hm)
    rw [List.length_append] at hl
    have hj : ".json".toList.length = 5 := by decide
    have hu : ['.', '.'].length = 2 := rfl
    omega

theorem isAbsolute_json {name : String} (h : (Path.mk name).isAbsolute = false) :
    (Path.mk (name ++ ".json")).isAbsolute = false := by
  refine Bool.eq_false_iff.mpr fun ha => ?_
  obtain ⟨s, hs⟩ := Path.isAbsolute_iff.mp ha
  rw [String.toList_append] at hs
  cases hn : name.toList with
  | nil =>
    rw [hn] at hs
    exact absurd hs (by simp)
  | cons c rest =>
    rw [hn, List.cons_append] at hs
    have hc := (List.cons.inj hs).1
    subst hc
    exact Bool.eq_false_iff.mp h (Path.isAbsolute_iff.mpr ⟨rest, hn⟩)

/-- A name without steps up goes down from a plain folder. -/
theorem isPlain_of_mem_namedCandidates {folder q : Path} {name : String} (hf : folder.IsPlain)
    (ha : (Path.mk name).isAbsolute = false) (hn : .up ∉ pieceSteps name.toList)
    (hq : q ∈ namedCandidates folder name) : q.IsPlain := by
  have hm : (folder.join ⟨"node_modules"⟩).IsPlain := hf.join (by decide) (by decide)
  rcases List.mem_cons.mp hq with rfl | hq
  · exact hm.join ha hn
  · rw [List.mem_singleton.mp hq]
    refine hm.join (isAbsolute_json ha) ?_
    rw [String.toList_append]
    exact up_not_mem_pieceSteps_json hn

/-- References without steps up lead from plain paths to plain paths. -/
theorem isPlain_of_extended? {t : FileTree} {p q : Path} {members : Members} (hp : p.IsPlain)
    (hr : readDocument t p = .ok members) (hx : extended? t p members = .ok (some q))
    (down : ∀ name, Json.find? "extends" members = some (.string name) →
      isRelativeReference name = false → (Path.mk name).isAbsolute = false →
      .up ∉ (Path.mk name).steps) : q.IsPlain := by
  have hf := isPlain_folderOf hp hr
  obtain ⟨name, hname, rfl | ⟨habs, rfl⟩ | ⟨hrel, habs, folder, ha, hc⟩⟩ := extended?_eq_some hx
  · exact Path.isPlain_resolve hf.absolute
  · exact Path.isPlain_normalize habs
  · have hd := down name hname hrel habs
    exact isPlain_of_mem_namedCandidates (hf.of_mem_ancestors ha) habs (Path.up_mem_steps.not.mp hd)
      hc

theorem Reaches.isPlain {t : FileTree} {path next : Path} {read : List Path}
    (h : Reaches t (t.absolute path) read next) (down : NamesGoDown t path) :
    (∀ p ∈ read, p.IsPlain) ∧ next.IsPlain := by
  induction h with
  | root => exact ⟨fun p hp => absurd hp List.not_mem_nil, t.isPlain_absolute path⟩
  | @next read p q before fresh refers ih =>
    obtain ⟨hread, hp⟩ := ih
    obtain ⟨members, hr, hx⟩ := refers
    refine ⟨fun r hm => ?_, isPlain_of_extended? hp hr hx fun name hname =>
      down read p members name before hr hname⟩
    rcases List.mem_cons.mp hm with rfl | hm
    · exact hp
    · exact hread r hm

theorem NamesGoDown.oneSpelling {t : FileTree} {path : Path} (down : NamesGoDown t path) :
    OneSpelling t path := fun _ _ h p hp e =>
  ((h.isPlain down).1 p hp).same_of_normalize_eq (h.isPlain down).2 e

/-! ## Reading once -/

/-- Loading passes through what it reaches and ends, not at its bound; as a cycle exactly if it ends
at a document that was read before. No document is read twice exactly if each is spelled one way;
this holds where no name has a step up. -/
theorem load_readsOnce_iff (t : FileTree) (path : Path) :
    (∀ read next, Reaches t (t.absolute path) read next → ∀ top, ∃ upper, ∀ bound,
      loadChain t (bound + read.length) [] (t.absolute path) top =
        loadChain t bound read next upper) ∧
    (∀ bound top, chainBound ≤ bound →
      loadChain t bound [] (t.absolute path) top =
        loadChain t chainBound [] (t.absolute path) top) ∧
    (∃ read next, Reaches t (t.absolute path) read next ∧ Stops t read next ∧
      ∀ c, load t path = .error (.extendsCycle c) ↔ c = next ∧ read.any (·.same next) = true) ∧
    (ReadsOnce t path ↔ OneSpelling t path) ∧ (NamesGoDown t path → ReadsOnce t path) := by
  obtain ⟨read, next, h, hs⟩ := exists_stop t (t.absolute path)
  exact ⟨fun _ _ h top => h.loadChain_eq top, fun _ top hb => loadChain_bound t _ top hb,
    ⟨read, next, h, hs, load_eq_extendsCycle_iff h hs⟩,
    ⟨ReadsOnce.oneSpelling, OneSpelling.readsOnce⟩, fun down => down.oneSpelling.readsOnce⟩

/-- Two files below `node_modules`, each extending the other one, one of them by a name with a step
up; and a file of the same name in the way of the second round. -/
def twiceTree : FileTree :=
  ((FileTree.empty.withFile ["node_modules".toList, "e.json".toList]
      (.text "\x7b\"extends\":\"a/b/../d.json\"\x7d")).withFile
    ["node_modules".toList, "a".toList, "d.json".toList] (.text "\x7b\"extends\":\"e.json\"\x7d")).withFile
    ["node_modules".toList, "a".toList, "b".toList, "node_modules".toList, "e.json".toList]
    (.text "\x7b\"testMode\":true\x7d")

/-- A document may be read twice, under two spellings of its path. -/
theorem not_readsOnce_twiceTree : ¬ ReadsOnce twiceTree ⟨"/node_modules/a/d.json"⟩ := by
  intro once
  have hroot : twiceTree.absolute ⟨"/node_modules/a/d.json"⟩ = ⟨"/node_modules/a/d.json"⟩ := by
    decide +kernel
  have first : Refers twiceTree ⟨"/node_modules/a/d.json"⟩ ⟨"/node_modules/e.json"⟩ :=
    ⟨[("extends", .string "e.json")], eq_ok_of_toOption (by decide +kernel),
      eq_ok_of_toOption (by decide +kernel)⟩
  have second : Refers twiceTree ⟨"/node_modules/e.json"⟩ ⟨"/node_modules/a/b/../d.json"⟩ :=
    ⟨[("extends", .string "a/b/../d.json")], eq_ok_of_toOption (by decide +kernel),
      eq_ok_of_toOption (by decide +kernel)⟩
  have third : Refers twiceTree ⟨"/node_modules/a/b/../d.json"⟩
      ⟨"/node_modules/a/b/node_modules/e.json"⟩ :=
    ⟨[("extends", .string "e.json")], eq_ok_of_toOption (by decide +kernel),
      eq_ok_of_toOption (by decide +kernel)⟩
  have reached : Reaches twiceTree (twiceTree.absolute ⟨"/node_modules/a/d.json"⟩)
      [⟨"/node_modules/a/b/../d.json"⟩, ⟨"/node_modules/e.json"⟩, ⟨"/node_modules/a/d.json"⟩]
      ⟨"/node_modules/a/b/node_modules/e.json"⟩ := by
    rw [hroot]
    exact .next (.next (.next .root rfl first) (by decide +kernel) second) (by decide +kernel) third
  have hdistinct := (List.pairwise_cons.mp (once _ _ reached).1).1
  exact hdistinct ⟨"/node_modules/a/d.json"⟩ (by decide) (by decide +kernel)

end ApiReview.Settings
