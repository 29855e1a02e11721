import ApiReview.Proofs.DocComment.Extending
import ApiReview.Proofs.Files.Moved

/-!
# Doc comment settings of a moved project

The files of doc comment settings refer to files in the project (`StaysTogether`). They are applied
alike in two folders, so that the settings are the same but for the path of their file
(`parallel_loadForFolder`).
-/

namespace ApiReview.DocCommentConfig

open ApiReview.Path (AllNames Step Twin Moved StaysBelow fromRoot)

/-- Doc comment settings with the path of their file changed. -/
def mapPath (m : Path → Path) (config : DocCommentConfig) : DocCommentConfig :=
  { config with filePath := config.filePath.map m }

/-- Doc comment settings to which files of two folders were applied, with the files that were
visited: the settings differ in a path only, and the files go the same way from their folders. -/
structure MovedState (a b : List Step) (m : Path → Path)
    (state state' : DocCommentConfig × List Path) : Prop where
  settings : state'.1 = state.1.mapPath m
  visited : List.Forall₂ (Twin a b) state.2 state'.2

/-- The references of the files that are reached stay in the project: none goes up above its root
when it is read from the folder of its file. -/
def StaysTogether (t : FileTree) (root path : Path) : Prop :=
  ∀ way p file reference, Walk t path way p → readFile t p = .ok file →
    reference ∈ file.extending → isRelativeReference reference = true →
    StaysBelow root ((p.parent?.getD ⟨"."⟩).join ⟨reference⟩)

section Moved

variable {t u : FileTree} {a b : List Step} {path p q : Path}

theorem isAbsolute_of_isRelativeReference {s : String} (h : isRelativeReference s = true) :
    (Path.mk s).isAbsolute = false := by
  simp only [isRelativeReference, Bool.or_eq_true, Text.startsWith_iff] at h
  rw [Path.isAbsolute, decide_eq_false_iff_not]
  rcases h with ⟨rest, hrest⟩ | ⟨rest, hrest⟩ <;> rw [← hrest] <;> simp

theorem Walk.concat {way : List Nat} (h : Walk t path way p) {file : DocCommentFile}
    (hread : readFile t p = .ok file) {reference : String} (hm : reference ∈ file.extending) :
    ∃ i, Walk t path (way ++ [i]) (target p reference) := by
  obtain ⟨i, hi⟩ := List.mem_iff_getElem?.mp hm
  exact ⟨i, h.append (.on hread hi .here)⟩

/-- References stay in the project, if those of listed files do, and lead to listed files. -/
theorem StaysTogether.of_files {root : Path} {files : List Path} (hpath : path ∈ files)
    (h : ∀ p ∈ files, ∀ file ∈ (readFile t p).toOption, ∀ reference ∈ file.extending,
      target p reference ∈ files ∧ (isRelativeReference reference = true →
        StaysBelow root ((p.parent?.getD ⟨"."⟩).join ⟨reference⟩))) :
    StaysTogether t root path := by
  intro way p file reference hway hread hm
  have hmem : p ∈ files := by
    clear hread
    induction hway with
    | here => exact hpath
    | on read refers _ ih =>
      exact ih (h _ hpath _ (mem_toOption.mpr read) _ (List.mem_of_getElem? refers)).1
  exact (h p hmem file (mem_toOption.mpr hread) reference hm).2

/-- The files that a file refers to are applied alike, if each of them is. -/
theorem parallel_applyAll {m : Path → Path} {depth : Nat} {references : List String}
    (each : ∀ reference ∈ references, isRelativeReference reference = true →
      ∀ state state', MovedState a b m state state' →
        Parallel (MovedState a b m) (applyFile t depth state (target p reference))
          (applyFile u depth state' (target q reference)))
    {state state' : DocCommentConfig × List Path} (hstate : MovedState a b m state state') :
    Parallel (MovedState a b m) (applyAll t depth p references state)
      (applyAll u depth q references state') := by
  induction references generalizing state state' with
  | nil => exact .ok hstate
  | cons reference references ih =>
    have hrest := fun r hr => each r (List.mem_cons_of_mem reference hr)
    cases hrelative : isRelativeReference reference with
    | true =>
      rw [applyAll_cons_of_relative hrelative, applyAll_cons_of_relative hrelative]
      refine (each reference List.mem_cons_self hrelative _ _ hstate).bind fun s s' _ _ hs => ?_
      exact ih hrest hs
    | false =>
      rw [applyAll_cons_of_not_relative hrelative, applyAll_cons_of_not_relative hrelative]
      exact .error _ _

variable (ha : AllNames a) (hb : AllNames b) (h : Copies t u (fromRoot a) (fromRoot b))

include ha hb h

theorem parallel_readFile (hpq : Moved a b p q) : Parallel Eq (readFile t p) (readFile u q) := by
  have htext : Parallel Eq (t.readText p) (u.readText q) :=
    .of_toOption_eq (FileTree.readText_congr (h.find_moved ha hb hpq))
  refine (htext.mapError _ _).bind fun s s' _ _ he => ?_
  subst he
  exact (Parallel.of_toOption_eq rfl).mapError _ _

/-- The folder of a file that is read moves with the file. -/
theorem twin_folder (hpq : Moved a b p q) {file : DocCommentFile}
    (hread : readFile t p = .ok file) :
    Twin a b (p.parent?.getD ⟨"."⟩) (q.parent?.getD ⟨"."⟩) := by
  have htwin := hpq.twin ha hb
  obtain ⟨s, hs, -⟩ := bind_eq_ok hread
  have hne := h.source.steps_ne_of_isFile ha htwin.isAbsolute.1
    (FileTree.isFile_of_readText (mapError_eq_ok hs))
  obtain ⟨f, f', hf, hf', hfolder⟩ := htwin.parent? hne
  rw [hf, hf']
  exact hfolder

/-- Files are applied alike in two folders, to settings that differ in a path only. -/
theorem parallel_applyFile (hstays : StaysTogether t (fromRoot a) path) (m : Path → Path)
    (depth : Nat) {way : List Nat} (hway : Walk t path way p) (hpq : Moved a b p q)
    {state state' : DocCommentConfig × List Path} (hstate : MovedState a b m state state') :
    Parallel (MovedState a b m) (applyFile t depth state p) (applyFile u depth state' q) := by
  induction depth generalizing p q way state state' with
  | zero => exact .error _ _
  | succ depth ih =>
    obtain ⟨config, visited⟩ := state
    obtain ⟨config', visited'⟩ := state'
    have htwin := hpq.twin ha hb
    rw [applyFile, applyFile]
    refine Parallel.guard (by rw [Path.any_same_eq hstate.visited htwin]) fun _ => ?_
    refine (parallel_readFile ha hb h hpq).bind fun file _ hread _ he => ?_
    subst he
    have hfolder := twin_folder ha hb h hpq hread
    have hstart : MovedState a b m (config, p :: visited) (config', q :: visited') :=
      ⟨hstate.settings, .cons htwin hstate.visited⟩
    have hall : Parallel (MovedState a b m)
        (applyAll t depth p file.extending (config, p :: visited))
        (applyAll u depth q file.extending (config', q :: visited')) := by
      refine parallel_applyAll (fun reference hm hrelative s s' hs => ?_) hstart
      obtain ⟨i, hnext⟩ := hway.concat hread hm
      exact ih hnext (hfolder.resolve ha hb (isAbsolute_of_isRelativeReference hrelative)
        (hstays way p file reference hway hread hm hrelative)) hs
    refine hall.bind fun s s' _ _ hs => ?_
    refine Parallel.guard Iff.rfl fun _ => .ok ⟨?_, hs.visited⟩
    rw [hs.settings]
    rfl

/-- The doc comment settings of a folder of the project are the same in the other folder, but for
the path of their file. -/
theorem parallel_loadForFolder {folder folder' : Path} (hf : Moved a b folder folder')
    (hstays : StaysTogether t (fromRoot a) (folder.join fileName)) :
    Parallel (fun config config' =>
        config' = config.mapPath (Path.relocate (fromRoot a) (fromRoot b)))
      (loadForFolder t folder) (loadForFolder u folder') := by
  have hname : (Step.name fileName.text.toList).IsName := ⟨by decide, by decide⟩
  have hpath := hf.join_name ha hb hname
  have hfile := FileTree.isFile_congr_find (h.find_moved ha hb hpath)
  unfold loadForFolder
  dsimp only
  rw [← hfile]
  split
  · have hblank : blank (folder'.join fileName) =
        (blank (folder.join fileName)).mapPath (Path.relocate (fromRoot a) (fromRoot b)) := by
      rw [blank, blank, mapPath, Option.map_some, hpath.relocate_eq ha hb]
    refine (parallel_applyFile ha hb h hstays _ depthBound .here hpath
      ⟨hblank, .nil⟩).bind fun s s' _ _ hs => ?_
    exact .ok hs.settings
  · exact .ok rfl

end Moved

end ApiReview.DocCommentConfig
