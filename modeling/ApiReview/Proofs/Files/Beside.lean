import ApiReview.Proofs.Files.Folders

/-!
# Files beside what is written

A file is found after others were written as it was found before (`WritesOnly.isFile_join`,
`WritesOnly.readText_join_iff`), provided that its folder does not come into being by the folders
that are made on the way (`Fixed`). A folder that is told by names alone does not: in a tree whose
entries lie in folders it is there as soon as the file is.
-/

namespace ApiReview

namespace FileTree

/-- Whether a folder is told by names alone, or is there. -/
def Fixed (t : FileTree) (folder : Path) : Prop :=
  folder.IsNormal ∨ t.isFolder folder = true

/-- Above an entry of a closed tree are folders. -/
theorem Closed.above {t : FileTree} (h : t.Closed) {folder : Place} {name : List Char}
    {entry : Entry} (he : t.entryAt? (folder ++ [name]) = some entry) :
    t.entryAt? folder = some .folder := by
  rw [entryAt?, if_neg (concat_ne_nil folder name)] at he
  obtain ⟨before, after, hentries, -⟩ := List.lookup_eq_some_iff.mp he
  have hmem : (folder ++ [name], entry) ∈ t.entries :=
    hentries ▸ List.mem_append_right _ List.mem_cons_self
  have hfolder := h _ hmem folder.length (by simp)
  rwa [List.take_left] at hfolder

theorem entryAt?_of_fileAt? {t : FileTree} {p : Path} {content : Content}
    (h : t.fileAt? p = some content) : t.entryAt? p.place = some (.file content) := by
  rw [fileAt?] at h
  split at h
  · rename_i content' he
    rw [he, Option.some.inj h]
  · cases h

/-- What was written is read. -/
theorem readText_writeText {t t' : FileTree} {p : Path} (hp : p.isAbsolute = true) {text : String}
    {options : WriteOptions} (h : t.writeText p text options = (t', .ok ())) :
    t'.readText p = .ok (options.stored text) := by
  have hcontent := t.fileAt?_writeText_of_ok hp (congrArg Prod.snd h) text
  rw [h] at hcontent
  exact readText_of_isFile hp (stands_writeText hp h).1 hcontent

section Join

variable {t t' : FileTree} {places : Place → Prop} {folder : Path} {name : String}
  (hf : folder.isAbsolute = true) (hn : (Path.Step.name name.toList).IsName)

include hf hn

/-- A folder is there before others are made, if a file stands in it both before and after. -/
theorem Fixed.isFolder (hfixed : t.Fixed folder) (hc : t.Closed)
    (hfile : t'.isFile (folder.join ⟨name⟩) = true) {entry : Entry}
    (he : t.entryAt? (folder.join ⟨name⟩).place = some entry) : t.isFolder folder = true := by
  rcases hfixed with hnormal | hthere
  · rw [Path.place_join_name hf hn] at he
    exact hc.isFolder hnormal.isPlain (isFolder_of_isFile_join hf hn hfile) (hc.above he)
  · exact hthere

/-- In a folder that is there, a file is found by its entry, if its path can be looked up. -/
theorem isFile_join_of_isFolder (hfolder : t.isFolder folder = true) (hg : t.Grows t')
    (hfile : t'.isFile (folder.join ⟨name⟩) = true) {content : Content}
    (he : t.entryAt? (folder.join ⟨name⟩).place = some (.file content)) :
    t.isFile (folder.join ⟨name⟩) = true := by
  have hp := Path.isAbsolute_join hf (p := ⟨name⟩)
  obtain ⟨s, hs⟩ := Path.isAbsolute_iff.mp hf
  obtain ⟨rest, s', front, -, hs', hpieces, hfront⟩ := pieces_join hs hn
  obtain ⟨place, hl, hentry⟩ := find_eq_ok.mp (isFolder_iff.mp hfolder)
  obtain ⟨start, hstart, hw⟩ := bind_eq_ok hl
  cases startOf_eq_ok hs hstart
  obtain ⟨content', hfind'⟩ := isFile_iff.mp hfile
  obtain ⟨place', hl', -⟩ := find_eq_ok.mp hfind'
  obtain ⟨start', hstart', hw'⟩ := bind_eq_ok hl'
  cases startOf_eq_ok hs' hstart'
  have hfolderWalk := (walk_front_iff hfront hentry).mp hw
  -- The last piece is walked in the other tree, so its name is short enough.
  have hlast : t'.walk place [name.toList] = .ok place' := by
    have hw' : t'.walk [] (Text.splitOn '/' s') = .ok place' := hw'
    rw [hpieces, walk_append, hg.walk hfolderWalk] at hw'
    exact hw'
  have hnil : name.toList ≠ [] := fun e => by cases e ▸ hn.1
  have hdot : name.toList ≠ ['.'] := fun e => by cases e ▸ hn.1
  have hup : name.toList ≠ ['.', '.'] := fun e => by cases e ▸ hn.1
  obtain ⟨-, hshort, -, -⟩ := (walk_name hnil hdot hup).mp hlast
  have hplace : (folder.join ⟨name⟩).place = place ++ [name.toList] := by
    rw [Path.place_join_name hf hn, place_of_slash hs, ← walk_eq_ok hw]
  rw [hplace] at he
  refine isFile_iff.mpr ⟨content, find_eq_ok.mpr ⟨place ++ [name.toList], ?_, he⟩⟩
  rw [locate, startOf_congr t t' hp, hstart']
  show t.walk [] (Text.splitOn '/' s') = _
  rw [hpieces, walk_append, hfolderWalk]
  exact (walk_name hnil hdot hup).mpr ⟨hentry, hshort, by rw [he]; exact Option.some_ne_none _, rfl⟩

variable (hw : t.WritesOnly places t') (hc : t.Closed) (hfixed : t.Fixed folder)
  (hp : ¬ places (folder.join ⟨name⟩).place)

include hw hc hfixed hp

/-- A file that is not written to is there exactly if it was. -/
theorem WritesOnly.isFile_join :
    t'.isFile (folder.join ⟨name⟩) = t.isFile (folder.join ⟨name⟩) := by
  have habsolute := Path.isAbsolute_join hf (p := ⟨name⟩)
  rw [Bool.eq_iff_iff]
  refine ⟨fun hfile => ?_, hw.toGrows.isFile habsolute⟩
  obtain ⟨content, hfind⟩ := isFile_iff.mp hfile
  have hcontent : t.fileAt? (folder.join ⟨name⟩) = some content :=
    (hw.elsewhere _ hp).symm.trans (fileAt?_of_find habsolute hfind)
  have hentry := entryAt?_of_fileAt? hcontent
  have hfolder := hfixed.isFolder hf hn hc hfile hentry
  exact isFile_join_of_isFolder hf hn hfolder hw.toGrows hfile hentry

/-- The text of a file that is not written to is read exactly if it was. -/
theorem WritesOnly.readText_join_iff {text : String} :
    t'.readText (folder.join ⟨name⟩) = .ok text ↔ t.readText (folder.join ⟨name⟩) = .ok text := by
  have habsolute := Path.isAbsolute_join hf (p := ⟨name⟩)
  refine ⟨fun hread => ?_, hw.readText habsolute hp⟩
  have hfile := hw.isFile_join hf hn hc hfixed hp ▸ isFile_of_readText hread
  exact readText_of_isFile habsolute hfile
    ((hw.elsewhere _ hp).symm.trans (fileAt?_of_readText habsolute hread))

end Join

end FileTree

end ApiReview
