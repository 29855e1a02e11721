import ApiReview.Proofs.Files.Place
import Mathlib.Data.List.TakeWhile

/-!
# Files that are written again

Writing changes the text of a file or adds to the tree; it takes nothing away (`grows_writeText`).
A path to which a text was written stands: it is a file, and its folder is a folder
(`stands_writeText`). It stands in every tree that the tree grows to, and any text can be written to
it again (`Stands.writeText`).
-/

namespace ApiReview.FileTree

/-- Every folder is still a folder, and every file is still a file. -/
structure Grows (t t' : FileTree) : Prop where
  folder : ∀ place, t.entryAt? place = some .folder → t'.entryAt? place = some .folder
  file : ∀ place content, t.entryAt? place = some (.file content) →
    ∃ content', t'.entryAt? place = some (.file content')

namespace Grows

variable {t t' t'' : FileTree}

theorem refl (t : FileTree) : t.Grows t :=
  ⟨fun _ h => h, fun _ content h => ⟨content, h⟩⟩

theorem trans (h : t.Grows t') (h' : t'.Grows t'') : t.Grows t'' := by
  refine ⟨fun place hf => h'.folder place (h.folder place hf), fun place content hc => ?_⟩
  obtain ⟨content', hc'⟩ := h.file place content hc
  exact h'.file place content' hc'

theorem entry (h : t.Grows t') {place : Place} (hn : t.entryAt? place ≠ none) :
    t'.entryAt? place ≠ none := by
  obtain ⟨entry, he⟩ := Option.ne_none_iff_exists'.mp hn
  cases entry with
  | folder =>
    rw [h.folder place he]
    exact Option.some_ne_none _
  | file content =>
    obtain ⟨content', he'⟩ := h.file place content he
    rw [he']
    exact Option.some_ne_none _

end Grows

theorem MoreFolders.grows {t t' : FileTree} (h : t.MoreFolders t') : t.Grows t' := by
  refine ⟨fun place hf => ?_, fun place content hc => ?_⟩
  · rcases h place with e | ⟨e, -⟩
    · exact e.trans hf
    · rw [e] at hf
      cases hf
  · rcases h place with e | ⟨e, -⟩
    · exact ⟨content, e.trans hc⟩
    · rw [e] at hc
      cases hc

theorem grows_set_file {t : FileTree} {place : Place} (h : t.entryAt? place ≠ some .folder)
    (content : Content) : t.Grows (t.set place (.file content)) := by
  have hne : place ≠ [] := by
    rintro rfl
    exact h rfl
  refine ⟨fun other hf => ?_, fun other content' hc => ?_⟩
  · have hother : other ≠ place := by
      rintro rfl
      exact h hf
    rw [entryAt?_set_of_ne t hother]
    exact hf
  · by_cases hother : other = place
    · subst hother
      exact ⟨content, entryAt?_set_self t hne _⟩
    · exact ⟨content', (entryAt?_set_of_ne t hother _).trans hc⟩

theorem grows_writeText (t : FileTree) {p : Path} (hp : p.isAbsolute = true) (text : String)
    (options : WriteOptions) : t.Grows (t.writeText p text options).1 := by
  obtain ⟨t', hf, ⟨e, he⟩ | ⟨-, hentry, hw⟩⟩ := t.writeText_spec hp options
  · rw [he]
    exact hf.grows
  · rw [hw]
    exact hf.grows.trans (grows_set_file hentry _)

/-- The tree grows, and files change at some places alone. -/
structure WritesOnly (places : Place → Prop) (t t' : FileTree) : Prop extends Grows t t' where
  elsewhere : ∀ q : Path, ¬ places q.place → t'.fileAt? q = t.fileAt? q

namespace WritesOnly

variable {places places' : Place → Prop} {t t' t'' : FileTree}

theorem refl (places : Place → Prop) (t : FileTree) : WritesOnly places t t :=
  ⟨.refl t, fun _ _ => rfl⟩

theorem trans (h : WritesOnly places t t') (h' : WritesOnly places t' t'') :
    WritesOnly places t t'' :=
  ⟨h.toGrows.trans h'.toGrows, fun q hq => (h'.elsewhere q hq).trans (h.elsewhere q hq)⟩

theorem weaken (h : WritesOnly places t t') (hp : ∀ place, places place → places' place) :
    WritesOnly places' t t' :=
  ⟨h.toGrows, fun q hq => h.elsewhere q fun hw => hq (hp q.place hw)⟩

end WritesOnly

theorem writesOnly_writeText (t : FileTree) {p : Path} (hp : p.isAbsolute = true) (text : String)
    (options : WriteOptions) :
    WritesOnly (· = p.place) t (t.writeText p text options).1 :=
  ⟨t.grows_writeText hp text options, fun _ hq =>
    t.fileAt?_writeText_of_ne hp hq text options⟩

/-! ## Walking -/

theorem walk_append (t : FileTree) (place : Place) (first rest : List (List Char)) :
    t.walk place (first ++ rest) = t.walk place first >>= fun place' => t.walk place' rest := by
  induction first generalizing place with
  | nil => rfl
  | cons piece first ih =>
    rw [List.cons_append, walk, walk]
    split
    · rfl
    · split
      · exact ih _
      · split
        · exact ih _
        · split
          · rfl
          · split
            · rfl
            · exact ih _

/-- What is walked on from is a folder. -/
theorem folder_of_walk_cons {t : FileTree} {place place' : Place} {piece : List Char}
    {rest : List (List Char)} (h : t.walk place (piece :: rest) = .ok place') :
    t.entryAt? place = some .folder := by
  rw [walk] at h
  split at h
  · cases h
  · rename_i hf
    exact Classical.not_not.mp hf

/-- From a folder, pieces that say nothing lead nowhere else. -/
theorem walk_of_empty {t : FileTree} {place : Place} (h : t.entryAt? place = some .folder)
    {pieces : List (List Char)} (he : ∀ piece ∈ pieces, piece = []) :
    t.walk place pieces = .ok place := by
  induction pieces with
  | nil => rfl
  | cons piece pieces ih =>
    obtain ⟨rfl, hrest⟩ := List.forall_mem_cons.mp he
    rw [walk, if_neg (not_not_intro h), if_pos (by decide)]
    exact ih hrest

/-- A walk over one name, which has to be there. -/
theorem walk_name {t : FileTree} {place : Place} {name : List Char} (hn : name ≠ [])
    (hdot : name ≠ ['.']) (hup : name ≠ ['.', '.']) {place' : Place} :
    t.walk place [name] = .ok place' ↔
      t.entryAt? place = some .folder ∧ ¬ maxNameBytes < Text.byteLength name ∧
        t.entryAt? (place ++ [name]) ≠ none ∧ place' = place ++ [name] := by
  have hsilent : ¬ Path.isSilent name = true := by
    rw [Path.isSilent, decide_eq_false hn, decide_eq_false hdot]
    exact Bool.false_ne_true
  rw [walk, if_neg hsilent, if_neg hup]
  constructor
  · intro h
    split at h
    · cases h
    · rename_i hf
      split at h
      · cases h
      · rename_i hshort
        split at h
        · cases h
        · rename_i hsome
          exact ⟨Classical.not_not.mp hf, hshort, hsome, (Except.ok.inj h).symm⟩
  · rintro ⟨hf, hshort, hsome, rfl⟩
    rw [if_neg (not_not_intro hf), if_neg hshort, if_neg hsome]
    rfl

theorem Grows.walk {t t' : FileTree} (h : t.Grows t') {place place' : Place}
    {pieces : List (List Char)} (hw : t.walk place pieces = .ok place') :
    t'.walk place pieces = .ok place' := by
  induction pieces generalizing place with
  | nil => exact hw
  | cons piece rest ih =>
    rw [FileTree.walk] at hw ⊢
    split at hw
    · cases hw
    · rename_i hf
      rw [if_neg (not_not_intro (h.folder place (Classical.not_not.mp hf)))]
      split at hw
      · rename_i hsilent
        rw [if_pos hsilent]
        exact ih hw
      · rename_i hsilent
        rw [if_neg hsilent]
        split at hw
        · rename_i hup
          rw [if_pos hup]
          exact ih hw
        · rename_i hup
          rw [if_neg hup]
          split at hw
          · cases hw
          · rename_i hshort
            rw [if_neg hshort]
            split at hw
            · cases hw
            · rename_i hsome
              rw [if_neg (h.entry hsome)]
              exact ih hw

/-- Where a path from the root starts does not hang on the tree. -/
theorem startOf_congr (t t' : FileTree) {p : Path} (hp : p.isAbsolute = true) :
    t.startOf p = t'.startOf p := by
  obtain ⟨s, hs⟩ := Path.isAbsolute_iff.mp hp
  rw [startOf, startOf, hs, Path.split_slash]

theorem Grows.locate {t t' : FileTree} (h : t.Grows t') {p : Path} (hp : p.isAbsolute = true)
    {place : Place} (hl : t.locate p = .ok place) : t'.locate p = .ok place := by
  obtain ⟨start, hstart, hw⟩ := bind_eq_ok hl
  rw [FileTree.locate, startOf_congr t' t hp, hstart]
  exact h.walk hw

/-! ## Files and folders -/

theorem find_eq_ok {t : FileTree} {p : Path} {entry : Entry} :
    t.find p = .ok entry ↔ ∃ place, t.locate p = .ok place ∧ t.entryAt? place = some entry := by
  constructor
  · intro h
    obtain ⟨place, hl, h⟩ := bind_eq_ok h
    split at h
    · rename_i found he
      exact ⟨place, hl, he.trans (congrArg some (Except.ok.inj h))⟩
    · cases h
  · rintro ⟨place, hl, he⟩
    rw [find, hl]
    simp only [bind, Except.bind, he]
    rfl

theorem isFile_iff {t : FileTree} {p : Path} :
    t.isFile p = true ↔ ∃ content, t.find p = .ok (.file content) := by
  rw [isFile]
  split
  · rename_i content h
    exact iff_of_true rfl ⟨content, h⟩
  · rename_i hnot
    exact iff_of_false Bool.false_ne_true fun ⟨content, h⟩ => hnot content h

theorem isFolder_iff {t : FileTree} {p : Path} :
    t.isFolder p = true ↔ t.find p = .ok .folder := by
  rw [isFolder]
  split
  · rename_i h
    exact iff_of_true rfl h
  · rename_i hnot
    exact iff_of_false Bool.false_ne_true hnot

theorem Grows.isFile {t t' : FileTree} (h : t.Grows t') {p : Path} (hp : p.isAbsolute = true)
    (hf : t.isFile p = true) : t'.isFile p = true := by
  obtain ⟨content, hfind⟩ := isFile_iff.mp hf
  obtain ⟨place, hl, he⟩ := find_eq_ok.mp hfind
  obtain ⟨content', he'⟩ := h.file place content he
  exact isFile_iff.mpr ⟨content', find_eq_ok.mpr ⟨place, h.locate hp hl, he'⟩⟩

theorem Grows.isFolder {t t' : FileTree} (h : t.Grows t') {p : Path} (hp : p.isAbsolute = true)
    (hf : t.isFolder p = true) : t'.isFolder p = true := by
  obtain ⟨place, hl, he⟩ := find_eq_ok.mp (isFolder_iff.mp hf)
  exact isFolder_iff.mpr (find_eq_ok.mpr ⟨place, h.locate hp hl, h.folder place he⟩)

/-- The text of a file is the one at its place. -/
theorem readText_of_isFile {t : FileTree} {p : Path} (hp : p.isAbsolute = true)
    (h : t.isFile p = true) {s : String} (hs : t.fileAt? p = some (.text s)) :
    t.readText p = .ok s := by
  obtain ⟨content, hfind⟩ := isFile_iff.mp h
  rw [fileAt?_of_find hp hfind] at hs
  rw [readText, hfind, Option.some.inj hs]
  rfl

theorem fileAt?_of_readText {t : FileTree} {p : Path} (hp : p.isAbsolute = true) {s : String}
    (h : t.readText p = .ok s) : t.fileAt? p = some (.text s) := by
  obtain ⟨entry, hfind, h⟩ := bind_eq_ok h
  match entry, h with
  | .file (.text s'), h =>
    rw [fileAt?_of_find hp hfind, show s' = s from Except.ok.inj h]

theorem isFile_of_readText {t : FileTree} {p : Path} {s : String} (h : t.readText p = .ok s) :
    t.isFile p = true := by
  obtain ⟨entry, hfind, h⟩ := bind_eq_ok h
  match entry, h with
  | .file content, _ => exact isFile_iff.mpr ⟨content, hfind⟩

/-- A text that is not written over is read again. -/
theorem WritesOnly.readText {places : Place → Prop} {t t' : FileTree}
    (h : WritesOnly places t t') {p : Path} (hp : p.isAbsolute = true) (hn : ¬ places p.place)
    {s : String} (hs : t.readText p = .ok s) : t'.readText p = .ok s := by
  have hfile := isFile_of_readText hs
  have hkept := (h.elsewhere p hn).trans (fileAt?_of_readText hp hs)
  exact readText_of_isFile hp (h.isFile hp hfile) hkept

/-! ## Folders that are there already -/

/-- The pieces without those at the end that are empty, and these. -/
theorem pieces_eq (pieces : List (List Char)) :
    ∃ empty, (∀ piece ∈ empty, piece = []) ∧
      pieces = (pieces.reverse.dropWhile (· = [])).reverse ++ empty := by
  refine ⟨(pieces.reverse.takeWhile (· = [])).reverse, fun piece hm => ?_, ?_⟩
  · have h := List.mem_takeWhile_imp (List.mem_reverse.mp hm)
    exact of_decide_eq_true h
  · rw [← List.reverse_append, List.takeWhile_append_dropWhile, List.reverse_reverse]

theorem ne_nil_of_dropWhile {pieces rest : List (List Char)} {name : List Char}
    (h : pieces.dropWhile (· = []) = name :: rest) : name ≠ [] := by
  intro hn
  have hhead := List.head?_dropWhile_not (· = []) pieces
  rw [h, List.head?_cons] at hhead
  simp [hn] at hhead

theorem lastOf_of_walk {t : FileTree} {start folder : Place} {name : List Char}
    {rest : List (List Char)} (hw : t.walk start rest.reverse = .ok folder)
    (hf : t.entryAt? folder = some .folder) :
    t.lastOf start (name :: rest) = .ok (folder, some name) := by
  simp only [lastOf, hw, bind, Except.bind, hf, ne_eq, not_true_eq_false, if_false]
  rfl

theorem makeFolder_of_lastOf {t : FileTree} {p : Path} {start folder : Place}
    {pieces : List (List Char)} {name : List Char} (hstart : t.startOf p = .ok (start, pieces))
    (hl : t.lastOf start (pieces.reverse.dropWhile (· = [])) = .ok (folder, some name)) :
    t.makeFolder p =
      if name = ['.'] || name = ['.', '.'] then .error .alreadyExists
      else if maxNameBytes < Text.byteLength name then .error .nameTooLong
      else if t.entryAt? (folder ++ [name]) ≠ none then .error .alreadyExists
      else .ok (t.set (folder ++ [name]) .folder) := by
  rw [makeFolder, hstart]
  show (t.lastOf start (pieces.reverse.dropWhile (· = [])) >>= _) = _
  rw [hl]
  rfl

/-- A folder is not made again. -/
theorem makeFolder_of_isFolder {t : FileTree} {p : Path} (h : t.isFolder p = true) :
    t.makeFolder p = .error .alreadyExists := by
  obtain ⟨place, hl, -⟩ := find_eq_ok.mp (isFolder_iff.mp h)
  obtain ⟨⟨start, pieces⟩, hstart, hw⟩ := bind_eq_ok hl
  obtain ⟨empty, -, hpieces⟩ := pieces_eq pieces
  cases hd : pieces.reverse.dropWhile (· = []) with
  | nil =>
    rw [makeFolder, hstart]
    show (t.lastOf start (pieces.reverse.dropWhile (· = [])) >>= _) = _
    rw [hd]
    rfl
  | cons name rest =>
    have hne := ne_nil_of_dropWhile hd
    rw [hd, List.reverse_cons] at hpieces
    simp only at hw
    rw [hpieces, walk_append, walk_append] at hw
    obtain ⟨place₁, hw, -⟩ := bind_eq_ok hw
    obtain ⟨folder, hfolder, hname⟩ := bind_eq_ok hw
    have hentry := folder_of_walk_cons hname
    have hlast : t.lastOf start (name :: rest) = _ := lastOf_of_walk hfolder hentry
    rw [← hd] at hlast
    rw [makeFolder_of_lastOf hstart hlast]
    by_cases hdots : name = ['.'] ∨ name = ['.', '.']
    · rw [if_pos (by simpa using hdots)]
    · rw [if_neg (by simpa using hdots)]
      rw [not_or] at hdots
      obtain ⟨-, hshort, hsome, -⟩ := (walk_name hne hdots.1 hdots.2).mp hname
      rw [if_neg hshort, if_pos hsome]

/-- What was set behind a folder is walked to. -/
theorem Grows.walk_concat {t t' : FileTree} (h : t.Grows t') {start folder : Place}
    {name : List Char} {rest : List (List Char)} (hw : t.walk start rest.reverse = .ok folder)
    (hf : t.entryAt? folder = some .folder) (hn : name ≠ []) (hdot : name ≠ ['.'])
    (hup : name ≠ ['.', '.']) (hshort : ¬ maxNameBytes < Text.byteLength name)
    (hsome : t'.entryAt? (folder ++ [name]) ≠ none) :
    t'.walk start (name :: rest).reverse = .ok (folder ++ [name]) := by
  rw [List.reverse_cons, walk_append, h.walk hw]
  exact (walk_name hn hdot hup).mpr ⟨h.folder folder hf, hshort, hsome, rfl⟩

theorem isFolder_makeFolder {t t' : FileTree} {p : Path} (h : t.makeFolder p = .ok t') :
    t'.isFolder p = true := by
  have hgrows := (moreFolders_of_makeFolder h).grows
  obtain ⟨⟨start, pieces⟩, hstart, hmake⟩ := bind_eq_ok h
  obtain ⟨⟨folder, last⟩, hl, hmake⟩ := bind_eq_ok hmake
  cases last with
  | none => cases hmake
  | some name =>
    obtain ⟨rest, hd, hw, hf⟩ := lastOf_eq_ok hl
    obtain ⟨empty, hempty, hpieces⟩ := pieces_eq pieces
    rw [makeFolder_of_lastOf hstart hl] at h
    split at h
    · cases h
    · rename_i hdots
      rw [Bool.or_eq_true, not_or, decide_eq_true_iff, decide_eq_true_iff] at hdots
      split at h
      · cases h
      · rename_i hshort
        split at h
        · cases h
        · cases h
          have hset := entryAt?_set_self t (concat_ne_nil folder name) .folder
          have hwalk := hgrows.walk_concat hw hf (ne_nil_of_dropWhile hd) hdots.1 hdots.2 hshort
            (by rw [hset]; exact Option.some_ne_none _)
          have hstart' : (t.set (folder ++ [name]) .folder).startOf p = .ok (start, pieces) :=
            hstart
          refine isFolder_iff.mpr (find_eq_ok.mpr ⟨folder ++ [name], ?_, hset⟩)
          rw [locate, hstart']
          show (t.set (folder ++ [name]) .folder).walk start pieces = _
          rw [hpieces, hd, walk_append, hwalk]
          exact walk_of_empty hset hempty

/-! ## Writing again -/

theorem makeFolders_of_isFolder {t : FileTree} {p : Path} (h : t.isFolder p = true) :
    t.makeFolders p = (t, .ok ()) := by
  rw [makeFolders, Path.ancestors, makeFolderChain, makeFolder_of_isFolder h]
  simp only [h, if_true, ite_self]

theorem isFolder_makeFolders {t t' : FileTree} {p : Path} (hne : p.text ≠ "")
    (h : t.makeFolders p = (t', .ok ())) : t'.isFolder p = true := by
  rw [makeFolders, Path.ancestors, makeFolderChain, if_neg hne] at h
  split at h
  · rename_i hmade
    cases h
    exact isFolder_makeFolder hmade
  · split at h
    · cases h
    · split at h
      · rename_i hmade
        cases h
        exact isFolder_makeFolder hmade
      · split at h
        · rename_i hfolder
          cases h
          exact hfolder
        · cases h
  · split at h
    · rename_i hfolder
      cases h
      exact hfolder
    · cases h

/-- A path is a file, and its folder is a folder. -/
def Stands (t : FileTree) (p : Path) : Prop :=
  t.isFile p = true ∧ ∀ folder, folderOf? p = some folder → t.isFolder folder = true

theorem folderOf?_eq_some {p folder : Path} (hp : p.isAbsolute = true)
    (h : folderOf? p = some folder) : folder.isAbsolute = true ∧ folder.text ≠ "" := by
  obtain ⟨hparent, hne⟩ := Option.filter_eq_some_iff.mp h
  exact ⟨(Path.steps_parents hp (List.mem_of_head? hparent)).1, of_decide_eq_true hne⟩

theorem Stands.grows {t t' : FileTree} {p : Path} (h : t.Stands p) (hp : p.isAbsolute = true)
    (hg : t.Grows t') : t'.Stands p :=
  ⟨hg.isFile hp h.1, fun folder hf =>
    hg.isFolder (folderOf?_eq_some hp hf).1 (h.2 folder hf)⟩

/-- Where the folder of a path is prepared, it is a folder. -/
theorem isFolder_prepareFolder {t t' : FileTree} {p folder : Path} {options : WriteOptions}
    (hp : p.isAbsolute = true) (h : t.prepareFolder p options = (t', .ok ()))
    (hf : folderOf? p = some folder) : t'.isFolder folder = true := by
  rw [prepareFolder, hf] at h
  simp only at h
  split at h
  · rcases hmade : t.makeFolders folder with ⟨t'', e | u⟩
    · rw [hmade] at h
      cases h
    · rw [hmade] at h
      cases h
      exact isFolder_makeFolders (folderOf?_eq_some hp hf).2 hmade
  · split at h
    · rename_i hfolder
      cases h
      exact hfolder
    · cases h

/-- Where a text was put, it is found. -/
theorem find_putText {t t' : FileTree} {p : Path} {text : String}
    (h : t.putText p text = .ok t') : t'.find p = .ok (.file (.text text)) := by
  obtain ⟨⟨start, pieces⟩, hstart, h⟩ := bind_eq_ok h
  obtain ⟨⟨folder, last⟩, hl, h⟩ := bind_eq_ok h
  cases last with
  | none => cases h
  | some name =>
    obtain ⟨rest, hd, hw, hf⟩ := lastOf_eq_ok hl
    simp only at h
    split at h
    · cases h
    · rename_i hname
      rw [Bool.or_eq_true, Bool.or_eq_true, not_or, not_or] at hname
      simp only [decide_eq_true_eq] at hname
      obtain ⟨⟨hdot, hup⟩, htrail⟩ := hname
      have hpieces : pieces = (name :: rest).reverse := by
        rw [← hd, dropWhile_reverse_of_getLast? htrail, List.reverse_reverse]
      split at h
      · cases h
      · rename_i hshort
        split at h
        · cases h
        · rename_i hentry
          cases h
          have hset := entryAt?_set_self t (concat_ne_nil folder name) (.file (.text text))
          have hwalk := (grows_set_file hentry (.text text)).walk_concat hw hf
            (ne_nil_of_dropWhile hd) hdot hup hshort (by rw [hset]; exact Option.some_ne_none _)
          refine find_eq_ok.mpr ⟨folder ++ [name], ?_, hset⟩
          have hstart' : (t.set (folder ++ [name]) (.file (.text text))).startOf p =
            .ok (start, pieces) := hstart
          rw [locate, hstart', hpieces]
          exact hwalk

/-- A path to which a text was written stands. -/
theorem stands_writeText {t t' : FileTree} {p : Path} (hp : p.isAbsolute = true) {text : String}
    {options : WriteOptions} (h : t.writeText p text options = (t', .ok ())) : t'.Stands p := by
  rw [writeText] at h
  split at h
  · cases h
  · rename_i t₁ hprep
    split at h
    · rename_i t₂ hput
      cases h
      refine ⟨isFile_iff.mpr ⟨_, find_putText hput⟩, fun folder hf => ?_⟩
      obtain ⟨-, hentry, hset⟩ := putText_eq_ok hp hput
      have hgrows : t₁.Grows t' := by
        rw [hset]
        exact grows_set_file hentry _
      exact hgrows.isFolder (folderOf?_eq_some hp hf).1 (isFolder_prepareFolder hp hprep hf)
    · cases h

theorem prepareFolder_of_stands {t : FileTree} {p : Path} (h : t.Stands p)
    (options : WriteOptions) : t.prepareFolder p options = (t, .ok ()) := by
  rw [prepareFolder]
  split
  · rfl
  · rename_i folder hf
    rw [makeFolders_of_isFolder (h.2 folder hf), if_pos (h.2 folder hf)]
    split <;> rfl

/-- A walk passes through folders, so what lies above the place it comes to is folders. -/
theorem folder_of_walk {t : FileTree} {place place' : Place} {pieces : List (List Char)}
    (h : t.walk place pieces = .ok place')
    (hplace : ∀ front name rest, place = front ++ name :: rest → t.entryAt? front = some .folder)
    {front : Place} {name : List Char} {rest : Place} (hp : place' = front ++ name :: rest) :
    t.entryAt? front = some .folder := by
  induction pieces generalizing place with
  | nil => exact hplace front name rest ((Except.ok.inj h).trans hp)
  | cons piece pieces ih =>
    rw [walk] at h
    split at h
    · cases h
    · rename_i hf
      split at h
      · exact ih h hplace
      · split at h
        · refine ih h fun front' name' rest' hd => ?_
          have hne : place ≠ [] := by
            rintro rfl
            exact List.append_ne_nil_of_right_ne_nil _ (List.cons_ne_nil _ _) hd.symm
          refine hplace front' name' (rest' ++ [place.getLast hne]) ?_
          rw [← List.cons_append, ← List.append_assoc, ← hd, List.dropLast_concat_getLast]
        · split at h
          · cases h
          · split at h
            · cases h
            · refine ih h fun front' name' rest' hd => ?_
              rcases List.eq_nil_or_concat rest' with rfl | ⟨rest', last, rfl⟩
              · rw [← (List.append_inj' hd rfl).1]
                exact Classical.not_not.mp hf
              · rw [List.concat_eq_append, ← List.cons_append, ← List.append_assoc] at hd
                exact hplace front' name' rest' (List.append_inj' hd rfl).1

theorem putText_of_lastOf {t : FileTree} {p : Path} {start folder : Place}
    {pieces : List (List Char)} {name : List Char} (hstart : t.startOf p = .ok (start, pieces))
    (hl : t.lastOf start (pieces.reverse.dropWhile (· = [])) = .ok (folder, some name))
    (text : String) :
    t.putText p text =
      if name = ['.'] || name = ['.', '.'] || pieces.getLast? = some [] then .error .isFolder
      else if maxNameBytes < Text.byteLength name then .error .nameTooLong
      else if t.entryAt? (folder ++ [name]) = some .folder then .error .isFolder
      else .ok (t.set (folder ++ [name]) (.file (.text text))) := by
  rw [putText, hstart]
  show (t.lastOf start (pieces.reverse.dropWhile (· = [])) >>= _) = _
  rw [hl]
  rfl

/-- A walk from the root that comes to a file goes over a name at its end. -/
theorem exists_name_of_walk {t : FileTree} {pieces : List (List Char)} {place : Place}
    {content : Content} (hw : t.walk [] pieces = .ok place)
    (he : t.entryAt? place = some (.file content)) :
    ∃ rest name folder, pieces = (name :: rest).reverse ∧ name ≠ [] ∧ name ≠ ['.'] ∧
      name ≠ ['.', '.'] ∧ t.walk [] rest.reverse = .ok folder ∧
      t.entryAt? folder = some .folder ∧ ¬ maxNameBytes < Text.byteLength name ∧
      place = folder ++ [name] := by
  have hno : t.entryAt? place ≠ some .folder := by
    rw [he]
    exact fun h => Entry.noConfusion (Option.some.inj h)
  rcases List.eq_nil_or_concat pieces with rfl | ⟨front, name, rfl⟩
  · cases hw
    exact absurd rfl hno
  · rw [List.concat_eq_append, walk_append] at hw
    obtain ⟨folder, hfront, hname⟩ := bind_eq_ok hw
    have hf := folder_of_walk_cons hname
    have hsilent : ¬ Path.isSilent name = true := fun hs => by
      rw [walk, if_neg (not_not_intro hf), if_pos hs] at hname
      cases hname
      exact hno hf
    have hup : name ≠ ['.', '.'] := fun hu => by
      rw [walk, if_neg (not_not_intro hf), if_neg hsilent, if_pos hu] at hname
      cases hname
      rcases List.eq_nil_or_concat folder with rfl | ⟨above, last, rfl⟩
      · exact hno rfl
      · rw [List.concat_eq_append, List.dropLast_concat] at hno
        refine hno (folder_of_walk hfront (fun front' name' rest' h => ?_) List.concat_eq_append)
        exact absurd h.symm (List.append_ne_nil_of_right_ne_nil _ (List.cons_ne_nil _ _))
    have hempty : name ≠ [] := fun h => hsilent (by rw [h]; decide)
    have hdot : name ≠ ['.'] := fun h => hsilent (by rw [h]; decide)
    obtain ⟨-, hshort, -, hplace⟩ := (walk_name hempty hdot hup).mp hname
    refine ⟨front.reverse, name, folder, ?_, hempty, hdot, hup, ?_, hf, hshort, hplace⟩
    · rw [List.reverse_cons, List.reverse_reverse, List.concat_eq_append]
    · rw [List.reverse_reverse]
      exact hfront

/-- A file can be put again. -/
theorem exists_putText {t : FileTree} {p : Path} (hp : p.isAbsolute = true)
    (h : t.isFile p = true) (text : String) : ∃ t', t.putText p text = .ok t' := by
  obtain ⟨content, hfind⟩ := isFile_iff.mp h
  obtain ⟨place, hl, he⟩ := find_eq_ok.mp hfind
  obtain ⟨s, hs⟩ := Path.isAbsolute_iff.mp hp
  obtain ⟨start, hstart, hw⟩ := bind_eq_ok hl
  cases startOf_eq_ok hs hstart
  obtain ⟨rest, name, folder, hpieces, hne, hdot, hup, hfront, hf, hshort, rfl⟩ :=
    exists_name_of_walk hw he
  have htrail : (Text.splitOn '/' s).getLast? ≠ some [] := by
    rw [hpieces, List.getLast?_reverse, List.head?_cons]
    exact fun h => hne (Option.some.inj h)
  have hd : (Text.splitOn '/' s).reverse.dropWhile (· = []) = name :: rest := by
    rw [dropWhile_reverse_of_getLast? htrail, hpieces, List.reverse_reverse]
  have hlast : t.lastOf [] (name :: rest) = _ := lastOf_of_walk hfront hf
  rw [← hd] at hlast
  rw [putText_of_lastOf hstart hlast, if_neg (by simp [hdot, hup, htrail]), if_neg hshort,
    if_neg (by rw [he]; exact fun h => Entry.noConfusion (Option.some.inj h))]
  exact ⟨_, rfl⟩

/-- To a path that stands, any text can be written. -/
theorem Stands.writeText {t : FileTree} {p : Path} (h : t.Stands p) (hp : p.isAbsolute = true)
    (text : String) (options : WriteOptions) : (t.writeText p text options).2 = .ok () := by
  obtain ⟨t', ht'⟩ := exists_putText hp h.1 (options.stored text)
  rw [FileTree.writeText, prepareFolder_of_stands h]
  simp only [ht']

end ApiReview.FileTree
