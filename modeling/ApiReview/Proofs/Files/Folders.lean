import ApiReview.Proofs.Files.Growth

/-!
# Folders that are made on the way

Writing a text to a path makes folders at the path's folder and above it, and at no other place
(`foldersAt_writeText`). In a tree whose entries lie in folders (`Closed`), what becomes a folder by
it is therefore the path's folder or one above (`Closed.isFolder_writeText`); and where a path is
found, all above it are folders (`isFolder_of_locate`).
-/

namespace ApiReview

namespace Path

/-- The place of a plain path is told by its names. -/
theorem place_of_steps {p : Path} {names : List Step} (hs : p.steps = .root :: names)
    (hn : ∀ step ∈ names, step.IsName) : p.place = names.filterMap Step.name? := by
  rw [place, hs, normalSteps, List.foldl_cons]
  show (names.foldl (push true) []).reverse.filterMap Step.name? = _
  rw [foldl_push_names hn, List.append_nil, List.reverse_reverse]

/-- Above a plain path are plain paths, at the first names of its place. -/
theorem IsPlain.place_of_mem_ancestors {p q : Path} (hp : p.IsPlain) (hq : q ∈ p.ancestors) :
    q.place <+: p.place := by
  obtain ⟨names, hs, hn⟩ := hp.steps_eq
  obtain ⟨names', hs', hn'⟩ := (hp.of_mem_ancestors hq).steps_eq
  have hprefix := (steps_ancestors hp.absolute hq).2
  rw [hs, hs', List.cons_prefix_cons] at hprefix
  rw [place_of_steps hs hn, place_of_steps hs' hn']
  exact hprefix.2.filterMap _

/-- A path lies under another one exactly if its place does. -/
theorem isUnderOrEqual_iff {child parent : Path} (hc : child.isAbsolute = true)
    (hp : parent.isAbsolute = true) :
    child.isUnderOrEqual parent = true ↔ parent.place <+: child.place := by
  rw [isUnderOrEqual, List.isPrefixOf_iff_prefix, steps_normalize hc, steps_normalize hp,
    List.cons_prefix_cons, normalSteps_eq_map_place hc, normalSteps_eq_map_place hp,
    and_iff_right rfl]
  refine ⟨fun h => ?_, fun h => h.map _⟩
  have hnames := h.filterMap Step.name?
  rwa [List.filterMap_map, List.filterMap_map, show Step.name? ∘ Step.name = some from rfl,
    List.filterMap_some, List.filterMap_some] at hnames

end Path

namespace FileTree

/-! ## Where folders are made -/

/-- What becomes a folder stands at one of some places. -/
def FoldersAt (places : Place → Prop) (t t' : FileTree) : Prop :=
  ∀ place, t'.entryAt? place = some .folder → t.entryAt? place = some .folder ∨ places place

section FoldersAt

variable {places places' : Place → Prop} {t t' t'' : FileTree}

theorem FoldersAt.refl (places : Place → Prop) (t : FileTree) : FoldersAt places t t :=
  fun _ h => .inl h

theorem FoldersAt.trans (h : FoldersAt places t t') (h' : FoldersAt places t' t'') :
    FoldersAt places t t'' := by
  intro place hf
  rcases h' place hf with hf | hp
  · exact h place hf
  · exact .inr hp

theorem FoldersAt.weaken (h : FoldersAt places t t')
    (hp : ∀ place, places place → places' place) : FoldersAt places' t t' :=
  fun place hf => (h place hf).imp_right (hp place)

end FoldersAt

theorem foldl_along_of_empty (place : Place) {pieces : List (List Char)}
    (h : ∀ piece ∈ pieces, piece = []) : pieces.foldl along place = place := by
  induction pieces with
  | nil => rfl
  | cons piece pieces ih =>
    obtain ⟨rfl, hrest⟩ := List.forall_mem_cons.mp h
    rw [List.foldl_cons, along, if_pos (by decide), ih hrest]

/-- A folder is made at the place of its path. -/
theorem makeFolder_eq_ok {t t' : FileTree} {p : Path} (hp : p.isAbsolute = true)
    (h : t.makeFolder p = .ok t') : t' = t.set p.place .folder := by
  obtain ⟨s, hs⟩ := Path.isAbsolute_iff.mp hp
  have hmake := h
  obtain ⟨start, hstart, h⟩ := bind_eq_ok h
  cases startOf_eq_ok hs hstart
  obtain ⟨⟨folder, last⟩, hl, h⟩ := bind_eq_ok h
  cases last with
  | none => cases h
  | some name =>
    obtain ⟨rest, hd, hw, -⟩ := lastOf_eq_ok hl
    obtain ⟨empty, hempty, hpieces⟩ := pieces_eq (Text.splitOn '/' s)
    rw [makeFolder_of_lastOf hstart hl] at hmake
    split at hmake
    · cases hmake
    · rename_i hdots
      rw [Bool.or_eq_true, not_or, decide_eq_true_iff, decide_eq_true_iff] at hdots
      have hstep : Path.stepOf? name = some (.name name) := by
        rw [Path.stepOf?, Path.isSilent, decide_eq_false (ne_nil_of_dropWhile hd),
          decide_eq_false hdots.1]
        exact if_neg hdots.2
      have hplace : p.place = folder ++ [name] := by
        rw [place_of_slash hs, hpieces, hd, List.foldl_append, foldl_along_of_empty _ hempty,
          List.reverse_cons, List.foldl_append, ← walk_eq_ok hw, List.foldl_cons, List.foldl_nil,
          along_of_name hstep]
      rw [hplace]
      split at hmake
      · cases hmake
      · split at hmake
        · cases hmake
        · exact (Except.ok.inj hmake).symm

theorem foldersAt_set (t : FileTree) (place : Place) (entry : Entry) :
    FoldersAt (· = place) t (t.set place entry) := by
  intro other hf
  by_cases e : other = place
  · exact .inr e
  · exact .inl ((entryAt?_set_of_ne t e entry).symm.trans hf)

theorem foldersAt_makeFolderChain (t : FileTree) {paths : List Path}
    (hp : ∀ p ∈ paths, p.isAbsolute = true) :
    FoldersAt (fun place => ∃ p ∈ paths, place = p.place) t (t.makeFolderChain paths).1 := by
  refine makeFolderChain_along (.refl _) .trans (fun p hm t t' h => ?_) t
  rw [makeFolder_eq_ok (hp p hm) h]
  exact (foldersAt_set t p.place .folder).weaken fun place e => ⟨p, hm, e⟩

/-- Writing to a path makes folders at its folder and above. -/
theorem foldersAt_writeText (t : FileTree) {p folder : Path} (hp : p.isAbsolute = true)
    (hfolder : folder.IsPlain) (hf : folderOf? p = some folder) (text : String)
    (options : WriteOptions) :
    FoldersAt (· <+: folder.place) t (t.writeText p text options).1 := by
  have prepared : FoldersAt (· <+: folder.place) t (t.prepareFolder p options).1 := by
    rw [prepareFolder, hf]
    simp only
    split
    · refine (foldersAt_makeFolderChain t fun q hq =>
        (hfolder.of_mem_ancestors hq).absolute).weaken ?_
      rintro place ⟨q, hq, rfl⟩
      exact hfolder.place_of_mem_ancestors hq
    · exact .refl _ t
  rw [writeText]
  rcases hprep : t.prepareFolder p options with ⟨t', e | u⟩
  · rw [hprep] at prepared
    exact prepared
  · rw [hprep] at prepared
    refine prepared.trans ?_
    simp only
    cases hput : t'.putText p (options.stored text) with
    | error e => exact .refl _ t'
    | ok t'' =>
      obtain ⟨hne, -, rfl⟩ := putText_eq_ok hp hput
      intro place hplace
      by_cases e : place = p.place
      · rw [e, entryAt?_set_self t' hne] at hplace
        cases hplace
      · exact .inl ((entryAt?_set_of_ne t' e _).symm.trans hplace)

/-! ## Closed trees -/

/-- Each entry lies in folders up to the root. -/
def Closed (t : FileTree) : Prop :=
  ∀ e ∈ t.entries, ∀ n < e.1.length, t.entryAt? (e.1.take n) = some .folder

instance (t : FileTree) : Decidable t.Closed :=
  inferInstanceAs (Decidable (∀ e ∈ t.entries, ∀ n < e.1.length, _))

/-- Above a folder of a closed tree are folders. -/
theorem Closed.folder {t : FileTree} (h : t.Closed) {front place : Place} (hp : front <+: place)
    (he : t.entryAt? place = some .folder) : t.entryAt? front = some .folder := by
  by_cases heq : front.length = place.length
  · rwa [hp.eq_of_length heq]
  · have hlt : front.length < place.length := Nat.lt_of_le_of_ne hp.length_le heq
    have hne : place ≠ [] := by
      rintro rfl
      exact absurd hlt (Nat.not_lt_zero _)
    rw [entryAt?, if_neg hne] at he
    obtain ⟨before, after, hentries, -⟩ := List.lookup_eq_some_iff.mp he
    rw [List.prefix_iff_eq_take.mp hp]
    exact h (place, .folder) (hentries ▸ List.mem_append_right _ List.mem_cons_self) _ hlt

theorem prefix_along (place : Place) {piece : List Char} (h : piece ≠ ['.', '.']) :
    place <+: along place piece := by
  rw [along]
  split
  · exact List.prefix_refl _
  · exact List.prefix_append _ _

theorem prefix_foldl_along (place : Place) {pieces : List (List Char)}
    (h : ['.', '.'] ∉ pieces) : place <+: pieces.foldl along place := by
  induction pieces generalizing place with
  | nil => exact List.prefix_refl _
  | cons piece pieces ih =>
    rw [List.mem_cons, not_or] at h
    exact (prefix_along place (Ne.symm h.1)).trans (ih _ h.2)

/-- In a closed tree, pieces without steps up lead to a folder whenever they lead there in some other
tree. -/
theorem Closed.walk {t t' : FileTree} (h : t.Closed) {pieces : List (List Char)}
    (hup : ['.', '.'] ∉ pieces) {place place' : Place} (hw : t'.walk place pieces = .ok place')
    (he : t.entryAt? place' = some .folder) : t.walk place pieces = .ok place' := by
  induction pieces generalizing place with
  | nil => exact hw
  | cons piece pieces ih =>
    have hplace := h.folder (walk_eq_ok hw ▸ prefix_foldl_along place hup) he
    rw [List.mem_cons, not_or] at hup
    rw [FileTree.walk] at hw ⊢
    rw [if_neg (not_not_intro hplace)]
    split at hw
    · cases hw
    · split at hw
      · rename_i hsilent
        rw [if_pos hsilent]
        exact ih hup.2 hw
      · rename_i hsilent
        rw [if_neg hsilent, if_neg (Ne.symm hup.1)]
        rw [if_neg (Ne.symm hup.1)] at hw
        split at hw
        · cases hw
        · rename_i hshort
          split at hw
          · cases hw
          · have hnext := h.folder (walk_eq_ok hw ▸ prefix_foldl_along _ hup.2) he
            rw [if_neg hshort, if_neg (by rw [hnext]; exact Option.some_ne_none _)]
            exact ih hup.2 hw

/-- A plain path that is a folder in some other tree is one in a closed tree with a folder at its
place. -/
theorem Closed.isFolder {t t' : FileTree} (h : t.Closed) {p : Path} (hp : p.IsPlain)
    (hf : t'.isFolder p = true) (he : t.entryAt? p.place = some .folder) :
    t.isFolder p = true := by
  obtain ⟨s, hs⟩ := Path.isAbsolute_iff.mp hp.absolute
  have hup : ['.', '.'] ∉ Text.splitOn '/' s := fun hm => hp.noUp <| by
    rw [Path.up_mem_steps, Path.up_mem_pieceSteps, hs, Text.splitOn_cons_self]
    exact List.mem_cons_of_mem _ hm
  obtain ⟨place, hl, -⟩ := find_eq_ok.mp (isFolder_iff.mp hf)
  obtain ⟨start, hstart, hw⟩ := bind_eq_ok hl
  rw [startOf_congr t' t hp.absolute] at hstart
  cases startOf_eq_ok hs hstart
  have hplace : p.place = place := (place_of_slash hs).trans (walk_eq_ok hw).symm
  rw [hplace] at he
  refine isFolder_iff.mpr (find_eq_ok.mpr ⟨place, ?_, he⟩)
  rw [locate, hstart]
  exact h.walk hup hw he

/-- What is a folder of a closed tree behind writing to a path was one before, or is the path's
folder or one above. -/
theorem Closed.isFolder_writeText {t : FileTree} (h : t.Closed) {p q folder : Path}
    (hp : p.isAbsolute = true) (hfolder : folder.IsPlain) (hf : folderOf? p = some folder)
    (hq : q.IsPlain) {text : String} {options : WriteOptions}
    (hnew : (t.writeText p text options).1.isFolder q = true) :
    t.isFolder q = true ∨ q.place <+: folder.place := by
  have hentry := entryAt?_of_find hq.absolute (isFolder_iff.mp hnew)
  exact (t.foldersAt_writeText hp hfolder hf text options q.place hentry).imp_left
    (h.isFolder hq hnew)

/-! ## Above what is found -/

section Above

open ApiReview.Path (AllNames fromRoot)

variable {t : FileTree} {names more : List Path.Step}

theorem exists_text_fromRoot (names : List Path.Step) (hm : more ≠ []) :
    ∃ rest, (fromRoot (names ++ more)).text = (fromRoot names).text ++ rest := by
  by_cases hn : names = []
  · subst hn
    refine ⟨String.ofList (Text.joinWith '/' (more.map Path.Step.chars)), String.toList_inj.mp ?_⟩
    rw [String.toList_append, String.toList_ofList, Path.toList_fromRoot, Path.toList_fromRoot]
    rfl
  · have hnames : names.map Path.Step.chars ≠ [] := fun e => hn (List.map_eq_nil_iff.mp e)
    have hmore : more.map Path.Step.chars ≠ [] := fun e => hm (List.map_eq_nil_iff.mp e)
    refine ⟨String.ofList ('/' :: Text.joinWith '/' (more.map Path.Step.chars)),
      String.toList_inj.mp ?_⟩
    rw [String.toList_append, String.toList_ofList, Path.toList_fromRoot, Path.toList_fromRoot,
      List.map_append, Path.joinWith_append hnames hmore]
    rfl

/-- What a path that can be looked up begins with can be looked up too. -/
theorem startOf_of_append {p q : Path} {s : List Char} (hs : p.text.toList = '/' :: s)
    {rest : String} (hq : q.text = p.text ++ rest) {start : Place × List (List Char)}
    (h : t.startOf q = .ok start) : t.startOf p = .ok ([], Text.splitOn '/' s) := by
  have hzero : ¬ p.text.toList.contains '\x00' = true := by
    intro hz
    rw [startOf, hq, if_pos (by
      rw [String.toList_append, List.contains_iff_mem] at *
      exact List.mem_append_left _ hz)] at h
    cases h
  have hne := Path.text_ne_empty (Path.isAbsolute_iff.mpr ⟨s, hs⟩)
  have hshort : ¬ maxPathBytes < p.text.utf8ByteSize := fun hlong => by
    have hlonger : maxPathBytes < q.text.utf8ByteSize := by
      rw [hq, String.utf8ByteSize_append]
      exact Nat.lt_add_right _ hlong
    rw [startOf] at h
    split at h
    · cases h
    · split at h
      · cases h
      · cases h
  rw [startOf, if_neg hzero, if_neg hne, if_neg hshort, hs, Path.split_slash]

/-- What lies above a path that leads somewhere is a folder. -/
theorem isFolder_of_locate (h : AllNames (names ++ more)) (hm : more ≠ []) {place : Place}
    (hl : t.locate (fromRoot (names ++ more)) = .ok place) :
    t.isFolder (fromRoot names) = true := by
  obtain ⟨start, hstart, hw⟩ := bind_eq_ok hl
  obtain ⟨rest, hrest⟩ := exists_text_fromRoot names hm
  have hlower := startOf_of_append (Path.toList_fromRoot names) hrest hstart
  cases startOf_eq_ok (Path.toList_fromRoot (names ++ more)) hstart
  have hall : (names ++ more).map Path.Step.chars ≠ [] := fun e =>
    hm (List.append_eq_nil_iff.mp (List.map_eq_nil_iff.mp e)).2
  have hw : t.walk [] (Text.splitOn '/' (Text.joinWith '/' ((names ++ more).map Path.Step.chars))) =
    .ok place := hw
  rw [Text.splitOn_joinWith hall h.not_mem_slash, List.map_append, walk_append] at hw
  obtain ⟨folder, hfolder, hw⟩ := bind_eq_ok hw
  obtain ⟨step, more, rfl⟩ := List.exists_cons_of_ne_nil hm
  refine isFolder_iff.mpr (find_eq_ok.mpr ⟨folder, ?_, folder_of_walk_cons hw⟩)
  rw [locate, hlower]
  show t.walk [] (Text.splitOn '/' (Text.joinWith '/' (names.map Path.Step.chars))) = .ok folder
  by_cases hn : names = []
  · subst hn
    cases hfolder
    exact walk_of_empty rfl (by decide)
  · have hnames : names.map Path.Step.chars ≠ [] := fun e => hn (List.map_eq_nil_iff.mp e)
    have hslash : ∀ piece ∈ names.map Path.Step.chars, '/' ∉ piece := fun piece hp =>
      h.not_mem_slash piece (by rw [List.map_append]; exact List.mem_append_left _ hp)
    rw [Text.splitOn_joinWith hnames hslash]
    exact hfolder

end Above

/-- What a normal folder lies under is a folder. -/
theorem isFolder_of_isUnderOrEqual {t : FileTree} {p q : Path} (hp : p.IsNormal) (hq : q.IsNormal)
    (h : q.isUnderOrEqual p = true) (hf : t.isFolder q = true) : t.isFolder p = true := by
  rw [Path.isUnderOrEqual, hp.normalize_eq, hq.normalize_eq, List.isPrefixOf_iff_prefix] at h
  obtain ⟨names, hnames, rfl⟩ := hp
  obtain ⟨names', hnames', rfl⟩ := hq
  rw [Path.steps_fromRoot hnames, Path.steps_fromRoot hnames', List.cons_prefix_cons] at h
  obtain ⟨more, rfl⟩ := h.2
  by_cases hm : more = []
  · rwa [hm, List.append_nil] at hf
  · obtain ⟨place, hl, -⟩ := find_eq_ok.mp (isFolder_iff.mp hf)
    exact isFolder_of_locate hnames' hm hl

/-! ## Names in a folder -/

/-- A name is put behind the text of a folder, and behind its pieces but for an empty one at their
end. -/
theorem pieces_join {folder : Path} {s : List Char} (hs : folder.text.toList = '/' :: s)
    {name : String} (hn : (Path.Step.name name.toList).IsName) :
    ∃ rest s' front, (folder.join ⟨name⟩).text = folder.text ++ rest ∧
      (folder.join ⟨name⟩).text.toList = '/' :: s' ∧
      Text.splitOn '/' s' = front ++ [name.toList] ∧
      (Text.splitOn '/' s = front ∨ Text.splitOn '/' s = front ++ [[]]) := by
  have hrel : (Path.mk name).isAbsolute = false := by
    refine Bool.eq_false_iff.mpr fun h => ?_
    obtain ⟨rest, hrest⟩ := Path.isAbsolute_iff.mp h
    exact hn.2 (hrest ▸ List.mem_cons_self)
  have hne := Path.text_ne_empty (Path.isAbsolute_iff.mpr ⟨s, hs⟩)
  have hname := Text.splitOn_of_not_mem hn.2
  rw [Path.join, if_neg (by simp [hrel, hne])]
  split
  · rename_i hlast
    obtain ⟨front, last, hsplit, happend⟩ := Text.splitOn_append_of_not_mem hn.2 s
    -- The last piece is empty, since the folder ends in a slash.
    have hempty : last = [] := by
      rcases List.eq_nil_or_concat s with rfl | ⟨init, c, rfl⟩
      · have hnil : [] ++ [([] : List Char)] = front ++ [last] := hsplit
        exact (List.singleton_inj.mp (List.append_inj' hnil rfl).2).symm
      · rw [hs, List.concat_eq_append, ← List.cons_append, List.getLast?_concat] at hlast
        cases hlast
        rw [List.concat_eq_append, Text.splitOn_append_sep] at hsplit
        exact (List.singleton_inj.mp (List.append_inj' hsplit rfl).2).symm
    subst hempty
    exact ⟨name, s ++ name.toList, front, rfl, by rw [String.toList_append, hs]; rfl, happend,
      .inr hsplit⟩
  · refine ⟨"/" ++ name, s ++ '/' :: name.toList, Text.splitOn '/' s, String.append_assoc, ?_, ?_,
      .inl rfl⟩
    · rw [String.toList_append, String.toList_append, hs]
      simp
    · rw [Text.splitOn_append_sep, hname]

/-- To a folder it makes no difference whether an empty piece comes last. -/
theorem walk_front_iff {t : FileTree} {place : Place} {pieces front : List (List Char)}
    (hfront : pieces = front ∨ pieces = front ++ [[]]) (he : t.entryAt? place = some .folder) :
    t.walk [] pieces = .ok place ↔ t.walk [] front = .ok place := by
  rcases hfront with rfl | rfl
  · exact Iff.rfl
  · rw [walk_append]
    constructor
    · intro hw
      obtain ⟨place', hfront, hrest⟩ := bind_eq_ok hw
      rw [hfront, walk_eq_ok hrest]
      rfl
    · intro hw
      rw [hw]
      exact walk_of_empty he (by simp)

/-- A file lies in a folder. -/
theorem isFolder_of_isFile_join {t : FileTree} {folder : Path} (hf : folder.isAbsolute = true)
    {name : String} (hn : (Path.Step.name name.toList).IsName)
    (hfile : t.isFile (folder.join ⟨name⟩) = true) : t.isFolder folder = true := by
  obtain ⟨s, hs⟩ := Path.isAbsolute_iff.mp hf
  obtain ⟨rest, s', front, htext, hs', hpieces, hfront⟩ := pieces_join hs hn
  obtain ⟨content, hfind⟩ := isFile_iff.mp hfile
  obtain ⟨place, hl, -⟩ := find_eq_ok.mp hfind
  obtain ⟨start, hstart, hw⟩ := bind_eq_ok hl
  cases startOf_eq_ok hs' hstart
  have hw : t.walk [] (Text.splitOn '/' s') = .ok place := hw
  rw [hpieces, walk_append] at hw
  obtain ⟨above, habove, hlast⟩ := bind_eq_ok hw
  have he := folder_of_walk_cons hlast
  refine isFolder_iff.mpr (find_eq_ok.mpr ⟨above, ?_, he⟩)
  rw [locate, startOf_of_append hs htext hstart]
  exact (walk_front_iff hfront he).mpr habove

/-- The folder of a name in a normal folder is that folder. -/
theorem folderOf?_join_name {p : Path} (hp : p.IsNormal) {name : String}
    (hn : (Path.Step.name name.toList).IsName) : folderOf? (p.join ⟨name⟩) = some p := by
  obtain ⟨names, hnames, rfl⟩ := hp
  have hne := Path.text_ne_empty (Path.isAbsolute_fromRoot names)
  rw [folderOf?, Path.fromRoot_join_name hnames hn, Path.parent?_fromRoot_concat hnames hn,
    Option.filter_some, if_pos (decide_eq_true hne)]

end FileTree

end ApiReview
