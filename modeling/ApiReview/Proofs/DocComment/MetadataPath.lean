import ApiReview.Proofs.Path.Inside
import ApiReview.Proofs.Pipeline.Writing

/-!
# Where the metadata file belongs

Four entries of a manifest say where the metadata file of a package belongs. Empty entries are
meant to say nothing. But an empty `typings` stands for a filled `types` behind it, and nothing else
does so: where that hides no other folder, the first entry that is filled decides
(`passesOverEmpty_iff`).

Entries that never go up above the package folder are meant to keep the file inside of it. They do
unless the entry that decides means the package folder itself, for then the file is put beside it
(`metadataInside_iff`).
-/

namespace ApiReview.Manifest

open ApiReview.Path (AllNames RisesAtMost Step fromRoot)

variable {m m' : Manifest} {folder : Path}

/-- An entry that says something. -/
def filled (entry : Option String) : Option String :=
  entry.filter (· ≠ "")

/-- The path of the metadata file that is named, or else stands beside another file of the package,
or else in the package folder. -/
def placed (folder : Path) (named beside : Option String) : Path :=
  match named with
  | some file => folder.resolve ⟨file⟩
  | none => ((beside.map (folderOf folder)).getD folder).join metadataFileName

/-- The file that the metadata file stands beside if it is not named. -/
def neighbour (m : Manifest) : Option String :=
  m.typingsPath.or (filled m.main)

theorem metadataPath_eq_placed (m : Manifest) (folder : Path) :
    m.metadataPath folder = placed folder (filled m.tsdocMetadata) m.neighbour := rfl

/-! ## Empty entries -/

/-- The path of the metadata file by the first entry that is filled. -/
def firstFilledPath (m : Manifest) (folder : Path) : Path :=
  placed folder (filled m.tsdocMetadata)
    ((filled m.typings).or ((filled m.types).or (filled m.main)))

/-- An entry as it is, or left out if it is empty. -/
def LeavesOut (entry entry' : Option String) : Prop :=
  entry' = entry ∨ entry = some "" ∧ entry' = none

/-- A manifest without some of the empty entries that say where the metadata file belongs. -/
structure Shortened (m m' : Manifest) : Prop where
  name : m'.name = m.name
  version : m'.version = m.version
  tsdocMetadata : LeavesOut m.tsdocMetadata m'.tsdocMetadata
  typings : LeavesOut m.typings m'.typings
  types : LeavesOut m.types m'.types
  main : LeavesOut m.main m'.main

/-- Empty entries say nothing: without them the metadata file belongs where it does with them, and
the first entry that is filled decides. -/
structure PassesOverEmpty (m : Manifest) (folder : Path) : Prop where
  unchanged : ∀ m', Shortened m m' → (m'.metadataPath folder).same (m.metadataPath folder) = true
  decided : (m.metadataPath folder).same (m.firstFilledPath folder) = true

/-- An empty `typings` stands before a filled `types`, and the metadata file is not named. -/
structure HidesTypes (m : Manifest) (types : String) : Prop where
  unnamed : filled m.tsdocMetadata = none
  typings : m.typings = some ""
  types : filled m.types = some types

theorem LeavesOut.filled_eq {entry entry' : Option String} (h : LeavesOut entry entry') :
    filled entry' = filled entry := by
  rcases h with rfl | ⟨rfl, rfl⟩ <;> rfl

theorem Shortened.firstFilledPath_eq (h : Shortened m m') (folder : Path) :
    m'.firstFilledPath folder = m.firstFilledPath folder := by
  rw [firstFilledPath, firstFilledPath, h.tsdocMetadata.filled_eq, h.typings.filled_eq,
    h.types.filled_eq, h.main.filled_eq]

theorem HidesTypes.of_shortened {types : String} (hm : Shortened m m') (h : m'.HidesTypes types) :
    m.HidesTypes types := by
  refine ⟨hm.tsdocMetadata.filled_eq ▸ h.unnamed, ?_, hm.types.filled_eq ▸ h.types⟩
  rcases hm.typings with htypings | ⟨hempty, -⟩
  · rw [← htypings, h.typings]
  · exact hempty

/-- An entry stands for another one unless it is empty and the other one is not. -/
theorem filled_or {entry other : Option String} (h : entry = some "" → filled other = none) :
    filled (entry.or other) = (filled entry).or (filled other) := by
  cases entry with
  | none => rfl
  | some s =>
    by_cases hs : s = ""
    · subst hs
      rw [h rfl]
      rfl
    · have hfilled : filled (some s) = some s := Option.filter_some_pos (decide_eq_true hs)
      rw [Option.some_or, hfilled, Option.some_or]

/-- Where no `types` is hidden, the first entry that is filled decides. -/
theorem metadataPath_of_not_hidesTypes (h : ∀ types, ¬ m.HidesTypes types) (folder : Path) :
    m.metadataPath folder = m.firstFilledPath folder := by
  rw [metadataPath_eq_placed, firstFilledPath]
  cases hnamed : filled m.tsdocMetadata with
  | some file => rfl
  | none =>
    have htypes : m.typings = some "" → filled m.types = none := fun htypings =>
      Option.eq_none_iff_forall_ne_some.mpr fun types htypes => h types ⟨hnamed, htypings, htypes⟩
    rw [neighbour, typingsPath, ← filled, filled_or htypes, Option.or_assoc]

/-- Where a `types` is hidden, the metadata file stands beside the main file all the same. -/
theorem HidesTypes.metadataPath_eq {types : String} (h : m.HidesTypes types) (folder : Path) :
    m.metadataPath folder = placed folder none (filled m.main) ∧
      m.firstFilledPath folder = placed folder none (some types) := by
  constructor
  · rw [metadataPath_eq_placed, h.unnamed, neighbour, typingsPath, h.typings]
    rfl
  · rw [firstFilledPath, h.unnamed, h.typings, h.types]
    rfl

/-- A hidden `types` belongs to a file in the folder of the main file, or else in the package
folder. -/
def HidesNothing (m : Manifest) (folder : Path) : Prop :=
  ∀ types, m.HidesTypes types →
    (placed folder none (filled m.main)).same (placed folder none (some types)) = true

theorem HidesNothing.shortened (h : m.HidesNothing folder) (hm : Shortened m m') :
    m'.HidesNothing folder := by
  intro types hidden
  rw [hm.main.filled_eq]
  exact h types (hidden.of_shortened hm)

theorem HidesNothing.decided (h : m.HidesNothing folder) :
    (m.metadataPath folder).same (m.firstFilledPath folder) = true := by
  by_cases hidden : ∃ types, m.HidesTypes types
  · obtain ⟨types, hidden⟩ := hidden
    obtain ⟨hpath, hfirst⟩ := hidden.metadataPath_eq folder
    rw [hpath, hfirst]
    exact h types hidden
  · rw [metadataPath_of_not_hidesTypes (not_exists.mp hidden)]
    exact Path.same_refl _

/-- Empty entries say nothing exactly if no `types` with another folder is hidden. Where none is
hidden at all, the paths are equal as they are spelled. -/
theorem passesOverEmpty_iff (m : Manifest) (folder : Path) :
    (m.PassesOverEmpty folder ↔ m.HidesNothing folder) ∧
    ((∀ types, ¬ m.HidesTypes types) → m.metadataPath folder = m.firstFilledPath folder ∧
      ∀ m', Shortened m m' → m'.metadataPath folder = m.metadataPath folder) := by
  refine ⟨⟨fun h types hidden => ?_, fun h => ⟨fun m' hm => ?_, h.decided⟩⟩, fun h => ?_⟩
  · obtain ⟨hpath, hfirst⟩ := hidden.metadataPath_eq folder
    rw [← hpath, ← hfirst]
    exact h.decided
  · have hm' := (h.shortened hm).decided
    rw [hm.firstFilledPath_eq] at hm'
    refine decide_eq_true ((of_decide_eq_true hm').trans (of_decide_eq_true h.decided).symm)
  · have hdecided := metadataPath_of_not_hidesTypes h folder
    refine ⟨hdecided, fun m' hm => ?_⟩
    rw [metadataPath_of_not_hidesTypes fun types hidden => h types (hidden.of_shortened hm),
      hm.firstFilledPath_eq, hdecided]

/-- Of four entries the one that is filled decides, whatever is left out of the others. -/
theorem passesOverEmpty_main :
    PassesOverEmpty ⟨"widgets", none, some "lib/index.js", some "", some "", some ""⟩
      ⟨"/repo/widgets"⟩ :=
  (passesOverEmpty_iff _ _).1.mpr fun _ hidden => absurd hidden.types (by simp [filled])

/-- Behind an empty `typings` a `types` does not count, and without the empty entry it does. -/
theorem not_passesOverEmpty_types :
    ¬ PassesOverEmpty ⟨"widgets", none, none, some "", some "dist/index.d.ts", none⟩
      ⟨"/repo/widgets"⟩ := by
  intro h
  have hunchanged := h.unchanged ⟨"widgets", none, none, none, some "dist/index.d.ts", none⟩
    ⟨rfl, rfl, .inl rfl, .inr ⟨rfl, rfl⟩, .inl rfl, .inl rfl⟩
  exact absurd hunchanged (by decide +kernel)

/-! ## Inside the package folder -/

/-- The entries that say where the metadata file belongs are relative paths that never go up above
the package folder. -/
def StaysInside (m : Manifest) : Prop :=
  ∀ entry ∈ [m.tsdocMetadata, m.typings, m.types, m.main], ∀ s ∈ filled entry,
    (Path.mk s).isAbsolute = false ∧ RisesAtMost 0 (Path.mk s).steps

instance (m : Manifest) : Decidable m.StaysInside :=
  inferInstanceAs (Decidable (∀ entry ∈ [m.tsdocMetadata, m.typings, m.types, m.main],
    ∀ s ∈ filled entry, (Path.mk s).isAbsolute = false ∧ RisesAtMost 0 (Path.mk s).steps))

/-- The metadata file belongs into the package folder, and its stage writes nowhere else. -/
structure MetadataInside (m : Manifest) (folder : Path) : Prop where
  path : (m.metadataPath folder).isUnderOrEqual folder = true
  stage : ∀ (σ κ : Type) (job : Job κ),
    job.settings.metadataPath = some (m.metadataPath folder) →
      Run.WritesOnly (folder.place <+: ·) (job.writeMetadata : Run σ κ Unit)

/-- The metadata file is to stand beside the package folder itself, which is not the root and has
another name than the file. -/
def LeadsOut (m : Manifest) (folder : Path) : Prop :=
  filled m.tsdocMetadata = none ∧
    (∃ s, m.neighbour = some s ∧ folder.resolve ⟨s⟩ = folder.normalize) ∧
    ∃ last, folder.parts.getLast? = some last ∧ last ≠ .name metadataFileName.text.toList

theorem mem_filled_of_neighbour {s : String} (h : m.neighbour = some s) :
    ∃ entry ∈ [m.tsdocMetadata, m.typings, m.types, m.main], s ∈ filled entry := by
  rcases Option.or_eq_some_iff.mp h with h | ⟨-, h⟩
  · obtain ⟨hentry, hs⟩ := Option.filter_eq_some_iff.mp h
    rcases Option.or_eq_some_iff.mp hentry with hentry | ⟨-, hentry⟩
    · exact ⟨m.typings, by simp, Option.filter_eq_some_iff.mpr ⟨hentry, hs⟩⟩
    · exact ⟨m.types, by simp, Option.filter_eq_some_iff.mpr ⟨hentry, hs⟩⟩
  · exact ⟨m.main, by simp, h⟩

/-- What stands beside the end of a way from a folder stands below the folder, unless the way is
empty and the folder ends in another name. -/
theorem prefix_dropLast_concat_iff {α : Type} {base more : List α} {a : α} :
    base <+: (base ++ more).dropLast ++ [a] ↔
      ¬ (more = [] ∧ ∃ last, base.getLast? = some last ∧ last ≠ a) := by
  rcases List.eq_nil_or_concat more with rfl | ⟨front, step, rfl⟩
  · rw [List.append_nil, and_iff_right rfl]
    rcases List.eq_nil_or_concat base with rfl | ⟨front, step, rfl⟩
    · simp
    · rw [List.concat_eq_append, List.dropLast_concat, List.prefix_append_right_inj]
      simp
  · rw [List.concat_eq_append, ← List.append_assoc, List.dropLast_concat]
    simp

theorem isName_metadataFileName : (Step.name metadataFileName.text.toList).IsName :=
  ⟨by decide, by decide⟩

section Folder

variable (hf : folder.isAbsolute = true)

include hf

theorem isAbsolute_folderOf (file : String) : (folderOf folder file).isAbsolute = true :=
  Settings.isAbsolute_parent (Path.isPlain_resolve hf).absolute

/-- The parts of a metadata file beside a file that the folder has. -/
theorem parts_placed_beside {s : String} (hs : (Path.mk s).isAbsolute = false)
    (hrises : RisesAtMost 0 (Path.mk s).steps) :
    (placed folder none (some s)).parts =
      (folder.parts ++ Path.normalSteps true (Path.pieceSteps s.toList)).dropLast ++
        [.name metadataFileName.text.toList] := by
  have hway := Path.allNames_way hf hs hrises
  have hfolder : folderOf folder s = fromRoot
      (folder.parts ++ Path.normalSteps true (Path.pieceSteps s.toList)).dropLast := by
    rw [folderOf, Path.resolve_of_risesAtMost hf hs hrises, Path.parent?_getD_fromRoot hway]
  show ((folderOf folder s).join metadataFileName).parts = _
  rw [Path.parts_join_name (isAbsolute_folderOf hf s) isName_metadataFileName, hfolder,
    Path.parts_fromRoot fun step h => hway step (List.dropLast_subset _ h)]

theorem isUnderOrEqual_metadataPath_iff (hm : m.StaysInside) :
    (m.metadataPath folder).isUnderOrEqual folder = true ↔ ¬ m.LeadsOut folder := by
  rw [Path.isUnderOrEqual_iff_parts (Settings.isAbsolute_metadataPath m hf) hf,
    metadataPath_eq_placed, LeadsOut]
  cases hnamed : filled m.tsdocMetadata with
  | some file =>
    obtain ⟨hfile, hrises⟩ := hm m.tsdocMetadata (by simp) file hnamed
    have hparts : (placed folder (some file) m.neighbour).parts =
        folder.parts ++ Path.normalSteps true (Path.pieceSteps file.toList) := by
      rw [placed, Path.resolve_of_risesAtMost hf hfile hrises,
        Path.parts_fromRoot (Path.allNames_way hf hfile hrises)]
    rw [hparts]
    exact iff_of_true (List.prefix_append _ _) fun h => absurd h.1 (Option.some_ne_none _)
  | none =>
    cases hbeside : m.neighbour with
    | none =>
      have hparts : (placed folder none none).parts =
          folder.parts ++ [.name metadataFileName.text.toList] :=
        Path.parts_join_name hf isName_metadataFileName
      rw [hparts]
      refine iff_of_true (List.prefix_append _ _) ?_
      rintro ⟨-, ⟨s, hs, -⟩, -⟩
      cases hs
    | some s =>
      obtain ⟨entry, hentry, hs⟩ := mem_filled_of_neighbour hbeside
      obtain ⟨hrelative, hrises⟩ := hm entry hentry s hs
      rw [parts_placed_beside hf hrelative hrises, prefix_dropLast_concat_iff,
        ← Path.resolve_eq_normalize_iff hf hrelative hrises]
      simp

/-- From a package folder, with entries that never go up above it, the metadata file is put into the
folder unless the entry that decides means the folder itself. -/
theorem metadataInside_iff (hm : m.StaysInside) :
    m.MetadataInside folder ↔ ¬ m.LeadsOut folder := by
  rw [← isUnderOrEqual_metadataPath_iff hf hm]
  have habsolute := Settings.isAbsolute_metadataPath m hf
  refine ⟨MetadataInside.path, fun hpath => ⟨hpath, fun σ κ job hjob => ?_⟩⟩
  refine Job.along_writeMetadata (Run.leads_writesOnly _) job fun path hp => ?_
  obtain rfl : m.metadataPath folder = path := Option.some.inj (hjob.symm.trans hp)
  exact ⟨habsolute, Path.place_prefix_of_isUnderOrEqual habsolute hf hpath⟩

end Folder

/-- Entries that go down and up again inside of the package lead to a file in it. -/
theorem metadataInside_down :
    MetadataInside ⟨"widgets", none, some ".", some "", none, some "./dist/../meta//x.json/."⟩
      ⟨"/repo/./widgets/"⟩ ∧
    MetadataInside ⟨"widgets", none, some ".", some "lib/types/../..//index.d.ts", none, none⟩
      ⟨"/repo/./widgets/"⟩ := by
  refine ⟨(metadataInside_iff (by decide) (by decide)).mpr ?_,
    (metadataInside_iff (by decide) (by decide)).mpr ?_⟩
  · rintro ⟨hunnamed, -⟩
    exact absurd hunnamed (by decide)
  · rintro ⟨-, ⟨s, hs, hback⟩, -⟩
    obtain rfl : "lib/types/../..//index.d.ts" = s := Option.some.inj hs
    exact absurd hback (by decide +kernel)

/-- A main file that is the package folder itself leads to the folder above. -/
theorem not_metadataInside_dot :
    StaysInside ⟨"widgets", none, some ".", none, none, none⟩ ∧
      ¬ MetadataInside ⟨"widgets", none, some ".", none, none, none⟩ ⟨"/repo/widgets"⟩ :=
  ⟨by decide, fun h => absurd h.path (by decide +kernel)⟩

end ApiReview.Manifest
