import ApiReview.Command.Run
import ApiReview.Files.Snapshot
import ApiReview.Proofs.Files.Place
import ApiReview.Proofs.Path.Above
import ApiReview.Proofs.Settings.Prepare
import Mathlib.Data.List.Induction

/-!
# The settings of a folder and of its file

The settings that hold for a folder are prepared with the nearest manifest above the folder, and
those in a given file with the nearest manifest above the file. Where the file of a folder is found
at the root of the project, or in a `config` folder without a manifest, these are the same manifest;
where the `config` folder has a manifest of its own, they are not, and the two ways never come to
the same settings (`prepareForFolder_of_found`).
-/

namespace ApiReview.Settings

open ApiReview.Path (AllNames fromRoot)

/-- The file of the settings that hold for a folder, if there is one. -/
def fileFor (t : FileTree) (folder : Path) : Except SettingsError (Option Path) :=
  let start := t.absolute folder
  let manifestPath := Manifest.findFrom t start
  let base := baseFolder start manifestPath
  let inConfig := (base.join ⟨"config"⟩).join fileName
  let atRoot := base.join fileName
  match t.isFile inConfig, t.isFile atRoot with
  | true, true => .error (.conflictingFiles base)
  | true, false => .ok (some inConfig)
  | false, true => .ok (some atRoot)
  | false, false => .ok none

/-- The settings that hold for a folder, prepared. -/
def prepareForFolder (t : FileTree) (folder : Path) : Except SettingsError (Option Settings) := do
  match ← loadForFolder t folder with
  | some source => return some (← prepare t source.input)
  | none => return none

/-- The folder of a settings file has a manifest, and it is not the one that is nearest to the
folder that the file was found for. -/
def HasOwnManifest (t : FileTree) (folder path : Path) : Prop :=
  t.isFile ((folderOf path).join Manifest.fileName) = true ∧
    Manifest.findFrom t (t.absolute folder) ≠ some ((folderOf path).join Manifest.fileName)

theorem loadForFolder_of_found {t : FileTree} {folder path : Path}
    (h : fileFor t folder = .ok (some path)) :
    loadForFolder t folder = (load t path).map fun document =>
      some ⟨document, path, Manifest.findFrom t (t.absolute folder)⟩ := by
  unfold fileFor at h
  unfold loadForFolder
  extract_lets start manifestPath base inConfig atRoot at h
  extract_lets
  cases hconfig : t.isFile inConfig <;> cases hroot : t.isFile atRoot <;>
    simp only [hconfig, hroot] at h ⊢
  case false.false => cases h
  case true.true => cases h
  case true.false =>
    have hpath : inConfig = path := Option.some.inj (Except.ok.inj h)
    rw [← hpath]
    generalize load t inConfig = loaded
    cases loaded <;> rfl
  case false.true =>
    have hpath : atRoot = path := Option.some.inj (Except.ok.inj h)
    rw [← hpath]
    generalize load t atRoot = loaded
    cases loaded <;> rfl

/-! ## Manifests above normal paths -/

/-- The name of a file, as a step. -/
def step (p : Path) : Path.Step :=
  .name p.text.toList

theorem isName_manifest : (step Manifest.fileName).IsName := ⟨by decide, by decide⟩

theorem isName_fileName : (step fileName).IsName := ⟨by decide, by decide⟩

theorem isName_config : (step ⟨"config"⟩).IsName := ⟨by decide, by decide⟩

section Above

variable {t : FileTree} {names : List Path.Step}

theorem join_manifest (h : AllNames names) :
    (fromRoot names).join Manifest.fileName = fromRoot (names ++ [step Manifest.fileName]) :=
  Path.fromRoot_join_name h isName_manifest

theorem parent?_join_manifest (h : AllNames names) :
    ((fromRoot names).join Manifest.fileName).parent? = some (fromRoot names) := by
  rw [join_manifest h, Path.parent?_fromRoot_concat h isName_manifest]

theorem findFrom_of_isFile {p : Path} (h : t.isFile (p.join Manifest.fileName) = true) :
    Manifest.findFrom t p = some (p.join Manifest.fileName) := by
  rw [Manifest.findFrom, Path.ancestors, List.map_cons, List.find?_cons, h]

theorem findFrom_root (t : FileTree) :
    Manifest.findFrom t (fromRoot []) =
      if t.isFile ((fromRoot []).join Manifest.fileName) then
        some ((fromRoot []).join Manifest.fileName)
      else none := by
  rw [Manifest.findFrom, Path.ancestors, Path.parents_fromRoot_nil, List.map_singleton,
    List.find?_cons]
  cases t.isFile ((fromRoot []).join Manifest.fileName) <;> rfl

theorem findFrom_concat (h : AllNames names) {s : Path.Step} (hs : s.IsName) :
    Manifest.findFrom t (fromRoot (names ++ [s])) =
      if t.isFile ((fromRoot (names ++ [s])).join Manifest.fileName) then
        some ((fromRoot (names ++ [s])).join Manifest.fileName)
      else Manifest.findFrom t (fromRoot names) := by
  rw [Manifest.findFrom, Path.ancestors, Path.parents_fromRoot_concat h hs, List.map_cons,
    List.find?_cons]
  cases t.isFile ((fromRoot (names ++ [s])).join Manifest.fileName) <;> rfl

/-- The base folder of a starting folder has the same nearest manifest, and if there is one, in the
base folder itself. -/
theorem exists_baseFolder (t : FileTree) (h : AllNames names) :
    ∃ front, AllNames front ∧
      baseFolder (fromRoot names) (Manifest.findFrom t (fromRoot names)) = fromRoot front ∧
      Manifest.findFrom t (fromRoot front) = Manifest.findFrom t (fromRoot names) ∧
      ∀ m, Manifest.findFrom t (fromRoot names) = some m →
        m = (fromRoot front).join Manifest.fileName := by
  have hself : ∀ names, AllNames names →
      Manifest.findFrom t (fromRoot names) = some ((fromRoot names).join Manifest.fileName) →
      baseFolder (fromRoot names) (Manifest.findFrom t (fromRoot names)) = fromRoot names :=
    fun names h hm => by rw [hm, baseFolder, Option.bind_some, parent?_join_manifest h]; rfl
  induction names using List.reverseRecOn with
  | nil =>
    refine ⟨[], h, ?_, rfl, fun m hm => ?_⟩
    · have hroot := findFrom_root t
      split at hroot
      · exact hself [] h hroot
      · rw [hroot]
        rfl
    · rw [findFrom_root] at hm
      split at hm
      · exact (Option.some.inj hm).symm
      · cases hm
  | append_singleton names s ih =>
    obtain ⟨hnames, hs⟩ := h.of_concat
    have hfind := findFrom_concat (t := t) hnames hs
    split at hfind
    · refine ⟨names ++ [s], h, hself _ h hfind, rfl, fun m hm => ?_⟩
      exact (Option.some.inj (hfind.symm.trans hm)).symm
    · rw [hfind]
      cases hm : Manifest.findFrom t (fromRoot names) with
      | none =>
        -- Nothing is found, and the starting folder is its own base folder.
        refine ⟨names ++ [s], h, rfl, hfind.trans hm, fun m h => ?_⟩
        cases h
      | some m =>
        obtain ⟨front, hfront, hbase, hsame, hm'⟩ := ih hnames
        rw [hm] at hbase hsame hm'
        -- Where a manifest is found, the starting folder does not matter.
        have hstart : baseFolder (fromRoot (names ++ [s])) (some m) =
          baseFolder (fromRoot names) (some m) := by
            rw [baseFolder, baseFolder, Option.bind_some, hm' m rfl, parent?_join_manifest hfront]
            rfl
        exact ⟨front, hfront, hstart.trans hbase, hsame, hm'⟩

end Above

/-! ## The manifest of a settings file -/

section Own

variable {t : FileTree} {folder path : Path} {names : List Path.Step}

theorem absolute_of_names (hp : path = fromRoot (names ++ [step fileName])) (h : AllNames names) :
    t.absolute path = path := by
  rw [hp, t.absolute_eq_self ⟨_, h.concat isName_fileName, rfl⟩]

theorem parent?_of_names (hp : path = fromRoot (names ++ [step fileName])) (h : AllNames names) :
    path.parent? = some (fromRoot names) := by
  rw [hp, Path.parent?_fromRoot_concat h isName_fileName]

/-- A manifest in the folder of a settings file is the nearest one there. If it is not that of the
folder that the file was found for, it is its own. -/
theorem ownManifest_cases (hp : path = fromRoot (names ++ [step fileName])) (h : AllNames names)
    (habove : ¬ t.isFile ((fromRoot names).join Manifest.fileName) = true →
      Manifest.findFrom t (fromRoot names) = Manifest.findFrom t (t.absolute folder)) :
    (¬ HasOwnManifest t folder path ∧
        Manifest.findFrom t (fromRoot names) = Manifest.findFrom t (t.absolute folder)) ∨
      HasOwnManifest t folder path ∧
        Manifest.findFrom t (fromRoot names) = some ((fromRoot names).join Manifest.fileName) := by
  have hfolder : folderOf path = fromRoot names := by
    rw [folderOf, parent?_of_names hp h]
    rfl
  rw [HasOwnManifest, hfolder]
  by_cases hfile : t.isFile ((fromRoot names).join Manifest.fileName) = true
  · have hfind := findFrom_of_isFile hfile
    by_cases hsame : Manifest.findFrom t (t.absolute folder) =
        some ((fromRoot names).join Manifest.fileName)
    · exact .inl ⟨fun own => own.2 hsame, hfind.trans hsame.symm⟩
    · exact .inr ⟨⟨hfile, hsame⟩, hfind⟩
  · exact .inl ⟨fun own => hfile own.1, habove hfile⟩

end Own

/-- A settings file that is found for a folder lies in a folder whose nearest manifest is its own or
the one of the folder that it was found for. -/
theorem findFrom_of_found {t : FileTree} {folder path : Path}
    (h : fileFor t folder = .ok (some path)) :
    ∃ names, AllNames names ∧ t.absolute path = path ∧ path.parent? = some (fromRoot names) ∧
      ((¬ HasOwnManifest t folder path ∧
          Manifest.findFrom t (fromRoot names) = Manifest.findFrom t (t.absolute folder)) ∨
        HasOwnManifest t folder path ∧
          Manifest.findFrom t (fromRoot names) =
            some ((fromRoot names).join Manifest.fileName)) := by
  obtain ⟨start, hstart, habsolute⟩ := t.isNormal_absolute folder
  obtain ⟨front, hfront, hbase, hsame, hfound⟩ := exists_baseFolder t hstart
  unfold fileFor at h
  extract_lets start' manifestPath base inConfig atRoot at h
  have hbase' : base = fromRoot front := by
    show baseFolder (t.absolute folder) (Manifest.findFrom t (t.absolute folder)) = _
    rw [habsolute]
    exact hbase
  have hconfigFolder := Path.fromRoot_join_name hfront isName_config
  have hconfigNames := hfront.concat isName_config
  have hinConfig : inConfig = fromRoot (front ++ [step ⟨"config"⟩] ++ [step fileName]) := by
    show (base.join ⟨"config"⟩).join fileName = _
    rw [hbase', hconfigFolder]
    exact Path.fromRoot_join_name hconfigNames isName_fileName
  have hatRoot : atRoot = fromRoot (front ++ [step fileName]) := by
    show base.join fileName = _
    rw [hbase']
    exact Path.fromRoot_join_name hfront isName_fileName
  rw [← habsolute] at hsame hfound
  split at h
  · cases h
  · have hpath : path = fromRoot (front ++ [step ⟨"config"⟩] ++ [step fileName]) :=
      (Option.some.inj (Except.ok.inj h)).symm.trans hinConfig
    exact ⟨_, hconfigNames, absolute_of_names hpath hconfigNames,
      parent?_of_names hpath hconfigNames, ownManifest_cases hpath hconfigNames fun hfile => by
        rw [findFrom_concat hfront isName_config, if_neg hfile, hsame]⟩
  · have hpath : path = fromRoot (front ++ [step fileName]) :=
      (Option.some.inj (Except.ok.inj h)).symm.trans hatRoot
    exact ⟨_, hfront, absolute_of_names hpath hfront, parent?_of_names hpath hfront,
      ownManifest_cases hpath hfront fun _ => hsame⟩
  · cases h

/-- The package folder of prepared settings is that of their manifest. -/
theorem packageFolder_of_prepare {t : FileTree} {input : PrepareInput} {s : Settings}
    (hn : input.manifest = none) (h : prepare t input = .ok s) :
    s.packageFolder = input.manifestPath.map fun path => path.parent?.getD path := by
  obtain ⟨file, manifest, compiler, reports, hp⟩ := prepare_eq_ok h
  have hfolder : s.packageFolder = manifest.map (·.2) := by rw [hp.settings_eq]
  have hm := hp.manifest_eq
  rw [prepareManifest, hn] at hm
  rw [hfolder]
  cases hpath : input.manifestPath with
  | none =>
    rw [hpath] at hm
    cases hm
    rfl
  | some path =>
    simp only [hpath] at hm
    split at hm
    · cases hm
    · split at hm
      · cases hm
      · obtain ⟨loaded, -, hm⟩ := bind_eq_ok hm
        rw [← Except.ok.inj hm]
        rfl

/-- The nearest manifest stands in its package folder. -/
theorem eq_join_of_findFrom {t : FileTree} {folder m : Path}
    (h : Manifest.findFrom t (t.absolute folder) = some m) :
    m = (m.parent?.getD m).join Manifest.fileName := by
  obtain ⟨start, hstart, habsolute⟩ := t.isNormal_absolute folder
  obtain ⟨front, hfront, -, -, hfound⟩ := exists_baseFolder t hstart
  rw [habsolute] at h
  have hm := hfound m h
  have hparent : m.parent?.getD m = fromRoot front := by
    rw [hm, parent?_join_manifest hfront]
    rfl
  rw [hparent]
  exact hm

section Found

variable {t : FileTree} {folder path : Path}

theorem prepareForFolder_eq (h : fileFor t folder = .ok (some path)) :
    prepareForFolder t folder = (load t path >>= fun document =>
      prepare t (Source.mk document path (Manifest.findFrom t (t.absolute folder))).input).map
        some := by
  rw [prepareForFolder, loadForFolder_of_found h]
  cases load t path with
  | error e => rfl
  | ok document =>
    show (prepare t _ >>= fun s => Except.ok (some s)) = (prepare t _).map some
    generalize prepare t _ = prepared
    cases prepared <;> rfl

theorem loadAndPrepare_eq {names : List Path.Step} (ha : t.absolute path = path)
    (hp : path.parent? = some (fromRoot names)) :
    loadAndPrepare t path = load t path >>= fun document =>
      prepare t (Source.mk document path (Manifest.findFrom t (fromRoot names))).input := by
  unfold loadAndPrepare
  rw [ha]
  show (load t path >>= fun document =>
    prepare t (Source.mk document path (path.parent?.bind (Manifest.findFrom t))).input) = _
  rw [hp]
  rfl

/-- The command checks the settings that hold for the working folder. -/
theorem checkedSettings_of_prepareForFolder {r : Except SettingsError Settings}
    (h : prepareForFolder t t.workingPath = r.map some) :
    Command.checkedSettings t none = r.mapError .settings := by
  rw [prepareForFolder] at h
  rw [Command.checkedSettings]
  cases hfound : loadForFolder t t.workingPath with
  | error e =>
    rw [hfound] at h
    cases r with
    | error e' =>
      cases h
      rfl
    | ok s => cases h
  | ok found =>
    rw [hfound] at h
    cases found with
    | none => cases r <;> cases h
    | some source =>
      replace h : (prepare t source.input >>= fun s => Except.ok (some s)) = r.map some := h
      show (prepare t source.input).mapError Command.CheckError.settings = _
      generalize prepare t source.input = prepared at h ⊢
      cases prepared <;> cases r <;> cases h <;> rfl

/-- The settings for a folder are those in the file that is found for it, unless the folder
of that file has a manifest of its own; then the two never come to the same settings. -/
theorem prepareForFolder_of_found (h : fileFor t folder = .ok (some path)) :
    (¬ HasOwnManifest t folder path →
      prepareForFolder t folder = (loadAndPrepare t path).map some ∧
      (folder = t.workingPath → ∀ diagnostics,
        Command.runCheck t none diagnostics = Command.runCheck t (some path) diagnostics)) ∧
    (HasOwnManifest t folder path →
      ∀ s, prepareForFolder t folder = .ok (some s) → loadAndPrepare t path ≠ .ok s) := by
  obtain ⟨names, hnames, habsolute, hparent, hown⟩ := findFrom_of_found h
  have hfolder := prepareForFolder_eq h
  have hfile := loadAndPrepare_eq habsolute hparent
  rcases hown with ⟨hnone, hsame⟩ | ⟨hown, hfind⟩
  · have hagree : prepareForFolder t folder = (loadAndPrepare t path).map some := by
      rw [hfolder, hfile, hsame]
    refine ⟨fun _ => ⟨hagree, ?_⟩, fun hown => absurd hown hnone⟩
    rintro rfl diagnostics
    have hnearest := checkedSettings_of_prepareForFolder hagree
    have hgiven : Command.checkedSettings t (some path) =
      (loadAndPrepare t path).mapError .settings := rfl
    rw [Command.runCheck, Command.runCheck, hnearest, hgiven]
  · refine ⟨fun hnone => absurd hown hnone, fun _ s hs hs' => ?_⟩
    rw [hfolder] at hs
    rw [hfile, hfind] at hs'
    obtain ⟨prepared, hprepared, hsome⟩ := map_eq_ok hs
    obtain rfl := Option.some.inj hsome
    obtain ⟨document, hload, hs⟩ := bind_eq_ok hprepared
    obtain ⟨document', hload', hs'⟩ := bind_eq_ok hs'
    have hpackage := packageFolder_of_prepare rfl hs
    rw [packageFolder_of_prepare rfl hs'] at hpackage
    obtain ⟨m, hm, hmfolder⟩ := Option.map_eq_some_iff.mp hpackage.symm
    -- The manifests stand in the same folder, so they are the same.
    have hparentOwn : (((fromRoot names).join Manifest.fileName).parent?.getD
        ((fromRoot names).join Manifest.fileName)) = fromRoot names := by
      rw [parent?_join_manifest hnames]
      rfl
    have hfolderOf : folderOf path = fromRoot names := by
      rw [folderOf, hparent]
      rfl
    have hmself := eq_join_of_findFrom hm
    rw [show m.parent?.getD m = fromRoot names from hmfolder.trans hparentOwn] at hmself
    apply hown.2
    rw [hfolderOf]
    exact hm.trans (congrArg some hmself)

end Found

/-- A project with its settings in the `config` folder. -/
def configTree : FileTree :=
  { ((FileTree.empty.withFile ["p".toList, "index.d.ts".toList] (.text "")).withFile
      ["p".toList, "package.json".toList] (.text "\x7b\"name\":\"outer\"\x7d")).withFile
      ["p".toList, "config".toList, "api-surface.json".toList]
      (.text ("\x7b\"projectFolder\":\"..\"," ++
        "\"mainEntryPointFilePath\":\"<projectFolder>/index.d.ts\"," ++
        "\"compiler\":\x7b\"overrideTsconfig\":\x7b\x7d\x7d\x7d")) with
    workingFolder := ["p".toList] }

/-- The project with a second manifest beside its settings. -/
def nestedTree : FileTree :=
  configTree.withFile ["p".toList, "config".toList, "package.json".toList]
    (.text "\x7b\"name\":\"inner\"\x7d")

/-- Without a manifest beside the settings, the working folder and the file agree. -/
theorem prepareForFolder_configTree :
    fileFor configTree ⟨"/p"⟩ = .ok (some ⟨"/p/config/api-surface.json"⟩) ∧
      ¬ HasOwnManifest configTree ⟨"/p"⟩ ⟨"/p/config/api-surface.json"⟩ ∧
      ∃ s, prepareForFolder configTree ⟨"/p"⟩ = .ok (some s) ∧
        loadAndPrepare configTree ⟨"/p/config/api-surface.json"⟩ = .ok s ∧
        ∀ diagnostics, Command.runCheck configTree none diagnostics =
          Command.runCheck configTree (some ⟨"/p/config/api-surface.json"⟩) diagnostics := by
  have hfound : fileFor configTree ⟨"/p"⟩ = .ok (some ⟨"/p/config/api-surface.json"⟩) :=
    eq_ok_of_toOption (by decide +kernel)
  have hown : ¬ HasOwnManifest configTree ⟨"/p"⟩ ⟨"/p/config/api-surface.json"⟩ := by
    rw [HasOwnManifest]
    decide +kernel
  have hworking : (⟨"/p"⟩ : Path) = configTree.workingPath := by decide +kernel
  obtain ⟨s, hs, -⟩ : ∃ s, loadAndPrepare configTree ⟨"/p/config/api-surface.json"⟩ = .ok s ∧
      s.packageFolder = some ⟨"/p"⟩ := exists_ok_of_map (by decide +kernel)
  obtain ⟨hagree, -⟩ := prepareForFolder_of_found hfound
  obtain ⟨hsame, hcheck⟩ := hagree hown
  refine ⟨hfound, hown, s, ?_, hs, hcheck hworking⟩
  rw [hsame, hs]
  rfl

/-- With a manifest beside the settings, the working folder and the file come to settings of
different packages. -/
theorem not_prepareForFolder_nestedTree :
    fileFor nestedTree ⟨"/p"⟩ = .ok (some ⟨"/p/config/api-surface.json"⟩) ∧
      ∃ s s', prepareForFolder nestedTree ⟨"/p"⟩ = .ok (some s) ∧
        loadAndPrepare nestedTree ⟨"/p/config/api-surface.json"⟩ = .ok s' ∧
        s.packageFolder = some ⟨"/p"⟩ ∧ s'.packageFolder = some ⟨"/p/config"⟩ := by
  have hfound : fileFor nestedTree ⟨"/p"⟩ = .ok (some ⟨"/p/config/api-surface.json"⟩) :=
    eq_ok_of_toOption (by decide +kernel)
  obtain ⟨found, hs, hfolder⟩ : ∃ found, prepareForFolder nestedTree ⟨"/p"⟩ = .ok found ∧
      found.map (·.packageFolder) = some (some ⟨"/p"⟩) := exists_ok_of_map (by decide +kernel)
  obtain ⟨s, rfl, hpackage⟩ := Option.map_eq_some_iff.mp hfolder
  obtain ⟨s', hs', hpackage'⟩ : ∃ s', loadAndPrepare nestedTree ⟨"/p/config/api-surface.json"⟩ =
      .ok s' ∧ s'.packageFolder = some ⟨"/p/config"⟩ := exists_ok_of_map (by decide +kernel)
  exact ⟨hfound, s, s', hs, hs', hpackage, hpackage'⟩

end ApiReview.Settings
