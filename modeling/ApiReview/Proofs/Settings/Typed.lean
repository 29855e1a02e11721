import ApiReview.Proofs.Settings.Anchored
import ApiReview.Proofs.Settings.Components
import Mathlib.Data.List.Forall2

/-!
# Paths of typed files

The path settings of a settings file (`PathSetting`) and the paths that a typed file has
(`pathsOf`). A typed file has a path exactly if the document holds it in the setting's place, by
name or by position (`PathSetting.get?_eq_some_iff`).

A document's paths are read from its folder by name. A section, or an entry point, may also be given
as an array, and a path that stands in it by position is left as it is; such paths are the only ones
of a loaded document that may hang on a folder (`load_anchored_iff`).
-/

namespace ApiReview.Settings

open Json (Record Distinct)

/-! ## Path settings -/

/-- A setting that is a path. Those of the further entry points come apart. -/
inductive PathSetting where
  | projectFolder
  | main
  | tsconfig
  | reportFolder
  | reportTempFolder
  | model
  | untrimmed
  | alphaTrimmed
  | betaTrimmed
  | publicTrimmed
  | metadata
  deriving DecidableEq, Repr

namespace PathSetting

/-- The path settings, in the order in which they are read from their folder. -/
def all : List PathSetting :=
  [projectFolder, main, tsconfig, reportFolder, reportTempFolder, model, untrimmed, alphaTrimmed,
    betaTrimmed, publicTrimmed, metadata]

/-- The keys under which the setting stands in a document. -/
def keys : PathSetting → List String
  | projectFolder => ["projectFolder"]
  | main => ["mainEntryPointFilePath"]
  | tsconfig => ["compiler", "tsconfigFilePath"]
  | reportFolder => ["apiReport", "reportFolder"]
  | reportTempFolder => ["apiReport", "reportTempFolder"]
  | model => ["docModel", "apiJsonFilePath"]
  | untrimmed => ["dtsRollup", "untrimmedFilePath"]
  | alphaTrimmed => ["dtsRollup", "alphaTrimmedFilePath"]
  | betaTrimmed => ["dtsRollup", "betaTrimmedFilePath"]
  | publicTrimmed => ["dtsRollup", "publicTrimmedFilePath"]
  | metadata => ["tsdocMetadata", "tsdocMetadataFilePath"]

/-- The text that a typed file has for the setting. -/
def get? : PathSetting → SettingsFile → Option String
  | projectFolder, file => file.projectFolder
  | main, file => file.mainEntryPointFilePath
  | tsconfig, file => file.compiler.bind (·.tsconfigFilePath)
  | reportFolder, file => file.apiReport.bind (·.reportFolder)
  | reportTempFolder, file => file.apiReport.bind (·.reportTempFolder)
  | model, file => file.docModel.bind (·.apiJsonFilePath)
  | untrimmed, file => file.dtsRollup.bind (·.untrimmedFilePath)
  | alphaTrimmed, file => file.dtsRollup.bind (·.alphaTrimmedFilePath)
  | betaTrimmed, file => file.dtsRollup.bind (·.betaTrimmedFilePath)
  | publicTrimmed, file => file.dtsRollup.bind (·.publicTrimmedFilePath)
  | metadata, file => file.tsdocMetadata.bind (·.tsdocMetadataFilePath)

/-- The value that stands for the setting by position, in a section that is given as an array. -/
def listed? : PathSetting → Json → Option Json
  | projectFolder, _ | main, _ => none
  | tsconfig, document =>
    (document.get? "compiler").bind (SettingsFile.Compiler.record.listed? "tsconfigFilePath")
  | reportFolder, document =>
    (document.get? "apiReport").bind (SettingsFile.ApiReport.record.listed? "reportFolder")
  | reportTempFolder, document =>
    (document.get? "apiReport").bind (SettingsFile.ApiReport.record.listed? "reportTempFolder")
  | model, document =>
    (document.get? "docModel").bind (SettingsFile.DocModel.record.listed? "apiJsonFilePath")
  | untrimmed, document =>
    (document.get? "dtsRollup").bind (SettingsFile.Rollup.record.listed? "untrimmedFilePath")
  | alphaTrimmed, document =>
    (document.get? "dtsRollup").bind (SettingsFile.Rollup.record.listed? "alphaTrimmedFilePath")
  | betaTrimmed, document =>
    (document.get? "dtsRollup").bind (SettingsFile.Rollup.record.listed? "betaTrimmedFilePath")
  | publicTrimmed, document =>
    (document.get? "dtsRollup").bind (SettingsFile.Rollup.record.listed? "publicTrimmedFilePath")
  | metadata, document =>
    (document.get? "tsdocMetadata").bind
      (SettingsFile.Metadata.record.listed? "tsdocMetadataFilePath")

theorem mem_all (p : PathSetting) : p ∈ all := by
  cases p <;> decide

/-- The keys are those that are read from a folder. -/
theorem map_keys_all : all.map keys = pathSettings :=
  rfl

theorem keys_mem (p : PathSetting) : p.keys ∈ pathSettings :=
  map_keys_all ▸ List.mem_map_of_mem p.mem_all

theorem valueOf?_of_document {σ : Type} (r : Record σ) (name : String) {document : Json}
    (h : document.isObject = true) : r.valueOf? name document = document.at? [name] := by
  obtain ⟨members, rfl⟩ := Json.exists_members h
  exact (Json.at?_singleton_object name members).symm

/-- A field of a section stands in the document by its name or by its place. -/
theorem bind_valueOf?_iff {σ τ : Type} (r : Record σ) (q : Record τ) (key name : String)
    {document w : Json} (h : document.isObject = true) :
    (r.valueOf? key document).bind (q.valueOf? name) = some w ↔
      document.at? [key, name] = some w ∨ (document.get? key).bind (q.listed? name) = some w := by
  obtain ⟨members, rfl⟩ := Json.exists_members h
  have hat : ∀ v : Json, v.at? [name] = v.get? name := fun v => by
    rw [Json.at?]
    cases v.get? name <;> rfl
  show (Json.find? key members).bind _ = _ ↔ (Json.find? key members).bind _ = _ ∨
    (Json.find? key members).bind _ = _
  cases Json.find? key members with
  | none => simp only [Option.bind_none, reduceCtorEq, or_self]
  | some v =>
    rw [Option.bind_some, Option.bind_some, Option.bind_some, hat]
    exact Record.valueOf?_eq_some_iff

section Reading

open SettingsFile

variable {document : Json} (hd : Json.IsDocument document) {file : SettingsFile}
  (h : SettingsFile.codec.read document = .ok file) (s : String)

include hd h

theorem get_top_iff {name : String} {x : Json.Component SettingsFile (Option String)}
    (hx : SettingsFile.record.Reads name Json.Codec.string.optional x)
    (hblank : x.get SettingsFile.record.blank = none) :
    x.get file = some s ↔
      document.at? [name] = some (.string s) ∨ (none : Option Json) = some (.string s) := by
  rw [hx.get_eq_some_iff hblank hd.distinct h, valueOf?_of_document _ _ hd.isObject]
  simp only [reduceCtorEq, or_false]

theorem get_section_iff {τ : Type} {q : Record τ} {key name : String}
    {x : Json.Component SettingsFile (Option τ)} {y : Json.Component τ (Option String)}
    (hx : SettingsFile.record.Reads key q.codec.optional x)
    (hblank : x.get SettingsFile.record.blank = none)
    (hy : q.Reads name Json.Codec.string.optional y) (hyblank : y.get q.blank = none) :
    (x.get file).bind y.get = some s ↔ document.at? [key, name] = some (.string s) ∨
      (document.get? key).bind (q.listed? name) = some (.string s) := by
  rw [hx.bind_get_eq_some_iff hblank hy hyblank hd.distinct h, bind_valueOf?_iff _ _ _ _
    hd.isObject]

/-- A typed file has a path exactly if the document holds it in the setting's place, by name or by
position. -/
theorem get?_eq_some_iff (p : PathSetting) :
    p.get? file = some s ↔
      document.at? p.keys = some (.string s) ∨ p.listed? document = some (.string s) := by
  cases p with
  | projectFolder => exact get_top_iff hd h s reads_folder rfl
  | main => exact get_top_iff hd h s reads_main rfl
  | tsconfig => exact get_section_iff hd h s reads_compilerPart rfl Compiler.reads_tsconfig rfl
  | reportFolder => exact get_section_iff hd h s reads_reportPart rfl ApiReport.reads_folder rfl
  | reportTempFolder =>
    exact get_section_iff hd h s reads_reportPart rfl ApiReport.reads_tempFolder rfl
  | model => exact get_section_iff hd h s reads_modelPart rfl DocModel.reads_file rfl
  | untrimmed => exact get_section_iff hd h s reads_rollupPart rfl Rollup.reads_untrimmed rfl
  | alphaTrimmed => exact get_section_iff hd h s reads_rollupPart rfl Rollup.reads_alphaTrimmed rfl
  | betaTrimmed => exact get_section_iff hd h s reads_rollupPart rfl Rollup.reads_betaTrimmed rfl
  | publicTrimmed =>
    exact get_section_iff hd h s reads_rollupPart rfl Rollup.reads_publicTrimmed rfl
  | metadata => exact get_section_iff hd h s reads_metadataPart rfl Metadata.reads_file rfl

end Reading

end PathSetting

/-! ## Further entry points -/

/-- The further entry points that a document holds. -/
def entriesOf (document : Json) : List Json :=
  ((document.get? "additionalEntryPoints").bind Json.items?).getD []

/-- The path of an entry point that stands in it by position, if it is given as an array. -/
def listedFile? (entry : Json) : Option String :=
  (SettingsFile.EntryPoint.record.listed? "filePath" entry).bind Json.text?

theorem entriesOf_eq {document : Json} {v : Json} (hv : v ∈ entriesOf document) :
    document.at? ["additionalEntryPoints"] = some (.array (entriesOf document)) := by
  rw [entriesOf] at hv ⊢
  rw [Json.at?]
  cases hg : document.get? "additionalEntryPoints" with
  | none =>
    rw [hg] at hv
    cases hv
  | some w =>
    rw [hg] at hv
    cases w with
    | array items => rfl
    | _ => cases hv

theorem distinct_of_mem_entriesOf {document : Json} (hd : Json.IsDocument document) {v : Json}
    (hv : v ∈ entriesOf document) : Distinct v := by
  have he := entriesOf_eq hv
  obtain ⟨members, rfl⟩ := Json.exists_members hd.isObject
  rw [Json.at?_singleton_object] at he
  exact Json.DistinctItems.mem (Json.DistinctMembers.find? hd.distinct he) hv

theorem forall₂_of_readItems {α : Type} {read : Json → Except Json.Misfit α} {items : List Json}
    {as : List α} (h : Json.Codec.readItems read items = .ok as) :
    List.Forall₂ (fun v a => read v = .ok a) items as := by
  induction items generalizing as with
  | nil =>
    cases h
    exact .nil
  | cons v items ih =>
    obtain ⟨a, ha, h⟩ := bind_eq_ok h
    obtain ⟨rest, hrest, h⟩ := bind_eq_ok h
    cases h
    exact .cons ha (ih hrest)

theorem exists_mem_of_forall₂ {α β : Type} {r : α → β → Prop} {as : List α} {bs : List β}
    (h : List.Forall₂ r as bs) {a : α} (ha : a ∈ as) : ∃ b ∈ bs, r a b := by
  induction h with
  | nil => cases ha
  | cons hr _ ih =>
    rcases List.mem_cons.mp ha with rfl | ha
    · exact ⟨_, List.mem_cons_self, hr⟩
    · obtain ⟨b, hb, hr⟩ := ih ha
      exact ⟨b, List.mem_cons_of_mem _ hb, hr⟩

/-- The entry points of a typed file are those of its document, one by one. -/
theorem forall₂_entryPoints {document : Json} (hd : Json.IsDocument document)
    {file : SettingsFile} (h : SettingsFile.codec.read document = .ok file) :
    List.Forall₂ (fun v e => SettingsFile.EntryPoint.record.read v = .ok e) (entriesOf document)
      file.additionalEntryPoints := by
  obtain ⟨members, rfl⟩ := Json.exists_members hd.isObject
  have hread := SettingsFile.reads_entryPoints.get_read hd.distinct h
  show List.Forall₂ _ (((Json.find? "additionalEntryPoints" members).bind _).getD []) _
  rw [show SettingsFile.record.valueOf? "additionalEntryPoints" (.object members) =
    Json.find? "additionalEntryPoints" members from rfl] at hread
  split at hread
  · rename_i w hw
    rw [hw]
    cases w with
    | array items => exact forall₂_of_readItems hread
    | _ => cases hread
  · rename_i hnone
    rw [hnone, show file.additionalEntryPoints = [] from hread]
    exact .nil

/-- The path of an entry point stands under its key or by position, or it is left out. -/
theorem filePath_cases {v : Json} (hd : Distinct v) {e : SettingsFile.EntryPoint}
    (h : SettingsFile.EntryPoint.record.read v = .ok e) :
    v.get? "filePath" = some (.string e.filePath) ∨ listedFile? v = some e.filePath ∨
      e.filePath = "" := by
  have hread := SettingsFile.EntryPoint.reads_file.get_read hd h
  split at hread
  · rename_i w hw
    obtain rfl : w = .string e.filePath := by
      cases w with
      | string s => exact congrArg Json.string (Except.ok.inj hread)
      | _ => cases hread
    rcases Record.valueOf?_eq_some_iff.mp hw with hw | hw
    · cases v with
      | object members => exact .inl hw
      | _ => cases hw
    · right
      left
      rw [listedFile?, hw]
      rfl
  · exact .inr (.inr hread)

/-- An entry point whose path under its key is anchored has an anchored path or one by position. -/
theorem isAnchored_or_listedFile? {v : Json} (hd : Distinct v) (ha : AnchoredEntryPoint v)
    {e : SettingsFile.EntryPoint} (h : SettingsFile.EntryPoint.record.read v = .ok e) :
    isAnchored e.filePath = true ∨ listedFile? v = some e.filePath := by
  rcases filePath_cases hd h with hw | hlisted | hempty
  · cases v with
    | object members => exact .inl (ha members _ rfl hw _ rfl)
    | _ => cases hw
  · exact .inr hlisted
  · left
    rw [hempty]
    rfl

theorem filePath_eq_of_listedFile? {v : Json} (hd : Distinct v) {e : SettingsFile.EntryPoint}
    (h : SettingsFile.EntryPoint.record.read v = .ok e) {s : String}
    (hs : listedFile? v = some s) : e.filePath = s := by
  obtain ⟨w, hw, hs⟩ := Option.bind_eq_some_iff.mp hs
  have hread := SettingsFile.EntryPoint.reads_file.get_read hd h
  rw [Record.valueOf?_eq_some_iff.mpr (.inr hw)] at hread
  cases w with
  | string text =>
    cases hs
    exact (Except.ok.inj hread).symm
  | _ => cases hread

/-! ## The paths of a loaded document -/

theorem exists_read_of_violations {document : Json} (h : SettingsFile.violations document = []) :
    ∃ file, SettingsFile.codec.read document = .ok file := by
  rw [SettingsFile.violations] at h
  split at h
  · cases h
  · split at h
    · rename_i file hfile
      exact ⟨file, hfile⟩
    · cases h

/-- The paths of a typed file. -/
def pathsOf (file : SettingsFile) : List String :=
  PathSetting.all.filterMap (·.get? file) ++ file.additionalEntryPoints.map (·.filePath)

/-- The paths that a document holds by position. -/
def listedPaths (document : Json) : List String :=
  PathSetting.all.filterMap (fun p => (p.listed? document).bind Json.text?) ++
    (entriesOf document).filterMap listedFile?

theorem listedPath_mem_pathsOf {document : Json} (hd : Json.IsDocument document)
    {file : SettingsFile} (h : SettingsFile.codec.read document = .ok file) {s : String}
    (hs : s ∈ listedPaths document) : s ∈ pathsOf file := by
  rcases List.mem_append.mp hs with hs | hs
  · obtain ⟨p, hp, hs⟩ := List.mem_filterMap.mp hs
    obtain ⟨w, hw, hs⟩ := Option.bind_eq_some_iff.mp hs
    cases w with
    | string text =>
      cases hs
      exact List.mem_append_left _
        (List.mem_filterMap.mpr ⟨p, hp, (p.get?_eq_some_iff hd h s).mpr (.inr hw)⟩)
    | _ => cases hs
  · obtain ⟨v, hv, hs⟩ := List.mem_filterMap.mp hs
    obtain ⟨e, he, hread⟩ := exists_mem_of_forall₂ (forall₂_entryPoints hd h) hv
    refine List.mem_append_right _ (List.mem_map.mpr ⟨e, he, ?_⟩)
    exact filePath_eq_of_listedFile? (distinct_of_mem_entriesOf hd hv) hread hs

/-- Each path of an anchored document is anchored, or the document holds it by position. -/
theorem AnchoredDocument.isAnchored_or_mem_listedPaths {document : Json}
    (ha : AnchoredDocument document) (hd : Json.IsDocument document) {file : SettingsFile}
    (h : SettingsFile.codec.read document = .ok file) {s : String} (hs : s ∈ pathsOf file) :
    isAnchored s = true ∨ s ∈ listedPaths document := by
  rcases List.mem_append.mp hs with hs | hs
  · obtain ⟨p, hp, hs⟩ := List.mem_filterMap.mp hs
    rcases (p.get?_eq_some_iff hd h s).mp hs with hs | hs
    · exact .inl (ha.settings p.keys p.keys_mem _ hs s rfl)
    · exact .inr (List.mem_append_left _ (List.mem_filterMap.mpr ⟨p, hp, by rw [hs]; rfl⟩))
  · obtain ⟨e, he, rfl⟩ := List.mem_map.mp hs
    obtain ⟨v, hv, hread⟩ := exists_mem_of_forall₂ (forall₂_entryPoints hd h).flip he
    refine (isAnchored_or_listedFile? (distinct_of_mem_entriesOf hd hv)
      (ha.entryPoints _ (entriesOf_eq hv) v hv) hread).imp_right fun hl => ?_
    exact List.mem_append_right _ (List.mem_filterMap.mpr ⟨v, hv, hl⟩)

/-- A loaded document is a settings file. Its paths are absent, empty, absolute, below the project
folder or to be looked up exactly if those are that it holds by position, in a section or an entry
point that is given as an array. -/
theorem load_anchored_iff {t : FileTree} {path : Path} {document : Json}
    (h : load t path = .ok document) :
    ∃ file, SettingsFile.codec.read document = .ok file ∧
      ((∀ s ∈ pathsOf file, isAnchored s = true) ↔
        ∀ s ∈ listedPaths document, isAnchored s = true) := by
  obtain ⟨hdocument, -, hvalid⟩ := valid_load h
  obtain ⟨file, hfile⟩ := exists_read_of_violations hvalid
  refine ⟨file, hfile, fun hall s hs => hall s (listedPath_mem_pathsOf hdocument hfile hs), ?_⟩
  intro hlisted s hs
  exact ((anchored_load h).isAnchored_or_mem_listedPaths hdocument hfile hs).elim id (hlisted s)

/-- A file whose section on the compiler is an array, with a path from the root. -/
def listedTree : FileTree :=
  FileTree.empty.withFile ["p".toList, "a.json".toList]
    (.text ("\x7b\"compiler\":[\"/p/c.json\"],\"apiReport\":null,\"docModel\":null," ++
      "\"dtsRollup\":null,\"tsdocMetadata\":null,\"messages\":[]\x7d"))

/-- What `listedTree` loads to. -/
def listedDocument : Json :=
  .object
    [("projectFolder", .string "<lookup>"), ("additionalEntryPoints", .array []),
      ("bundledPackages", .array []), ("compiler", .array [.string "/p/c.json"]),
      ("apiReport", .null), ("docModel", .null), ("dtsRollup", .null), ("tsdocMetadata", .null),
      ("newlineKind", .string "crlf"), ("testMode", .boolean false),
      ("enumMemberOrder", .string "by-name"), ("messages", .array [])]

/-- The paths of `listedTree`, one of which is held by position. -/
theorem load_anchored_listedTree :
    load listedTree ⟨"/p/a.json"⟩ = .ok listedDocument ∧
      ∃ file, SettingsFile.codec.read listedDocument = .ok file ∧
        ∀ s ∈ pathsOf file, isAnchored s = true := by
  have hload : load listedTree ⟨"/p/a.json"⟩ = .ok listedDocument :=
    eq_ok_of_toOption (by decide +kernel)
  obtain ⟨file, hfile, hiff⟩ := load_anchored_iff hload
  exact ⟨hload, file, hfile, hiff.mpr (by decide +kernel)⟩

/-- A file whose section on the compiler is an array, with a relative path. -/
def looseTree : FileTree :=
  FileTree.empty.withFile ["p".toList, "a.json".toList]
    (.text "\x7b\"compiler\":[\"tsconfig.json\"]\x7d")

/-- A loaded document may keep a relative path whose folder is forgotten. -/
theorem not_anchored_looseTree :
    ¬ ∀ (t : FileTree) (path : Path) (document : Json) (file : SettingsFile),
        load t path = .ok document → SettingsFile.codec.read document = .ok file →
          ∀ s ∈ pathsOf file, isAnchored s = true := by
  intro hall
  have hrun : (load looseTree ⟨"/p/a.json"⟩).toOption.map (fun document =>
      (SettingsFile.codec.read document).toOption.map PathSetting.tsconfig.get?) =
        some (some (some "tsconfig.json")) := by decide +kernel
  obtain ⟨document, hload, hrun⟩ := exists_ok_of_map hrun
  obtain ⟨file, hfile, hget⟩ := exists_ok_of_map hrun
  have hmem : "tsconfig.json" ∈ pathsOf file :=
    List.mem_append_left _ (List.mem_filterMap.mpr ⟨.tsconfig, PathSetting.mem_all _, hget⟩)
  exact absurd (hall _ _ document file hload hfile _ hmem) (by decide)

end ApiReview.Settings
