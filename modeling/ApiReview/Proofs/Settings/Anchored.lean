import ApiReview.Proofs.Json.Keys
import ApiReview.Proofs.Settings.Spelling

/-!
# Documents that mean the same in every folder

A document is anchored if every path setting in it means the same wherever it lies
(`AnchoredDocument`). What loading comes to is anchored (`anchored_load`) and extends nothing
(`extends_load`), so that it loads again as itself, in whatever folder it is written (`load_again`).
-/

namespace ApiReview.Settings

open Json (Members find? takeOut change FirstAt)

/-! ## Anchored paths -/

/-- A path that was read from a folder means the same wherever its document lies. -/
theorem isAnchored_anchorPath {folder : Path} (hf : folder.isAbsolute = true) (s : String) :
    isAnchored (anchorPath folder s) = true := by
  rw [anchorPath]
  split
  · assumption
  · rw [isAnchored, (Path.isPlain_resolve hf).absolute]
    simp only [Bool.or_true, Bool.true_or]

/-- A value that is anchored if it is a text. -/
def AnchoredValue (v : Json) : Prop :=
  ∀ s, v = .string s → isAnchored s = true

theorem AnchoredValue.anchorValue_eq {v : Json} (h : AnchoredValue v) (folder : Path) :
    anchorValue folder v = v := by
  cases v with
  | string s => rw [anchorValue, anchorPath, if_pos (h s rfl)]
  | _ => rfl

theorem anchoredValue_anchorValue {folder : Path} (hf : folder.isAbsolute = true) (v : Json) :
    AnchoredValue (anchorValue folder v) := by
  intro s hs
  cases v with
  | string raw => exact Json.string.inj hs ▸ isAnchored_anchorPath hf raw
  | _ => cases hs

/-- An entry point whose path is anchored, if it has one under its key. -/
def AnchoredEntryPoint (v : Json) : Prop :=
  ∀ members w, v = .object members → find? "filePath" members = some w → AnchoredValue w

/-- Every path setting of a document means the same wherever the document lies. -/
structure AnchoredDocument (document : Json) : Prop where
  settings : ∀ p ∈ pathSettings, ∀ v, document.at? p = some v → AnchoredValue v
  entryPoints : ∀ entries, document.at? ["additionalEntryPoints"] = some (.array entries) →
    ∀ entry ∈ entries, AnchoredEntryPoint entry

/-! ## What is anchored stays as it is -/

theorem change_eq_self {key : String} {f : Json → Json} {members : Members}
    (h : ∀ v, find? key members = some v → f v = v) : change key f members = members := by
  induction members with
  | nil => rfl
  | cons m rest ih =>
    obtain ⟨k, v⟩ := m
    rw [change]
    split
    · rename_i e
      rw [h v (by rw [find?, if_pos e])]
    · rename_i e
      rw [ih fun w hw => h w (by rw [find?, if_neg e, hw])]

theorem changeAt_eq_self {f : Json → Json} {p : List String} {members : Members}
    (h : ∀ v, (Json.object members).at? p = some v → f v = v) : changeAt f p members = members := by
  induction p generalizing members with
  | nil => rfl
  | cons key p ih =>
    cases p with
    | nil =>
      rw [changeAt]
      exact change_eq_self fun v hv => h v (by rw [Json.at?_singleton_object, hv])
    | cons next p =>
      rw [changeAt]
      refine change_eq_self fun v hv => ?_
      cases v with
      | object inner =>
        exact congrArg Json.object (ih fun w hw => h w (by
          rw [Json.at?_cons_object, hv]
          exact hw))
      | _ => rfl

theorem foldl_changeAt_eq_self {f : Json → Json} {members : Members} :
    ∀ (paths : List (List String)),
      (∀ p ∈ paths, ∀ v, (Json.object members).at? p = some v → f v = v) →
      paths.foldl (fun ms p => changeAt f p ms) members = members
  | [], _ => rfl
  | p :: paths, h => by
    rw [List.foldl_cons, changeAt_eq_self (h p List.mem_cons_self)]
    exact foldl_changeAt_eq_self paths fun q hq => h q (List.mem_cons_of_mem _ hq)

theorem AnchoredEntryPoint.anchorEntryPoint_eq {v : Json} (h : AnchoredEntryPoint v)
    (folder : Path) : anchorEntryPoint folder v = v := by
  cases v with
  | object members =>
    exact congrArg Json.object
      (change_eq_self fun w hw => (h members w rfl hw).anchorValue_eq folder)
  | _ => rfl

/-- Reading an anchored document's paths from a folder leaves it as it is. -/
theorem AnchoredDocument.anchorPaths_eq {members : Members}
    (h : AnchoredDocument (.object members)) (folder : Path) :
    anchorPaths folder members = members := by
  rw [anchorPaths, foldl_changeAt_eq_self pathSettings fun p hp v hv =>
    (h.settings p hp v hv).anchorValue_eq folder]
  refine change_eq_self fun v hv => ?_
  cases v with
  | array entries =>
    have hall := h.entryPoints entries (by rw [Json.at?_singleton_object, hv])
    have hmap := List.map_congr_left (g := id)
      fun entry he => (hall entry he).anchorEntryPoint_eq folder
    exact congrArg Json.array (hmap.trans (List.map_id entries))
  | _ => rfl

/-! ## What loading comes to -/

theorem isAbsolute_of_extended? {t : FileTree} {path next : Path} {members : Members}
    (hf : (folderOf path).isAbsolute = true) (h : extended? t path members = .ok (some next)) :
    next.isAbsolute = true := by
  obtain ⟨name, -, rfl | ⟨ha, rfl⟩ | ⟨-, -, folder, hfolder, hnext⟩⟩ := extended?_eq_some h
  · exact (Path.isPlain_resolve hf).absolute
  · exact Path.isAbsolute_normalize ha
  · have hmodules := Path.isAbsolute_join (p := ⟨"node_modules"⟩)
      (Path.steps_ancestors hf hfolder).1
    rcases List.mem_cons.mp hnext with rfl | hnext
    · exact Path.isAbsolute_join hmodules
    · rw [List.mem_singleton.mp hnext]
      exact Path.isAbsolute_join hmodules

theorem isAbsolute_folderOf {t : FileTree} {path : Path} {members : Members}
    (hp : path.isAbsolute = true) (h : readDocument t path = .ok members) :
    (folderOf path).isAbsolute = true := by
  obtain ⟨q, rest, hq⟩ := List.exists_cons_of_ne_nil (parents_ne_nil_of_readDocument hp h)
  have hmem : q ∈ path.parents := hq ▸ List.mem_cons_self
  rw [folderOf, Path.parent?, hq]
  exact (Path.steps_parents hp hmem).1

/-- Each document of a chain from the root lies in a folder from the root. -/
theorem Chain.isAbsolute_folderOf {t : FileTree} {path : Path} {chain : List (Path × Members)}
    (h : Chain t path chain) (hp : path.isAbsolute = true) :
    ∀ e ∈ chain, (folderOf e.1).isAbsolute = true := by
  induction h with
  | last read ends =>
    intro e he
    rw [List.mem_singleton.mp he]
    exact Settings.isAbsolute_folderOf hp read
  | link read refers rest ih =>
    have hfolder := Settings.isAbsolute_folderOf hp read
    intro e he
    rcases List.mem_cons.mp he with rfl | he
    · exact hfolder
    · exact ih (isAbsolute_of_extended? hfolder refers) e he

theorem anchored_defaults : AnchoredDocument defaults := by
  have hsettings : ∀ p ∈ pathSettings,
      ((defaults.at? p).bind Json.text?).all isAnchored = true := by decide +kernel
  refine ⟨fun p hp v hv s hs => ?_, fun entries he entry hm => ?_⟩
  · have h := hsettings p hp
    rw [hv, hs] at h
    exact h
  · have h : defaults.at? ["additionalEntryPoints"] = some (.array []) := rfl
    rw [h] at he
    cases he
    cases hm

theorem anchored_ownDocument {path : Path} (hf : (folderOf path).isAbsolute = true)
    {members : Members} (hd : Json.DistinctMembers members) :
    AnchoredDocument (ownDocument path members) := by
  refine ⟨fun p hp v hv => ?_, fun entries he entry hm => ?_⟩
  · rw [at?_ownDocument_of_pathSetting path hd hp] at hv
    obtain ⟨w, -, rfl⟩ := Option.map_eq_some_iff.mp hv
    exact anchoredValue_anchorValue hf w
  · rw [at?_ownDocument_entryPoints path hd] at he
    obtain ⟨w, -, hw⟩ := Option.map_eq_some_iff.mp he
    cases w with
    | array raw =>
      cases hw
      obtain ⟨rawEntry, -, rfl⟩ := List.mem_map.mp hm
      intro members w hobject hfind
      cases rawEntry with
      | object rawMembers =>
        cases hobject
        rw [Json.find?_change_self] at hfind
        obtain ⟨u, -, rfl⟩ := Option.map_eq_some_iff.mp hfind
        exact anchoredValue_anchorValue hf u
      | _ => cases hobject
    | _ => cases hw

/-- A document that lies in a chain from the root, or under it, is anchored. -/
theorem Chain.anchored {t : FileTree} {path : Path} {chain : List (Path × Members)}
    (h : Chain t path chain) (hp : path.isAbsolute = true) :
    ∀ d ∈ layers chain ++ [defaults], AnchoredDocument d := by
  intro d hd
  rcases List.mem_append.mp hd with hd | hd
  · obtain ⟨e, he, rfl⟩ := List.mem_map.mp hd
    exact anchored_ownDocument (h.isAbsolute_folderOf hp e he) (h.distinct e he)
  · rw [List.mem_singleton.mp hd]
    exact anchored_defaults

/-- A value other than an object that a stack holds is held by one of its documents. -/
theorem exists_at?_eq_of_stack {docs : List Json} (h : ∀ d ∈ docs, Json.IsDocument d)
    {p : List String} (hp : p ≠ []) {v : Json} (ho : v.isObject = false)
    (hv : (Json.stack docs).at? p = some v) : ∃ d ∈ docs, d.at? p = some v := by
  obtain ⟨i, hi, -⟩ := (Json.at?_stack_iff h hp ho).mp hv
  obtain ⟨d, hd, hdv⟩ := hi.holds
  exact ⟨d, List.mem_of_getElem? hd, hdv⟩

/-- A loaded document is anchored. -/
theorem anchored_load {t : FileTree} {path : Path} {document : Json}
    (h : load t path = .ok document) : AnchoredDocument document := by
  obtain ⟨chain, hc, rfl⟩ := eq_stack_of_load h
  have hanchored := hc.anchored (t.isPlain_absolute path).absolute
  refine ⟨fun p hp v hv s hs => ?_, fun entries he => ?_⟩
  · obtain ⟨key, q, rfl, -⟩ := pathSettings_head p hp
    subst hs
    obtain ⟨d, hd, hdv⟩ := exists_at?_eq_of_stack hc.isDocument (List.cons_ne_nil _ _) rfl hv
    exact (hanchored d hd).settings _ hp _ hdv s rfl
  · obtain ⟨d, hd, hde⟩ := exists_at?_eq_of_stack hc.isDocument (List.cons_ne_nil _ _) rfl he
    exact (hanchored d hd).entryPoints entries hde

/-! ## Loading again -/

theorem find?_takeOut_self (key : String) {members : Members} (h : Json.DistinctMembers members) :
    find? key (takeOut key members) = none := by
  induction members with
  | nil => rfl
  | cons m rest ih =>
    obtain ⟨k, v⟩ := m
    by_cases e : k = key
    · subst e
      rw [(Json.takeOut_cons_self k v h.2.2).2, h.1]
    · rw [takeOut, if_neg e, find?, if_neg e, ih h.2.2]

theorem takeOut_of_find?_eq_none {key : String} {members : Members}
    (h : find? key members = none) : takeOut key members = members := by
  induction members with
  | nil => rfl
  | cons m rest ih =>
    rw [find?] at h
    split at h
    · cases h
    · rename_i e
      rw [takeOut, if_neg e, ih h]

/-- The own document of a file refers to nothing. -/
theorem extends_ownDocument (path : Path) {members : Members} (h : Json.DistinctMembers members) :
    (ownDocument path members).at? ["extends"] = none := by
  have hapart : ∀ q ∈ pathSettings, Apart q ["extends"] := by
    unfold Apart
    decide
  have hfold := at?_foldl_changeAt_of_apart (anchorValue (folderOf path)) hapart
    (takeOut "extends" members)
  rw [Json.at?_singleton_object, Json.at?_singleton_object, find?_takeOut_self "extends" h] at hfold
  rw [ownDocument, anchorPaths, Json.at?_singleton_object, Json.find?_change_of_ne (by decide),
    hfold]

/-- A loaded document extends nothing. -/
theorem extends_load {t : FileTree} {path : Path} {document : Json}
    (h : load t path = .ok document) : document.at? ["extends"] = none := by
  obtain ⟨chain, hc, rfl⟩ := eq_stack_of_load h
  refine Option.eq_none_iff_forall_ne_some.mpr fun v hv => ?_
  obtain ⟨d, hd, hne⟩ := Json.exists_at?_of_stack hc.isDocument (List.cons_ne_nil _ _) hv
  rcases List.mem_append.mp hd with hd | hd
  · obtain ⟨e, he, rfl⟩ := List.mem_map.mp hd
    exact hne (extends_ownDocument _ (hc.distinct e he))
  · rw [List.mem_singleton.mp hd] at hne
    exact hne rfl

/-- A loaded document is an object that lies over the built-in one and is a settings file. -/
theorem valid_load {t : FileTree} {path : Path} {document : Json}
    (h : load t path = .ok document) :
    Json.IsDocument document ∧ Json.overlay defaults document = document ∧
      SettingsFile.violations document = [] := by
  obtain ⟨chain, hc, rfl⟩ := eq_stack_of_load h
  have hlayers : ∀ d ∈ layers chain, Json.IsDocument d :=
    fun d hd => hc.isDocument d (List.mem_append_left _ hd)
  refine ⟨Json.isDocument_stack hc.isDocument, ?_, ?_⟩
  · rw [Json.stack_concat]
    exact Json.overlay_again (Json.isDocument_stack hlayers).distinct isDocument_defaults.distinct
  · rw [load, loadChecked] at h
    obtain ⟨merged, -, h⟩ := bind_eq_ok h
    obtain ⟨hv, h⟩ := guard_eq_ok h
    rw [← Except.ok.inj h]
    exact not_not.mp hv

/-- Loading a document that refers to nothing. -/
theorem load_of_last {t : FileTree} {path : Path} {members : Members}
    (read : readDocument t (t.absolute path) = .ok members)
    (ends : extended? t (t.absolute path) members = .ok none) {document : Json}
    (hd : Json.overlay defaults (ownDocument (t.absolute path) members) = document)
    (hv : SettingsFile.violations document = []) : load t path = .ok document := by
  have hroot : Reaches t path [] path := .root
  have hbound : 0 < chainBound := hroot.length_lt
  obtain ⟨bound, hbound⟩ := Nat.exists_eq_add_of_lt hbound
  have hchain : loadChain t chainBound [] (t.absolute path) (.object []) =
      .ok (ownDocument (t.absolute path) members) := by
    rw [hbound, loadChain_of_last rfl read ends]
    show Except.ok (Json.object (Json.overlayMembers _ [])) = _
    rw [Json.overlayMembers]
    rfl
  rw [load, loadChecked_of_chain hchain, hd, if_pos hv]

/-- A loaded document extends nothing and loads again as itself, the order of its keys included,
from every file that holds it, in whatever tree and folder. -/
theorem load_again {t : FileTree} {path : Path} {document : Json}
    (h : load t path = .ok document) :
    document.get? "extends" = none ∧
      ∀ (t' : FileTree) (path' : Path) (s : String), t'.readText (t'.absolute path') = .ok s →
        Json.parse s = .ok document → load t' path' = .ok document := by
  obtain ⟨hdocument, hover, hvalid⟩ := valid_load h
  obtain ⟨members, rfl⟩ := Json.exists_members hdocument.isObject
  have hnone : find? "extends" members = none := by
    rw [← Json.at?_singleton_object]
    exact extends_load h
  refine ⟨hnone, fun t' path' s hs hp => ?_⟩
  have read : readDocument t' (t'.absolute path') = .ok members := by
    rw [readDocument, hs]
    simp only [Except.mapError, bind, Except.bind, hp]
    rfl
  have ends : extended? t' (t'.absolute path') members = .ok none := by
    rw [extended?, hnone]
  refine load_of_last read ends ?_ hvalid
  rw [ownDocument, takeOut_of_find?_eq_none hnone, (anchored_load h).anchorPaths_eq, hover]

/-- A file that extends one of another folder, which has a path. Both leave sections out. -/
def sharedTree : FileTree :=
  (FileTree.empty.withFile ["p".toList, "config".toList, "a.json".toList]
      (.text ("\x7b\"extends\":\"../shared/b.json\",\"compiler\":null,\"apiReport\":null," ++
        "\"messages\":[]\x7d"))).withFile
    ["p".toList, "shared".toList, "b.json".toList]
    (.text ("\x7b\"projectFolder\":\"..\",\"docModel\":null,\"dtsRollup\":null," ++
      "\"tsdocMetadata\":null,\"newlineKind\":null,\"enumMemberOrder\":null\x7d"))

/-- What `sharedTree` loads to. -/
def sharedDocument : Json :=
  .object
    [("projectFolder", .string "/p"), ("additionalEntryPoints", .array []),
      ("bundledPackages", .array []), ("compiler", .null), ("apiReport", .null),
      ("docModel", .null), ("dtsRollup", .null), ("tsdocMetadata", .null),
      ("newlineKind", .null), ("testMode", .boolean false), ("enumMemberOrder", .null),
      ("messages", .array [])]

/-- A file elsewhere with the text of `sharedDocument`. -/
def elsewhereTree : FileTree :=
  FileTree.empty.withFile ["q".toList, "copy.json".toList]
    (.text ("\x7b\"projectFolder\":\"/p\",\"additionalEntryPoints\":[],\"bundledPackages\":[]," ++
      "\"compiler\":null,\"apiReport\":null,\"docModel\":null,\"dtsRollup\":null," ++
      "\"tsdocMetadata\":null,\"newlineKind\":null,\"testMode\":false," ++
      "\"enumMemberOrder\":null,\"messages\":[]\x7d"))

/-- The loaded document of `sharedTree`, written to a file elsewhere. -/
theorem load_again_elsewhere :
    load sharedTree ⟨"/p/config/a.json"⟩ = .ok sharedDocument ∧
      load elsewhereTree ⟨"/q/copy.json"⟩ = .ok sharedDocument := by
  have hload : load sharedTree ⟨"/p/config/a.json"⟩ = .ok sharedDocument :=
    eq_ok_of_toOption (by decide +kernel)
  obtain ⟨s, hread, hparse⟩ : ∃ s,
      elsewhereTree.readText (elsewhereTree.absolute ⟨"/q/copy.json"⟩) = .ok s ∧
        Json.parse s = .ok sharedDocument :=
    ⟨_, eq_ok_of_toOption rfl, eq_ok_of_toOption (by decide +kernel)⟩
  exact ⟨hload, (load_again hload).2 _ _ s hread hparse⟩

end ApiReview.Settings
