import ApiReview.Proofs.Settings.Discovery
import ApiReview.Proofs.Settings.Places
import ApiReview.Proofs.Settings.Reading

/-!
# Loading paths and giving them raw

The paths of a loaded document are read from the folder of its file. Where that is the project
folder, preparing the document comes to the same as preparing it with a path as the file has it, if
the path reads alike early and late (`toOption_prepare_put`). A path that is blank, but not empty,
does not: preparing leaves it out, and loading makes it the folder.
-/

namespace ApiReview.Settings

open Json (Members)
open Text

/-! ## Texts -/

section Texts

variable {values : PlaceholderValues} {s : String}

/-- What begins with a character that is not blank does so when it is trimmed. -/
theorem trimmed_of_head {c : Char} (hc : isBlank c = false) {tail : List Char}
    (h : s.toList = c :: tail) : ∃ rest, (trimmed s).toList = c :: rest := by
  obtain ⟨rest, hrest⟩ := exists_trim_eq_cons hc tail
  exact ⟨rest, by rw [trimmed, String.toList_ofList, h, hrest]⟩

theorem trimmed_of_isAbsolute {p : Path} (h : p.isAbsolute = true) :
    ∃ rest, (trimmed p.text).toList = '/' :: rest := by
  obtain ⟨tail, htail⟩ := Path.isAbsolute_iff.mp h
  exact trimmed_of_head (by decide) htail

/-- A path that is read from the project folder is prepared like the one that it was, if that reads
alike. -/
theorem alikePath_anchorPath (hf : values.projectFolder.isAbsolute = true)
    (h : values.ReadsAlike s) :
    AlikePath values (some (anchorPath values.projectFolder s)) (some s) := by
  refine ⟨fun field => (PlaceholderValues.readsAlike_iff field s).mp h, ?_⟩
  cases ha : isAnchored s with
  | true => rw [anchorPath, if_pos ha]
  | false =>
    obtain ⟨-, -, -, hlookup⟩ := not_isAnchored_iff.mp ha
    have habsolute : (values.projectFolder.resolve ⟨s⟩).isAbsolute = true :=
      (Path.isPlain_resolve hf).absolute
    rw [anchorPath, if_neg (Bool.eq_false_iff.mp ha)]
    refine iff_of_false (fun he => ?_) hlookup
    obtain ⟨rest, hrest⟩ := trimmed_of_isAbsolute habsolute
    rw [show trimmed (values.projectFolder.resolve ⟨s⟩).text = _ from he] at hrest
    exact absurd (List.cons_eq_cons.mp hrest).1 (by decide)

end Texts

/-! ## The first document of a chain -/

section First

variable {t : FileTree} {path : Path} {members : Members} {document : Json}

theorem Chain.exists_cons {chain : List (Path × Members)} (h : Chain t path chain)
    (read : readDocument t path = .ok members) : ∃ rest, chain = (path, members) :: rest := by
  cases h with
  | last read' ends =>
    cases read.symm.trans read'
    exact ⟨[], rfl⟩
  | link read' refers chain =>
    cases read.symm.trans read'
    exact ⟨_, rfl⟩

/-- What the file's own document holds is what the loaded document holds, unless it is an object. -/
theorem at?_load_of_own (hload : load t path = .ok document)
    (read : readDocument t (t.absolute path) = .ok members) {p : List String} (hp : p ≠ [])
    {v : Json} (ho : v.isObject = false)
    (h : (ownDocument (t.absolute path) members).at? p = some v) : document.at? p = some v := by
  obtain ⟨chain, hc, rfl⟩ := eq_stack_of_load hload
  refine (Json.at?_stack_iff hc.isDocument hp ho).mpr ?_
  obtain ⟨rest, rfl⟩ := hc.exists_cons read
  exact ⟨0, ⟨⟨_, rfl, h⟩, fun j hj => absurd hj (Nat.not_lt_zero j)⟩,
    fun q _ j hj => absurd hj (Nat.not_lt_zero j)⟩

theorem entriesOf_of_at? {entries : List Json}
    (h : document.at? ["additionalEntryPoints"] = some (.array entries)) :
    entriesOf document = entries := by
  cases document with
  | object members =>
    rw [Json.at?_singleton_object] at h
    show ((Json.find? "additionalEntryPoints" members).bind Json.items?).getD [] = entries
    rw [h]
    rfl
  | _ => cases h

/-- A path that the file has is read from its folder. -/
theorem PathPlace.at?_load (hload : load t path = .ok document)
    (read : readDocument t (t.absolute path) = .ok members) {place : PathPlace} {s : String}
    (hs : place.at? (.object members) = some (.string s)) :
    place.at? document = some (.string (anchorPath (folderOf (t.absolute path)) s)) := by
  have hd := distinct_readDocument read
  cases place with
  | setting p =>
    obtain ⟨key, rest, hkeys, -⟩ := pathSettings_head p.keys p.keys_mem
    refine at?_load_of_own hload read (by rw [hkeys]; exact List.cons_ne_nil _ _) rfl ?_
    rw [at?_ownDocument_of_pathSetting _ hd p.keys_mem]
    exact congrArg (Option.map _) hs
  | entryPoint i =>
    obtain ⟨entry, hentry, hs⟩ := Option.bind_eq_some_iff.mp hs
    have hentries : document.at? ["additionalEntryPoints"] =
        some (anchorEntryPoints (folderOf (t.absolute path))
          (.array (entriesOf (.object members)))) := by
      refine at?_load_of_own hload read (List.cons_ne_nil _ _) rfl ?_
      rw [at?_ownDocument_entryPoints _ hd, entriesOf_eq (List.mem_of_getElem? hentry)]
      rfl
    show (entriesOf document)[i]?.bind _ = _
    rw [entriesOf_of_at? hentries, List.getElem?_map, hentry]
    cases entry with
    | object inner =>
      show Json.find? "filePath" (Json.change "filePath" _ inner) = _
      rw [Json.find?_change_self]
      exact congrArg (Option.map _) hs
    | _ => cases hs

end First

/-! ## Preparing -/

/-- The file that was loaded lies in the project folder, if there is one. -/
def LiesInProject (t : FileTree) (path : Path) (input : PrepareInput) : Prop :=
  ∀ file folder, SettingsFile.codec.read input.document = .ok file →
    prepareProjectFolder t input file = .ok folder → folder = folderOf (t.absolute path)

/-- What is a settings file that extends nothing is refused for the path of the document alone. -/
theorem prepareFile_eq (input : PrepareInput) {file : SettingsFile}
    (hextends : input.document.get? "extends" = none) (hobject : input.document.isObject = true)
    (h : SettingsFile.codec.read input.document = .ok file) :
    prepareFile input =
      if (input.documentPath.map Path.isAbsolute) = some false then
        .error (.unprepared input.shownFile .documentPathNotAbsolute)
      else .ok file := by
  have hvalid : SettingsFile.violations input.document = [] := by
    rw [SettingsFile.violations, hobject, h]
    rfl
  have hread : (SettingsFile.codec.read input.document).mapError (fun misfit =>
      SettingsError.schema .parsing input.shownFile [misfit.message]) = .ok file :=
    mapError_of_ok h
  have hnone : ¬ ((none : Option Json).getD .null) ≠ .null := not_not_intro rfl
  rw [prepareFile, hextends]
  refine guard_of_not hnone ?_
  by_cases hpath : (input.documentPath.map Path.isAbsolute) = some false
  · exact Eq.trans (if_pos hpath) (if_pos hpath).symm
  · refine Eq.trans ?_ (if_neg hpath).symm
    exact guard_of_not hpath (guard_of_not (not_not_intro hvalid) hread)

theorem prepare_of_error {t : FileTree} {input : PrepareInput} {e : SettingsError}
    (h : prepareFile input = .error e) : prepare t input = .error e := by
  rw [prepare, h]
  rfl

/-- The folder of a document that is read is a path of names. -/
theorem exists_folderOf_eq {t : FileTree} {path : Path} {members : Members}
    (read : readDocument t (t.absolute path) = .ok members) :
    ∃ names, Path.AllNames names ∧ folderOf (t.absolute path) = Path.fromRoot names := by
  have hparents := parents_ne_nil_of_readDocument (t.isPlain_absolute path).absolute read
  obtain ⟨all, hall, habsolute⟩ := t.isNormal_absolute path
  rw [habsolute] at hparents ⊢
  rcases List.eq_nil_or_concat all with rfl | ⟨names, s, rfl⟩
  · exact absurd Path.parents_fromRoot_nil hparents
  · rw [List.concat_eq_append] at hall ⊢
    obtain ⟨hnames, hs⟩ := hall.of_concat
    refine ⟨names, hnames, ?_⟩
    rw [folderOf, Path.parent?_fromRoot_concat hnames hs]
    rfl

section Loaded

variable {t : FileTree} {path : Path} {members : Members} {document : Json}
  (read : readDocument t (t.absolute path) = .ok members) (hload : load t path = .ok document)
  {place : PathPlace} {s : String} (hs : place.at? (.object members) = some (.string s))
  (input : PrepareInput)

include read hload hs

/-- Preparing a loaded document and preparing it with a path as the file has it come to the same, if
the path reads alike. -/
theorem toOption_prepare_put_of_readsAlike (hplace : place ≠ .setting .projectFolder)
    (hfolder : LiesInProject t path { input with document })
    (h : ∀ manifest, prepareManifest t input = .ok manifest →
      (valuesOf (folderOf (t.absolute path)) manifest).ReadsAlike s) :
    (prepare t { input with document }).toOption =
      (prepare t { input with document := place.put s document }).toOption := by
  obtain ⟨hdocument, -, hvalid⟩ := valid_load hload
  obtain ⟨file, hfile⟩ := exists_read_of_violations hvalid
  have hat := PathPlace.at?_load hload read hs
  have hextends : document.get? "extends" = none := by
    obtain ⟨ms, rfl⟩ := Json.exists_members hdocument.isObject
    rw [← extends_load hload, Json.at?_singleton_object]
    rfl
  have hraw := PathPlace.read_put hdocument hfile hat s
  -- The file has in the place what loading made of the path.
  have hown : place.set (anchorPath (folderOf (t.absolute path)) s) file = file := by
    have hsame := PathPlace.read_put hdocument hfile hat (anchorPath (folderOf (t.absolute path)) s)
    rw [PathPlace.put_self hdocument hat, hfile] at hsame
    exact (Except.ok.inj hsame).symm
  have hloaded := prepareFile_eq { input with document } hextends hdocument.isObject hfile
  have hput := prepareFile_eq { input with document := place.put s document }
    ((PathPlace.extends_put document place s).trans hextends)
    (PathPlace.isObject_put hdocument.isObject place s) hraw
  by_cases hpath : (input.documentPath.map Path.isAbsolute) = some false
  · rw [prepare_of_error (hloaded.trans (if_pos hpath)),
      prepare_of_error (hput.trans (if_pos hpath))]
    rfl
  · refine toOption_prepare_congr (hloaded.trans (if_neg hpath)) (hput.trans (if_neg hpath))
      (PathPlace.projectFolder_set hplace s file) fun manifest folder hmanifest hproject => ?_
    obtain rfl := hfolder file folder hfile hproject
    have habsolute : (valuesOf (folderOf (t.absolute path)) manifest).projectFolder.isAbsolute =
        true := by
      rw [valuesOf_projectFolder]
      exact isAbsolute_folderOf (t.isPlain_absolute path).absolute read
    have halike := alikePath_anchorPath habsolute (h manifest hmanifest)
    rw [valuesOf_projectFolder] at halike
    have hfiles := PathPlace.alikeFiles_set halike hplace file
    rwa [hown] at hfiles

/-- The file of a loaded document lies in the project folder. The path that it has in a place is
prepared like the one that the document has there exactly if it reads alike, which anchored and
plain paths do. If so, preparing the document and preparing it with the path as the file has it come
to the same settings, or fail both. -/
theorem toOption_prepare_put (hplace : place ≠ .setting .projectFolder)
    (hfolder : LiesInProject t path { input with document }) :
    ∃ loaded, place.at? document = some (.string loaded) ∧
      (∀ values : PlaceholderValues, values.projectFolder = folderOf (t.absolute path) →
        (∀ field, values.ReadsAlike s ↔
          (preparePath values field (some loaded)).toOption =
            (preparePath values field (some s)).toOption) ∧
        (isAnchored s = true ∨ values.ReadsPlainly s → values.ReadsAlike s)) ∧
      ((∀ manifest, prepareManifest t input = .ok manifest →
          (valuesOf (folderOf (t.absolute path)) manifest).ReadsAlike s) →
        (prepare t { input with document }).toOption =
          (prepare t { input with document := place.put s document }).toOption) := by
  refine ⟨_, PathPlace.at?_load hload read hs, fun values hvalues => ⟨fun field => ?_, ?_⟩,
    toOption_prepare_put_of_readsAlike read hload hs input hplace hfolder⟩
  · rw [← hvalues]
    exact PlaceholderValues.readsAlike_iff field s
  · intro h
    cases ha : isAnchored s with
    | true => exact PlaceholderValues.readsAlike_of_isAnchored ha
    | false =>
      obtain ⟨names, hnames, hbeside⟩ := exists_folderOf_eq read
      have hplain := h.resolve_left (by rw [ha]; exact Bool.false_ne_true)
      exact hplain.readsAlike hnames (hvalues.trans hbeside) ha

end Loaded

/-- A project with its settings beside its sources. The path of one roll-up is blank. -/
def besideTree : FileTree :=
  ((FileTree.empty.withFile ["p".toList, "a.d.ts".toList] (.text "")).withFile
      ["p".toList, "tsconfig.json".toList] (.text "")).withFile
    ["p".toList, "a.json".toList]
    (.text ("\x7b\"mainEntryPointFilePath\":\"./a.d.ts\"," ++
      "\"dtsRollup\":\x7b\"untrimmedFilePath\":\"\",\"betaTrimmedFilePath\":\"  \"\x7d," ++
      "\"tsdocMetadata\":null,\"apiReport\":null,\"docModel\":null\x7d"))

/-- What a document of `besideTree` is prepared from. -/
def besideInput (document : Json) : PrepareInput :=
  Source.input ⟨document, ⟨"/p/a.json"⟩, none⟩

/-- The settings file of `besideTree`, loaded. Prepared, it has the project folder for the path of
the roll-up; with the path as the file has it, it has none. -/
theorem load_besideTree : ∃ members document,
    readDocument besideTree (besideTree.absolute ⟨"/p/a.json"⟩) = .ok members ∧
      load besideTree ⟨"/p/a.json"⟩ = .ok document ∧
      (PathPlace.setting .main).at? (.object members) = some (.string "./a.d.ts") ∧
      (PathPlace.setting .betaTrimmed).at? (.object members) = some (.string "  ") ∧
      LiesInProject besideTree ⟨"/p/a.json"⟩ (besideInput document) ∧
      (prepare besideTree (besideInput document)).toOption.map (·.betaTrimmedPath) =
        some (some ⟨"/p"⟩) ∧
      (prepare besideTree
        { besideInput document with
          document := (PathPlace.setting .betaTrimmed).put "  " document }).toOption.map
        (·.betaTrimmedPath) = some none := by
  have hread : (readDocument besideTree (besideTree.absolute ⟨"/p/a.json"⟩)).toOption.map
      (fun members => ((PathPlace.setting .main).at? (.object members),
        (PathPlace.setting .betaTrimmed).at? (.object members))) =
      some (some (.string "./a.d.ts"), some (.string "  ")) := by decide +kernel
  have hload : (load besideTree ⟨"/p/a.json"⟩).toOption.map (fun document =>
      ((SettingsFile.codec.read document).toOption.map fun file =>
        (prepareProjectFolder besideTree (besideInput document) file).toOption,
        (prepare besideTree (besideInput document)).toOption.map (·.betaTrimmedPath),
        (prepare besideTree
          { besideInput document with
            document := (PathPlace.setting .betaTrimmed).put "  " document }).toOption.map
          (·.betaTrimmedPath))) =
      some (some (some ⟨"/p"⟩), some (some ⟨"/p"⟩), some none) := by decide +kernel
  obtain ⟨members, hmembers, hread⟩ := exists_ok_of_map hread
  obtain ⟨hmain, hbeta⟩ := Prod.mk.inj hread
  obtain ⟨document, hdocument, hload⟩ := exists_ok_of_map hload
  obtain ⟨hfolder, hload⟩ := Prod.mk.inj hload
  obtain ⟨hloaded, hraw⟩ := Prod.mk.inj hload
  refine ⟨members, document, hmembers, hdocument, hmain, hbeta, fun file folder hf hp => ?_,
    hloaded, hraw⟩
  have hbeside : folderOf (besideTree.absolute ⟨"/p/a.json"⟩) = ⟨"/p"⟩ := by decide +kernel
  have hread : SettingsFile.codec.read document = .ok file := hf
  rw [hread] at hfolder
  replace hfolder : (prepareProjectFolder besideTree (besideInput document) file).toOption =
    some ⟨"/p"⟩ := Option.some.inj hfolder
  rw [hp] at hfolder
  rw [hbeside]
  exact Option.some.inj hfolder

theorem readsPlainly_besideTree : (valuesOf ⟨"/p"⟩ none).ReadsPlainly "./a.d.ts" where
  folder := by decide
  starts := by decide
  ends := .inr (by decide +kernel)
  named_ne := by decide +kernel
  relative := by decide +kernel
  apart := by decide +kernel
  keeps := PlaceholderValues.keepsBrackets_of_hasBracket (by decide)

/-- The main entry point of `besideTree` may be given raw. -/
theorem toOption_prepare_put_besideTree : ∃ document,
    load besideTree ⟨"/p/a.json"⟩ = .ok document ∧
      ∃ s, prepare besideTree (besideInput document) = .ok s ∧
        prepare besideTree
          { besideInput document with
            document := (PathPlace.setting .main).put "./a.d.ts" document } = .ok s := by
  obtain ⟨members, document, hread, hload, hmain, -, hlies, hprepared, -⟩ := load_besideTree
  obtain ⟨s, hs, -⟩ := exists_ok_of_map hprepared
  have hbeside : folderOf (besideTree.absolute ⟨"/p/a.json"⟩) = ⟨"/p"⟩ := by decide +kernel
  obtain ⟨loaded, -, hreads, hsame⟩ := toOption_prepare_put hread hload hmain
    (besideInput document) (by decide) hlies
  refine ⟨document, hload, s, hs, eq_ok_of_toOption_eq (hsame ?_) hs⟩
  rintro manifest ⟨⟩
  refine (hreads _ (valuesOf_projectFolder _ _)).2 (.inr ?_)
  rw [hbeside]
  exact readsPlainly_besideTree

/-- A blank path is left out when it is given raw, and is the project folder when it was loaded. -/
theorem not_toOption_prepare_put_blank :
    ¬ ∀ (t : FileTree) (path : Path) (members : Members) (document : Json) (place : PathPlace)
        (s : String) (input : PrepareInput),
      readDocument t (t.absolute path) = .ok members → load t path = .ok document →
      place ≠ .setting .projectFolder → place.at? (.object members) = some (.string s) →
      LiesInProject t path { input with document } →
      (prepare t { input with document }).toOption =
        (prepare t { input with document := place.put s document }).toOption := by
  intro h
  obtain ⟨members, document, hread, hload, -, hbeta, hlies, hloaded, hraw⟩ := load_besideTree
  have hsame := h besideTree ⟨"/p/a.json"⟩ members document (.setting .betaTrimmed) "  "
    (besideInput document) hread hload (by decide) hbeta hlies
  rw [← hsame] at hraw
  cases hloaded.symm.trans hraw

end ApiReview.Settings
