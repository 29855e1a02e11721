import ApiReview.Proofs.DocComment.Extending
import ApiReview.Proofs.Keyed

/-!
# What files of doc comment settings settle

From a file there is one list of all files that it reaches, each behind all that it extends
(`InOrder.unique`, `InOrder.mem_iff`). Files that are applied in this order leave the last
definition of each tag, whatever the case of its letters, the last word on the support of each name
and the last word on the standard tags (`SettledBy`). One more file keeps to that
(`SettledBy.apply`), so a file with all that it extends does (`applyFile_settles`), and what is
loaded is settled by the files of its root (`load_settles`).
-/

namespace ApiReview.DocCommentConfig

open Keyed (LastOfEach)

variable {t : FileTree} {depth : Nat} {config config' : DocCommentConfig}
  {visited visited' : List Path} {path root p : Path} {before : List DocCommentFile}

/-! ## The order of the files -/

/-- The files that some references of a file lead to, one after the other, each behind all that it
extends. -/
inductive Leads (t : FileTree) : Path → List String → List (Path × DocCommentFile) → Prop where
  | nil {path : Path} : Leads t path [] []
  | cons {path : Path} {reference : String} {references : List String} {file : DocCommentFile}
      {bases others : List (Path × DocCommentFile)}
      (read : readFile t (target path reference) = .ok file)
      (first : Leads t (target path reference) file.extending bases)
      (rest : Leads t path references others) :
      Leads t path (reference :: references) (bases ++ [(target path reference, file)] ++ others)

/-- The files that are reached from a root, in the order in which they are applied. -/
def InOrder (t : FileTree) (root : Path) (files : List (Path × DocCommentFile)) : Prop :=
  ∃ file bases, readFile t root = .ok file ∧ Leads t root file.extending bases ∧
    files = bases ++ [(root, file)]

theorem Leads.unique {references : List String} {files files' : List (Path × DocCommentFile)}
    (h : Leads t path references files) (h' : Leads t path references files') : files' = files := by
  induction h generalizing files' with
  | nil =>
    cases h'
    rfl
  | cons read _ _ first rest =>
    cases h' with
    | cons read' first' rest' =>
      cases read.symm.trans read'
      rw [first first', rest rest']

theorem InOrder.unique {files files' : List (Path × DocCommentFile)} (h : InOrder t root files)
    (h' : InOrder t root files') : files' = files := by
  obtain ⟨file, bases, read, leads, rfl⟩ := h
  obtain ⟨file', bases', read', leads', rfl⟩ := h'
  cases read.symm.trans read'
  rw [leads.unique leads']

/-- The ways from a file that is read lead to itself, or on from a file that it refers to. -/
theorem exists_walk_iff {file : DocCommentFile} (read : readFile t path = .ok file) :
    (∃ way, Walk t path way p) ↔
      p = path ∨ ∃ reference ∈ file.extending, ∃ way, Walk t (target path reference) way p := by
  constructor
  · rintro ⟨way, hw⟩
    cases hw with
    | here => exact .inl rfl
    | on read' refers walk =>
      cases read.symm.trans read'
      exact .inr ⟨_, List.mem_of_getElem? refers, _, walk⟩
  · rintro (rfl | ⟨reference, hr, way, hw⟩)
    · exact ⟨[], .here⟩
    · obtain ⟨i, hi⟩ := List.getElem?_of_mem hr
      exact ⟨i :: way, .on read hi hw⟩

/-- The files are those that there is a way to. -/
theorem Leads.mem_iff {references : List String} {files : List (Path × DocCommentFile)}
    (h : Leads t path references files) :
    p ∈ files.map Prod.fst ↔
      ∃ reference ∈ references, ∃ way, Walk t (target path reference) way p := by
  induction h with
  | nil => simp
  | cons read _ _ first rest =>
    rw [List.map_append, List.map_append, List.mem_append, List.mem_append, first, rest,
      List.map_singleton, List.mem_singleton, List.exists_mem_cons_iff, exists_walk_iff read,
      or_comm (b := p = _)]

theorem InOrder.mem_iff {files : List (Path × DocCommentFile)} (h : InOrder t root files) :
    p ∈ files.map Prod.fst ↔ ∃ way, Walk t root way p := by
  obtain ⟨file, bases, read, leads, rfl⟩ := h
  rw [exists_walk_iff read, List.map_append, List.mem_append, leads.mem_iff, List.map_singleton,
    List.mem_singleton, or_comm]

/-! ## What the files settle -/

/-- The name of a tag, without the case of its ASCII letters. -/
def nameKey (d : TagDefinition) : List Char :=
  Text.lowerAscii d.tagName.toList

theorem sameName_iff {d e : TagDefinition} :
    sameName d.tagName e.tagName = true ↔ nameKey d = nameKey e :=
  decide_eq_true_iff

theorem define_eq_put (d : TagDefinition) (ds : List TagDefinition) :
    define d ds = Keyed.put nameKey d ds := by
  induction ds with
  | nil => rfl
  | cons e rest ih =>
    rw [define, Keyed.put, ih]
    exact if_congr sameName_iff rfl rfl

/-- All tag names of a file are valid. -/
structure ValidNames (file : DocCommentFile) : Prop where
  definitions : ∀ d ∈ file.tagDefinitions, TagName.isValid d.tagName = true
  support : ∀ s ∈ file.supportForTags, TagName.isValid s.1 = true

theorem validNames_of_violations {file : DocCommentFile} (h : file.violations = []) :
    ValidNames file := by
  obtain ⟨hd, hs⟩ := List.append_eq_nil_iff.mp h
  rw [List.filterMap_eq_nil_iff] at hd hs
  constructor
  · intro d hm
    rw [TagName.isValid, Option.isNone_iff_eq_none]
    exact Option.map_eq_none_iff.mp (hd d hm)
  · intro s hm
    rw [TagName.isValid, Option.isNone_iff_eq_none]
    exact Option.map_eq_none_iff.mp (hs s hm)

/-- The settings hold what files say, applied one after the other: the last definition of each tag
and the last word on its support, in the order of the first ones, and the last word on the standard
tags. -/
structure SettledBy (files : List DocCommentFile) (config : DocCommentConfig) : Prop where
  definitions : LastOfEach nameKey (files.flatMap (·.tagDefinitions)) config.tagDefinitions
  support : LastOfEach Prod.fst (files.flatMap (·.supportForTags)) config.supportForTags
  standard : config.noStandardTags = ((files.filterMap (·.noStandardTags)).getLast?).getD false
  names : ∀ file ∈ files, ValidNames file

namespace SettledBy

theorem blank (path : Path) : SettledBy [] (blank path) :=
  ⟨.nil _, .nil _, rfl, fun _ h => absurd h List.not_mem_nil⟩

/-- One more file is applied. -/
theorem apply (h : SettledBy before config) {file : DocCommentFile} (valid : ValidNames file) :
    SettledBy (before ++ [file]) (config.apply file) where
  definitions := by
    rw [List.flatMap_append, List.flatMap_singleton]
    simp only [DocCommentConfig.apply, define_eq_put]
    exact h.definitions.foldl file.tagDefinitions
  support := by
    rw [List.flatMap_append, List.flatMap_singleton]
    simp only [DocCommentConfig.apply, Keyed.putEntry_eq_put]
    exact h.support.foldl file.supportForTags
  standard := by
    rw [List.filterMap_append, List.getLast?_append, DocCommentConfig.apply, h.standard]
    cases hn : file.noStandardTags with
    | none => rw [List.filterMap_cons_none hn]; rfl
    | some v => rw [List.filterMap_cons_some hn]; rfl
  names := List.forall_mem_append.mpr ⟨h.names, List.forall_mem_singleton.mpr valid⟩

theorem valid_definition (h : SettledBy before config) {d : TagDefinition}
    (hd : d ∈ config.tagDefinitions) : TagName.isValid d.tagName = true := by
  obtain ⟨file, hf, hm⟩ := List.mem_flatMap.mp (h.definitions.mem_of_mem hd)
  exact (h.names file hf).definitions d hm

theorem valid_support (h : SettledBy before config) {s : String × Bool}
    (hs : s ∈ config.supportForTags) : TagName.isValid s.1 = true := by
  obtain ⟨file, hf, hm⟩ := List.mem_flatMap.mp (h.support.mem_of_mem hs)
  exact (h.names file hf).support s hm

end SettledBy

/-! ## Applying them -/

/-- Files that are applied for some references settle what is settled then, if that is so for each
of them. -/
theorem applyAll_settles
    (each : ∀ {config config' : DocCommentConfig} {visited visited' : List Path} {path : Path}
      {before : List DocCommentFile}, SettledBy before config →
      applyFile t depth (config, visited) path = .ok (config', visited') →
      ∃ files, InOrder t path files ∧ SettledBy (before ++ files.map Prod.snd) config')
    {references : List String} (known : SettledBy before config)
    (ok : applyAll t depth path references (config, visited) = .ok (config', visited')) :
    ∃ files, Leads t path references files ∧
      SettledBy (before ++ files.map Prod.snd) config' := by
  induction references generalizing before config visited with
  | nil =>
    cases ok
    exact ⟨[], .nil, by rwa [List.map_nil, List.append_nil]⟩
  | cons reference references ih =>
    cases hrel : isRelativeReference reference with
    | false => rw [applyAll_cons_of_not_relative hrel] at ok; cases ok
    | true =>
      rw [applyAll_cons_of_relative hrel] at ok
      obtain ⟨⟨config₁, visited₁⟩, hfirst, ok⟩ := bind_eq_ok ok
      obtain ⟨_, ⟨file, bases, read, leads, rfl⟩, settled⟩ := each known hfirst
      obtain ⟨others, rest, settled⟩ := ih settled ok
      refine ⟨bases ++ [(target path reference, file)] ++ others, .cons read leads rest, ?_⟩
      rwa [List.map_append, ← List.append_assoc]

/-- Applying a file settles what it and all that it extends say, in their order. -/
theorem applyFile_settles (known : SettledBy before config)
    (ok : applyFile t depth (config, visited) path = .ok (config', visited')) :
    ∃ files, InOrder t path files ∧ SettledBy (before ++ files.map Prod.snd) config' := by
  induction depth generalizing before config config' visited visited' path with
  | zero => cases ok
  | succ depth ih =>
    by_cases hv : path.steps ∈ visited.map Path.steps
    · rw [applyFile_of_visited hv] at ok
      cases ok
    · cases read : readFile t path with
      | error e => rw [applyFile_of_unread hv read] at ok; cases ok
      | ok file =>
        rw [applyFile_of_read hv read] at ok
        obtain ⟨⟨config₁, visited₁⟩, hall, ok⟩ := bind_eq_ok ok
        obtain ⟨bases, leads, settled⟩ := applyAll_settles ih known hall
        split at ok
        · rename_i hvalid
          cases ok
          refine ⟨bases ++ [(path, file)], ⟨file, bases, read, leads, rfl⟩, ?_⟩
          rw [List.map_append, ← List.append_assoc]
          exact settled.apply (validNames_of_violations hvalid)
        · cases ok

/-- What is loaded is settled by the files that are reached, in the one order in which each comes
behind all that it extends. Its tag names are valid. -/
theorem load_settles (h : load t root = .ok config) :
    ∃ files : List (Path × DocCommentFile),
      (∀ files', InOrder t root files' ↔ files' = files) ∧
      (∀ p, p ∈ files.map Prod.fst ↔ ∃ way, Walk t root way p) ∧
      SettledBy (files.map Prod.snd) config ∧
      (∀ d ∈ config.tagDefinitions, TagName.isValid d.tagName = true) ∧
      ∀ s ∈ config.supportForTags, TagName.isValid s.1 = true := by
  obtain ⟨⟨config', visited'⟩, happly, h⟩ := bind_eq_ok h
  cases h
  obtain ⟨files, order, settled⟩ := applyFile_settles (.blank root) happly
  rw [List.nil_append] at settled
  exact ⟨files, fun files' => ⟨order.unique, fun he => he ▸ order⟩, fun p => order.mem_iff,
    settled, fun d hd => settled.valid_definition hd, fun s hs => settled.valid_support hs⟩

/-- A file extends two others, the first of which extends one more. That one defines a tag twice, in
other letters, and the one that extends it defines it once more. -/
def layeredTree : FileTree where
  entries :=
    [(["tsdoc.json".toList], .file (.text "\x7b\"extends\":[\"./a.json\",\"./b.json\"]\x7d")),
      (["a.json".toList], .file (.text ("\x7b\"extends\":[\"./c.json\"],\"noStandardTags\":true," ++
        "\"tagDefinitions\":[\x7b\"tagName\":\"@ONE\",\"syntaxKind\":\"block\"\x7d]\x7d"))),
      (["b.json".toList], .file (.text
        "\x7b\"noStandardTags\":false,\"supportForTags\":\x7b\"@two\":false\x7d\x7d")),
      (["c.json".toList], .file (.text ("\x7b\"tagDefinitions\":[" ++
        "\x7b\"tagName\":\"@one\",\"syntaxKind\":\"inline\"\x7d," ++
        "\x7b\"tagName\":\"@One\",\"syntaxKind\":\"inline\"\x7d]," ++
        "\"supportForTags\":\x7b\"@two\":true,\"@one\":true\x7d\x7d")))]
  workingFolder := []

/-- The settings that `layeredTree` comes to. -/
def layeredConfig : DocCommentConfig where
  filePath := some ⟨"/tsdoc.json"⟩
  noStandardTags := false
  tagDefinitions := [⟨"@ONE", .block, false⟩]
  supportForTags := [("@two", false), ("@one", true)]

theorem load_layeredTree : load layeredTree ⟨"/tsdoc.json"⟩ = .ok layeredConfig :=
  eq_ok_of_toOption (by decide +kernel)

theorem load_settles_layeredTree :
    load layeredTree ⟨"/tsdoc.json"⟩ = .ok layeredConfig ∧
      ∃ files : List (Path × DocCommentFile),
        (∀ files', InOrder layeredTree ⟨"/tsdoc.json"⟩ files' ↔ files' = files) ∧
        (∀ p, p ∈ files.map Prod.fst ↔ ∃ way, Walk layeredTree ⟨"/tsdoc.json"⟩ way p) ∧
        SettledBy (files.map Prod.snd) layeredConfig ∧
        (∀ d ∈ layeredConfig.tagDefinitions, TagName.isValid d.tagName = true) ∧
        ∀ s ∈ layeredConfig.supportForTags, TagName.isValid s.1 = true :=
  ⟨load_layeredTree, load_settles load_layeredTree⟩

end ApiReview.DocCommentConfig
