import ApiReview.Settings.Failure

/-!
# Doc comment settings

Which tags doc comments may use. A `tsdoc.json` file defines tags and says which are supported,
over the files that it extends: these are applied before it, in their order and depth first. A
later definition of a tag takes an earlier one's place, whatever the case of its letters; a later
word on support replaces an earlier one. No file may be reached twice.
-/

namespace ApiReview

open Json (Codec Field Record)
open Text

/-- How a tag is written in a comment. -/
inductive TagKind where
  | block
  | inlined
  | modifier
  deriving DecidableEq, Repr

namespace TagKind

/-- The kind as a word. -/
def word : TagKind → String
  | block => "block"
  | inlined => "inline"
  | modifier => "modifier"

/-- A kind in a document. -/
def codec : Codec TagKind :=
  .choice [("block", .block), ("inline", .inlined), ("modifier", .modifier)] word

end TagKind

/-- A custom tag. -/
structure TagDefinition where
  tagName : String
  kind : TagKind
  allowMultiple : Bool
  deriving DecidableEq, Repr

/-- The fields of a tag definition. -/
def TagDefinition.record : Record TagDefinition where
  name := "TagDefinition"
  fields :=
    [.needed "tagName" .string (·.tagName) fun v d => { d with tagName := v },
      .needed "syntaxKind" TagKind.codec (·.kind) fun v d => { d with kind := v },
      .of "allowMultiple" .boolean (·.allowMultiple) fun v d => { d with allowMultiple := v }]
  blank := ⟨"", .block, false⟩
  lenient := false

/-- A file of doc comment settings. -/
structure DocCommentFile where
  schema : Option String
  extending : List String
  noStandardTags : Option Bool
  tagDefinitions : List TagDefinition
  supportForTags : List (String × Bool)
  deriving DecidableEq, Repr

/-- The fields of a file. -/
def DocCommentFile.record : Record DocCommentFile where
  name := "TsdocConfigFile"
  fields :=
    [.of "$schema" Codec.string.optional (·.schema) fun v f => { f with schema := v },
      .of "extends" Codec.string.list (·.extending) fun v f => { f with extending := v },
      .of "noStandardTags" Codec.boolean.optional (·.noStandardTags)
        fun v f => { f with noStandardTags := v },
      .of "tagDefinitions" TagDefinition.record.codec.list (·.tagDefinitions)
        fun v f => { f with tagDefinitions := v },
      .of "supportForTags" Codec.boolean.table (·.supportForTags)
        fun v f => { f with supportForTags := v }]
  blank := ⟨none, [], none, [], []⟩
  lenient := false

/-- What is wrong with the tag names of a file, in words. -/
def DocCommentFile.violations (file : DocCommentFile) : List String :=
  (file.tagDefinitions.filterMap fun d =>
    (TagName.problem? d.tagName).map fun problem =>
      "tagDefinitions: " ++ quoted d.tagName ++ ": " ++ problem.message) ++
  file.supportForTags.filterMap fun s =>
    (TagName.problem? s.1).map fun problem =>
      "supportForTags: " ++ quoted s.1 ++ ": " ++ problem.message

/-- Doc comment settings, with all files applied. -/
structure DocCommentConfig where
  filePath : Option Path
  noStandardTags : Bool
  tagDefinitions : List TagDefinition
  supportForTags : List (String × Bool)
  deriving DecidableEq, Repr

namespace DocCommentConfig

/-- The settings of a project without a file of its own. -/
def builtin : DocCommentConfig where
  filePath := none
  noStandardTags := false
  tagDefinitions :=
    [⟨"@betaDocumentation", .modifier, false⟩, ⟨"@internalRemarks", .block, false⟩,
      ⟨"@preapproved", .modifier, false⟩]
  supportForTags :=
    [("@betaDocumentation", true), ("@internalRemarks", true), ("@preapproved", true)]

/-- The name of the file in a project folder. -/
def fileName : Path := ⟨"tsdoc.json"⟩

/-- Whether two tag names differ at most in the case of ASCII letters. -/
def sameName (a b : String) : Bool :=
  lowerAscii a.toList = lowerAscii b.toList

/-- The definitions with one more: in the place of the one of its name, or at the end. -/
def define (d : TagDefinition) : List TagDefinition → List TagDefinition
  | [] => [d]
  | e :: rest => if sameName e.tagName d.tagName then d :: rest else e :: define d rest

/-- The settings with a file applied. -/
def apply (config : DocCommentConfig) (file : DocCommentFile) : DocCommentConfig :=
  { config with
    noStandardTags := file.noStandardTags.getD config.noStandardTags
    tagDefinitions := file.tagDefinitions.foldl (fun ds d => define d ds) config.tagDefinitions
    supportForTags :=
      file.supportForTags.foldl (fun ss s => Codec.putEntry s.1 s.2 ss) config.supportForTags }

/-- The settings in which no file is applied. -/
def blank (path : Path) : DocCommentConfig :=
  ⟨some path, false, [], []⟩

/-- A file read and parsed. -/
def readFile (t : FileTree) (path : Path) : Except SettingsError DocCommentFile := do
  let s ← (t.readText path).mapError fun e => .unloadable path (.unreadable e)
  (DocCommentFile.record.codec.parse s).mapError (.malformed path s)

/-- Whether a reference is relative to the folder of its file. -/
def isRelativeReference (s : String) : Bool :=
  startsWith "./" s || startsWith "../" s

/-- More files than have paths that can be looked up. -/
def depthBound : Nat := Nat.pow 2 32768

/-- The settings and the paths reached so far, with a file and all that it extends applied. Files
inside each other differ in their paths, so the depth never comes to the bound. -/
def applyFile (t : FileTree) : Nat → DocCommentConfig × List Path → Path →
    Except SettingsError (DocCommentConfig × List Path)
  | 0, _, path => .error (.unloadable path .circularExtends)
  | depth + 1, (config, visited), path => do
    if visited.any (·.same path) then throw (.unloadable path .circularExtends)
    let file ← readFile t path
    let folder := path.parent?.getD ⟨"."⟩
    let (config, visited) ← file.extending.foldlM (fun state base => do
      if !isRelativeReference base then throw (.unloadable path (.extendsByName base))
      applyFile t depth state (folder.resolve ⟨base⟩)) (config, path :: visited)
    if file.violations ≠ [] then throw (.unloadable path (.badTagNames file.violations))
    return (config.apply file, visited)

/-- The settings of a file. -/
def load (t : FileTree) (path : Path) : Except SettingsError DocCommentConfig := do
  let (config, _) ← applyFile t depthBound (blank path, []) path
  return config

/-- The settings of a project folder: those of its file, or the built-in ones. -/
def loadForFolder (t : FileTree) (folder : Path) : Except SettingsError DocCommentConfig :=
  let path := folder.join fileName
  if t.isFile path then load t path else .ok builtin

/-- Whether a tag is supported. -/
def supports (config : DocCommentConfig) (name : String) : Bool :=
  (config.supportForTags.lookup name).getD false

/-- The settings as a document. -/
def toJson (config : DocCommentConfig) : Json :=
  .object
    [("filePath", .ofOption (config.filePath.map fun p => .string p.text)),
      ("noStandardTags", .boolean config.noStandardTags),
      ("tagDefinitions", TagDefinition.record.codec.list.write config.tagDefinitions),
      ("supportForTags", Codec.boolean.table.write config.supportForTags)]

end DocCommentConfig

namespace Manifest

/-- The name of the metadata file that is published with a package. -/
def metadataFileName : Path := ⟨"tsdoc-metadata.json"⟩

/-- The folder of a file that the manifest names. -/
def folderOf (packageFolder : Path) (file : String) : Path :=
  let path := packageFolder.resolve ⟨file⟩
  path.parent?.getD path

/-- Where the metadata file of a package belongs: where the manifest says so, else next to its
typings, else next to its main file, else in the package folder. Empty entries say nothing. -/
def metadataPath (m : Manifest) (packageFolder : Path) : Path :=
  match m.tsdocMetadata.filter (· ≠ "") with
  | some explicit => packageFolder.resolve ⟨explicit⟩
  | none =>
    let folder :=
      ((m.typingsPath.or (m.main.filter (· ≠ ""))).map (folderOf packageFolder)).getD packageFolder
    folder.join metadataFileName

end Manifest

end ApiReview
