import ApiReview.Proofs.Json.Overlay
import ApiReview.Proofs.Json.RoundTrip
import ApiReview.Settings.File
import Mathlib.Tactic.FinCases

/-!
# Settings files read back

What is written of a settings file is a document that conforms and reads back as the same file
(`read_write`), whatever its sections, lists, tables and inline compiler configuration. Of the
options that are absent, `$schema` and `extends` are left out and all the others are written as
null. The sections come first, each with the changes that its fields make.
-/

namespace ApiReview

open Json (Codec Field Record)

theorem LineEnding.codec_lawful : LineEnding.codec.Lawful :=
  Codec.choice_lawful fun a => by cases a <;> decide

theorem Variant.codec_lawful : Variant.codec.Lawful :=
  Codec.choice_lawful fun a => by cases a <;> decide

theorem EnumOrder.codec_lawful : EnumOrder.codec.Lawful :=
  Codec.choice_lawful fun a => by cases a <;> decide

/-! ## The tables of rules -/

theorem Rule.roundTrips (rule : Rule) : Rule.record.codec.RoundTrips rule :=
  Record.roundTrips (by decide)
    (.cons (Field.sends_of (Level.codec_lawful _)) (.cons (Field.sends_of rfl) .nil)) rfl

/-- No table lists a key twice. -/
structure Reporting.KeysDistinct (r : Reporting) : Prop where
  compiler : (r.compiler.map (·.1)).Nodup
  extractor : (r.extractor.map (·.1)).Nodup
  tsdoc : (r.tsdoc.map (·.1)).Nodup

theorem Reporting.roundTrips {r : Reporting} (h : r.KeysDistinct) :
    Reporting.record.codec.RoundTrips r :=
  have table : ∀ {rules : RuleTable}, (rules.map (·.1)).Nodup →
      Rule.record.codec.table.RoundTrips rules :=
    fun hk => Codec.roundTrips_table hk fun e _ => e.2.roundTrips
  Record.roundTrips (by decide)
    (.cons (Field.sends_of (table h.compiler)) (.cons (Field.sends_of (table h.extractor))
      (.cons (Field.sends_of (table h.tsdoc)) .nil))) rfl

theorem Reporting.keysDistinct_of_read {v : Json} {r : Reporting}
    (h : Reporting.record.read v = .ok r) : r.KeysDistinct := by
  have hblank : Reporting.record.blank.KeysDistinct :=
    ⟨List.nodup_nil, List.nodup_nil, List.nodup_nil⟩
  refine Record.of_read hblank ?_ h
  intro f hf v t t' ht hr
  simp only [Reporting.record] at hf
  fin_cases hf <;> obtain ⟨a, ha, rfl⟩ := map_eq_ok hr
  · exact { ht with compiler := Codec.nodup_of_read_table ha }
  · exact { ht with extractor := Codec.nodup_of_read_table ha }
  · exact { ht with tsdoc := Codec.nodup_of_read_table ha }

namespace SettingsFile

/-! ## The sections -/

theorem roundTrips_text (o : Option String) : Codec.string.optional.RoundTrips o :=
  Codec.roundTrips_optional Codec.neverNull_string fun _ _ => rfl

theorem roundTrips_texts (texts : List String) : Codec.string.list.RoundTrips texts :=
  Codec.roundTrips_list fun _ _ => rfl

theorem EntryPoint.roundTrips (e : EntryPoint) : EntryPoint.record.codec.RoundTrips e :=
  Record.roundTrips (by decide)
    (.cons (Field.sends_needed rfl) <|
      .cons (Field.sends_needed rfl) .nil) rfl

theorem Compiler.roundTrips (s : Compiler) : Compiler.record.codec.RoundTrips s :=
  have tsconfig : Codec.members.optional.RoundTrips s.overrideTsconfig :=
    Codec.roundTrips_optional Codec.neverNull_members fun _ _ => rfl
  Record.roundTrips (by decide)
    (.cons (Field.sends_of (roundTrips_text _)) <|
      .cons (Field.sends_of tsconfig) <|
      .cons (Field.sends_of rfl) .nil) rfl

theorem ApiReport.roundTrips {s : ApiReport} (h : (s.tagsToReport.map (·.1)).Nodup) :
    ApiReport.record.codec.RoundTrips s :=
  have variants : Variant.codec.list.optional.RoundTrips s.reportVariants :=
    Codec.roundTrips_optional Codec.neverNull_list fun _ _ =>
      Codec.roundTrips_list fun v _ => Variant.codec_lawful v
  Record.roundTrips (by decide)
    (.cons (Field.sends_of rfl) <|
      .cons (Field.sends_of (roundTrips_text _)) <|
      .cons (Field.sends_of (roundTrips_text _)) <|
      .cons (Field.sends_of (roundTrips_text _)) <|
      .cons (Field.sends_of variants) <|
      .cons (Field.sends_of rfl) <|
      .cons (Field.sends_of (Codec.roundTrips_table h fun _ _ => rfl)) .nil) rfl

theorem ApiReport.nodup_tags_of_read {v : Json} {s : ApiReport}
    (h : ApiReport.record.read v = .ok s) : (s.tagsToReport.map (·.1)).Nodup := by
  refine Record.of_read (P := fun s => (s.tagsToReport.map (·.1)).Nodup) List.nodup_nil ?_ h
  intro f hf v t t' ht hr
  simp only [ApiReport.record] at hf
  fin_cases hf <;> obtain ⟨a, ha, rfl⟩ := map_eq_ok hr
  -- The last field reads the table, and the others leave it alone.
  case «6» => exact Codec.nodup_of_read_table ha
  all_goals exact ht

theorem DocModel.roundTrips (s : DocModel) : DocModel.record.codec.RoundTrips s :=
  have tags : Codec.string.list.optional.RoundTrips s.releaseTagsToTrim :=
    Codec.roundTrips_optional Codec.neverNull_list fun _ _ => roundTrips_texts _
  Record.roundTrips (by decide)
    (.cons (Field.sends_of rfl) <|
      .cons (Field.sends_of (roundTrips_text _)) <|
      .cons (Field.sends_of rfl) <|
      .cons (Field.sends_of (roundTrips_text _)) <|
      .cons (Field.sends_of tags) .nil) rfl

theorem Rollup.roundTrips (s : Rollup) : Rollup.record.codec.RoundTrips s :=
  Record.roundTrips (by decide)
    (.cons (Field.sends_of rfl) <|
      .cons (Field.sends_of (roundTrips_text _)) <|
      .cons (Field.sends_of (roundTrips_text _)) <|
      .cons (Field.sends_of (roundTrips_text _)) <|
      .cons (Field.sends_of (roundTrips_text _)) <|
      .cons (Field.sends_of rfl) .nil) rfl

theorem Metadata.roundTrips (s : Metadata) : Metadata.record.codec.RoundTrips s :=
  Record.roundTrips (by decide)
    (.cons (Field.sends_of rfl) <|
      .cons (Field.sends_of (roundTrips_text _)) .nil) rfl

/-! ## The file -/

/-- No table of the file lists a key twice; so it is in every file that is read
(`keysDistinct_of_read`). -/
structure KeysDistinct (file : SettingsFile) : Prop where
  tags : ∀ s, file.apiReport = some s → (s.tagsToReport.map (·.1)).Nodup
  messages : file.messages.KeysDistinct

/-- The file is made by its fields, of which `$schema` and `extends` set only what is there. -/
theorem roundTrips {file : SettingsFile} (h : file.KeysDistinct) : codec.RoundTrips file := by
  have section_ : ∀ {τ : Type} {r : Record τ} {o : Option τ},
      (∀ s, o = some s → r.codec.RoundTrips s) → r.codec.optional.RoundTrips o :=
    fun hs => Codec.roundTrips_optional Codec.neverNull_codec hs
  have word : ∀ {τ : Type} {named : List (String × τ)} {nameOf : τ → String} {o : Option τ},
      (Codec.choice named nameOf).Lawful → (Codec.choice named nameOf).optional.RoundTrips o :=
    fun hc => Codec.roundTrips_optional Codec.neverNull_choice fun a _ => hc a
  refine Record.roundTrips (by decide)
    (.cons (Field.sends_ofPresent Codec.neverNull_string fun _ _ => rfl) <|
      .cons (Field.sends_ofPresent Codec.neverNull_string fun _ _ => rfl) <|
      .cons (Field.sends_of (roundTrips_text _)) <|
      .cons (Field.sends_of (roundTrips_text _)) <|
      .cons (Field.sends_of (Codec.roundTrips_list fun e _ => EntryPoint.roundTrips e)) <|
      .cons (Field.sends_of (roundTrips_texts _)) <|
      .cons (Field.sends_of (section_ fun s _ => Compiler.roundTrips s)) <|
      .cons (Field.sends_of (section_ fun s hs => ApiReport.roundTrips (h.tags s hs))) <|
      .cons (Field.sends_of (section_ fun s _ => DocModel.roundTrips s)) <|
      .cons (Field.sends_of (section_ fun s _ => Rollup.roundTrips s)) <|
      .cons (Field.sends_of (section_ fun s _ => Metadata.roundTrips s)) <|
      .cons (Field.sends_of (Reporting.roundTrips h.messages)) <|
      .cons (Field.sends_of (word LineEnding.codec_lawful)) <|
      .cons (Field.sends_of rfl) <|
      .cons (Field.sends_of (word EnumOrder.codec_lawful)) .nil) ?_
  obtain ⟨schema, extending⟩ := file
  cases schema <;> cases extending <;> rfl

/-- Every file that is read is such. -/
theorem keysDistinct_of_read {v : Json} {file : SettingsFile} (h : codec.read v = .ok file) :
    file.KeysDistinct := by
  have hblank : record.blank.KeysDistinct :=
    ⟨nofun, List.nodup_nil, List.nodup_nil, List.nodup_nil⟩
  refine Record.of_read hblank ?_ h
  intro f hf v t t' ht hr
  simp only [record] at hf
  fin_cases hf <;> obtain ⟨a, ha, rfl⟩ := map_eq_ok hr
  -- Only the section on the API report and the rules have tables.
  case «7» =>
    refine { ht with tags := ?_ }
    rintro s rfl
    exact ApiReport.nodup_tags_of_read (Codec.read_of_read_optional ha)
  case «11» => exact { ht with messages := Reporting.keysDistinct_of_read ha }
  all_goals exact ⟨ht.tags, ht.messages⟩

/-! ## Absent options -/

/-- The options of the section on the compiler, each with whether it is absent. -/
def Compiler.options (s : Compiler) : List (String × Bool) :=
  [("tsconfigFilePath", s.tsconfigFilePath.isNone), ("overrideTsconfig", s.overrideTsconfig.isNone)]

/-- The options of the section on the API report. -/
def ApiReport.options (s : ApiReport) : List (String × Bool) :=
  [("reportFileName", s.reportFileName.isNone), ("reportFolder", s.reportFolder.isNone),
    ("reportTempFolder", s.reportTempFolder.isNone), ("reportVariants", s.reportVariants.isNone)]

/-- The options of the section on the model. -/
def DocModel.options (s : DocModel) : List (String × Bool) :=
  [("apiJsonFilePath", s.apiJsonFilePath.isNone), ("projectFolderUrl", s.projectFolderUrl.isNone),
    ("releaseTagsToTrim", s.releaseTagsToTrim.isNone)]

/-- The options of the section on rolled-up declarations. -/
def Rollup.options (s : Rollup) : List (String × Bool) :=
  [("untrimmedFilePath", s.untrimmedFilePath.isNone),
    ("alphaTrimmedFilePath", s.alphaTrimmedFilePath.isNone),
    ("betaTrimmedFilePath", s.betaTrimmedFilePath.isNone),
    ("publicTrimmedFilePath", s.publicTrimmedFilePath.isNone)]

/-- The options of the section on the metadata file. -/
def Metadata.options (s : Metadata) : List (String × Bool) :=
  [("tsdocMetadataFilePath", s.tsdocMetadataFilePath.isNone)]

/-- The options that are left out of a written file where they are absent. -/
def omissible (file : SettingsFile) : List (String × Bool) :=
  [("$schema", file.schema.isNone), ("extends", file.extending.isNone)]

/-- The other options of the file itself. -/
def ownOptions (file : SettingsFile) : List (String × Bool) :=
  [("projectFolder", file.projectFolder.isNone),
    ("mainEntryPointFilePath", file.mainEntryPointFilePath.isNone),
    ("compiler", file.compiler.isNone), ("apiReport", file.apiReport.isNone),
    ("docModel", file.docModel.isNone), ("dtsRollup", file.dtsRollup.isNone),
    ("tsdocMetadata", file.tsdocMetadata.isNone), ("newlineKind", file.newlineKind.isNone),
    ("enumMemberOrder", file.enumMemberOrder.isNone)]

theorem Compiler.nulls : Compiler.record.Nulls Compiler.options := by
  intro s name
  rw [Record.at?_singleton_write_eq_some_iff (by decide)]
  simp [Compiler.record, Field.of, Compiler.options, eq_comm (a := name)]

theorem ApiReport.nulls : ApiReport.record.Nulls ApiReport.options := by
  intro s name
  rw [Record.at?_singleton_write_eq_some_iff (by decide)]
  simp [ApiReport.record, Field.of, ApiReport.options, eq_comm (a := name)]

theorem DocModel.nulls : DocModel.record.Nulls DocModel.options := by
  intro s name
  rw [Record.at?_singleton_write_eq_some_iff (by decide)]
  simp [DocModel.record, Field.of, DocModel.options, eq_comm (a := name)]

theorem Rollup.nulls : Rollup.record.Nulls Rollup.options := by
  intro s name
  rw [Record.at?_singleton_write_eq_some_iff (by decide)]
  simp [Rollup.record, Field.of, Rollup.options, eq_comm (a := name)]

theorem Metadata.nulls : Metadata.record.Nulls Metadata.options := by
  intro s name
  rw [Record.at?_singleton_write_eq_some_iff (by decide)]
  simp [Metadata.record, Field.of, Metadata.options, eq_comm (a := name)]

theorem nulls_messages : Reporting.record.Nulls fun _ => [] := by
  intro s name
  rw [Record.at?_singleton_write_eq_some_iff (by decide)]
  simp [Reporting.record, Field.of]

theorem nulls : record.Nulls ownOptions := by
  intro file name
  rw [Record.at?_singleton_write_eq_some_iff (by decide)]
  simp [record, Field.of, Field.ofPresent, LineEnding.codec, EnumOrder.codec, ownOptions,
    eq_comm (a := name)]

/-- The places of the options of a section, if it is there. -/
def below {τ : Type} (key : String) (section? : Option τ) (options : τ → List (String × Bool)) :
    List (List String × Bool) :=
  ((section?.map options).getD []).map fun e => ([key, e.1], e.2)

/-- The places of all options but those that may be left out. -/
def options (file : SettingsFile) : List (List String × Bool) :=
  (file.ownOptions.map fun e => ([e.1], e.2)) ++
    (below "compiler" file.compiler Compiler.options ++
      (below "apiReport" file.apiReport ApiReport.options ++
        (below "docModel" file.docModel DocModel.options ++
          (below "dtsRollup" file.dtsRollup Rollup.options ++
            below "tsdocMetadata" file.tsdocMetadata Metadata.options))))

theorem mem_below {τ : Type} {key : String} {section? : Option τ}
    {options : τ → List (String × Bool)} {keys : List String} {absent : Bool} :
    (keys, absent) ∈ below key section? options ↔
      ∃ name, keys = [key, name] ∧ ∃ s, section? = some s ∧ (name, absent) ∈ options s := by
  cases section? with
  | none => simp [below]
  | some s =>
    rw [below, Option.map_some, Option.getD_some, List.mem_map]
    constructor
    · rintro ⟨⟨name, b⟩, he, h⟩
      cases h
      exact ⟨name, rfl, s, rfl, he⟩
    · rintro ⟨name, rfl, _, hs, he⟩
      cases hs
      exact ⟨(name, absent), he, rfl⟩

/-- Nothing is written as null in the file and its sections but absent options. -/
theorem at?_write_eq_null_iff (file : SettingsFile) {keys : List String} (h : keys.length ≤ 2) :
    (codec.write file).at? keys = some .null ↔ (keys, true) ∈ file.options := by
  match keys, h with
  | [], _ =>
    refine iff_of_false (fun h => Json.noConfusion (Option.some.inj h)) ?_
    simp [options, mem_below]
  | [key], _ =>
    rw [codec, nulls]
    simp [options, mem_below]
  | [key, name], _ =>
    -- A name below a key of the file is one of the section, if the key is that of a section.
    rw [codec, Record.at?_write_eq_some_iff (by decide)]
    simp [record, Field.of, Field.ofPresent, LineEnding.codec, EnumOrder.codec, options, mem_below,
      eq_comm (a := key), Compiler.nulls _ name, ApiReport.nulls _ name, DocModel.nulls _ name,
      Rollup.nulls _ name, Metadata.nulls _ name, nulls_messages _ name]

/-- The fields that are written are all but the omissible ones that are absent. -/
theorem keys_writeMembers (file : SettingsFile) :
    Json.keys (record.writeMembers file) =
      record.fieldNames.filter fun name => (name, true) ∉ file.omissible := by
  rw [Record.keys_writeMembers]
  obtain ⟨schema, extending⟩ := file
  cases schema <;> cases extending <;> rfl

/-- What is written of a file is a document that conforms and reads back as the file. The absent
options among `$schema` and `extends` are left out, and all other absent options, and nothing else
in the file and its sections, are written as null. -/
theorem read_write {file : SettingsFile} (h : file.KeysDistinct) :
    codec.read (codec.write file) = .ok file ∧ violations (codec.write file) = [] ∧
      (∃ members, codec.write file = .object members ∧
        Json.keys members =
          record.fieldNames.filter fun name => (name, true) ∉ file.omissible) ∧
      ∀ keys, keys.length ≤ 2 →
        ((codec.write file).at? keys = some .null ↔ (keys, true) ∈ file.options) := by
  have hread : codec.read (codec.write file) = .ok file := roundTrips h
  have hconforms : violations (codec.write file) = [] := by
    rw [violations, hread]
    rfl
  exact ⟨hread, hconforms, ⟨record.writeMembers file, rfl, keys_writeMembers file⟩,
    fun _ hk => at?_write_eq_null_iff file hk⟩

/-- A file with sections that are there and absent, tables, and a compiler configuration of its
own. -/
def mixedFile : SettingsFile where
  schema := none
  extending := some "base.json"
  projectFolder := some "."
  mainEntryPointFilePath := none
  additionalEntryPoints := [⟨"./tools", "lib/tools.d.ts"⟩]
  bundledPackages := ["left-pad"]
  compiler := some ⟨none, some [("compilerOptions", .object [("strict", .boolean true)]),
    ("files", .null)], true⟩
  apiReport := some ⟨true, none, some "etc", none, some [.published, .complete], false,
    [("@sealed", true), ("@virtual", false)]⟩
  docModel := none
  dtsRollup := some .blank
  tsdocMetadata := none
  messages := ⟨[("default", ⟨.warning, false⟩), ("TS2345", ⟨.error, true⟩)], [],
    [("tsdoc-undefined-tag", ⟨.silent, true⟩)]⟩
  newlineKind := some .lf
  testMode := true
  enumMemberOrder := none

/-- A document that is read as `mixedFile`. Most of what is absent is left out, and the sections are
behind the rest. -/
def mixedDocument : Json :=
  .object
    [("extends", .string "base.json"), ("projectFolder", .string "."),
      ("additionalEntryPoints", .array [.object
        [("filePath", .string "lib/tools.d.ts"), ("modulePath", .string "./tools")]]),
      ("bundledPackages", .array [.string "left-pad"]), ("newlineKind", .string "lf"),
      ("testMode", .boolean true), ("docModel", .null), ("dtsRollup", .object []),
      ("compiler", .object
        [("skipLibCheck", .boolean true),
          ("overrideTsconfig", .object
            [("compilerOptions", .object [("strict", .boolean true)]), ("files", .null)])]),
      ("apiReport", .object
        [("enabled", .boolean true), ("reportFolder", .string "etc"),
          ("reportVariants", .array [.string "public", .string "complete"]),
          ("tagsToReport", .object
            [("@sealed", .boolean true), ("@virtual", .boolean false)])]),
      ("messages", .object
        [("compilerMessageReporting", .object
            [("default", .object [("logLevel", .string "warning")]),
              ("TS2345", .object
                [("logLevel", .string "error"), ("addToApiReportFile", .boolean true)])]),
          ("tsdocMessageReporting", .object
            [("tsdoc-undefined-tag", .object
              [("logLevel", .string "none"), ("addToApiReportFile", .boolean true)])])])]

theorem read_write_mixedFile :
    mixedFile.KeysDistinct ∧ codec.read (codec.write mixedFile) = .ok mixedFile ∧
      violations (codec.write mixedFile) = [] ∧
      (codec.write mixedFile).at? ["compiler", "tsconfigFilePath"] = some .null := by
  have hdocument : codec.read mixedDocument = .ok mixedFile := rfl
  have h := keysDistinct_of_read hdocument
  obtain ⟨hread, hconforms, -, hnull⟩ := read_write h
  exact ⟨h, hread, hconforms, (hnull _ (by decide)).mpr (by decide)⟩

end SettingsFile

end ApiReview
