import ApiReview.Proofs.Json.Likeness
import ApiReview.Proofs.Settings.Transparent

/-!
# Documents that are alike but for their paths

Two documents may differ in their paths only, where these are related (`LikePaths`). They stay alike
when their paths are read from two folders, if that relates what the paths come to
(`likeMembers_anchorPaths`), and they are read to typed files that differ in their paths only
(`read_like`).
-/

namespace ApiReview

open Json (Like LikeMembers Members Record Relation Distinct find? change)

namespace SettingsFile

/-! ## Files with other paths -/

/-- An entry point with its path changed. -/
def EntryPoint.mapPath (m : String → String) (e : EntryPoint) : EntryPoint :=
  { e with filePath := m e.filePath }

/-- A section on the compiler with its path changed. -/
def Compiler.mapPaths (m : String → String) (s : Compiler) : Compiler :=
  { s with tsconfigFilePath := s.tsconfigFilePath.map m }

/-- A section on the API report with its paths changed. -/
def ApiReport.mapPaths (m : String → String) (s : ApiReport) : ApiReport :=
  { s with
    reportFolder := s.reportFolder.map m
    reportTempFolder := s.reportTempFolder.map m }

/-- A section on the model with its path changed. -/
def DocModel.mapPaths (m : String → String) (s : DocModel) : DocModel :=
  { s with apiJsonFilePath := s.apiJsonFilePath.map m }

/-- A section on rolled-up declarations with its paths changed. -/
def Rollup.mapPaths (m : String → String) (s : Rollup) : Rollup :=
  { s with
    untrimmedFilePath := s.untrimmedFilePath.map m
    alphaTrimmedFilePath := s.alphaTrimmedFilePath.map m
    betaTrimmedFilePath := s.betaTrimmedFilePath.map m
    publicTrimmedFilePath := s.publicTrimmedFilePath.map m }

/-- A section on the metadata file with its path changed. -/
def Metadata.mapPaths (m : String → String) (s : Metadata) : Metadata :=
  { s with tsdocMetadataFilePath := s.tsdocMetadataFilePath.map m }

/-- A settings file with its paths changed. -/
def mapPaths (m : String → String) (file : SettingsFile) : SettingsFile :=
  { file with
    projectFolder := file.projectFolder.map m
    mainEntryPointFilePath := file.mainEntryPointFilePath.map m
    additionalEntryPoints := file.additionalEntryPoints.map (EntryPoint.mapPath m)
    compiler := file.compiler.map (Compiler.mapPaths m)
    apiReport := file.apiReport.map (ApiReport.mapPaths m)
    docModel := file.docModel.map (DocModel.mapPaths m)
    dtsRollup := file.dtsRollup.map (Rollup.mapPaths m)
    tsdocMetadata := file.tsdocMetadata.map (Metadata.mapPaths m) }

end SettingsFile

namespace Settings

section Relations

variable (x : String → String → Prop) (ok : String → Prop)

/-- Texts that are related, or a value that is no text. -/
def LikeText (v w : Json) : Prop :=
  (∃ s s', v = .string s ∧ w = .string s' ∧ x s s') ∨ v = w ∧ v.text? = none

/-- Entry points that are the same but for their paths. A path by position is the same, and as it
has to be. -/
def LikeEntry : Relation := fun p v w =>
  if p = ["filePath"] then LikeText x v w
  else v = w ∧ (p = [] → ∀ s, listedFile? v = some s → ok s)

/-- Lists of entry points that are the same but for their paths, or a value that is no list. -/
def LikeEntries (v w : Json) : Prop :=
  (∃ es es', v = .array es ∧ w = .array es' ∧ List.Forall₂ (Like (LikeEntry x ok)) es es') ∨
    v = w ∧ v.items? = none

/-- Documents that are the same but for their paths. Paths by position are the same, and as they
have to be. -/
def LikePaths : Relation := fun p v w =>
  if p ∈ pathSettings then LikeText x v w
  else if p = ["additionalEntryPoints"] then LikeEntries x ok v w
  else v = w ∧ ∀ key, p = [key] → ∀ (setting : PathSetting) (s : String),
    setting.listed? (.object [(key, v)]) = some (.string s) → ok s

end Relations

variable {x x' : String → String → Prop} {ok : String → Prop} {v w : Json} {p : List String}

theorem LikeText.imp (h : LikeText x v w) (hx : ∀ s s', x s s' → x' s s') : LikeText x' v w := by
  rcases h with ⟨s, s', hv, hw, h⟩ | h
  · exact .inl ⟨s, s', hv, hw, hx s s' h⟩
  · exact .inr h

theorem LikeText.of_self (h : ∀ s, v = .string s → x s s) : LikeText x v v := by
  cases v with
  | string s => exact .inl ⟨s, s, rfl, rfl, h s rfl⟩
  | _ => exact .inr ⟨rfl, rfl⟩

theorem LikeEntry.imp (h : Like (LikeEntry x ok) v w) (hx : ∀ s s', x s s' → x' s s') :
    Like (LikeEntry x' ok) v w := by
  refine h.imp fun p v w h => ?_
  rw [LikeEntry] at h ⊢
  split
  · rename_i hp
    rw [if_pos hp] at h
    exact h.imp hx
  · rename_i hp
    rwa [if_neg hp] at h

theorem LikePaths.imp (h : Like (LikePaths x ok) v w) (hx : ∀ s s', x s s' → x' s s') :
    Like (LikePaths x' ok) v w := by
  refine h.imp fun p v w h => ?_
  rw [LikePaths] at h ⊢
  split
  · rename_i hp
    rw [if_pos hp] at h
    exact h.imp hx
  · rename_i hp
    rw [if_neg hp] at h
    split
    · rename_i he
      rw [if_pos he] at h
      rcases h with ⟨es, es', hv, hw, hall⟩ | h
      · exact .inl ⟨es, es', hv, hw, hall.imp fun _ _ h => LikeEntry.imp h hx⟩
      · exact .inr h
    · rename_i he
      rwa [if_neg he] at h

theorem LikePaths.likeText (h : LikePaths x ok p v w) (hp : p ∈ pathSettings) : LikeText x v w := by
  rwa [LikePaths, if_pos hp] at h

theorem LikePaths.likeEntries (h : LikePaths x ok ["additionalEntryPoints"] v w) :
    LikeEntries x ok v w := by
  rwa [LikePaths, if_neg (by decide), if_pos rfl] at h

/-- Where no path stands by name, values are the same. -/
theorem LikePaths.eq (h : LikePaths x ok p v w) (hp : p ∉ pathSettings)
    (he : p ≠ ["additionalEntryPoints"]) : v = w := by
  rw [LikePaths, if_neg hp, if_neg he] at h
  exact h.1

theorem LikePaths.listed {key : String} (h : LikePaths x ok [key] v w) (hp : [key] ∉ pathSettings)
    (he : key ≠ "additionalEntryPoints") {setting : PathSetting} {s : String}
    (hs : setting.listed? (.object [(key, v)]) = some (.string s)) : ok s := by
  rw [LikePaths, if_neg hp, if_neg fun e => he (List.cons.inj e).1] at h
  exact h.2 key rfl setting s hs

/-! ## A document and itself -/

/-- What holds of the paths of a document that stand by name, and of those by position. -/
structure PathsSatisfy (named listed : String → Prop) (document : Json) : Prop where
  named : ∀ (place : PathPlace) (s : String), place.at? document = some (.string s) → named s
  listed : ∀ s ∈ listedPaths document, listed s

/-- The paths that a document holds by name. -/
def namedPaths (document : Json) : List String :=
  PathSetting.all.filterMap (fun p => (document.at? p.keys).bind Json.text?) ++
    (entriesOf document).filterMap fun e => (e.get? "filePath").bind Json.text?

theorem PathsSatisfy.of_lists {named listed : String → Prop} {document : Json}
    (hnamed : ∀ s ∈ namedPaths document, named s) (hlisted : ∀ s ∈ listedPaths document, listed s) :
    PathsSatisfy named listed document := by
  refine ⟨fun place s hs => hnamed s ?_, hlisted⟩
  cases place with
  | setting setting =>
    refine List.mem_append_left _ (List.mem_filterMap.mpr ⟨setting, setting.mem_all, ?_⟩)
    rw [show document.at? setting.keys = some (.string s) from hs]
    rfl
  | entryPoint i =>
    obtain ⟨e, he, hfile⟩ := Option.bind_eq_some_iff.mp hs
    refine List.mem_append_right _ (List.mem_filterMap.mpr ⟨e, List.mem_of_getElem? he, ?_⟩)
    rw [hfile]
    rfl

/-- A path by position stands in the section that is given as an array. -/
theorem PathSetting.exists_of_listed? {setting : PathSetting} {document u : Json}
    (h : setting.listed? document = some u) :
    ∃ key v, document.get? key = some v ∧ v.isObject = false ∧ [key] ∉ pathSettings ∧
      key ≠ "additionalEntryPoints" ∧ setting.listed? (.object [(key, v)]) = some u := by
  have listed : ∀ {σ : Type} {q : Record σ} {key name : String},
      (document.get? key).bind (q.listed? name) = some u →
      ∃ v, document.get? key = some v ∧ v.isObject = false ∧ q.listed? name v = some u := by
    intro σ q key name h
    obtain ⟨v, hv, hu⟩ := Option.bind_eq_some_iff.mp h
    refine ⟨v, hv, ?_, hu⟩
    cases v with
    | object => cases hu
    | _ => rfl
  cases setting with
  | projectFolder => cases h
  | main => cases h
  | _ =>
    obtain ⟨v, hv, ho, hu⟩ := listed h
    exact ⟨_, v, hv, ho, by decide, by decide, hu⟩

theorem PathSetting.listed?_of_single {setting : PathSetting} {document v u : Json} {key : String}
    (h : setting.listed? (.object [(key, v)]) = some u) (hv : document.get? key = some v) :
    setting.listed? document = some u := by
  obtain ⟨key', v', hv', -, -, -, hu⟩ := exists_of_listed? h
  have hkey : key = key' := by
    by_contra hne
    rw [Json.get?, find?, if_neg hne] at hv'
    cases hv'
  subst hkey
  have listed : ∀ {σ : Type} {q : Record σ} {key' name : String},
      ((Json.object [(key, v)]).get? key').bind (q.listed? name) = some u →
      (document.get? key').bind (q.listed? name) = some u := by
    intro σ q key' name h
    obtain ⟨v', hv', hu⟩ := Option.bind_eq_some_iff.mp h
    rw [Json.get?, find?] at hv'
    split at hv'
    · rename_i e
      subst e
      rw [hv]
      exact hv' ▸ hu
    · cases hv'
  cases setting with
  | projectFolder => cases h
  | main => cases h
  | _ => exact listed h

/-- A document is alike to itself if its paths are related to themselves. -/
theorem PathsSatisfy.like {named : String → Prop} {document : Json}
    (hd : Json.IsDocument document) (h : PathsSatisfy named ok document)
    (hx : ∀ s, named s → x s s) : Like (LikePaths x ok) document document := by
  have hget : ∀ (key : String) (v : Json), document.at? [key] = some v →
      document.get? key = some v := fun key v hv => by
    rw [Json.at?] at hv
    cases hg : document.get? key with
    | none => rw [hg] at hv; cases hv
    | some w => rw [hg] at hv; exact hv
  refine Json.like_refl document hd.distinct fun p u hu ho => ?_
  rw [LikePaths]
  split
  · rename_i hp
    obtain ⟨setting, -, rfl⟩ := List.mem_map.mp (PathSetting.map_keys_all ▸ hp)
    exact .of_self fun s hs => hx s (h.named (.setting setting) s (hs ▸ hu))
  · split
    · rename_i he
      subst he
      cases u with
      | array entries =>
        have hentries := entriesOf_of_at? hu
        refine .inl ⟨entries, entries, rfl, rfl, List.forall₂_same.mpr fun e hm => ?_⟩
        have hmem : e ∈ entriesOf document := hentries ▸ hm
        refine Json.like_refl e (distinct_of_mem_entriesOf hd hmem) fun q w hw _ => ?_
        rw [LikeEntry]
        split
        · rename_i hq
          subst hq
          refine .of_self fun s hs => hx s ?_
          obtain ⟨i, hi⟩ := List.mem_iff_getElem?.mp hmem
          refine h.named (.entryPoint i) s ?_
          rw [PathPlace.at?, hi, Option.bind_some]
          rw [Json.at?] at hw
          cases hg : e.get? "filePath" with
          | none => rw [hg] at hw; cases hw
          | some w' => rw [hg] at hw; exact hw.trans (congrArg some hs)
        · refine ⟨rfl, ?_⟩
          rintro rfl s hs
          cases hw
          exact h.listed s (List.mem_append_right _ (List.mem_filterMap.mpr ⟨_, hmem, hs⟩))
      | _ => exact .inr ⟨rfl, rfl⟩
    · refine ⟨rfl, ?_⟩
      rintro key rfl setting s hs
      have hlisted := PathSetting.listed?_of_single hs (hget key u hu)
      refine h.listed s (List.mem_append_left _ ?_)
      exact List.mem_filterMap.mpr ⟨setting, setting.mem_all, by rw [hlisted]; rfl⟩

/-! ## Paths read from two folders -/

theorem likeMembers_changeAt {r : Relation} {f g : Json → Json} {p : List String}
    {ms ns : Members} (h : LikeMembers r ms ns)
    (hf : ∀ v w, Like (fun q => r (p ++ q)) v w → Like (fun q => r (p ++ q)) (f v) (g w)) :
    LikeMembers r (changeAt f p ms) (changeAt g p ns) := by
  induction p generalizing r ms ns with
  | nil => exact h
  | cons key p ih =>
    cases p with
    | nil => exact h.change hf
    | cons next p =>
      rw [changeAt, changeAt]
      refine h.change fun v w hvw => ?_
      cases hvw with
      | object hinner => exact .object (ih hinner hf)
      | value hv hw h =>
        cases v with
        | object => cases hv
        | _ =>
          cases w with
          | object => cases hw
          | _ => exact .value hv hw h

section Anchor

variable {here there : Path} (hx : ∀ s s', x s s' → x (anchorPath here s) (anchorPath there s'))

include hx

theorem LikeText.anchorValue (h : LikeText x v w) :
    LikeText x (anchorValue here v) (anchorValue there w) := by
  rcases h with ⟨s, s', rfl, rfl, h⟩ | ⟨rfl, hv⟩
  · exact .inl ⟨_, _, rfl, rfl, hx s s' h⟩
  · cases v with
    | string => cases hv
    | _ => exact .inr ⟨rfl, rfl⟩

theorem like_anchorValue {r : Relation} (hr : ∀ v w, r [] v w ↔ LikeText x v w)
    (h : Like r v w) : Like r (anchorValue here v) (anchorValue there w) := by
  have hobject : ∀ (folder : Path) (v : Json), (anchorValue folder v).isObject = v.isObject :=
    fun folder v => by cases v <;> rfl
  cases h with
  | object h => exact .object h
  | value hv hw h =>
    refine .value ((hobject _ _).trans hv) ((hobject _ _).trans hw) ((hr _ _).mpr ?_)
    exact LikeText.anchorValue hx ((hr _ _).mp h)

theorem like_anchorEntryPoint (h : Like (LikeEntry x ok) v w) :
    Like (LikeEntry x ok) (anchorEntryPoint here v) (anchorEntryPoint there w) := by
  cases h with
  | object h =>
    refine .object (h.change fun v w hvw => like_anchorValue hx (fun v w => ?_) hvw)
    rw [Relation.below, LikeEntry, if_pos rfl]
  | value hv hw h =>
    cases v with
    | object => cases hv
    | _ =>
      cases w with
      | object => cases hw
      | _ => exact .value hv hw h

/-- Documents that are alike but for their paths stay so when the paths are read from two folders,
if what they come to is related. -/
theorem likeMembers_anchorPaths {ms ns : Members} (h : LikeMembers (LikePaths x ok) ms ns) :
    LikeMembers (LikePaths x ok) (anchorPaths here ms) (anchorPaths there ns) := by
  have hfold : ∀ (paths : List (List String)), (∀ p ∈ paths, p ∈ pathSettings) →
      ∀ {ms ns : Members}, LikeMembers (LikePaths x ok) ms ns →
      LikeMembers (LikePaths x ok)
        (paths.foldl (fun ms p => changeAt (anchorValue here) p ms) ms)
        (paths.foldl (fun ms p => changeAt (anchorValue there) p ms) ns) := by
    intro paths hpaths
    induction paths with
    | nil => exact fun h => h
    | cons p paths ih =>
      obtain ⟨hp, hpaths⟩ := List.forall_mem_cons.mp hpaths
      refine fun h => ih hpaths (likeMembers_changeAt h fun v w => ?_)
      refine like_anchorValue hx fun v w => ?_
      rw [List.append_nil, LikePaths, if_pos hp]
  refine (hfold pathSettings (fun p hp => hp) h).change fun v w hvw => ?_
  cases hvw with
  | object h => exact .object h
  | value hv hw h =>
    rcases LikePaths.likeEntries h with ⟨es, es', rfl, rfl, hall⟩ | ⟨rfl, hitems⟩
    · refine .value rfl rfl ?_
      rw [Relation.below, LikePaths, if_neg (by decide), if_pos rfl]
      refine .inl ⟨_, _, rfl, rfl, ?_⟩
      rw [List.forall₂_map_left_iff, List.forall₂_map_right_iff]
      exact hall.imp fun e e' => like_anchorEntryPoint hx
    · cases v with
      | array => cases hitems
      | object => cases hv
      | _ => exact .value rfl rfl h

end Anchor

/-! ## Typed files -/

section Reading

variable {m : String → String} (hx : ∀ s s', x s s' → s' = m s) (hok : ∀ s, ok s → m s = s)

include hx in
theorem readsLike_text {r : Relation} (hr : ∀ v w, r [] v w → LikeText x v w) :
    Json.ReadsLike r Json.Codec.string.optional (Option.map m) := by
  intro v w _ hvw
  cases hvw with
  | object => rfl
  | value hv hw h =>
    rcases hr _ _ h with ⟨s, s', rfl, rfl, hs⟩ | ⟨rfl, ht⟩
    · rw [hx s s' hs]
      rfl
    · cases v with
      | string => cases ht
      | _ => rfl

section Fields

variable {τ : Type} {key name : String} {m' : τ → τ}

/-- A field of a section that is no path is read alike. -/
theorem readsLike_other {α : Type} (c : Json.Codec α) {get : τ → α} {set : α → τ → τ}
    (h : ∀ p, key :: name :: p ∉ pathSettings) (hset : ∀ a s, set a (m' s) = m' (set a s)) :
    (Json.Field.of name c get set).ReadsLike ((LikePaths x ok).below key) m' :=
  Json.Field.readsLike (m := id) (fun _ _ => rfl)
    (Json.readsLike_of_eq c fun p _ _ hvw => hvw.eq (h p) fun e => by cases e) hset

include hx in
/-- A field of a section that is a path is read alike, but for the path. -/
theorem readsLike_path {get : τ → Option String} {set : Option String → τ → τ}
    (h : [key, name] ∈ pathSettings)
    (hset : ∀ (a : Option String) s, set (a.map m) (m' s) = m' (set a s)) :
    (Json.Field.of name Json.Codec.string.optional get set).ReadsLike
      ((LikePaths x ok).below key) m' :=
  Json.Field.readsLike (fun _ _ => rfl) (readsLike_text hx fun _ _ hvw => hvw.likeText h) hset

/-- A path by position stays as it is. -/
theorem map_get_of_listed {q : Record τ} {y : Json.Component τ (Option String)}
    (hy : q.Reads name Json.Codec.string.optional y) (hblank : y.get q.blank = none)
    (hd : Distinct v) (hv : v.isObject = false)
    (hlisted : ∀ s, q.listed? name v = some (.string s) → m s = s) {part : τ}
    (h : q.read v = .ok part) : (y.get part).map m = y.get part := by
  cases hget : y.get part with
  | none => rfl
  | some s =>
    refine congrArg some (hlisted s ?_)
    have hvalue := (hy.get_eq_some_iff hblank hd h s).mp hget
    rcases Record.valueOf?_eq_some_iff.mp hvalue with hnamed | hlisted
    · cases v with
      | object => cases hv
      | _ => cases hnamed
    · exact hlisted

/-- A section is read alike, but for its paths, if its fields are and if its paths by position stay
as they are. -/
theorem readsLike_section {q : Record τ} (hkey : [key] ∉ pathSettings)
    (he : key ≠ "additionalEntryPoints") (hblank : m' q.blank = q.blank)
    (hfields : ∀ f ∈ q.fields, f.ReadsLike ((LikePaths x ok).below key) m')
    (hfixed : ∀ v part, Distinct v → v.isObject = false →
      (∀ (setting : PathSetting) (s : String),
        setting.listed? (.object [(key, v)]) = some (.string s) → ok s) →
      q.read v = .ok part → m' part = part) :
    Json.ReadsLike ((LikePaths x ok).below key) q.codec.optional (Option.map m') := by
  have same : ∀ v w, (LikePaths x ok).below key [] v w → v = w := fun v w h =>
    h.eq hkey fun e => he (List.cons.inj e).1
  refine (Record.readsLike hblank hfields fun v w hd hv h => ?_).optional fun v w h => ?_
  · obtain rfl := same v w h
    cases hr : q.read v with
    | error e => rfl
    | ok part => exact congrArg some (hfixed v part hd hv (fun _ _ => h.listed hkey he) hr).symm
  · rw [same v w h]

end Fields

open SettingsFile (Compiler ApiReport DocModel Rollup Metadata)

include hx hok

theorem readsLike_compiler : Json.ReadsLike ((LikePaths x ok).below "compiler")
    Compiler.record.codec.optional (Option.map (Compiler.mapPaths m)) := by
  refine readsLike_section (by decide) (by decide) rfl ?_ fun v part hd hv hlisted hr => ?_
  · simp only [Compiler.record, List.forall_mem_cons]
    exact ⟨readsLike_path hx (by decide) fun _ _ => rfl,
      readsLike_other _ (by simp [pathSettings]) fun _ _ => rfl,
      readsLike_other _ (by simp [pathSettings]) fun _ _ => rfl,
      fun _ h => absurd h List.not_mem_nil⟩
  · have hfile := map_get_of_listed Compiler.reads_tsconfig rfl hd hv
      (fun s hs => hok s (hlisted .tsconfig s hs)) hr
    exact congrArg (fun file => { part with tsconfigFilePath := file }) hfile

theorem readsLike_apiReport : Json.ReadsLike ((LikePaths x ok).below "apiReport")
    ApiReport.record.codec.optional (Option.map (ApiReport.mapPaths m)) := by
  refine readsLike_section (by decide) (by decide) rfl ?_ fun v part hd hv hlisted hr => ?_
  · simp only [ApiReport.record, List.forall_mem_cons]
    exact ⟨readsLike_other _ (by simp [pathSettings]) fun _ _ => rfl,
      readsLike_other _ (by simp [pathSettings]) fun _ _ => rfl,
      readsLike_path hx (by decide) fun _ _ => rfl, readsLike_path hx (by decide) fun _ _ => rfl,
      readsLike_other _ (by simp [pathSettings]) fun _ _ => rfl,
      readsLike_other _ (by simp [pathSettings]) fun _ _ => rfl,
      readsLike_other _ (by simp [pathSettings]) fun _ _ => rfl,
      fun _ h => absurd h List.not_mem_nil⟩
  · have hfolder := map_get_of_listed ApiReport.reads_folder rfl hd hv
      (fun s hs => hok s (hlisted .reportFolder s hs)) hr
    have htemp := map_get_of_listed ApiReport.reads_tempFolder rfl hd hv
      (fun s hs => hok s (hlisted .reportTempFolder s hs)) hr
    exact congrArg₂ (fun folder temp =>
      { part with reportFolder := folder, reportTempFolder := temp }) hfolder htemp

theorem readsLike_docModel : Json.ReadsLike ((LikePaths x ok).below "docModel")
    DocModel.record.codec.optional (Option.map (DocModel.mapPaths m)) := by
  refine readsLike_section (by decide) (by decide) rfl ?_ fun v part hd hv hlisted hr => ?_
  · simp only [DocModel.record, List.forall_mem_cons]
    exact ⟨readsLike_other _ (by simp [pathSettings]) fun _ _ => rfl,
      readsLike_path hx (by decide) fun _ _ => rfl,
      readsLike_other _ (by simp [pathSettings]) fun _ _ => rfl,
      readsLike_other _ (by simp [pathSettings]) fun _ _ => rfl,
      readsLike_other _ (by simp [pathSettings]) fun _ _ => rfl,
      fun _ h => absurd h List.not_mem_nil⟩
  · have hfile := map_get_of_listed DocModel.reads_file rfl hd hv
      (fun s hs => hok s (hlisted .model s hs)) hr
    exact congrArg (fun file => { part with apiJsonFilePath := file }) hfile

theorem readsLike_dtsRollup : Json.ReadsLike ((LikePaths x ok).below "dtsRollup")
    Rollup.record.codec.optional (Option.map (Rollup.mapPaths m)) := by
  refine readsLike_section (by decide) (by decide) rfl ?_ fun v part hd hv hlisted hr => ?_
  · simp only [Rollup.record, List.forall_mem_cons]
    exact ⟨readsLike_other _ (by simp [pathSettings]) fun _ _ => rfl,
      readsLike_path hx (by decide) fun _ _ => rfl, readsLike_path hx (by decide) fun _ _ => rfl,
      readsLike_path hx (by decide) fun _ _ => rfl, readsLike_path hx (by decide) fun _ _ => rfl,
      readsLike_other _ (by simp [pathSettings]) fun _ _ => rfl,
      fun _ h => absurd h List.not_mem_nil⟩
  · have huntrimmed := map_get_of_listed Rollup.reads_untrimmed rfl hd hv
      (fun s hs => hok s (hlisted .untrimmed s hs)) hr
    have halpha := map_get_of_listed Rollup.reads_alphaTrimmed rfl hd hv
      (fun s hs => hok s (hlisted .alphaTrimmed s hs)) hr
    have hbeta := map_get_of_listed Rollup.reads_betaTrimmed rfl hd hv
      (fun s hs => hok s (hlisted .betaTrimmed s hs)) hr
    have hpublic := map_get_of_listed Rollup.reads_publicTrimmed rfl hd hv
      (fun s hs => hok s (hlisted .publicTrimmed s hs)) hr
    show Rollup.mk _ (Rollup.untrimmed.get part |>.map m) (Rollup.alphaTrimmed.get part |>.map m)
      (Rollup.betaTrimmed.get part |>.map m) (Rollup.publicTrimmed.get part |>.map m) _ = part
    rw [huntrimmed, halpha, hbeta, hpublic]
    rfl

theorem readsLike_tsdocMetadata : Json.ReadsLike ((LikePaths x ok).below "tsdocMetadata")
    Metadata.record.codec.optional (Option.map (Metadata.mapPaths m)) := by
  refine readsLike_section (by decide) (by decide) rfl ?_ fun v part hd hv hlisted hr => ?_
  · simp only [Metadata.record, List.forall_mem_cons]
    exact ⟨readsLike_other _ (by simp [pathSettings]) fun _ _ => rfl,
      readsLike_path hx (by decide) fun _ _ => rfl, fun _ h => absurd h List.not_mem_nil⟩
  · have hfile := map_get_of_listed Metadata.reads_file rfl hd hv
      (fun s hs => hok s (hlisted .metadata s hs)) hr
    exact congrArg (fun file => { part with tsdocMetadataFilePath := file }) hfile

end Reading

/-! ## Further entry points and files -/

section File

open SettingsFile (EntryPoint)

variable {m : String → String} (hx : ∀ s s', x s s' → s' = m s) (hok : ∀ s, ok s → m s = s)
  (hempty : ok "")

include hx hok hempty

theorem readsLike_entryPoint :
    Json.ReadsLike (LikeEntry x ok) EntryPoint.record.codec (EntryPoint.mapPath m) := by
  have htext : Json.ReadsLike (Relation.below (LikeEntry x ok) "filePath") Json.Codec.string m := by
    intro v w _ hvw
    cases hvw with
    | object => rfl
    | value hv hw h =>
      rw [Relation.below, LikeEntry, if_pos rfl] at h
      rcases h with ⟨s, s', rfl, rfl, hs⟩ | ⟨rfl, ht⟩
      · rw [hx s s' hs]
        rfl
      · cases v with
        | string => cases ht
        | _ => rfl
  have hother : ∀ p v w, Relation.below (LikeEntry x ok) "modulePath" p v w → v = w :=
    fun p v w h => by
      rw [Relation.below, LikeEntry, if_neg (by simp)] at h
      exact h.1
  have hfields : ∀ f ∈ EntryPoint.record.fields,
      f.ReadsLike (LikeEntry x ok) (EntryPoint.mapPath m) := by
    simp only [EntryPoint.record, List.forall_mem_cons]
    exact ⟨Json.Field.readsLike (m := id) (fun _ _ => rfl) (Json.readsLike_of_eq _ hother)
        fun _ _ => rfl,
      Json.Field.readsLike (fun _ _ => rfl) htext fun _ _ => rfl,
      fun _ h => absurd h List.not_mem_nil⟩
  have hblank : EntryPoint.mapPath m EntryPoint.record.blank = EntryPoint.record.blank := by
    show SettingsFile.EntryPoint.mk "" (m "") = SettingsFile.EntryPoint.mk "" ""
    rw [hok "" hempty]
  refine Record.readsLike hblank hfields fun v w hd hv h => ?_
  rw [LikeEntry, if_neg (by decide)] at h
  obtain ⟨rfl, hlisted⟩ := h
  cases hr : EntryPoint.record.read v with
  | error e => rfl
  | ok e =>
    refine congrArg some (congrArg (SettingsFile.EntryPoint.mk e.modulePath) ?_).symm
    refine hok e.filePath ?_
    rcases filePath_cases hd hr with hu | hu | hu
    · cases v with
      | object => cases hv
      | _ => cases hu
    · exact hlisted rfl _ hu
    · rw [hu]
      exact hempty

theorem readsLike_entryPoints :
    Json.ReadsLike ((LikePaths x ok).below "additionalEntryPoints") EntryPoint.record.codec.list
      (List.map (EntryPoint.mapPath m)) := by
  intro v w hd hvw
  cases hvw with
  | object => rfl
  | value hv hw h =>
    rcases LikePaths.likeEntries h with ⟨es, es', rfl, rfl, hall⟩ | ⟨rfl, hitems⟩
    · have hitems : Json.DistinctItems es := hd
      clear h hv hw hd
      show (Json.Codec.readItems _ es').toOption = (Json.Codec.readItems _ es).toOption.map _
      induction hall with
      | nil => rfl
      | @cons e e' es es' he _ ih =>
        have hfirst := readsLike_entryPoint hx hok hempty e e' hitems.1 he
        have hrest := ih hitems.2
        rw [Json.Codec.readItems, Json.Codec.readItems]
        generalize EntryPoint.record.codec.read e = first at hfirst ⊢
        generalize EntryPoint.record.codec.read e' = first' at hfirst ⊢
        generalize Json.Codec.readItems EntryPoint.record.codec.read es = rest at hrest ⊢
        generalize Json.Codec.readItems EntryPoint.record.codec.read es' = rest' at hrest ⊢
        cases first <;> cases first' <;> cases hfirst
        · rfl
        · cases rest <;> cases rest' <;> cases hrest <;> rfl
    · cases v with
      | array => cases hitems
      | _ => rfl

/-- Documents that are alike but for their paths are read to typed files that are the same but for
their paths. -/
theorem read_like {document document' : Json} (hd : Json.IsDocument document)
    (h : Like (LikePaths x ok) document document') :
    (SettingsFile.codec.read document').toOption =
      (SettingsFile.codec.read document).toOption.map (SettingsFile.mapPaths m) := by
  obtain ⟨ms, rfl⟩ := Json.exists_members hd.isObject
  obtain ⟨ns, rfl, hmembers⟩ := h.members
  have other : ∀ (name : String) {α : Type} (c : Json.Codec α) {f : Json.Field SettingsFile}
      {set : α → SettingsFile → SettingsFile}, f.name = name → (∀ p, name :: p ∉ pathSettings) →
      name ≠ "additionalEntryPoints" → (∀ v s, f.read v s = (c.read v).map (set · s)) →
      (∀ a s, set a (s.mapPaths m) = (set a s).mapPaths m) →
      f.ReadsLike (LikePaths x ok) (SettingsFile.mapPaths m) := by
    rintro _ α c f set rfl hp he hread hset
    exact Json.Field.readsLike (m := id) hread
      (Json.readsLike_of_eq _ fun p _ _ hvw => hvw.eq (hp p) fun e => he (List.cons.inj e).1) hset
  have path : ∀ {name : String}, [name] ∈ pathSettings →
      Json.ReadsLike ((LikePaths x ok).below name) Json.Codec.string.optional (Option.map m) :=
    fun hp => readsLike_text hx fun _ _ hvw => hvw.likeText hp
  refine Record.read_object_like rfl ?_ hd.distinct hmembers
  simp only [SettingsFile.record, List.forall_mem_cons]
  refine ⟨
    other "$schema" _ rfl (by simp [pathSettings]) (by decide) (fun _ _ => rfl)
      fun _ _ => rfl,
    other "extends" _ rfl (by simp [pathSettings]) (by decide) (fun _ _ => rfl)
      fun _ _ => rfl,
    Json.Field.readsLike (fun _ _ => rfl) (path (by decide)) fun _ _ => rfl,
    Json.Field.readsLike (fun _ _ => rfl) (path (by decide)) fun _ _ => rfl,
    Json.Field.readsLike (fun _ _ => rfl) (readsLike_entryPoints hx hok hempty) fun _ _ => rfl,
    other "bundledPackages" _ rfl (by simp [pathSettings]) (by decide) (fun _ _ => rfl)
      fun _ _ => rfl,
    Json.Field.readsLike (fun _ _ => rfl) (readsLike_compiler hx hok) fun _ _ => rfl,
    Json.Field.readsLike (fun _ _ => rfl) (readsLike_apiReport hx hok) fun _ _ => rfl,
    Json.Field.readsLike (fun _ _ => rfl) (readsLike_docModel hx hok) fun _ _ => rfl,
    Json.Field.readsLike (fun _ _ => rfl) (readsLike_dtsRollup hx hok) fun _ _ => rfl,
    Json.Field.readsLike (fun _ _ => rfl) (readsLike_tsdocMetadata hx hok) fun _ _ => rfl,
    other "messages" _ rfl (by simp [pathSettings]) (by decide) (fun _ _ => rfl)
      fun _ _ => rfl,
    other "newlineKind" _ rfl (by simp [pathSettings]) (by decide) (fun _ _ => rfl)
      fun _ _ => rfl,
    other "testMode" _ rfl (by simp [pathSettings]) (by decide) (fun _ _ => rfl)
      fun _ _ => rfl,
    other "enumMemberOrder" _ rfl (by simp [pathSettings]) (by decide) (fun _ _ => rfl)
      fun _ _ => rfl,
    fun _ h => absurd h List.not_mem_nil⟩

end File

/-! ## The paths of a typed file -/

theorem LikeText.exists_of_string {s : String} (h : LikeText x (.string s) w) : ∃ s', x s s' := by
  rcases h with ⟨s₀, s', hs, -, h⟩ | ⟨-, ht⟩
  · exact ⟨s', Json.string.inj hs ▸ h⟩
  · cases ht

/-- A path that a document holds by name is related to that of a document that is alike. -/
theorem exists_of_like {document document' : Json} (h : Like (LikePaths x ok) document document')
    (hp : p ∈ pathSettings) {s : String} (hs : document.at? p = some (.string s)) :
    ∃ s', x s s' := by
  have hat := h.at? (p := p)
  rw [hs] at hat
  generalize document'.at? p = other at hat
  cases hat with
  | some hat =>
    have htext := hat.of_not_object rfl
    rw [List.append_nil] at htext
    exact (htext.likeText hp).exists_of_string

/-- A path of an entry point is as it has to be by position, or related to another one. -/
theorem ok_or_exists_of_entryPoint (hempty : ok "") (hd : Distinct v)
    (h : Like (LikeEntry x ok) v w) {e : SettingsFile.EntryPoint}
    (hread : SettingsFile.EntryPoint.record.read v = .ok e) :
    ok e.filePath ∨ ∃ s', x e.filePath s' := by
  rcases filePath_cases hd hread with hv | hv | hv
  · cases h with
    | value hobject => cases v <;> first | cases hv | cases hobject
    | object hmembers =>
      have hfind := hmembers.find? "filePath"
      rw [show Json.find? "filePath" _ = some (.string e.filePath) from hv] at hfind
      generalize Json.find? "filePath" _ = other at hfind
      cases hfind with
      | some hfind =>
        have htext := hfind.of_not_object rfl
        rw [Relation.below, LikeEntry, if_pos rfl] at htext
        exact .inr htext.exists_of_string
  · cases h with
    | value hobject _ h =>
      rw [LikeEntry, if_neg (by simp)] at h
      exact .inl (h.2 rfl _ hv)
    | object => cases hv
  · rw [hv]
    exact .inl hempty

/-- A path of a typed file is as it has to be by position, or related to another one by name. -/
theorem ok_or_exists_of_mem_pathsOf {document document' : Json} {file : SettingsFile}
    (hempty : ok "") (hd : Json.IsDocument document)
    (h : Like (LikePaths x ok) document document')
    (hread : SettingsFile.codec.read document = .ok file) {s : String} (hs : s ∈ pathsOf file) :
    ok s ∨ ∃ s', x s s' := by
  obtain ⟨ms, rfl⟩ := Json.exists_members hd.isObject
  obtain ⟨ns, rfl, hmembers⟩ := h.members
  rcases List.mem_append.mp hs with hs | hs
  · obtain ⟨setting, -, hs⟩ := List.mem_filterMap.mp hs
    rcases (setting.get?_eq_some_iff hd hread s).mp hs with hs | hs
    · exact .inr (exists_of_like h setting.keys_mem hs)
    · obtain ⟨key, v, hv, ho, hp, he, hl⟩ := PathSetting.exists_of_listed? hs
      have hfind := hmembers.find? key
      rw [show Json.find? key ms = some v from hv] at hfind
      generalize Json.find? key ns = other at hfind
      cases hfind with
      | some hfind => exact .inl ((hfind.of_not_object ho).listed hp he hl)
  · obtain ⟨e, he, rfl⟩ := List.mem_map.mp hs
    obtain ⟨v, hv, hentry⟩ := exists_mem_of_forall₂ (forall₂_entryPoints hd hread).flip he
    have hat := entriesOf_eq hv
    rw [Json.at?_singleton_object] at hat
    have hfind := hmembers.find? "additionalEntryPoints"
    rw [hat] at hfind
    generalize Json.find? "additionalEntryPoints" ns = other at hfind
    cases hfind with
    | some hfind =>
      rcases LikePaths.likeEntries (hfind.of_not_object rfl) with ⟨es, es', hes, -, hall⟩ | hitems
      · cases hes
        obtain ⟨w, -, hvw⟩ := exists_mem_of_forall₂ hall hv
        exact ok_or_exists_of_entryPoint hempty (distinct_of_mem_entriesOf hd hv) hvw hentry
      · cases hitems.2

end Settings

end ApiReview
