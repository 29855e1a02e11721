import ApiReview.Proofs.Settings.Alike
import ApiReview.Proofs.Settings.Typed

/-!
# Places of paths

A path stands in a document under the keys of a path setting or in a further entry point
(`PathPlace`). Another text in such a place is another text in the typed file, in the same place,
and nothing else (`PathPlace.read_put`); files that have texts there which are prepared alike are
alike (`PathPlace.alikeFiles_set`).
-/

namespace ApiReview.Settings

open Json (Record Component Codec Members change find?)
open SettingsFile (EntryPoint Compiler ApiReport DocModel Rollup Metadata)

/-- Where a document has a path by name. -/
inductive PathPlace where
  | setting (p : PathSetting)
  | entryPoint (i : Nat)
  deriving DecidableEq, Repr

/-! ## Other texts -/

/-- A file with another text in a part, if it has that part. -/
def setIn {τ : Type} (x : Component SettingsFile (Option τ)) (y : Component τ (Option String))
    (s : String) (file : SettingsFile) : SettingsFile :=
  x.set ((x.get file).map (y.set (some s))) file

/-- A file with another text for the setting. -/
def PathSetting.set (s : String) : PathSetting → SettingsFile → SettingsFile
  | projectFolder => SettingsFile.folder.set (some s)
  | main => SettingsFile.main.set (some s)
  | tsconfig => setIn SettingsFile.compilerPart Compiler.tsconfig s
  | reportFolder => setIn SettingsFile.reportPart ApiReport.folder s
  | reportTempFolder => setIn SettingsFile.reportPart ApiReport.tempFolder s
  | model => setIn SettingsFile.modelPart DocModel.file s
  | untrimmed => setIn SettingsFile.rollupPart Rollup.untrimmed s
  | alphaTrimmed => setIn SettingsFile.rollupPart Rollup.alphaTrimmed s
  | betaTrimmed => setIn SettingsFile.rollupPart Rollup.betaTrimmed s
  | publicTrimmed => setIn SettingsFile.rollupPart Rollup.publicTrimmed s
  | metadata => setIn SettingsFile.metadataPart Metadata.file s

/-- A value with another text for the path of an entry point, if it has one. -/
def putFile (s : String) : Json → Json
  | .object members => .object (change "filePath" (fun _ => .string s) members)
  | v => v

/-- A value with another text for the path of one of its items. -/
def putFileAt (i : Nat) (s : String) : Json → Json
  | .array entries => .array (entries.modify i (putFile s))
  | v => v

namespace PathPlace

/-- What a document has in the place. -/
def at? : PathPlace → Json → Option Json
  | setting p, document => document.at? p.keys
  | entryPoint i, document => (entriesOf document)[i]?.bind (Json.get? "filePath")

/-- A document with another text in the place, if it has something there. -/
def put (s : String) : PathPlace → Json → Json
  | setting p, .object members => .object (changeAt (fun _ => .string s) p.keys members)
  | entryPoint i, .object members =>
    .object (change "additionalEntryPoints" (putFileAt i s) members)
  | _, v => v

/-- A file with another text in the place, if it has something there. -/
def set (s : String) : PathPlace → SettingsFile → SettingsFile
  | setting p => p.set s
  | entryPoint i => fun file => SettingsFile.entryPoints.set
      (file.additionalEntryPoints.modify i (EntryPoint.file.set s)) file

end PathPlace

/-! ## Reading another text -/

/-- A change is that of the value that is there. -/
theorem change_const {key : String} {v : Json} {members : Members} (h : find? key members = some v)
    (f : Json → Json) : change key f members = change key (fun _ => f v) members := by
  induction members with
  | nil => rfl
  | cons m rest ih =>
    obtain ⟨k, w⟩ := m
    rw [find?] at h
    rw [change, change]
    split at h
    · rename_i e
      rw [if_pos e, if_pos e, Option.some.inj h]
    · rename_i e
      rw [if_neg e, if_neg e, ih h]

theorem readItems_modify {α : Type} {read : Json → Except Json.Misfit α} {items : List Json}
    {as : List α} (h : Codec.readItems read items = .ok as) {i : Nat} {v : Json}
    (hv : items[i]? = some v) {f : Json → Json} {g : α → α}
    (hf : ∀ a, read v = .ok a → read (f v) = .ok (g a)) :
    Codec.readItems read (items.modify i f) = .ok (as.modify i g) := by
  induction items generalizing as i with
  | nil => cases hv
  | cons w items ih =>
    obtain ⟨a, ha, h⟩ := bind_eq_ok h
    obtain ⟨rest, hrest, h⟩ := bind_eq_ok h
    cases h
    cases i with
    | zero =>
      obtain rfl : w = v := Option.some.inj hv
      rw [List.modify_zero_cons, List.modify_zero_cons, Codec.readItems]
      exact bind_of_ok (hf a ha) (bind_of_ok hrest rfl)
    | succ i =>
      rw [List.modify_succ_cons, List.modify_succ_cons, Codec.readItems]
      exact bind_of_ok ha (bind_of_ok (ih hrest hv) rfl)

section Reading

variable {members : Members} (hd : Json.DistinctMembers members) {file : SettingsFile}
  (h : SettingsFile.codec.read (.object members) = .ok file) {old : String} (s : String)

include hd h

theorem read_put_top {name : String} {x : Component SettingsFile (Option String)}
    (hx : SettingsFile.record.Reads name Codec.string.optional x)
    (hold : (Json.object members).at? [name] = some (.string old)) :
    SettingsFile.codec.read (.object (changeAt (fun _ => .string s) [name] members)) =
      .ok (x.set (some s) file) := by
  rw [Json.at?_singleton_object] at hold
  have hchange := hx.read_change hd hold (a := some s) (b := some old) (w := .string s) rfl rfl
  exact hchange.trans (congrArg (Except.map _) h)

theorem read_put_section {τ : Type} {q : Record τ} {key name : String}
    {x : Component SettingsFile (Option τ)} {y : Component τ (Option String)}
    (hx : SettingsFile.record.Reads key q.codec.optional x)
    (hy : q.Reads name Codec.string.optional y)
    (hold : (Json.object members).at? [key, name] = some (.string old)) :
    SettingsFile.codec.read (.object (changeAt (fun _ => .string s) [key, name] members)) =
      .ok (setIn x y s file) := by
  obtain ⟨inner, hfind, hinner⟩ : ∃ inner, find? key members = some (.object inner) ∧
      find? name inner = some (.string old) := by
    rw [Json.at?_cons_object] at hold
    obtain ⟨v, hv, hold⟩ := Option.bind_eq_some_iff.mp hold
    cases v with
    | object inner => exact ⟨inner, hv, by rwa [Json.at?_singleton_object] at hold⟩
    | _ => cases hold
  have hread := hx.get_read (v := .object members) hd h
  rw [show SettingsFile.record.valueOf? key (.object members) = _ from hfind] at hread
  obtain ⟨part, hpart, hget⟩ := map_eq_ok hread
  -- The part is read with the other text, and then the file with the other part.
  have hother : q.read (.object (change name (fun _ => .string s) inner)) =
      .ok (y.set (some s) part) := by
    have hchange := hy.read_change (hd.find? hfind) hinner (a := some s) (b := some old)
      (w := .string s) rfl rfl
    exact hchange.trans (congrArg (Except.map _) hpart)
  have hchange := hx.read_change hd hfind (a := some (y.set (some s) part)) (b := some part)
    (w := .object (change name (fun _ => .string s) inner)) (congrArg (Except.map some) hpart)
    (congrArg (Except.map some) hother)
  rw [changeAt, change_const hfind, setIn, ← hget]
  exact hchange.trans (congrArg (Except.map _) h)

theorem read_put_entryPoint {i : Nat}
    (hold : (PathPlace.entryPoint i).at? (.object members) = some (.string old)) :
    SettingsFile.codec.read ((PathPlace.entryPoint i).put s (.object members)) =
      .ok ((PathPlace.entryPoint i).set s file) := by
  obtain ⟨entry, hentry, hold⟩ := Option.bind_eq_some_iff.mp hold
  obtain ⟨inner, rfl⟩ : ∃ inner, entry = .object inner := by
    cases entry with
    | object inner => exact ⟨inner, rfl⟩
    | _ => cases hold
  have hmem := List.mem_of_getElem? hentry
  have hfind := entriesOf_eq hmem
  rw [Json.at?_singleton_object] at hfind
  generalize entriesOf (.object members) = entries at hentry hmem hfind
  have hread := SettingsFile.reads_entryPoints.get_read (v := .object members) hd h
  rw [show SettingsFile.record.valueOf? "additionalEntryPoints" (.object members) = _ from hfind]
    at hread
  have hdistinct : Json.Distinct (.object inner) :=
    Json.DistinctItems.mem (Json.DistinctMembers.find? hd hfind) hmem
  have hitems := readItems_modify (f := putFile s) (g := EntryPoint.file.set s) hread hentry
    fun e he => by
      obtain ⟨before, hbefore⟩ : ∃ before, Codec.string.read (.string old) = .ok before := ⟨_, rfl⟩
      have hchange := EntryPoint.reads_file.read_change hdistinct hold hbefore
        (w := .string s) (a := s) rfl
      exact hchange.trans (congrArg (Except.map _) he)
  have hchange := SettingsFile.reads_entryPoints.read_change hd hfind hread
    (w := putFileAt i s (.array entries)) hitems
  show SettingsFile.codec.read (.object (change _ (putFileAt i s) members)) = _
  rw [change_const hfind]
  exact hchange.trans (congrArg (Except.map _) h)

end Reading

namespace PathPlace

variable {document : Json} {file : SettingsFile} {place : PathPlace} {old : String}

/-- A document with another text in a place is the typed file with the text in the place. -/
theorem read_put (hd : Json.IsDocument document) (h : SettingsFile.codec.read document = .ok file)
    (hold : place.at? document = some (.string old)) (s : String) :
    SettingsFile.codec.read (place.put s document) = .ok (place.set s file) := by
  obtain ⟨members, rfl⟩ := Json.exists_members hd.isObject
  have hd := hd.distinct
  cases place with
  | entryPoint i => exact read_put_entryPoint hd h s hold
  | setting p =>
    cases p with
    | projectFolder => exact read_put_top hd h s SettingsFile.reads_folder hold
    | main => exact read_put_top hd h s SettingsFile.reads_main hold
    | tsconfig =>
      exact read_put_section hd h s SettingsFile.reads_compilerPart Compiler.reads_tsconfig hold
    | reportFolder =>
      exact read_put_section hd h s SettingsFile.reads_reportPart ApiReport.reads_folder hold
    | reportTempFolder =>
      exact read_put_section hd h s SettingsFile.reads_reportPart ApiReport.reads_tempFolder hold
    | model => exact read_put_section hd h s SettingsFile.reads_modelPart DocModel.reads_file hold
    | untrimmed =>
      exact read_put_section hd h s SettingsFile.reads_rollupPart Rollup.reads_untrimmed hold
    | alphaTrimmed =>
      exact read_put_section hd h s SettingsFile.reads_rollupPart Rollup.reads_alphaTrimmed hold
    | betaTrimmed =>
      exact read_put_section hd h s SettingsFile.reads_rollupPart Rollup.reads_betaTrimmed hold
    | publicTrimmed =>
      exact read_put_section hd h s SettingsFile.reads_rollupPart Rollup.reads_publicTrimmed hold
    | metadata =>
      exact read_put_section hd h s SettingsFile.reads_metadataPart Metadata.reads_file hold

/-- The text that is there already changes nothing. -/
theorem put_self (hd : Json.IsDocument document) (h : place.at? document = some (.string old)) :
    place.put old document = document := by
  obtain ⟨members, rfl⟩ := Json.exists_members hd.isObject
  cases place with
  | setting p =>
    refine congrArg Json.object (changeAt_eq_self fun v hv => ?_)
    exact Option.some.inj (h.symm.trans hv)
  | entryPoint i =>
    refine congrArg Json.object (change_eq_self fun v hv => ?_)
    obtain ⟨entry, hentry, hold⟩ := Option.bind_eq_some_iff.mp h
    have hfind := entriesOf_eq (List.mem_of_getElem? hentry)
    rw [Json.at?_singleton_object, hv] at hfind
    rw [Option.some.inj hfind]
    have hentryPut : putFile old entry = entry := by
      cases entry with
      | object inner =>
        exact congrArg Json.object
          (change_eq_self fun w hw => Option.some.inj (hold.symm.trans hw))
      | _ => cases hold
    refine congrArg Json.array (List.ext_getElem? fun j => ?_)
    rw [List.getElem?_modify, Option.map_eq_map]
    by_cases e : i = j
    · rw [← e, hentry, Option.map_some, if_pos rfl, hentryPut]
    · simp only [if_neg e, Option.map_id_fun', id]

/-- The reference of a document stays as it is. -/
theorem extends_put (document : Json) (place : PathPlace) (s : String) :
    (place.put s document).get? "extends" = document.get? "extends" := by
  cases document with
  | object members =>
    cases place with
    | setting p =>
      obtain ⟨key, rest, hkeys, hne, -⟩ := pathSettings_head p.keys p.keys_mem
      show find? "extends" (changeAt _ p.keys members) = find? "extends" members
      rw [hkeys]
      cases rest <;> exact Json.find?_change_of_ne hne.symm _ _
    | entryPoint i =>
      have hne : "extends" ≠ "additionalEntryPoints" := by decide
      exact Json.find?_change_of_ne hne _ _
  | _ => cases place <;> rfl

theorem isObject_put {document : Json} (h : document.isObject = true) (place : PathPlace)
    (s : String) : (place.put s document).isObject = true := by
  obtain ⟨members, rfl⟩ := Json.exists_members h
  cases place <;> rfl

theorem projectFolder_set {place : PathPlace} (h : place ≠ .setting .projectFolder) (s : String)
    (file : SettingsFile) : (place.set s file).projectFolder = file.projectFolder := by
  cases place with
  | entryPoint i => rfl
  | setting p =>
    cases p with
    | projectFolder => exact absurd rfl h
    | _ => rfl

end PathPlace

/-! ## Texts that are prepared alike -/

section Alike

variable {values : PlaceholderValues} {a b : String}

theorem rel_map {τ : Type} {r : τ → τ → Prop} {f g : τ → τ} (h : ∀ v, r (f v) (g v)) :
    ∀ x : Option τ, Option.Rel r (x.map f) (x.map g)
  | none => .none
  | some v => .some (h v)

theorem forall₂_modify {τ : Type} {r : τ → τ → Prop} (hr : ∀ v, r v v) {f g : τ → τ}
    (h : ∀ v, r (f v) (g v)) :
    ∀ (vs : List τ) (i : Nat), List.Forall₂ r (vs.modify i f) (vs.modify i g)
  | [], i => by cases i <;> exact .nil
  | v :: vs, 0 => .cons (h v) (List.forall₂_same.mpr fun w _ => hr w)
  | v :: vs, i + 1 => .cons (hr v) (forall₂_modify hr h vs i)

/-- Texts that are prepared alike make files alike, wherever they stand but for the project
folder. -/
theorem PathPlace.alikeFiles_set (h : AlikePath values (some a) (some b)) {place : PathPlace}
    (hplace : place ≠ .setting .projectFolder) (file : SettingsFile) :
    AlikeFiles values (place.set a file) (place.set b file) := by
  have same : AlikeFiles values file file := .refl file
  cases place with
  | entryPoint i =>
    exact { same with
      entryPoints := forall₂_modify .refl (fun e => ⟨rfl, h⟩) _ i
      rest := rfl }
  | setting p =>
    cases p with
    | projectFolder => exact absurd rfl hplace
    | main => exact { same with main := h, rest := rfl }
    | tsconfig => exact { same with compiler := rel_map (fun v => ⟨h, rfl⟩) _, rest := rfl }
    | reportFolder =>
      exact { same with apiReport := rel_map (fun v => ⟨h, .refl _, rfl⟩) _, rest := rfl }
    | reportTempFolder =>
      exact { same with apiReport := rel_map (fun v => ⟨.refl _, h, rfl⟩) _, rest := rfl }
    | model => exact { same with docModel := rel_map (fun v => ⟨h, rfl⟩) _, rest := rfl }
    | untrimmed =>
      exact { same with
        dtsRollup := rel_map (fun v => ⟨h, .refl _, .refl _, .refl _, rfl⟩) _, rest := rfl }
    | alphaTrimmed =>
      exact { same with
        dtsRollup := rel_map (fun v => ⟨.refl _, h, .refl _, .refl _, rfl⟩) _, rest := rfl }
    | betaTrimmed =>
      exact { same with
        dtsRollup := rel_map (fun v => ⟨.refl _, .refl _, h, .refl _, rfl⟩) _, rest := rfl }
    | publicTrimmed =>
      exact { same with
        dtsRollup := rel_map (fun v => ⟨.refl _, .refl _, .refl _, h, rfl⟩) _, rest := rfl }
    | metadata => exact { same with tsdocMetadata := rel_map (fun v => ⟨h, rfl⟩) _, rest := rfl }

end Alike

end ApiReview.Settings
