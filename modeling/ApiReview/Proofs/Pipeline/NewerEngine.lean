import ApiReview.Files.Snapshot
import ApiReview.Pipeline.Preamble
import ApiReview.Proofs.Message.Events
import ApiReview.Proofs.Outcome
import ApiReview.Proofs.Package.Version
import ApiReview.Proofs.Path.Relative

/-!
# A newer engine in the project

The engine of a project is the one whose manifest is the nearest above the project folder
(`NearestEngine`), and its version can be told if this manifest can be read and spells one
(`UsesEngine`); a manifest farther away does not stand in for one that cannot be read. A run without
a callback prints one line about its own engine, and a second one exactly if the release of the
project's engine comes after its own (`tellEngine_printed`). Nothing else of the router changes.
-/

namespace ApiReview

open Version (IsSuffix Spells)

/-! ## Progress messages without a callback -/

namespace Router

/-- The router with further lines printed, and nothing else changed. -/
def printing {σ : Type} (r : Router σ) (lines : List Printed) : Router σ :=
  { r with printed := r.printed ++ lines }

theorem printing_printing {σ : Type} (r : Router σ) (lines more : List Printed) :
    (r.printing lines).printing more = r.printing (lines ++ more) := by
  rw [printing, printing, printing, List.append_assoc]

/-- Information is printed at once. -/
theorem log_info_of_none {r : Router Unit} (h : r.callback = .none) (notice : Notice)
    (text : String) : r.log .info notice text = r.printing [.out (text ++ "\n")] := by
  have hc : r.callback.onMessage r.state
      (r.withRule { Message.plain .console notice.id text with level := .info }) =
      (r.state, { Message.plain .console notice.id text with level := .info }) := by
    rw [h]
    rfl
  rw [log, r.deliver_of_open rfl hc]
  rfl

end Router

/-! ## The engine of a project -/

/-- The way from a folder to the manifest of the engine installed there. -/
def engineManifest : Path := ⟨"node_modules/typescript/package.json"⟩

theorem engineManifests_eq (folder : Path) :
    engineManifests folder = folder.ancestors.map (·.join engineManifest) := by
  refine List.map_congr_left fun above _ => ?_
  rw [Path.join_assoc (by decide) (by decide), Path.join_assoc (by decide) (by decide)]
  rfl

/-- The manifest of an engine in a folder or above it, with none in any folder nearer. -/
def NearestEngine (t : FileTree) (folder p : Path) : Prop :=
  ∃ nearer above farther, folder.ancestors = nearer ++ above :: farther ∧
    (∀ q ∈ nearer, t.isFile (q.join engineManifest) = false) ∧ p = above.join engineManifest ∧
    t.isFile p = true

/-- The version of the nearest engine, if its manifest can be read and has one. -/
def UsesEngine (t : FileTree) (folder : Path) (theirs : Version) : Prop :=
  ∃ p manifest version, NearestEngine t folder p ∧ Manifest.load t p = .ok manifest ∧
    manifest.version = some version ∧ Spells version theirs

/-- The version of the nearest engine, if its release comes after that of the run's own engine. -/
def UsesNewerEngine (t : FileTree) (folder : Path) (engineVersion : String) (theirs : Version) :
    Prop :=
  UsesEngine t folder theirs ∧ ∃ ours, Spells engineVersion ours ∧ ours.release < theirs.release

variable {t : FileTree} {folder p : Path} {engineVersion : String} {theirs : Version}

theorem find?_engineManifests_eq_some_iff :
    (engineManifests folder).find? t.isFile = some p ↔ NearestEngine t folder p := by
  rw [engineManifests_eq, List.find?_map, Option.map_eq_some_iff]
  simp only [List.find?_eq_some_iff_append, Function.comp_apply, NearestEngine,
    Bool.not_eq_true_eq_eq_false]
  constructor
  · rintro ⟨above, ⟨hfile, nearer, farther, hsplit, hnone⟩, rfl⟩
    exact ⟨nearer, above, farther, hsplit, hnone, rfl, hfile⟩
  · rintro ⟨nearer, above, farther, hsplit, hnone, rfl, hfile⟩
    exact ⟨above, ⟨hfile, nearer, farther, hsplit, hnone⟩, rfl⟩

theorem NearestEngine.unique {q : Path} (hp : NearestEngine t folder p)
    (hq : NearestEngine t folder q) : p = q :=
  Option.some.inj ((find?_engineManifests_eq_some_iff.mpr hp).symm.trans
    (find?_engineManifests_eq_some_iff.mpr hq))

theorem installedEngine?_eq_some_iff :
    installedEngine? t folder = some theirs ↔ UsesEngine t folder theirs := by
  constructor
  · intro h
    obtain ⟨p, hp, h⟩ := Option.bind_eq_some_iff.mp h
    obtain ⟨manifest, hload, h⟩ := Option.bind_eq_some_iff.mp h
    obtain ⟨version, hversion, h⟩ := Option.bind_eq_some_iff.mp h
    exact ⟨p, manifest, version, find?_engineManifests_eq_some_iff.mp hp, eq_ok_of_toOption hload,
      hversion, Version.parse_eq_ok_iff_spells.mp (eq_ok_of_toOption h)⟩
  · rintro ⟨p, manifest, version, hp, hload, hversion, hspells⟩
    refine Option.bind_eq_some_iff.mpr ⟨p, find?_engineManifests_eq_some_iff.mpr hp, ?_⟩
    refine Option.bind_eq_some_iff.mpr ⟨manifest, mem_toOption.mpr hload, ?_⟩
    refine Option.bind_eq_some_iff.mpr ⟨version, hversion, ?_⟩
    exact mem_toOption.mpr (Version.parse_eq_ok_iff_spells.mpr hspells)

theorem newerEngine?_eq_some_iff :
    newerEngine? t folder engineVersion = some theirs ↔
      UsesNewerEngine t folder engineVersion theirs := by
  constructor
  · intro h
    obtain ⟨installed, hinstalled, h⟩ := Option.bind_eq_some_iff.mp h
    obtain ⟨ours, hours, h⟩ := Option.bind_eq_some_iff.mp h
    obtain ⟨hnewer, hsame⟩ := Option.ite_none_right_eq_some.mp h
    cases hsame
    exact ⟨installedEngine?_eq_some_iff.mp hinstalled, ours,
      Version.parse_eq_ok_iff_spells.mp (eq_ok_of_toOption hours),
      Version.isNewerMinorThan_iff.mp hnewer⟩
  · rintro ⟨huses, ours, hours, hnewer⟩
    refine Option.bind_eq_some_iff.mpr ⟨theirs, installedEngine?_eq_some_iff.mpr huses, ?_⟩
    refine Option.bind_eq_some_iff.mpr
      ⟨ours, mem_toOption.mpr (Version.parse_eq_ok_iff_spells.mpr hours), ?_⟩
    exact if_pos (Version.isNewerMinorThan_iff.mpr hnewer)

theorem newerEngine?_eq_none_iff :
    newerEngine? t folder engineVersion = none ↔
      ¬ ∃ theirs, UsesNewerEngine t folder engineVersion theirs := by
  simp only [Option.eq_none_iff_forall_ne_some, ne_eq, newerEngine?_eq_some_iff, not_exists]

/-- Where both versions can be told, their releases decide. -/
theorem newerEngine?_of_spells {ours : Version} (huses : UsesEngine t folder theirs)
    (hours : Spells engineVersion ours) :
    newerEngine? t folder engineVersion =
      if ours.release < theirs.release then some theirs else none := by
  rw [newerEngine?, installedEngine?_eq_some_iff.mpr huses,
    Version.parse_eq_ok_iff_spells.mpr hours]
  simp only [← Version.isNewerMinorThan_iff]
  rfl

/-! ## What is printed -/

/-- The line that names the engine of the run. -/
def engineLine (engineVersion : String) : Printed :=
  .out ("Analysis will use the bundled TypeScript version " ++ engineVersion ++ "\n")

/-- The line that points out a newer engine of the project. -/
def newerEngineLine (theirs : Version) : Printed :=
  .out ("*** The target project appears to use TypeScript " ++ theirs.text ++
    " which is newer than the bundled compiler engine; consider upgrading API Surface." ++ "\n")

theorem tellEngine_of_none {r : Router Unit} (h : r.callback = .none) :
    tellEngine t folder engineVersion r = r.printing (engineLine engineVersion ::
      ((newerEngine? t folder engineVersion).map newerEngineLine).toList) := by
  have hfirst : r.log .info .preamble
      ("Analysis will use the bundled TypeScript version " ++ engineVersion) =
      r.printing [engineLine engineVersion] := Router.log_info_of_none h .preamble _
  have hopen : (r.printing [engineLine engineVersion]).callback = .none := h
  unfold tellEngine
  rw [hfirst]
  cases newerEngine? t folder engineVersion with
  | none => rfl
  | some theirs =>
    exact (Router.log_info_of_none hopen .compilerVersion _).trans (r.printing_printing _ _)

/-- A run without a callback always prints which engine it has, and nothing else changes but that a
second line may follow. It follows exactly if the nearest engine of the project has a manifest that
can be read with a version whose release comes after that of the run's engine. If the version cannot
be told from the nearest manifest, no other one is looked at; and what a version has behind its
first two numbers makes no difference. -/
theorem tellEngine_printed (t : FileTree) (folder : Path) (engineVersion : String)
    (r : Router Unit) (hr : r.callback = .none) :
    ((∃ theirs, UsesNewerEngine t folder engineVersion theirs ∧
        tellEngine t folder engineVersion r =
          r.printing [engineLine engineVersion, newerEngineLine theirs]) ∨
      (¬ ∃ theirs, UsesNewerEngine t folder engineVersion theirs) ∧
        tellEngine t folder engineVersion r = r.printing [engineLine engineVersion]) ∧
    (∀ p, NearestEngine t folder p →
      (∀ manifest version theirs, Manifest.load t p = .ok manifest →
        manifest.version = some version → ¬ Spells version theirs) →
      tellEngine t folder engineVersion r = r.printing [engineLine engineVersion]) ∧
    ∀ (p : Path) (manifest : Manifest) (theirs ours : Version) (suffix suffix' : String),
      NearestEngine t folder p → Manifest.load t p = .ok manifest → IsSuffix suffix.toList →
      IsSuffix suffix'.toList → manifest.version = some (theirs.text ++ suffix) →
      engineVersion = ours.text ++ suffix' →
      tellEngine t folder engineVersion r = r.printing (engineLine engineVersion ::
        if ours.release < theirs.release then [newerEngineLine theirs] else []) := by
  rw [tellEngine_of_none hr]
  refine ⟨?_, ?_, ?_⟩
  · cases hnewer : newerEngine? t folder engineVersion with
    | none => exact .inr ⟨newerEngine?_eq_none_iff.mp hnewer, rfl⟩
    | some theirs => exact .inl ⟨theirs, newerEngine?_eq_some_iff.mp hnewer, rfl⟩
  · intro p hp hfails
    have hnone : newerEngine? t folder engineVersion = none := by
      refine newerEngine?_eq_none_iff.mpr ?_
      rintro ⟨theirs, ⟨q, manifest, version, hq, hload, hversion, hspells⟩, -⟩
      exact hfails manifest version theirs (hp.unique hq ▸ hload) hversion hspells
    rw [hnone]
    rfl
  · intro p manifest theirs ours suffix suffix' hp hload hsuffix hsuffix' htheirs hours
    have huses : UsesEngine t folder theirs :=
      ⟨p, manifest, _, hp, hload, htheirs, Version.spells_text_append theirs hsuffix⟩
    have hspells : Spells engineVersion ours := hours ▸ Version.spells_text_append ours hsuffix'
    rw [newerEngine?_of_spells huses hspells]
    split <;> rfl

/-- The manifest of an engine whose version has the given JSON text. -/
def engineFile (version : String) : Content :=
  .text ("\x7b\"name\":\"typescript\",\"version\":" ++ version ++ "\x7d")

/-- An engine with the given version above the project folder, and a newer one farther up. -/
def engineTree (version : String) : FileTree :=
  (FileTree.empty.withFile ["node_modules".toList, "typescript".toList, "package.json".toList]
    (engineFile "\"9.0.0\"")).withFile
    ["p".toList, "node_modules".toList, "typescript".toList, "package.json".toList]
    (engineFile version)

theorem nearestEngine_engineTree (version : String) :
    NearestEngine (engineTree version) ⟨"/p/w"⟩ ⟨"/p/node_modules/typescript/package.json"⟩ :=
  ⟨[⟨"/p/w"⟩], ⟨"/p"⟩, [⟨"/"⟩], by decide +kernel, List.forall_mem_singleton.mpr rfl,
    by decide +kernel, rfl⟩

/-- A router before the first message, without a callback. -/
def plainRouter : Router Unit :=
  .start .empty .none () none (.asked false false)

/-- A newer minor version is pointed out, though it has a suffix and the engine of the run has the
larger patch number; behind a manifest whose version is no text, the newer engine farther up is
not. -/
theorem tellEngine_printed_nearest :
    plainRouter.callback = .none ∧
    tellEngine (engineTree "\"5.5.0-beta\"") ⟨"/p/w"⟩ "5.4.9+1" plainRouter =
      plainRouter.printing [engineLine "5.4.9+1", newerEngineLine ⟨5, 5, 0⟩] ∧
    tellEngine (engineTree "5") ⟨"/p/w"⟩ "5.4.2" plainRouter =
      plainRouter.printing [engineLine "5.4.2"] := by
  obtain ⟨-, -, hdecides⟩ :=
    tellEngine_printed (engineTree "\"5.5.0-beta\"") ⟨"/p/w"⟩ "5.4.9+1" plainRouter rfl
  obtain ⟨-, hfails, -⟩ := tellEngine_printed (engineTree "5") ⟨"/p/w"⟩ "5.4.2" plainRouter rfl
  obtain ⟨manifest, hload, hversion⟩ : ∃ manifest,
      Manifest.load (engineTree "\"5.5.0-beta\"") ⟨"/p/node_modules/typescript/package.json"⟩ =
        .ok manifest ∧ manifest.version = some "5.5.0-beta" := exists_ok_of_map (by decide +kernel)
  refine ⟨rfl, ?_, ?_⟩
  · exact hdecides _ manifest ⟨5, 5, 0⟩ ⟨5, 4, 9⟩ "-beta" "+1" (nearestEngine_engineTree _) hload
      (fun _ hc => .inl (Option.some.inj hc).symm) (fun _ hc => .inr (Option.some.inj hc).symm)
      hversion rfl
  · refine hfails _ (nearestEngine_engineTree _) fun manifest version theirs hload _ _ => ?_
    have hbroken : (Manifest.load (engineTree "5")
        ⟨"/p/node_modules/typescript/package.json"⟩).toOption = none := by decide +kernel
    rw [hload] at hbroken
    cases hbroken

end ApiReview
