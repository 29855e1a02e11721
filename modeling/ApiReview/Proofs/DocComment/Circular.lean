import ApiReview.Proofs.DocComment.Extending

/-!
# Circular references between files of doc comment settings

Where all files are sound, loading fails in one way only: it comes to a file for the second time, and
says that the reference is circular. That is so on every cycle, but also where two ways that close
no cycle lead to one file (`not_failsAtCycles_diamondTree`). Loading comes to an end with settings
exactly if every file is reached in one way (`load_failsAtCycles_iff`).
-/

namespace ApiReview.DocCommentConfig

/-- Each file that is reached from a root can be read, has tag names that are valid and refers to
files by relative paths only. -/
def Sound (t : FileTree) (root : Path) : Prop :=
  ∀ way p, Walk t root way p → ∃ file, readFile t p = .ok file ∧ file.violations = [] ∧
    ∀ reference ∈ file.extending, isRelativeReference reference = true

/-- No two ways from a root lead to one file. -/
def ReachedOnce (t : FileTree) (root : Path) : Prop :=
  ∀ way way' p p', Walk t root way p → Walk t root way' p' → p.same p' = true → way = way'

/-- A file that is reached from a root is reached from itself again. -/
def Cyclic (t : FileTree) (root : Path) : Prop :=
  ∃ way p more p', Walk t root way p ∧ more ≠ [] ∧ Walk t p more p' ∧ p.same p' = true

/-- Loading says that a reference is circular exactly on a cycle, and gives settings without one. -/
def FailsAtCycles (t : FileTree) (root : Path) : Prop :=
  ((∃ p, load t root = .error (.unloadable p .circularExtends)) ↔ Cyclic t root) ∧
    (¬ Cyclic t root → ∃ config, load t root = .ok config)

/-- A cycle is a second way to a file. -/
theorem Cyclic.not_reachedOnce {t : FileTree} {root : Path} (h : Cyclic t root) :
    ¬ ReachedOnce t root := by
  intro once
  obtain ⟨way, p, more, p', hw, hne, hm, hs⟩ := h
  have hsame := once way (way ++ more) p p' hw (hw.append hm) hs
  exact hne (List.append_cancel_left (hsame.symm.trans (List.append_nil way).symm))

/-! ## Failures -/

section Failure

variable {t : FileTree} {root path : Path} {depth : Nat} {config : DocCommentConfig}
  {visited : List Path} {way : List Nat} {e : SettingsError}

/-- Two ways from a root lead to the file. -/
def ReachedTwice (t : FileTree) (root p : Path) : Prop :=
  ∃ way way' p', Walk t root way p' ∧ Walk t root way' p ∧ way ≠ way' ∧ p'.same p = true

theorem ReachedTwice.not_reachedOnce {p : Path} (h : ReachedTwice t root p) :
    ¬ ReachedOnce t root := by
  intro once
  obtain ⟨way, way', p', hw, hw', hne, hs⟩ := h
  exact hne (once way way' p' p hw hw' hs)

/-- The files that were reached before have ways of their own, none of which goes through the given
one. -/
def Elsewhere (t : FileTree) (root : Path) (visited : List Path) (way : List Nat) : Prop :=
  ∀ p ∈ visited, ∃ way', Walk t root way' p ∧ ¬ way <+: way'

/-- The first of some references whose file cannot be applied. Those before it led elsewhere. -/
theorem applyAll_error
    (each : ∀ {config : DocCommentConfig} {visited' : List Path} {path : Path} {way : List Nat},
      Walk t root way path → Reached t visited' → visited.length < visited'.length →
      Elsewhere t root visited' way → applyFile t depth (config, visited') path = .error e →
      ∃ p, e = .unloadable p .circularExtends ∧ ReachedTwice t root p)
    {file : DocCommentFile} (walk : Walk t root way path) (read : readFile t path = .ok file)
    {references : List String} (relative : ∀ r ∈ references, isRelativeReference r = true) (k : Nat)
    (rest : ∀ i r, references[i]? = some r → file.extending[k + i]? = some r)
    {visited' : List Path} (known : Reached t visited') (more : visited.length < visited'.length)
    (elsewhere : ∀ i, k ≤ i → Elsewhere t root visited' (way ++ [i]))
    (fails : applyAll t depth path references (config, visited') = .error e) :
    ∃ p, e = .unloadable p .circularExtends ∧ ReachedTwice t root p := by
  induction references generalizing config visited' k with
  | nil => cases fails
  | cons reference references ih =>
    have hfile : file.extending[k]? = some reference := rest 0 reference rfl
    have hwalk : Walk t root (way ++ [k]) (target path reference) :=
      walk.append (.on read hfile .here)
    rw [applyAll_cons_of_relative (relative _ List.mem_cons_self)] at fails
    cases hfirst : applyFile t depth (config, visited') (target path reference) with
    | error e' =>
      rw [hfirst] at fails
      cases fails
      exact each hwalk known more (elsewhere k (Nat.le_refl k)) hfirst
    | ok state =>
      rw [hfirst] at fails
      obtain ⟨found, hf⟩ := applyFile_eq_ok known hfirst
      refine ih (fun r hr => relative r (List.mem_cons_of_mem _ hr)) (k + 1)
        (fun i r hr => ?_) hf.reached (Nat.lt_of_lt_of_le more hf.length_le) (fun i hi p hp => ?_)
        fails
      · have := rest (i + 1) r hr
        rwa [Nat.add_assoc, Nat.add_comm 1 i]
      · rw [hf.added] at hp
        rcases List.mem_append.mp hp with hp | hp
        · obtain ⟨⟨way', q⟩, hq, rfl⟩ := List.mem_map.mp hp
          refine ⟨(way ++ [k]) ++ way', hwalk.append ((hf.mem_iff way' q).mp hq), fun hpre => ?_⟩
          rw [List.append_assoc, List.prefix_append_right_inj, List.singleton_append,
            List.cons_prefix_cons] at hpre
          omega
        · exact elsewhere i (Nat.le_of_succ_le hi) p hp

/-- Where all files are sound, applying fails at a file that is reached in two ways. -/
theorem applyFile_error (sound : Sound t root) (walk : Walk t root way path)
    (known : Reached t visited) (bound : depthBound ≤ depth + visited.length)
    (elsewhere : Elsewhere t root visited way)
    (fails : applyFile t depth (config, visited) path = .error e) :
    ∃ p, e = .unloadable p .circularExtends ∧ ReachedTwice t root p := by
  have hlong := known.length_lt
  induction depth generalizing config visited path way with
  | zero => omega
  | succ depth ih =>
    by_cases hv : path.steps ∈ visited.map Path.steps
    · rw [applyFile_of_visited hv] at fails
      cases fails
      obtain ⟨p', hp', hs⟩ := List.mem_map.mp hv
      obtain ⟨way', hw', hne⟩ := elsewhere p' hp'
      refine ⟨path, rfl, way', way, p', hw', walk, ?_, decide_eq_true hs⟩
      rintro rfl
      exact hne (List.prefix_refl _)
    · obtain ⟨file, read, hviolations, hrelative⟩ := sound way path walk
      rw [applyFile_of_read hv read] at fails
      cases hall : applyAll t depth path file.extending (config, path :: visited) with
      | ok state =>
        rw [hall] at fails
        simp only [Except.bind, hviolations, ↓reduceIte] at fails
        cases fails
      | error e' =>
        rw [hall] at fails
        cases fails
        have each : ∀ {config : DocCommentConfig} {visited' : List Path} {path : Path}
            {way : List Nat}, Walk t root way path → Reached t visited' →
            visited.length < visited'.length → Elsewhere t root visited' way →
            applyFile t depth (config, visited') path = .error e →
            ∃ p, e = .unloadable p .circularExtends ∧ ReachedTwice t root p :=
          fun hwalk hknown hmore hother hfails =>
            ih hwalk hknown (by omega) hother hfails hknown.length_lt
        refine applyAll_error each walk read hrelative 0 (fun i r hr => by rwa [Nat.zero_add])
          (known.cons hv read) (Nat.lt_succ_self _) (fun i _ p hp => ?_) hall
        rcases List.mem_cons.mp hp with rfl | hp
        · refine ⟨way, walk, fun hpre => ?_⟩
          have := hpre.length_le
          rw [List.length_append, List.length_singleton] at this
          omega
        · obtain ⟨way', hw', hne⟩ := elsewhere p hp
          exact ⟨way', hw', fun hpre => hne ((List.prefix_append way [i]).trans hpre)⟩

end Failure

/-! ## Loading -/

theorem load_eq_ok_iff {t : FileTree} {root : Path} :
    (∃ config, load t root = .ok config) ↔
      ∃ state, applyFile t depthBound (blank root, []) root = .ok state := by
  rw [load]
  cases applyFile t depthBound (blank root, []) root with
  | error e =>
    refine iff_of_false ?_ ?_
    · rintro ⟨config, h⟩
      cases h
    · rintro ⟨state, h⟩
      cases h
  | ok state => exact iff_of_true ⟨_, rfl⟩ ⟨_, rfl⟩

/-- What is loaded is reached in one way. -/
theorem reachedOnce_of_load {t : FileTree} {root : Path} {config : DocCommentConfig}
    (h : load t root = .ok config) : ReachedOnce t root := by
  obtain ⟨state, hstate⟩ := load_eq_ok_iff.mp ⟨config, h⟩
  obtain ⟨found, hf⟩ := applyFile_eq_ok (reached_nil t) hstate
  intro way way' p p' hw hw' hs
  have hdistinct := hf.reached.distinct
  rw [hf.added, List.append_nil, List.map_map] at hdistinct
  have heq := List.inj_on_of_nodup_map hdistinct ((hf.mem_iff way p).mpr hw)
    ((hf.mem_iff way' p').mpr hw') (of_decide_eq_true hs)
  exact congrArg Prod.fst heq

/-- Where all files are sound, loading fails at a file that is reached in two ways. -/
theorem load_error {t : FileTree} {root : Path} (sound : Sound t root) {e : SettingsError}
    (h : load t root = .error e) :
    ∃ p, e = .unloadable p .circularExtends ∧ ReachedTwice t root p := by
  rw [load] at h
  cases happly : applyFile t depthBound (blank root, []) root with
  | ok state => rw [happly] at h; cases h
  | error e' =>
    rw [happly] at h
    cases h
    exact applyFile_error sound .here (reached_nil t) (Nat.le_add_right _ _)
      (fun p hp => absurd hp List.not_mem_nil) happly

/-- Loading ends, never at its bound. Where all files are sound it gives settings exactly if each
file is reached in one way, and else says that a reference is circular. So what it says is right
exactly where there is a cycle, or no file is reached in two ways. -/
theorem load_failsAtCycles_iff {t : FileTree} {root : Path} (sound : Sound t root) :
    (∀ depth config, depthBound ≤ depth →
      applyFile t depth (config, []) root = applyFile t depthBound (config, []) root) ∧
    ((∃ config, load t root = .ok config) ↔ ReachedOnce t root) ∧
    ((∃ p, load t root = .error (.unloadable p .circularExtends)) ↔ ¬ ReachedOnce t root) ∧
    (Cyclic t root → ¬ ReachedOnce t root) ∧
    (FailsAtCycles t root ↔ Cyclic t root ∨ ReachedOnce t root) := by
  have ends : ∀ depth config, depthBound ≤ depth →
      applyFile t depth (config, []) root = applyFile t depthBound (config, []) root :=
    fun depth config h => applyFile_bound (reached_nil t) (Nat.le_add_right_of_le h)
      (Nat.le_add_right _ _)
  have gives : (∃ config, load t root = .ok config) ↔ ReachedOnce t root := by
    refine ⟨fun ⟨config, h⟩ => reachedOnce_of_load h, fun once => ?_⟩
    cases h : load t root with
    | ok config => exact ⟨config, rfl⟩
    | error e =>
      obtain ⟨p, -, htwice⟩ := load_error sound h
      exact absurd once htwice.not_reachedOnce
  have refuses : (∃ p, load t root = .error (.unloadable p .circularExtends)) ↔
      ¬ ReachedOnce t root := by
    constructor
    · rintro ⟨p, h⟩ once
      obtain ⟨config, hok⟩ := gives.mpr once
      rw [hok] at h
      cases h
    · intro hnot
      cases h : load t root with
      | ok config => exact absurd (gives.mp ⟨config, h⟩) hnot
      | error e =>
        obtain ⟨p, rfl, -⟩ := load_error sound h
        exact ⟨p, rfl⟩
  have cycle : Cyclic t root → ¬ ReachedOnce t root := Cyclic.not_reachedOnce
  refine ⟨ends, gives, refuses, cycle, ?_⟩
  rw [FailsAtCycles, refuses, gives]
  constructor
  · rintro ⟨-, settings⟩
    by_cases hc : Cyclic t root
    · exact .inl hc
    · exact .inr (settings hc)
  · rintro (hc | once)
    · exact ⟨iff_of_true (cycle hc) hc, fun hn => absurd hc hn⟩
    · exact ⟨iff_of_false (not_not_intro once) fun hc => cycle hc once, fun _ => once⟩

/-! ## A file that two others extend -/

/-- The files of `diamondTree`, each with what it extends. -/
def diamondFiles : List (Path × List String) :=
  [(⟨"/tsdoc.json"⟩, ["./left.json", "./right.json"]), (⟨"/left.json"⟩, ["./base.json"]),
    (⟨"/right.json"⟩, ["./base.json"]), (⟨"/base.json"⟩, [])]

/-- Two files extend a third one, and a fourth file extends them both. -/
def diamondTree : FileTree where
  entries :=
    [(["tsdoc.json".toList], .file (.text "\x7b\"extends\":[\"./left.json\",\"./right.json\"]\x7d")),
      (["left.json".toList], .file (.text "\x7b\"extends\":[\"./base.json\"]\x7d")),
      (["right.json".toList], .file (.text "\x7b\"extends\":[\"./base.json\"]\x7d")),
      (["base.json".toList], .file (.text "\x7b\x7d"))]
  workingFolder := []

theorem readFile_diamondTree : ∀ e ∈ diamondFiles, ∃ file, readFile diamondTree e.1 = .ok file ∧
    file.extending = e.2 ∧ file.violations = [] := by
  have hread : ∀ e ∈ diamondFiles, (readFile diamondTree e.1).toOption.map
      (fun file => (file.extending, file.violations)) = some (e.2, []) := by decide +kernel
  intro e he
  obtain ⟨file, hfile, hparts⟩ := exists_ok_of_map (hread e he)
  exact ⟨file, hfile, congrArg Prod.fst hparts, congrArg Prod.snd hparts⟩

/-- Each reference leads further down the list of files. -/
theorem target_diamondFiles : ∀ e ∈ diamondFiles, ∀ reference ∈ e.2,
    isRelativeReference reference = true ∧ target e.1 reference ∈ diamondFiles.map Prod.fst ∧
      (diamondFiles.map Prod.fst).idxOf e.1 <
        (diamondFiles.map Prod.fst).idxOf (target e.1 reference) := by decide +kernel

theorem walk_diamondTree {p q : Path} {way : List Nat} (h : Walk diamondTree p way q)
    (hp : p ∈ diamondFiles.map Prod.fst) : q ∈ diamondFiles.map Prod.fst ∧
      (diamondFiles.map Prod.fst).idxOf p + way.length ≤ (diamondFiles.map Prod.fst).idxOf q := by
  induction h with
  | here => exact ⟨hp, Nat.le_refl _⟩
  | on read refers walk ih =>
    obtain ⟨e, he, rfl⟩ := List.mem_map.mp hp
    obtain ⟨file, hfile, hreferences, -⟩ := readFile_diamondTree e he
    cases read.symm.trans hfile
    obtain ⟨-, hmem, hlt⟩ := target_diamondFiles e he _
      (hreferences ▸ List.mem_of_getElem? refers)
    obtain ⟨hq, hle⟩ := ih hmem
    refine ⟨hq, ?_⟩
    rw [List.length_cons]
    omega

theorem sound_diamondTree : Sound diamondTree ⟨"/tsdoc.json"⟩ := by
  intro way p h
  obtain ⟨e, he, rfl⟩ := List.mem_map.mp (walk_diamondTree h (by decide)).1
  obtain ⟨file, hfile, hreferences, hviolations⟩ := readFile_diamondTree e he
  exact ⟨file, hfile, hviolations, fun reference hr =>
    (target_diamondFiles e he reference (hreferences ▸ hr)).1⟩

theorem not_cyclic_diamondTree : ¬ Cyclic diamondTree ⟨"/tsdoc.json"⟩ := by
  rintro ⟨way, p, more, p', hw, hne, hm, hs⟩
  have apart : ∀ p ∈ diamondFiles.map Prod.fst, ∀ p' ∈ diamondFiles.map Prod.fst,
      p.same p' = true → p = p' := by decide +kernel
  obtain ⟨hp, -⟩ := walk_diamondTree hw (by decide)
  obtain ⟨hp', hle⟩ := walk_diamondTree hm hp
  rw [apart p hp p' hp' hs] at hle
  have := List.length_pos_of_ne_nil hne
  omega

/-- In `diamondTree` a file is reached in two ways, so loading says that a reference is circular. -/
theorem load_failsAtCycles_iff_diamondTree :
    (∃ p, load diamondTree ⟨"/tsdoc.json"⟩ = .error (.unloadable p .circularExtends)) ↔
      ¬ ReachedOnce diamondTree ⟨"/tsdoc.json"⟩ :=
  (load_failsAtCycles_iff sound_diamondTree).2.2.1

/-- Loading may say that a reference is circular where there is no cycle. -/
theorem not_failsAtCycles_diamondTree :
    ¬ ∀ (t : FileTree) (root : Path), Sound t root → FailsAtCycles t root := by
  intro h
  obtain ⟨config, hload⟩ := (h diamondTree _ sound_diamondTree).2 not_cyclic_diamondTree
  have hfails : (load diamondTree ⟨"/tsdoc.json"⟩).toOption = none := by decide +kernel
  rw [hload] at hfails
  cases hfails

end ApiReview.DocCommentConfig
