import ApiReview.DocComment.Config
import ApiReview.Proofs.Settings.Cycle

/-!
# Files of doc comment settings that extend others

A file of doc comment settings extends a list of files, so that from one file there are many ways on
(`Walk`). Applying a file goes all of them, depth first, and ends well only if each leads to a file
of its own (`applyFile_eq_ok`): the paths that were reached are kept from one branch to the next. As
these are paths of their own that can be read, there are fewer of them than the bound on the depth,
which is therefore never what ends it (`applyFile_bound`).
-/

namespace ApiReview.DocCommentConfig

variable {t : FileTree} {depth : Nat} {config config' : DocCommentConfig}
  {visited visited' : List Path} {path : Path}

/-- The path that a reference in a file means. -/
def target (path : Path) (reference : String) : Path :=
  (path.parent?.getD ⟨"."⟩).resolve ⟨reference⟩

/-- A way from a file to another one, told by the position of each reference in its file. -/
inductive Walk (t : FileTree) : Path → List Nat → Path → Prop where
  | here {path : Path} : Walk t path [] path
  | on {path next : Path} {file : DocCommentFile} {i : Nat} {reference : String} {way : List Nat}
      (read : readFile t path = .ok file) (refers : file.extending[i]? = some reference)
      (walk : Walk t (target path reference) way next) : Walk t path (i :: way) next

theorem Walk.append {p q r : Path} {way more : List Nat} (h : Walk t p way q)
    (h' : Walk t q more r) : Walk t p (way ++ more) r := by
  induction h with
  | here => exact h'
  | on read refers _ ih => exact .on read refers (ih h')

/-! ## One step of applying -/

/-- The files that a file refers to, applied one after the other. -/
def applyAll (t : FileTree) (depth : Nat) (path : Path) (references : List String)
    (state : DocCommentConfig × List Path) :
    Except SettingsError (DocCommentConfig × List Path) :=
  references.foldlM (fun state reference => do
    if !isRelativeReference reference then
      throw (.unloadable path (.extendsByName reference))
    applyFile t depth state (target path reference)) state

theorem applyAll_cons_of_relative {reference : String} (h : isRelativeReference reference = true)
    (rest : List String) (state : DocCommentConfig × List Path) :
    applyAll t depth path (reference :: rest) state =
      applyFile t depth state (target path reference) >>= applyAll t depth path rest := by
  rw [applyAll, List.foldlM_cons, h]
  rfl

theorem applyAll_cons_of_not_relative {reference : String}
    (h : isRelativeReference reference = false) (rest : List String)
    (state : DocCommentConfig × List Path) :
    applyAll t depth path (reference :: rest) state =
      .error (.unloadable path (.extendsByName reference)) := by
  rw [applyAll, List.foldlM_cons, h]
  rfl

theorem applyFile_of_visited (h : path.steps ∈ visited.map Path.steps) :
    applyFile t (depth + 1) (config, visited) path =
      .error (.unloadable path .circularExtends) := by
  obtain ⟨r, hr, hs⟩ := List.mem_map.mp h
  have hv : visited.any (·.same path) = true :=
    List.any_eq_true.mpr ⟨r, hr, by rw [Path.same, decide_eq_true_eq, hs]⟩
  rw [applyFile, if_pos hv]
  rfl

theorem not_any_same (h : path.steps ∉ visited.map Path.steps) :
    ¬ visited.any (·.same path) = true := by
  intro hv
  obtain ⟨r, hr, hs⟩ := List.any_eq_true.mp hv
  rw [Path.same, decide_eq_true_eq] at hs
  exact h (List.mem_map.mpr ⟨r, hr, hs⟩)

theorem applyFile_of_unread (h : path.steps ∉ visited.map Path.steps) {e : SettingsError}
    (read : readFile t path = .error e) :
    applyFile t (depth + 1) (config, visited) path = .error e := by
  rw [applyFile, if_neg (not_any_same h), read]
  rfl

/-- A file that is reached for the first time comes after all that it extends. -/
theorem applyFile_of_read (h : path.steps ∉ visited.map Path.steps) {file : DocCommentFile}
    (read : readFile t path = .ok file) :
    applyFile t (depth + 1) (config, visited) path =
      (applyAll t depth path file.extending (config, path :: visited)).bind fun state =>
        if file.violations = [] then .ok (state.1.apply file, state.2)
        else .error (.unloadable path (.badTagNames file.violations)) := by
  rw [applyFile, if_neg (not_any_same h), read]
  show (applyAll t depth path file.extending (config, path :: visited)).bind _ = _
  congr 1
  funext state
  by_cases hv : file.violations = []
  · rw [if_pos hv]
    exact if_neg (not_not_intro hv)
  · rw [if_neg hv]
    exact if_pos hv

/-- Applying a file that is read is over when all that it extends is applied. -/
theorem applyFile_eq_ok_of_read (h : path.steps ∉ visited.map Path.steps) {file : DocCommentFile}
    (read : readFile t path = .ok file)
    (ok : applyFile t (depth + 1) (config, visited) path = .ok (config', visited')) :
    ∃ config₁, applyAll t depth path file.extending (config, path :: visited) =
      .ok (config₁, visited') := by
  rw [applyFile_of_read h read] at ok
  obtain ⟨⟨config₁, visited₁⟩, hall, ok⟩ := bind_eq_ok ok
  split at ok
  · cases ok
    exact ⟨config₁, hall⟩
  · cases ok

/-! ## The files that are found -/

/-- Paths that make different steps, each of a file that can be read. -/
structure Reached (t : FileTree) (visited : List Path) : Prop where
  distinct : (visited.map Path.steps).Nodup
  readable : ∀ p ∈ visited, ∃ file, readFile t p = .ok file

theorem reached_nil (t : FileTree) : Reached t [] :=
  ⟨List.nodup_nil, fun _ h => absurd h List.not_mem_nil⟩

theorem Reached.cons (h : Reached t visited) (fresh : path.steps ∉ visited.map Path.steps)
    {file : DocCommentFile} (read : readFile t path = .ok file) : Reached t (path :: visited) := by
  refine ⟨List.nodup_cons.mpr ⟨fresh, h.distinct⟩, fun p hp => ?_⟩
  rcases List.mem_cons.mp hp with rfl | hp
  · exact ⟨file, read⟩
  · exact h.readable p hp

theorem utf8ByteSize_of_readFile {file : DocCommentFile} (h : readFile t path = .ok file) :
    path.text.utf8ByteSize ≤ FileTree.maxPathBytes := by
  obtain ⟨s, hs, -⟩ := bind_eq_ok h
  exact Settings.utf8ByteSize_of_readText (mapError_eq_ok hs)

/-- There are fewer files than the bound on the depth. -/
theorem Reached.length_lt (h : Reached t visited) : visited.length < depthBound := by
  have hbound : depthBound = Nat.pow 256 (FileTree.maxPathBytes + 1) := Settings.chainBound_eq
  have htexts : (visited.map Path.text).Nodup := by
    refine List.Nodup.of_map (fun s => Path.stepsOf s.toList) ?_
    rw [List.map_map]
    exact h.distinct
  rw [hbound, ← List.length_map (f := Path.text)]
  refine Settings.length_lt_of_utf8ByteSize htexts fun s hs => ?_
  obtain ⟨p, hp, rfl⟩ := List.mem_map.mp hs
  obtain ⟨file, hfile⟩ := h.readable p hp
  exact utf8ByteSize_of_readFile hfile

/-- What is found on some ways: files that were not reached before, each with the way to it. -/
structure Finds (t : FileTree) (visited visited' : List Path) (ways : List Nat → Path → Prop)
    (found : List (List Nat × Path)) : Prop where
  added : visited' = found.map Prod.snd ++ visited
  reached : Reached t visited'
  mem_iff : ∀ way p, (way, p) ∈ found ↔ ways way p

theorem Finds.length_le {ways : List Nat → Path → Prop} {found : List (List Nat × Path)}
    (h : Finds t visited visited' ways found) : visited.length ≤ visited'.length := by
  rw [h.added, List.length_append]
  exact Nat.le_add_left _ _

/-- The ways from a file that begin at a given position or later, told by its references from that
position on. -/
def WaysFrom (t : FileTree) (path : Path) (k : Nat) (references : List String) (way : List Nat)
    (p : Path) : Prop :=
  ∃ i reference rest, references[i]? = some reference ∧ way = (k + i) :: rest ∧
    Walk t (target path reference) rest p

theorem waysFrom_cons {k : Nat} {reference : String} {references : List String} {way : List Nat}
    {p : Path} :
    WaysFrom t path k (reference :: references) way p ↔
      (∃ rest, way = k :: rest ∧ Walk t (target path reference) rest p) ∨
        WaysFrom t path (k + 1) references way p := by
  constructor
  · rintro ⟨i, r, rest, hr, rfl, hw⟩
    cases i with
    | zero => cases hr; exact .inl ⟨rest, rfl, hw⟩
    | succ i => exact .inr ⟨i, r, rest, hr, by rw [Nat.add_assoc, Nat.add_comm 1 i], hw⟩
  · rintro (⟨rest, rfl, hw⟩ | ⟨i, r, rest, hr, rfl, hw⟩)
    · exact ⟨0, reference, rest, rfl, rfl, hw⟩
    · exact ⟨i + 1, r, rest, hr, by rw [Nat.add_assoc, Nat.add_comm 1 i], hw⟩

/-- The ways from a file that is read: none, or on through one of its references. -/
theorem walk_iff {file : DocCommentFile} (read : readFile t path = .ok file) {way : List Nat}
    {p : Path} :
    Walk t path way p ↔ way = [] ∧ p = path ∨ WaysFrom t path 0 file.extending way p := by
  constructor
  · intro h
    cases h with
    | here => exact .inl ⟨rfl, rfl⟩
    | on read' refers walk =>
      cases read.symm.trans read'
      exact .inr ⟨_, _, _, refers, by rw [Nat.zero_add], walk⟩
  · rintro (⟨rfl, rfl⟩ | ⟨i, reference, rest, hr, rfl, hw⟩)
    · exact .here
    · exact .on read (by rwa [Nat.zero_add]) hw

/-- What is found through some references is found one after the other, if that is so for each. -/
theorem applyAll_eq_ok
    (each : ∀ {config config' : DocCommentConfig} {visited visited' : List Path} {path : Path},
      Reached t visited → applyFile t depth (config, visited) path = .ok (config', visited') →
      ∃ found, Finds t visited visited' (Walk t path) found)
    {references : List String} (k : Nat) (known : Reached t visited)
    (ok : applyAll t depth path references (config, visited) = .ok (config', visited')) :
    ∃ found, Finds t visited visited' (WaysFrom t path k references) found := by
  induction references generalizing config visited k with
  | nil =>
    cases ok
    refine ⟨[], rfl, known, fun way p => iff_of_false List.not_mem_nil ?_⟩
    rintro ⟨i, reference, rest, hr, -⟩
    cases hr
  | cons reference references ih =>
    cases hrel : isRelativeReference reference with
    | false => rw [applyAll_cons_of_not_relative hrel] at ok; cases ok
    | true =>
      rw [applyAll_cons_of_relative hrel] at ok
      obtain ⟨⟨config₁, visited₁⟩, hfirst, ok⟩ := bind_eq_ok ok
      obtain ⟨first, hf⟩ := each known hfirst
      obtain ⟨others, ho⟩ := ih (k + 1) hf.reached ok
      refine ⟨others ++ first.map fun e => (k :: e.1, e.2), ?_, ho.reached, fun way p => ?_⟩
      · rw [ho.added, hf.added, List.map_append, List.map_map, List.append_assoc]
        rfl
      · rw [List.mem_append, ho.mem_iff, waysFrom_cons, or_comm]
        refine or_congr_left ⟨fun hm => ?_, fun ⟨rest, hw, hp⟩ => ?_⟩
        · obtain ⟨⟨rest, q⟩, hq, he⟩ := List.mem_map.mp hm
          cases he
          exact ⟨rest, rfl, (hf.mem_iff rest q).mp hq⟩
        · exact List.mem_map.mpr ⟨(rest, p), (hf.mem_iff rest p).mpr hp, by rw [hw]⟩

/-- Applying a file finds the file of each way from it, each for the first time. -/
theorem applyFile_eq_ok (known : Reached t visited)
    (ok : applyFile t depth (config, visited) path = .ok (config', visited')) :
    ∃ found, Finds t visited visited' (Walk t path) found := by
  induction depth generalizing config config' visited visited' path with
  | zero => cases ok
  | succ depth ih =>
    by_cases hv : path.steps ∈ visited.map Path.steps
    · rw [applyFile_of_visited hv] at ok
      cases ok
    · cases read : readFile t path with
      | error e => rw [applyFile_of_unread hv read] at ok; cases ok
      | ok file =>
        obtain ⟨config₁, hall⟩ := applyFile_eq_ok_of_read hv read ok
        obtain ⟨found, hf⟩ := applyAll_eq_ok ih 0 (known.cons hv read) hall
        refine ⟨found ++ [([], path)], ?_, hf.reached, fun way p => ?_⟩
        · rw [hf.added, List.map_append, List.append_assoc]
          rfl
        · rw [List.mem_append, hf.mem_iff, List.mem_singleton, Prod.mk.injEq, walk_iff read,
            or_comm]

/-! ## The bound -/

theorem applyAll_bound {depth' : Nat}
    (each : ∀ {config : DocCommentConfig} {visited' : List Path} {path : Path},
      Reached t visited' → visited.length < visited'.length →
      applyFile t depth (config, visited') path = applyFile t depth' (config, visited') path)
    (references : List String) (known : Reached t visited')
    (more : visited.length < visited'.length) :
    applyAll t depth path references (config, visited') =
      applyAll t depth' path references (config, visited') := by
  induction references generalizing config visited' with
  | nil => rfl
  | cons reference references ih =>
    cases hrel : isRelativeReference reference with
    | false => rw [applyAll_cons_of_not_relative hrel, applyAll_cons_of_not_relative hrel]
    | true =>
      rw [applyAll_cons_of_relative hrel, applyAll_cons_of_relative hrel, each known more]
      cases hfirst : applyFile t depth' (config, visited') (target path reference) with
      | error e => rfl
      | ok state =>
        obtain ⟨found, hf⟩ := applyFile_eq_ok known hfirst
        exact ih hf.reached (Nat.lt_of_lt_of_le more hf.length_le)

/-- Applying never comes to the bound on the depth. -/
theorem applyFile_bound {depth' : Nat} (known : Reached t visited)
    (h : depthBound ≤ depth + visited.length) (h' : depthBound ≤ depth' + visited.length) :
    applyFile t depth (config, visited) path = applyFile t depth' (config, visited) path := by
  have hlong := known.length_lt
  induction depth generalizing depth' config visited path with
  | zero => omega
  | succ depth ih =>
    cases depth' with
    | zero => omega
    | succ depth' =>
      by_cases hv : path.steps ∈ visited.map Path.steps
      · rw [applyFile_of_visited hv, applyFile_of_visited hv]
      · cases read : readFile t path with
        | error e => rw [applyFile_of_unread hv read, applyFile_of_unread hv read]
        | ok file =>
          have each : ∀ {config : DocCommentConfig} {visited' : List Path} {path : Path},
              Reached t visited' → visited.length < visited'.length →
              applyFile t depth (config, visited') path =
                applyFile t depth' (config, visited') path :=
            fun known' more => ih known' (by omega) (by omega) known'.length_lt
          have all : applyAll t depth path file.extending (config, path :: visited) =
              applyAll t depth' path file.extending (config, path :: visited) :=
            applyAll_bound each file.extending (known.cons hv read) (Nat.lt_succ_self _)
          rw [applyFile_of_read hv read, applyFile_of_read hv read, all]

end ApiReview.DocCommentConfig
