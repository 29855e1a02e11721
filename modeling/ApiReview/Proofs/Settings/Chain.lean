import ApiReview.Proofs.Json.Stack
import ApiReview.Settings.Inheritance

/-!
# The documents of a chain

A chain of settings files, each with the members that were read from it (`Chain`). What loading
comes to is the stack of the chain's own documents (`loadChain_eq_ok`), whatever bound is put on its
length. An own document differs from the file in that its paths are read from its folder
(`at?_ownDocument_of_pathSetting`) and its reference is gone.
-/

namespace ApiReview.Settings

open Json (Members DistinctMembers Distinct IsDocument find? change takeOut)

/-- The documents from a file on, each referring to the next one, the last one to none. -/
inductive Chain (t : FileTree) : Path → List (Path × Members) → Prop where
  | last {path : Path} {members : Members} (read : readDocument t path = .ok members)
      (ends : extended? t path members = .ok none) : Chain t path [(path, members)]
  | link {path next : Path} {members : Members} {rest : List (Path × Members)}
      (read : readDocument t path = .ok members)
      (refers : extended? t path members = .ok (some next)) (chain : Chain t next rest) :
      Chain t path ((path, members) :: rest)

/-- The documents of a chain as they take part in it. -/
def layers (chain : List (Path × Members)) : List Json :=
  chain.map fun e => ownDocument e.1 e.2

theorem Chain.unique {t : FileTree} {path : Path} {chain chain' : List (Path × Members)}
    (h : Chain t path chain) (h' : Chain t path chain') : chain = chain' := by
  induction h generalizing chain' with
  | last read ends =>
    cases h' with
    | last read' ends' =>
      cases read.symm.trans read'
      rfl
    | link read' refers' rest' =>
      cases read.symm.trans read'
      cases ends.symm.trans refers'
  | link read refers rest ih =>
    cases h' with
    | last read' ends' =>
      cases read.symm.trans read'
      cases refers.symm.trans ends'
    | link read' refers' rest' =>
      cases read.symm.trans read'
      cases refers.symm.trans refers'
      rw [ih rest']

/-- A document that is extended is read from the folder of the one that extends it, stands for
itself, or is found by its name in a `node_modules` folder above. -/
theorem extended?_eq_some {t : FileTree} {path next : Path} {members : Members}
    (h : extended? t path members = .ok (some next)) :
    ∃ name, find? "extends" members = some (.string name) ∧
      (next = (folderOf path).resolve ⟨name⟩ ∨
        (Path.mk name).isAbsolute = true ∧ next = Path.normalize ⟨name⟩ ∨
        isRelativeReference name = false ∧ (Path.mk name).isAbsolute = false ∧
          ∃ folder ∈ (folderOf path).ancestors, next ∈ namedCandidates folder name) := by
  rw [extended?] at h
  split at h
  · cases h
  · cases h
  · rename_i name hname
    refine ⟨name, hname, ?_⟩
    split at h
    · cases h
    · split at h
      · rename_i found hfound
        cases h
        rw [resolveReference?] at hfound
        split at hfound
        · exact .inl (Option.some.inj hfound).symm
        · rename_i hrelative
          split at hfound
          · rename_i habsolute
            exact .inr (.inl ⟨habsolute, (Option.some.inj hfound).symm⟩)
          · rename_i habsolute
            exact .inr (.inr ⟨Bool.eq_false_iff.mpr hrelative, Bool.eq_false_iff.mpr habsolute,
              List.mem_flatMap.mp (List.mem_of_find?_eq_some hfound)⟩)
      · cases h
  · cases h

/-! ## One step of loading -/

section Step

variable {t : FileTree} {bound : Nat} {visited : List Path} {path : Path} {upper : Json}

theorem loadChain_of_visited (h : visited.any (·.same path) = true) :
    loadChain t (bound + 1) visited path upper = .error (.extendsCycle path) := by
  rw [loadChain, if_pos h]
  rfl

theorem loadChain_of_unread (h : visited.any (·.same path) = false) {e : SettingsError}
    (read : readDocument t path = .error e) :
    loadChain t (bound + 1) visited path upper = .error e := by
  rw [loadChain, if_neg (Bool.eq_false_iff.mp h), read]
  rfl

theorem loadChain_of_unresolved (h : visited.any (·.same path) = false) {members : Members}
    (read : readDocument t path = .ok members) {e : SettingsError}
    (refers : extended? t path members = .error e) :
    loadChain t (bound + 1) visited path upper = .error e := by
  rw [loadChain, if_neg (Bool.eq_false_iff.mp h), read]
  simp only [bind, Except.bind, refers]

theorem loadChain_of_last (h : visited.any (·.same path) = false) {members : Members}
    (read : readDocument t path = .ok members) (ends : extended? t path members = .ok none) :
    loadChain t (bound + 1) visited path upper =
      .ok (Json.overlay (ownDocument path members) upper) := by
  rw [loadChain, if_neg (Bool.eq_false_iff.mp h), read]
  simp only [bind, Except.bind, ends]
  rfl

theorem loadChain_of_link (h : visited.any (·.same path) = false) {members : Members}
    (read : readDocument t path = .ok members) {next : Path}
    (refers : extended? t path members = .ok (some next)) :
    loadChain t (bound + 1) visited path upper =
      loadChain t bound (path :: visited) next (Json.overlay (ownDocument path members) upper) := by
  rw [loadChain, if_neg (Bool.eq_false_iff.mp h), read]
  simp only [bind, Except.bind, refers]

end Step

/-- What loading comes to is the stack of a chain's documents under those already there. -/
theorem loadChain_eq_ok {t : FileTree} {bound : Nat} {visited : List Path} {path : Path}
    {upper merged : Json} (h : loadChain t bound visited path upper = .ok merged) :
    ∃ chain, Chain t path chain ∧
      merged = (layers chain).foldl (fun upper d => Json.overlay d upper) upper := by
  induction bound generalizing visited path upper with
  | zero => cases h
  | succ bound ih =>
    cases hv : visited.any (·.same path) with
    | true => rw [loadChain_of_visited hv] at h; cases h
    | false =>
      cases hr : readDocument t path with
      | error e => rw [loadChain_of_unread hv hr] at h; cases h
      | ok members =>
        cases hx : extended? t path members with
        | error e => rw [loadChain_of_unresolved hv hr hx] at h; cases h
        | ok next =>
          cases next with
          | none =>
            rw [loadChain_of_last hv hr hx] at h
            exact ⟨_, .last hr hx, (Except.ok.inj h).symm⟩
          | some next =>
            rw [loadChain_of_link hv hr hx] at h
            obtain ⟨chain, hc, rfl⟩ := ih h
            exact ⟨_, .link hr hx hc, rfl⟩

/-- Loading is the chain under the built-in document, and the check of what that comes to. -/
theorem loadChecked_of_chain {violations : Json → List String} {t : FileTree} {path : Path}
    {merged : Json}
    (h : loadChain t chainBound [] (t.absolute path) (.object []) = .ok merged) :
    loadChecked violations t path =
      if violations (Json.overlay defaults merged) = [] then .ok (Json.overlay defaults merged)
      else .error (.schema .loading (t.absolute path).text
        (violations (Json.overlay defaults merged))) := by
  rw [loadChecked]
  simp only [h, bind, Except.bind]
  by_cases hv : violations (Json.overlay defaults merged) = []
  · rw [if_pos hv, if_neg (not_not_intro hv)]
    rfl
  · rw [if_neg hv, if_pos hv]
    rfl

theorem loadChecked_of_error {violations : Json → List String} {t : FileTree} {path : Path}
    {e : SettingsError}
    (h : loadChain t chainBound [] (t.absolute path) (.object []) = .error e) :
    loadChecked violations t path = .error e := by
  rw [loadChecked, h]
  rfl

/-- A loaded document is the stack of the chain's documents and the built-in one. -/
theorem eq_stack_of_load {t : FileTree} {path : Path} {document : Json}
    (h : load t path = .ok document) :
    ∃ chain, Chain t (t.absolute path) chain ∧
      document = Json.stack (layers chain ++ [defaults]) := by
  rw [load] at h
  cases hm : loadChain t chainBound [] (t.absolute path) (.object []) with
  | error e => rw [loadChecked_of_error hm] at h; cases h
  | ok merged =>
    obtain ⟨chain, hc, rfl⟩ := loadChain_eq_ok hm
    refine ⟨chain, hc, ?_⟩
    rw [loadChecked_of_chain hm] at h
    rw [Json.stack_concat]
    split at h
    · exact (Except.ok.inj h).symm
    · cases h

/-! ## Paths in a document -/

/-- Neither path of keys leads through the other. -/
def Apart (p q : List String) : Prop := ¬ p <+: q ∧ ¬ q <+: p

theorem Apart.of_cons {key : String} {p q : List String} (h : Apart (key :: p) (key :: q)) :
    Apart p q :=
  ⟨fun e => h.1 (List.cons_prefix_cons.mpr ⟨rfl, e⟩),
    fun e => h.2 (List.cons_prefix_cons.mpr ⟨rfl, e⟩)⟩

theorem Apart.symm {p q : List String} (h : Apart p q) : Apart q p := ⟨h.2, h.1⟩

theorem at?_changeAt_self (f : Json → Json) {p : List String} (hp : p ≠ []) (members : Members) :
    (Json.object (changeAt f p members)).at? p = ((Json.object members).at? p).map f := by
  induction p generalizing members with
  | nil => exact absurd rfl hp
  | cons key p ih =>
    rw [Json.at?_cons_object, Json.at?_cons_object]
    cases p with
    | nil =>
      rw [changeAt, Json.find?_change_self]
      cases find? key members <;> rfl
    | cons next p =>
      rw [changeAt, Json.find?_change_self]
      cases find? key members with
      | none => rfl
      | some v =>
        cases v with
        | object inner => exact ih (List.cons_ne_nil _ _) inner
        | _ => rfl

theorem at?_changeAt_of_apart (f : Json → Json) {p q : List String} (h : Apart p q)
    (members : Members) :
    (Json.object (changeAt f p members)).at? q = (Json.object members).at? q := by
  induction p generalizing members q with
  | nil => exact absurd List.nil_prefix h.1
  | cons key p ih =>
    cases q with
    | nil => exact absurd List.nil_prefix h.2
    | cons k q =>
      rw [Json.at?_cons_object, Json.at?_cons_object]
      by_cases e : k = key
      · subst e
        have h := h.of_cons
        cases p with
        | nil => exact absurd List.nil_prefix h.1
        | cons next p =>
          rw [changeAt, Json.find?_change_self]
          cases find? k members with
          | none => rfl
          | some v =>
            cases v with
            | object inner => exact ih h inner
            | _ => rfl
      · cases p <;> rw [changeAt, Json.find?_change_of_ne e]

theorem at?_foldl_changeAt_of_apart (f : Json → Json) {paths : List (List String)}
    {p : List String} (h : ∀ q ∈ paths, Apart q p) (members : Members) :
    (Json.object (paths.foldl (fun ms q => changeAt f q ms) members)).at? p =
      (Json.object members).at? p := by
  induction paths generalizing members with
  | nil => rfl
  | cons q paths ih =>
    rw [List.foldl_cons, ih fun r hr => h r (List.mem_cons_of_mem _ hr),
      at?_changeAt_of_apart f (h q List.mem_cons_self)]

/-- Where many paths are changed, none leading through another one, each is changed once. -/
theorem at?_foldl_changeAt (f : Json → Json) {paths : List (List String)}
    (hn : ∀ p ∈ paths, p ≠ []) (hp : paths.Pairwise Apart) {p : List String} (h : p ∈ paths)
    (members : Members) :
    (Json.object (paths.foldl (fun ms q => changeAt f q ms) members)).at? p =
      ((Json.object members).at? p).map f := by
  induction paths generalizing members with
  | nil => cases h
  | cons q paths ih =>
    obtain ⟨hq, hp⟩ := List.pairwise_cons.mp hp
    rw [List.foldl_cons]
    rcases List.mem_cons.mp h with rfl | h
    · rw [at?_foldl_changeAt_of_apart f fun r hr => (hq r hr).symm,
        at?_changeAt_self f (hn p List.mem_cons_self)]
    · rw [ih (fun r hr => hn r (List.mem_cons_of_mem _ hr)) hp h,
        at?_changeAt_of_apart f (hq p h)]

/-! ## The documents of a chain -/

theorem distinct_anchorValue (folder : Path) {v : Json} (h : Distinct v) :
    Distinct (anchorValue folder v) := by
  cases v with
  | string s => exact trivial
  | _ => exact h

theorem distinctMembers_changeAt {f : Json → Json} (hf : ∀ v, Distinct v → Distinct (f v)) :
    ∀ (p : List String) {members : Members}, DistinctMembers members →
      DistinctMembers (changeAt f p members)
  | [], _, h => h
  | [key], _, h => h.change key hf
  | key :: next :: p, _, h => h.change key fun v hv => by
    cases v with
    | object inner => exact distinctMembers_changeAt hf (next :: p) hv
    | _ => exact hv

theorem distinct_anchorEntryPoint (folder : Path) {v : Json} (h : Distinct v) :
    Distinct (anchorEntryPoint folder v) := by
  cases v with
  | object members => exact DistinctMembers.change h _ fun _ => distinct_anchorValue folder
  | _ => exact h

theorem distinctItems_map {f : Json → Json} (hf : ∀ v, Distinct v → Distinct (f v)) :
    ∀ {items : List Json}, Json.DistinctItems items → Json.DistinctItems (items.map f)
  | [], h => h
  | _ :: _, ⟨h, ht⟩ => ⟨hf _ h, distinctItems_map hf ht⟩

theorem distinctMembers_foldl_changeAt {f : Json → Json} (hf : ∀ v, Distinct v → Distinct (f v)) :
    ∀ (paths : List (List String)) {members : Members}, DistinctMembers members →
      DistinctMembers (paths.foldl (fun ms q => changeAt f q ms) members)
  | [], _, h => h
  | p :: paths, _, h =>
    distinctMembers_foldl_changeAt hf paths (distinctMembers_changeAt hf p h)

theorem isDocument_anchorPaths (folder : Path) {members : Members} (h : DistinctMembers members) :
    IsDocument (.object (anchorPaths folder members)) := by
  rw [anchorPaths]
  -- Which settings are paths does not matter here, and the list is not to be unfolded.
  generalize pathSettings = paths
  have hfold := distinctMembers_foldl_changeAt (fun _ => distinct_anchorValue folder) paths h
  refine ⟨rfl, hfold.change _ fun v hv => ?_⟩
  cases v with
  | array entries => exact distinctItems_map (fun _ => distinct_anchorEntryPoint folder) hv
  | _ => exact hv

theorem isDocument_ownDocument (path : Path) {members : Members} (h : DistinctMembers members) :
    IsDocument (ownDocument path members) :=
  isDocument_anchorPaths (folderOf path) (h.takeOut "extends")

theorem distinct_readDocument {t : FileTree} {path : Path} {members : Members}
    (h : readDocument t path = .ok members) : DistinctMembers members := by
  obtain ⟨s, -, h⟩ := bind_eq_ok h
  obtain ⟨v, hv, h⟩ := bind_eq_ok h
  have hd := Json.distinct_parse (mapError_eq_ok hv)
  cases v with
  | object ms => cases h; exact hd
  | _ => cases h

theorem Chain.distinct {t : FileTree} {path : Path} {chain : List (Path × Members)}
    (h : Chain t path chain) : ∀ e ∈ chain, DistinctMembers e.2 := by
  induction h with
  | last read ends =>
    intro e he
    rw [List.mem_singleton.mp he]
    exact distinct_readDocument read
  | link read refers rest ih =>
    intro e he
    rcases List.mem_cons.mp he with rfl | he
    · exact distinct_readDocument read
    · exact ih e he

theorem isDocument_defaults : IsDocument defaults :=
  ⟨rfl, by simp [defaults, defaultRule, Distinct, DistinctMembers, Json.DistinctItems, find?]⟩

/-- All that is laid over each other are objects with distinct keys. -/
theorem Chain.isDocument {t : FileTree} {path : Path} {chain : List (Path × Members)}
    (h : Chain t path chain) : ∀ d ∈ layers chain ++ [defaults], IsDocument d := by
  intro d hd
  rcases List.mem_append.mp hd with hd | hd
  · obtain ⟨e, he, rfl⟩ := List.mem_map.mp hd
    exact isDocument_ownDocument _ (h.distinct e he)
  · rw [List.mem_singleton.mp hd]
    exact isDocument_defaults

theorem pathSettings_apart : pathSettings.Pairwise Apart := by
  unfold Apart
  decide

/-- No path setting is the reference or lies among the further entry points. -/
theorem pathSettings_head : ∀ p ∈ pathSettings, ∃ key q, p = key :: q ∧ key ≠ "extends" ∧
    key ≠ "additionalEntryPoints" := by
  simp [pathSettings]

/-- A path setting of an own document is read from the folder of its file. -/
theorem at?_ownDocument_of_pathSetting (path : Path) {members : Members}
    (h : DistinctMembers members) {p : List String} (hp : p ∈ pathSettings) :
    (ownDocument path members).at? p =
      ((Json.object members).at? p).map (anchorValue (folderOf path)) := by
  have hne : ∀ q ∈ pathSettings, q ≠ [] := fun q hq => by
    obtain ⟨key, q, rfl, -⟩ := pathSettings_head q hq
    exact List.cons_ne_nil _ _
  have hfold := at?_foldl_changeAt (anchorValue (folderOf path)) hne pathSettings_apart hp
    (takeOut "extends" members)
  obtain ⟨key, q, rfl, hx, ha⟩ := pathSettings_head p hp
  rw [Json.at?_cons_object, Json.at?_cons_object, Json.find?_takeOut_of_ne hx h] at hfold
  rw [ownDocument, anchorPaths, Json.at?_cons_object, Json.find?_change_of_ne ha, hfold]
  rfl

/-- The further entry points with their paths read from a folder. -/
def anchorEntryPoints (folder : Path) : Json → Json
  | .array entries => .array (entries.map (anchorEntryPoint folder))
  | v => v

/-- The further entry points of an own document are read from the folder of its file. -/
theorem at?_ownDocument_entryPoints (path : Path) {members : Members}
    (h : DistinctMembers members) :
    (ownDocument path members).at? ["additionalEntryPoints"] =
      ((Json.object members).at? ["additionalEntryPoints"]).map
        (anchorEntryPoints (folderOf path)) := by
  have hap : ∀ q ∈ pathSettings, Apart q ["additionalEntryPoints"] := by
    unfold Apart
    decide
  have hfold := at?_foldl_changeAt_of_apart (anchorValue (folderOf path)) hap
    (takeOut "extends" members)
  rw [Json.at?_singleton_object, Json.at?_singleton_object,
    Json.find?_takeOut_of_ne (by decide) h] at hfold
  rw [ownDocument, anchorPaths, Json.at?_singleton_object, Json.at?_singleton_object,
    Json.find?_change_self, hfold]
  rfl

end ApiReview.Settings
