import ApiReview.Proofs.Json.Beneath
import ApiReview.Proofs.Path.Above
import ApiReview.Proofs.Settings.Spelling

/-!
# Settings over the settings that they extend

Loading lays each document of a chain beneath those before it, and the built-in one beneath all. A
file that extends another one therefore need not come to its own document over what the other file
comes to: an object in the file takes the place of a null in the other one, and then takes in what
lies further down, which the null hides when the other file is loaded by itself
(`not_load_eq_overlay_composeTree`). It does come to that exactly if nothing is taken in so
(`load_eq_overlay_iff`).

The other file is loaded by itself under its normal path. A reference gives that path unless it is a
name below `node_modules` with something in it that is no name (`IsPlainReference`).
-/

namespace ApiReview.Settings

open Json (Members beneath stack)
open ApiReview.Path (AllNames IsNames IsNormal fromRoot)

/-! ## References to normal paths -/

/-- A reference that gives a normal path: one from the folder or the root, or by names alone. -/
def IsPlainReference (reference : String) : Prop :=
  isRelativeReference reference = true ∨ (Path.mk reference).isAbsolute = true ∨ IsNames reference

/-- Names stay names with `.json` behind them. -/
theorem isNames_json {s : String} (h : IsNames s) : IsNames (s ++ ".json") := by
  have hslash : '/' ∉ ".json".toList := by decide
  obtain ⟨front, last, hs, ht⟩ := Text.splitOn_append_of_not_mem hslash s.toList
  intro piece hp
  rw [String.toList_append, ht] at hp
  rcases List.mem_append.mp hp with hp | hp
  · exact h piece (by rw [hs]; exact List.mem_append_left _ hp)
  · rw [List.mem_singleton.mp hp]
    have hlast := (h last (by rw [hs]; exact List.mem_concat_self)).2
    have hlong : 5 ≤ (last ++ ".json".toList).length := by
      rw [List.length_append]
      exact Nat.le_add_left _ _
    refine ⟨?_, fun hm => (List.mem_append.mp hm).elim hlast hslash⟩
    generalize last ++ ".json".toList = name at hlong
    have hempty : name ≠ [] := fun e => absurd (e ▸ hlong) (by decide)
    have hdot : name ≠ ['.'] := fun e => absurd (e ▸ hlong) (by decide)
    have hup : name ≠ ['.', '.'] := fun e => absurd (e ▸ hlong) (by decide)
    rw [Path.stepOf?, Path.isSilent, decide_eq_false hempty, decide_eq_false hdot, if_neg hup]
    rfl

/-- What lies above a normal path is normal. -/
theorem isNormal_of_mem_ancestors {names : List Path.Step} (h : AllNames names) {p : Path}
    (hp : p ∈ (fromRoot names).ancestors) : IsNormal p := by
  induction names using List.reverseRecOn with
  | nil =>
    rw [Path.ancestors, Path.parents_fromRoot_nil, List.mem_singleton] at hp
    exact ⟨[], h, hp⟩
  | append_singleton names step ih =>
    rw [Path.ancestors, Path.parents_fromRoot_concat h.of_concat.1 h.of_concat.2] at hp
    rcases List.mem_cons.mp hp with rfl | hp
    · exact ⟨_, h, rfl⟩
    · exact ih h.of_concat.1 hp

theorem isName_node_modules : (Path.Step.name "node_modules".toList).IsName := ⟨by decide, by decide⟩

/-- A reference by names gives a normal path. -/
theorem isNormal_of_mem_namedCandidates {folder q : Path} {name : String} (hf : IsNormal folder)
    (hn : IsNames name) (hq : q ∈ namedCandidates folder name) : IsNormal q := by
  obtain ⟨names, hnames, rfl⟩ := hf
  have hmodules := hnames.concat isName_node_modules
  rw [namedCandidates, Path.fromRoot_join_name hnames isName_node_modules] at hq
  have below : ∀ {s}, IsNames s →
      IsNormal ((fromRoot (names ++ [.name "node_modules".toList])).join ⟨s⟩) := fun hs =>
    ⟨_, hs.allNames hmodules, Path.fromRoot_join_names hmodules hs⟩
  rcases List.mem_cons.mp hq with rfl | hq
  · exact below hn
  · rw [List.mem_singleton.mp hq]
    exact below (isNames_json hn)

/-- A plain reference from a normal path gives a normal path. -/
theorem isNormal_of_extended? {t : FileTree} {p q : Path} {members : Members} (hp : IsNormal p)
    (read : readDocument t p = .ok members) (refers : extended? t p members = .ok (some q))
    (plain : ∀ reference, Json.find? "extends" members = some (.string reference) →
      IsPlainReference reference) : IsNormal q := by
  obtain ⟨names, hnames, rfl⟩ := hp
  have hparents := parents_ne_nil_of_readDocument (Path.isAbsolute_fromRoot names) read
  -- The root is no document, so there is a folder above.
  obtain ⟨front, step, rfl⟩ : ∃ front step, names = front ++ [step] := by
    rcases List.eq_nil_or_concat names with rfl | ⟨front, step, rfl⟩
    · exact absurd Path.parents_fromRoot_nil hparents
    · exact ⟨front, step, List.concat_eq_append⟩
  obtain ⟨hfront, hstep⟩ := hnames.of_concat
  have hfolder : folderOf (fromRoot (front ++ [step])) = fromRoot front := by
    rw [folderOf, Path.parent?_fromRoot_concat hfront hstep, Option.getD_some]
  obtain ⟨reference, hr, hq⟩ := extended?_eq_some refers
  rw [hfolder] at hq
  rcases hq with rfl | ⟨habsolute, rfl⟩ | ⟨hrelative, habsolute, folder, hm, hq⟩
  · exact Path.isNormal_resolve (Path.isAbsolute_fromRoot front)
  · exact Path.normalize_eq_fromRoot habsolute
  · rcases plain reference hr with h | h | h
    · rw [hrelative] at h
      cases h
    · rw [habsolute] at h
      cases h
    · exact isNormal_of_mem_namedCandidates (isNormal_of_mem_ancestors hfront hm) h hq

/-! ## A file and the one that it extends -/

/-- The documents from a file that extends another one on are its own and those from the other
one on. -/
theorem Chain.exists_of_refers {t : FileTree} {path next : Path} {members : Members}
    {chain : List (Path × Members)} (h : Chain t path chain)
    (read : readDocument t path = .ok members)
    (refers : extended? t path members = .ok (some next)) :
    ∃ rest, Chain t next rest ∧ chain = (path, members) :: rest := by
  cases h with
  | last read' ends =>
    cases read.symm.trans read'
    cases refers.symm.trans ends
  | link read' refers' rest =>
    cases read.symm.trans read'
    cases refers.symm.trans refers'
    exact ⟨_, rest, rfl⟩

/-- The first document of a stack has the others laid beneath it. -/
theorem stack_cons {d : Json} (h : d.isObject = true) (docs : List Json) :
    stack (d :: docs) = beneath docs d := by
  obtain ⟨members, rfl⟩ := Json.exists_members h
  have hd : Json.overlay (.object members) (.object []) = .object members := by
    rw [Json.overlay_object, Json.overlayMembers]
  rw [stack, List.foldl_cons, hd]
  rfl

/-- A file that extends another one comes to its own document laid over what the other one comes to
exactly if that document closes over the documents of the other one; so always, if the other one
comes to an object wherever the document has one. -/
theorem load_eq_overlay_iff {t : FileTree} {child parent : Path} {members : Members}
    {document base : Json} (read : readDocument t (t.absolute child) = .ok members)
    (refers : extended? t (t.absolute child) members = .ok (some parent))
    (hchild : load t child = .ok document) (hparent : load t parent = .ok base) :
    ((∀ reference, Json.find? "extends" members = some (.string reference) →
      IsPlainReference reference) → t.absolute parent = parent) ∧
    (t.absolute parent = parent → ∃ chain, Chain t parent chain ∧
      base = stack (layers chain ++ [defaults]) ∧
      (document = Json.overlay base (ownDocument (t.absolute child) members) ↔
        Json.ClosesOver (layers chain ++ [defaults]) (ownDocument (t.absolute child) members)) ∧
      ((∀ p m u, (ownDocument (t.absolute child) members).at? p = some (.object m) →
          base.at? p = some u → u.isObject = true) →
        document = Json.overlay base (ownDocument (t.absolute child) members))) := by
  refine ⟨fun plain => t.absolute_eq_self (isNormal_of_extended? (t.isNormal_absolute child) read
    refers plain), fun hnormal => ?_⟩
  obtain ⟨whole, hwhole, rfl⟩ := eq_stack_of_load hchild
  obtain ⟨chain, hchain, rfl⟩ := eq_stack_of_load hparent
  rw [hnormal] at hchain
  obtain ⟨rest, hrest, rfl⟩ := hwhole.exists_of_refers read refers
  obtain rfl := hrest.unique hchain
  have hown := isDocument_ownDocument (t.absolute child) (distinct_readDocument read)
  have hstack : stack (layers ((t.absolute child, members) :: rest) ++ [defaults]) =
      beneath (layers rest ++ [defaults]) (ownDocument (t.absolute child) members) :=
    stack_cons hown.isObject _
  have both := Json.beneath_eq_overlay_stack_iff hchain.isDocument hown
  rw [hstack]
  refine ⟨rest, hchain, rfl, both, fun objects => both.mpr fun p m u hm hu ho => ?_⟩
  rw [objects p m u hm hu] at ho
  cases ho

/-- A file with an object where the file that it extends has null. -/
def composeTree : FileTree where
  entries :=
    [(["a".toList], .file (.text "\x7b\"extends\":\"./b\",\"docModel\":\x7b\"enabled\":false\x7d\x7d")),
      (["b".toList], .file (.text "\x7b\"docModel\":null\x7d"))]
  workingFolder := []

/-- The members of the file in `composeTree` that extends the other one. -/
def composeMembers : Members :=
  [("extends", .string "./b"), ("docModel", .object [("enabled", .boolean false)])]

theorem read_composeTree :
    readDocument composeTree (composeTree.absolute ⟨"/a"⟩) = .ok composeMembers ∧
      extended? composeTree (composeTree.absolute ⟨"/a"⟩) composeMembers = .ok (some ⟨"/b"⟩) :=
  ⟨eq_ok_of_toOption (by decide +kernel), eq_ok_of_toOption (by decide +kernel)⟩

/-- Both files can be loaded. The built-in path of the model shows in the one with an object there,
and not where its own document is laid over the other one. -/
theorem load_composeTree : ∃ document base, load composeTree ⟨"/a"⟩ = .ok document ∧
    load composeTree ⟨"/b"⟩ = .ok base ∧
    document.at? ["docModel", "apiJsonFilePath"] =
      some (.string "<projectFolder>/temp/<unscopedPackageName>.api.json") ∧
    (Json.overlay base (ownDocument (composeTree.absolute ⟨"/a"⟩) composeMembers)).at?
      ["docModel", "apiJsonFilePath"] = none := by
  obtain ⟨document, hd, hv⟩ := exists_ok_of_map (x := load composeTree ⟨"/a"⟩)
    (f := Json.at? ["docModel", "apiJsonFilePath"])
    (b := some (.string "<projectFolder>/temp/<unscopedPackageName>.api.json")) (by decide +kernel)
  obtain ⟨base, hb, hw⟩ := exists_ok_of_map (x := load composeTree ⟨"/b"⟩)
    (f := fun base => (Json.overlay base
      (ownDocument (composeTree.absolute ⟨"/a"⟩) composeMembers)).at? ["docModel", "apiJsonFilePath"])
    (b := none) (by decide +kernel)
  exact ⟨document, base, hd, hb, hv, hw⟩

/-- What the files of `composeTree` come to, told by the documents of the one that is extended. -/
theorem load_eq_overlay_iff_composeTree : ∃ document base chain,
    load composeTree ⟨"/a"⟩ = .ok document ∧ load composeTree ⟨"/b"⟩ = .ok base ∧
    Chain composeTree ⟨"/b"⟩ chain ∧ base = stack (layers chain ++ [defaults]) ∧
    (document = Json.overlay base (ownDocument (composeTree.absolute ⟨"/a"⟩) composeMembers) ↔
      Json.ClosesOver (layers chain ++ [defaults])
        (ownDocument (composeTree.absolute ⟨"/a"⟩) composeMembers)) := by
  obtain ⟨hread, hrefers⟩ := read_composeTree
  obtain ⟨document, base, hd, hb, -⟩ := load_composeTree
  obtain ⟨hnormal, hboth⟩ := load_eq_overlay_iff hread hrefers hd hb
  have hplain : composeTree.absolute ⟨"/b"⟩ = ⟨"/b"⟩ := hnormal fun reference hr => by
    cases hr
    exact .inl (by decide)
  obtain ⟨chain, hchain, hbase, hiff, -⟩ := hboth hplain
  exact ⟨document, base, chain, hd, hb, hchain, hbase, hiff⟩

/-- A file need not come to its own document over what the file that it extends comes to. -/
theorem not_load_eq_overlay_composeTree :
    ¬ ∀ (t : FileTree) (child parent : Path) (members : Members) (document base : Json),
      readDocument t (t.absolute child) = .ok members →
      extended? t (t.absolute child) members = .ok (some parent) →
      load t child = .ok document → load t parent = .ok base →
      document = Json.overlay base (ownDocument (t.absolute child) members) := by
  intro h
  obtain ⟨hread, hrefers⟩ := read_composeTree
  obtain ⟨document, base, hd, hb, hv, hw⟩ := load_composeTree
  rw [h composeTree ⟨"/a"⟩ ⟨"/b"⟩ composeMembers document base hread hrefers hd hb, hw] at hv
  cases hv

end ApiReview.Settings
