import ApiReview.Proofs.Settings.Chain

/-!
# What a loaded document holds

A loaded document at a path of keys, told by the documents of its chain (`load_at?_iff`): the first
document that holds anything there decides, the built-in one coming last, unless a document above it
cuts the path off where no document above that one has anything. A path setting is read from the
folder of the file that supplied it.

A document that cuts a path off does not always hide what lies below it: an object in a document
above takes its place first, and then takes in what the documents below have
(`not_load_at?_iff_uncovered`).
-/

namespace ApiReview.Settings

open Json (Members FirstAt Prevails Through)

/-- The first value at a path, told by the file that it comes from. -/
theorem at?_layer {chain : List (Path × Members)} {p : List String} {i : Nat} {v : Json}
    (hi : FirstAt (layers chain ++ [defaults]) p i v) {e : Path × Members}
    (he : chain[i]? = some e) : (ownDocument e.1 e.2).at? p = some v := by
  obtain ⟨d, hd, hv⟩ := hi.holds
  have hl : i < (layers chain).length := by
    rw [layers, List.length_map]
    exact (List.getElem?_eq_some_iff.mp he).1
  rw [List.getElem?_append_left hl, layers, List.getElem?_map, he] at hd
  cases hd
  exact hv

/-- A document's path setting is read from the folder of its file. -/
theorem path_of_layer {t : FileTree} {root : Path} {chain : List (Path × Members)}
    (hc : Chain t root chain) {p : List String} (hp : p ∈ pathSettings) {i : Nat} {s : String}
    (hi : FirstAt (layers chain ++ [defaults]) p i (.string s)) {e : Path × Members}
    (he : chain[i]? = some e) :
    ∃ raw, (Json.object e.2).at? p = some (.string raw) ∧ s = anchorPath (folderOf e.1) raw := by
  have hs := at?_layer hi he
  rw [at?_ownDocument_of_pathSetting _ (hc.distinct e (List.mem_of_getElem? he)) hp] at hs
  obtain ⟨v, hv, hs⟩ := Option.map_eq_some_iff.mp hs
  cases v with
  | string raw =>
    cases hs
    exact ⟨raw, hv, rfl⟩
  | _ => cases hs

/-- A document's further entry points are read from the folder of its file. -/
theorem entryPoints_of_layer {t : FileTree} {root : Path} {chain : List (Path × Members)}
    (hc : Chain t root chain) {i : Nat} {entries : List Json}
    (hi : FirstAt (layers chain ++ [defaults]) ["additionalEntryPoints"] i (.array entries))
    {e : Path × Members} (he : chain[i]? = some e) :
    ∃ raw, (Json.object e.2).at? ["additionalEntryPoints"] = some (.array raw) ∧
      entries = raw.map (anchorEntryPoint (folderOf e.1)) := by
  have hs := at?_layer hi he
  rw [at?_ownDocument_entryPoints _ (hc.distinct e (List.mem_of_getElem? he))] at hs
  obtain ⟨v, hv, hs⟩ := Option.map_eq_some_iff.mp hs
  cases v with
  | array raw =>
    cases hs
    exact ⟨raw, hv, rfl⟩
  | _ => cases hs

/-- A loaded document comes from one chain. It holds a value other than an object at a path exactly
if that value prevails among the documents of the chain and the built-in one; and the paths in it
are read from the folder of the file whose value it is. -/
theorem load_at?_iff {t : FileTree} {path : Path} {document : Json}
    (h : load t path = .ok document) :
    ∃ chain, (∀ other, Chain t (t.absolute path) other ↔ other = chain) ∧
      (∀ p ≠ [], ∀ v : Json, v.isObject = false →
        (document.at? p = some v ↔ Prevails (layers chain ++ [defaults]) p v)) ∧
      (∀ p ∈ pathSettings, ∀ s, document.at? p = some (.string s) →
        ∃ i, FirstAt (layers chain ++ [defaults]) p i (.string s) ∧
          ∀ e, chain[i]? = some e → ∃ raw, (Json.object e.2).at? p = some (.string raw) ∧
            s = anchorPath (folderOf e.1) raw) ∧
      (∀ entries, document.at? ["additionalEntryPoints"] = some (.array entries) →
        ∃ i, FirstAt (layers chain ++ [defaults]) ["additionalEntryPoints"] i (.array entries) ∧
          ∀ e, chain[i]? = some e →
            ∃ raw, (Json.object e.2).at? ["additionalEntryPoints"] = some (.array raw) ∧
              entries = raw.map (anchorEntryPoint (folderOf e.1))) := by
  obtain ⟨chain, hc, rfl⟩ := eq_stack_of_load h
  have holds : ∀ p ≠ [], ∀ v : Json, v.isObject = false →
      ((Json.stack (layers chain ++ [defaults])).at? p = some v ↔
        Prevails (layers chain ++ [defaults]) p v) :=
    fun p hp v hv => Json.at?_stack_iff hc.isDocument hp hv
  have only : ∀ other, Chain t (t.absolute path) other ↔ other = chain :=
    fun other => ⟨fun ho => ho.unique hc, fun e => e ▸ hc⟩
  refine ⟨chain, only, holds, fun p hp s hs => ?_, fun entries hs => ?_⟩
  · obtain ⟨key, q, rfl, -⟩ := pathSettings_head p hp
    obtain ⟨i, hi, -⟩ := (holds _ (List.cons_ne_nil _ _) _ rfl).mp hs
    exact ⟨i, hi, fun e he => path_of_layer hc hp hi he⟩
  · obtain ⟨i, hi, -⟩ := (holds _ (List.cons_ne_nil _ _) _ rfl).mp hs
    exact ⟨i, hi, fun e he => entryPoints_of_layer hc hi he⟩

/-- Three files, each extending the next one. Under one key they have an object, null and an
object. -/
def cutTree : FileTree where
  entries :=
    [(["a".toList], .file (.text "\x7b\"extends\":\"./b\",\"docModel\":\x7b\"enabled\":false\x7d\x7d")),
      (["b".toList], .file (.text "\x7b\"extends\":\"./c\",\"docModel\":null\x7d")),
      (["c".toList], .file (.text "\x7b\"docModel\":\x7b\"projectFolderUrl\":\"u\"\x7d\x7d"))]
  workingFolder := []

/-- The chain of `cutTree`. -/
def cutChain : List (Path × Members) :=
  [(⟨"/a"⟩, [("extends", .string "./b"), ("docModel", .object [("enabled", .boolean false)])]),
    (⟨"/b"⟩, [("extends", .string "./c"), ("docModel", .null)]),
    (⟨"/c"⟩, [("docModel", .object [("projectFolderUrl", .string "u")])])]

theorem chain_cutTree : Chain cutTree ⟨"/a"⟩ cutChain :=
  .link (eq_ok_of_toOption (by decide +kernel)) (eq_ok_of_toOption (by decide +kernel))
    (.link (eq_ok_of_toOption (by decide +kernel)) (eq_ok_of_toOption (by decide +kernel))
      (.last (eq_ok_of_toOption (by decide +kernel)) (eq_ok_of_toOption (by decide +kernel))))

theorem load_cutTree : ∃ document, load cutTree ⟨"/a"⟩ = .ok document ∧
    document.at? ["docModel", "projectFolderUrl"] = some (.string "u") := by
  have h : (load cutTree ⟨"/a"⟩).toOption.bind (Json.at? ["docModel", "projectFolderUrl"]) =
      some (.string "u") := by decide +kernel
  obtain ⟨document, hd, hv⟩ := Option.bind_eq_some_iff.mp h
  exact ⟨document, eq_ok_of_toOption hd, hv⟩

/-- The paths of `load_at?_iff` at a value that the file in the middle seems to cut off. -/
theorem load_at?_iff_cutTree : ∃ document, load cutTree ⟨"/a"⟩ = .ok document ∧
    ∃ chain, Chain cutTree (cutTree.absolute ⟨"/a"⟩) chain ∧
      Prevails (layers chain ++ [defaults]) ["docModel", "projectFolderUrl"] (.string "u") := by
  obtain ⟨document, hd, hv⟩ := load_cutTree
  obtain ⟨chain, only, holds, -⟩ := load_at?_iff hd
  exact ⟨document, hd, chain, (only chain).mpr rfl,
    (holds _ (List.cons_ne_nil _ _) _ rfl).mp hv⟩

/-- A value that each document above leaves alone: none of them holds anything at its path or cuts
the path off. -/
def Uncovered (docs : List Json) (p : List String) (v : Json) : Prop :=
  ∃ (i : Nat) (d : Json), docs[i]? = some d ∧ d.at? p = some v ∧
    ∀ j < i, ∀ d', docs[j]? = some d' → d'.at? p = none ∧ ¬ Json.IsCut d' p

/-- A loaded document may hold a value that a document above cuts off. -/
theorem not_load_at?_iff_uncovered :
    ¬ ∀ (t : FileTree) (path : Path) (document : Json) (chain : List (Path × Members)),
      load t path = .ok document → Chain t (t.absolute path) chain →
      ∀ p ≠ [], ∀ v : Json, v.isObject = false →
        (document.at? p = some v ↔ Uncovered (layers chain ++ [defaults]) p v) := by
  intro h
  obtain ⟨document, hd, hv⟩ := load_cutTree
  have hroot : cutTree.absolute ⟨"/a"⟩ = ⟨"/a"⟩ := by decide +kernel
  obtain ⟨i, d, hi, hdv, above⟩ := (h cutTree ⟨"/a"⟩ document cutChain hd (hroot ▸ chain_cutTree)
    ["docModel", "projectFolderUrl"] (List.cons_ne_nil _ _) (.string "u") rfl).mp hv
  have hcut : Json.IsCut (ownDocument ⟨"/b"⟩ [("extends", .string "./c"), ("docModel", .null)])
      ["docModel", "projectFolderUrl"] :=
    ⟨["docModel"], ⟨by decide, by decide, by decide⟩, .null, by decide +kernel, rfl⟩
  rcases i with _ | _ | i
  · cases hi
    exact absurd hdv (by decide +kernel)
  · cases hi
    exact absurd hdv (by decide +kernel)
  · exact (above 1 (by omega) _ rfl).2 hcut

end ApiReview.Settings
