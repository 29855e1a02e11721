import ApiReview.Files.Access
import ApiReview.Proofs.Outcome
import ApiReview.Proofs.Path.Above

/-!
# Where paths lead

A path from the root leads to one place, however it is spelled (`Path.place`): what it is found to
name stands there (`entryAt?_of_find`). Writing a text may make folders where nothing was, and sets
the file at the place of its path; it changes nothing else (`writeText_spec`).
-/

namespace ApiReview

/-- The name that a step goes to. -/
def Path.Step.name? : Path.Step → Option (List Char)
  | .name s => some s
  | _ => none

/-- The place of a path from the root. -/
def Path.place (p : Path) : Place :=
  (Path.normalSteps true p.steps).filterMap Path.Step.name?

namespace FileTree

/-- The place behind one more piece. -/
def along (place : Place) (piece : List Char) : Place :=
  if Path.isSilent piece then place
  else if piece = ['.', '.'] then place.dropLast
  else place ++ [piece]

theorem along_of_name {piece : List Char} (h : Path.stepOf? piece = some (.name piece))
    (place : Place) : along place piece = place ++ [piece] := by
  rw [Path.stepOf?] at h
  rw [along]
  split at h
  · cases h
  · rename_i hs
    split at h
    · cases h
    · rename_i hu
      rw [if_neg hs, if_neg hu]

/-- A walk that arrives goes along its pieces. -/
theorem walk_eq_ok {t : FileTree} {place place' : Place} {pieces : List (List Char)}
    (h : t.walk place pieces = .ok place') : place' = pieces.foldl along place := by
  induction pieces generalizing place with
  | nil => exact (Except.ok.inj h).symm
  | cons piece rest ih =>
    rw [walk] at h
    rw [List.foldl_cons, along]
    split at h
    · cases h
    · split at h
      · rename_i hs
        rw [if_pos hs]
        exact ih h
      · rename_i hs
        rw [if_neg hs]
        split at h
        · rename_i hu
          rw [if_pos hu]
          exact ih h
        · rename_i hu
          rw [if_neg hu]
          split at h
          · cases h
          · split at h
            · cases h
            · exact ih h

/-- The stack of a normal form holds the names of the place, the last one on top. -/
theorem names_foldl_push (pieces : List (List Char)) {stack : List Path.Step}
    (h : ∀ step ∈ stack, ∃ s, step = .name s) :
    ((pieces.filterMap Path.stepOf?).foldl (Path.push true) stack).reverse.filterMap
        Path.Step.name? =
      pieces.foldl along (stack.reverse.filterMap Path.Step.name?) := by
  induction pieces generalizing stack with
  | nil => rfl
  | cons piece rest ih =>
    rw [List.foldl_cons, along]
    by_cases hs : Path.isSilent piece = true
    · have hn : Path.stepOf? piece = none := by rw [Path.stepOf?, if_pos hs]
      rw [if_pos hs, List.filterMap_cons_none hn]
      exact ih h
    · rw [if_neg hs]
      by_cases hu : piece = ['.', '.']
      · have hn : Path.stepOf? piece = some .up := by rw [Path.stepOf?, if_neg hs, if_pos hu]
        rw [if_pos hu, List.filterMap_cons_some hn, List.foldl_cons]
        cases stack with
        | nil => exact ih h
        | cons top below =>
          obtain ⟨s, rfl⟩ := h top List.mem_cons_self
          have hb : ∀ step ∈ below, ∃ s, step = .name s := fun step hm =>
            h step (List.mem_cons_of_mem _ hm)
          have hd : ((.name s :: below).reverse.filterMap Path.Step.name?).dropLast =
              below.reverse.filterMap Path.Step.name? := by
            rw [List.reverse_cons, List.filterMap_append]
            exact List.dropLast_concat
          rw [hd]
          exact ih hb
      · have hn : Path.stepOf? piece = some (.name piece) := by
          rw [Path.stepOf?, if_neg hs, if_neg hu]
        rw [if_neg hu, List.filterMap_cons_some hn, List.foldl_cons]
        have hstack : ∀ step ∈ Path.Step.name piece :: stack, ∃ s, step = .name s := by
          intro step hm
          rcases List.mem_cons.mp hm with rfl | hm
          · exact ⟨piece, rfl⟩
          · exact h step hm
        have hc : (Path.Step.name piece :: stack).reverse.filterMap Path.Step.name? =
            stack.reverse.filterMap Path.Step.name? ++ [piece] := by
          rw [List.reverse_cons, List.filterMap_append]
          rfl
        rw [← hc]
        exact ih hstack

theorem place_of_slash {p : Path} {s : List Char} (h : p.text.toList = '/' :: s) :
    p.place = (Text.splitOn '/' s).foldl along [] := by
  have hnone : ∀ step ∈ ([] : List Path.Step), ∃ s, step = .name s :=
    fun _ h => absurd h List.not_mem_nil
  rw [Path.place, Path.steps_of_slash h, Path.normalSteps]
  exact names_foldl_push (Text.splitOn '/' s) hnone

theorem startOf_eq_ok {t : FileTree} {p : Path} {s : List Char} (hp : p.text.toList = '/' :: s)
    {start : Place × List (List Char)} (h : t.startOf p = .ok start) :
    start = ([], Text.splitOn '/' s) := by
  rw [startOf, hp, Path.split_slash] at h
  split at h
  · cases h
  · split at h
    · cases h
    · split at h
      · cases h
      · exact (Except.ok.inj h).symm

/-- What a path from the root is found to name stands at its place. -/
theorem entryAt?_of_find {t : FileTree} {p : Path} (hp : p.isAbsolute = true) {entry : Entry}
    (h : t.find p = .ok entry) : t.entryAt? p.place = some entry := by
  obtain ⟨s, hs⟩ := Path.isAbsolute_iff.mp hp
  obtain ⟨place, hl, h⟩ := bind_eq_ok h
  obtain ⟨start, hst, hw⟩ := bind_eq_ok hl
  cases startOf_eq_ok hs hst
  rw [place_of_slash hs, ← walk_eq_ok hw]
  cases he : t.entryAt? place with
  | none => rw [he] at h; cases h
  | some e => rw [he] at h; exact congrArg some (Except.ok.inj h)

theorem isNormal_absolute (t : FileTree) (p : Path) : (t.absolute p).IsNormal := by
  rw [absolute]
  split
  · rename_i h
    exact Path.normalize_eq_fromRoot h
  · exact Path.isNormal_resolve (Path.isAbsolute_fromRoot _)

theorem isPlain_absolute (t : FileTree) (p : Path) : (t.absolute p).IsPlain :=
  (t.isNormal_absolute p).isPlain

/-- A normal path is what it is from every folder. -/
theorem absolute_eq_self (t : FileTree) {p : Path} (h : p.IsNormal) : t.absolute p = p := by
  rw [absolute, if_pos h.isPlain.absolute, h.normalize_eq]

/-! ## Writing -/

/-- The same but for new folders where nothing was. -/
def MoreFolders (t t' : FileTree) : Prop :=
  ∀ place, t'.entryAt? place = t.entryAt? place ∨
    t.entryAt? place = none ∧ t'.entryAt? place = some .folder

theorem MoreFolders.refl (t : FileTree) : t.MoreFolders t := fun _ => .inl rfl

theorem MoreFolders.trans {t t' t'' : FileTree} (h : t.MoreFolders t')
    (h' : t'.MoreFolders t'') : t.MoreFolders t'' := by
  intro place
  rcases h place with e | ⟨e, ef⟩
  · rcases h' place with e' | ⟨e', ef'⟩
    · exact .inl (e'.trans e)
    · exact .inr ⟨e.symm.trans e', ef'⟩
  · rcases h' place with e' | ⟨e', -⟩
    · exact .inr ⟨e, e'.trans ef⟩
    · rw [ef] at e'
      cases e'

theorem moreFolders_set {t : FileTree} {place : Place} (hn : place ≠ [])
    (h : t.entryAt? place = none) : t.MoreFolders (t.set place .folder) := by
  intro other
  by_cases e : other = place
  · subst e
    exact .inr ⟨h, entryAt?_set_self t hn .folder⟩
  · exact .inl (entryAt?_set_of_ne t e .folder)

theorem concat_ne_nil {α : Type} (as : List α) (a : α) : as ++ [a] ≠ [] :=
  List.append_ne_nil_of_right_ne_nil as (List.cons_ne_nil a [])

theorem lastOf_eq_ok {t : FileTree} {start folder : Place} {pieces : List (List Char)}
    {name : List Char} (h : t.lastOf start pieces = .ok (folder, some name)) :
    ∃ rest, pieces = name :: rest ∧ t.walk start rest.reverse = .ok folder ∧
      t.entryAt? folder = some .folder := by
  cases pieces with
  | nil => cases h
  | cons last rest =>
    obtain ⟨folder', hw, h⟩ := bind_eq_ok h
    split at h
    · cases h
    · rename_i hf
      cases h
      exact ⟨rest, rfl, hw, Classical.not_not.mp hf⟩

/-- A new folder stands in a folder, where nothing was. -/
theorem makeFolder_eq_set {t t' : FileTree} {p : Path} (h : t.makeFolder p = .ok t') :
    ∃ folder name, t.entryAt? folder = some .folder ∧ t.entryAt? (folder ++ [name]) = none ∧
      t' = t.set (folder ++ [name]) .folder := by
  obtain ⟨⟨start, pieces⟩, -, h⟩ := bind_eq_ok h
  obtain ⟨⟨folder, last⟩, hl, h⟩ := bind_eq_ok h
  cases last with
  | none => cases h
  | some name =>
    obtain ⟨-, -, -, hf⟩ := lastOf_eq_ok hl
    simp only at h
    split at h
    · cases h
    · split at h
      · cases h
      · split at h
        · cases h
        · rename_i he
          exact ⟨folder, name, hf, Classical.not_not.mp he, (Except.ok.inj h).symm⟩

theorem moreFolders_of_makeFolder {t t' : FileTree} {p : Path} (h : t.makeFolder p = .ok t') :
    t.MoreFolders t' := by
  obtain ⟨folder, name, -, hnone, rfl⟩ := makeFolder_eq_set h
  exact moreFolders_set (concat_ne_nil folder name) hnone

/-- A chain of folders leads along a relation of trees, if each of its folders does. -/
theorem makeFolderChain_along {R : FileTree → FileTree → Prop} (refl : ∀ t, R t t)
    (trans : ∀ {t t' t''}, R t t' → R t' t'' → R t t'') {paths : List Path}
    (make : ∀ p ∈ paths, ∀ t t' : FileTree, t.makeFolder p = .ok t' → R t t') (t : FileTree) :
    R t (t.makeFolderChain paths).1 := by
  induction paths generalizing t with
  | nil => exact refl t
  | cons p outer ih =>
    have hp := make p List.mem_cons_self
    have ho := ih (fun q hq => make q (List.mem_cons_of_mem _ hq)) t
    rw [makeFolderChain]
    split
    · exact refl t
    · split
      · rename_i t' h
        exact hp _ _ h
      · split
        · rename_i t' e h
          rw [h] at ho
          exact ho
        · rename_i t' h
          rw [h] at ho
          split
          · rename_i t'' h'
            exact trans ho (hp _ _ h')
          · exact ho
      · exact refl t

theorem moreFolders_makeFolderChain (t : FileTree) (paths : List Path) :
    t.MoreFolders (t.makeFolderChain paths).1 :=
  makeFolderChain_along .refl .trans (fun _ _ _ _ => moreFolders_of_makeFolder) t

theorem moreFolders_prepareFolder (t : FileTree) (p : Path) (options : WriteOptions) :
    t.MoreFolders (t.prepareFolder p options).1 := by
  rw [prepareFolder]
  split
  · exact .refl t
  · split
    · exact moreFolders_makeFolderChain t _
    · exact .refl t

theorem dropWhile_reverse_of_getLast? {pieces : List (List Char)}
    (h : pieces.getLast? ≠ some []) : pieces.reverse.dropWhile (· = []) = pieces.reverse := by
  rw [← List.head?_reverse] at h
  cases hr : pieces.reverse with
  | nil => rfl
  | cons piece rest =>
    rw [hr, List.head?_cons, ne_eq, Option.some_inj] at h
    exact List.dropWhile_cons_of_neg (by simpa using h)

/-- A text is put at the place of its path. -/
theorem putText_eq_ok {t t' : FileTree} {p : Path} {text : String} (hp : p.isAbsolute = true)
    (h : t.putText p text = .ok t') :
    p.place ≠ [] ∧ t.entryAt? p.place ≠ some .folder ∧
      t' = t.set p.place (.file (.text text)) := by
  obtain ⟨s, hs⟩ := Path.isAbsolute_iff.mp hp
  obtain ⟨start, hst, h⟩ := bind_eq_ok h
  cases startOf_eq_ok hs hst
  obtain ⟨⟨folder, last⟩, hl, h⟩ := bind_eq_ok h
  cases last with
  | none => cases h
  | some name =>
    obtain ⟨rest, hrest, hw, -⟩ := lastOf_eq_ok hl
    obtain rfl := walk_eq_ok hw
    simp only at h
    split at h
    · cases h
    · rename_i hname
      rw [Bool.or_eq_true, Bool.or_eq_true, not_or, not_or] at hname
      simp only [decide_eq_true_eq] at hname
      obtain ⟨⟨hdot, hup⟩, htrail⟩ := hname
      rw [dropWhile_reverse_of_getLast? htrail] at hrest
      have hpieces : Text.splitOn '/' s = rest.reverse ++ [name] := by
        rw [← List.reverse_reverse (Text.splitOn '/' s), hrest, List.reverse_cons]
      have hne : name ≠ [] := by
        rintro rfl
        exact htrail (by rw [hpieces, List.getLast?_concat])
      have hstep : Path.stepOf? name = some (.name name) := by
        rw [Path.stepOf?, Path.isSilent, decide_eq_false hne, decide_eq_false hdot]
        exact if_neg hup
      have hplace : p.place = rest.reverse.foldl along [] ++ [name] := by
        rw [place_of_slash hs, hpieces, List.foldl_append, List.foldl_cons, List.foldl_nil,
          along_of_name hstep]
      rw [hplace]
      split at h
      · cases h
      · split at h
        · cases h
        · rename_i hentry
          cases h
          exact ⟨concat_ne_nil _ _, hentry, rfl⟩

/-- Whether and where a text can be put does not hang on the text. -/
theorem putText_shape (t : FileTree) (p : Path) :
    (∃ e, ∀ text, t.putText p text = .error e) ∨
      ∃ place, ∀ text, t.putText p text = .ok (t.set place (.file (.text text))) := by
  cases hst : t.startOf p with
  | error e => exact .inl ⟨e, fun text => by rw [putText, hst]; rfl⟩
  | ok start =>
    cases hl : t.lastOf start.1 (start.2.reverse.dropWhile (· = [])) with
    | error e =>
      refine .inl ⟨e, fun text => ?_⟩
      rw [putText, hst]
      simp only [bind, Except.bind, hl]
    | ok last =>
      obtain ⟨folder, name⟩ := last
      simp only [putText, hst, bind, Except.bind, hl]
      cases name with
      | none => exact .inl ⟨_, fun _ => rfl⟩
      | some name =>
        simp only
        split
        · exact .inl ⟨_, fun _ => rfl⟩
        · split
          · exact .inl ⟨_, fun _ => rfl⟩
          · split
            · exact .inl ⟨_, fun _ => rfl⟩
            · exact .inr ⟨_, fun _ => rfl⟩

/-- Writing a text to a path from the root makes folders where nothing was, and then fails or sets
the file at the place of the path, where no folder is. Which of these it does does not hang on the
text. -/
theorem writeText_spec (t : FileTree) {p : Path} (hp : p.isAbsolute = true)
    (options : WriteOptions) :
    ∃ t', t.MoreFolders t' ∧
      ((∃ e, ∀ text, t.writeText p text options = (t', .error e)) ∨
        p.place ≠ [] ∧ t'.entryAt? p.place ≠ some .folder ∧ ∀ text, t.writeText p text options =
          (t'.set p.place (.file (.text (options.stored text))), .ok ())) := by
  have hfolders := moreFolders_prepareFolder t p options
  rcases hprep : t.prepareFolder p options with ⟨t', outcome⟩
  rw [hprep] at hfolders
  refine ⟨t', hfolders, ?_⟩
  cases outcome with
  | error e => exact .inl ⟨e, fun text => by rw [writeText, hprep]⟩
  | ok _ =>
    rcases t'.putText_shape p with ⟨e, he⟩ | ⟨place, hput⟩
    · exact .inl ⟨.unwritable p e, fun text => by rw [writeText, hprep]; simp only [he]⟩
    · obtain ⟨hne, hentry, -⟩ := putText_eq_ok hp (hput "")
      refine .inr ⟨hne, hentry, fun text => ?_⟩
      obtain ⟨-, -, hset⟩ := putText_eq_ok hp (hput (options.stored text))
      rw [writeText, hprep, ← hset]
      simp only [hput]

/-! ## Files -/

/-- The file that stands at the place of a path from the root, if one does. -/
def fileAt? (t : FileTree) (p : Path) : Option Content :=
  match t.entryAt? p.place with
  | some (.file content) => some content
  | _ => none

/-- What a path from the root is found to name is the file at its place. -/
theorem fileAt?_of_find {t : FileTree} {p : Path} (hp : p.isAbsolute = true) {content : Content}
    (h : t.find p = .ok (.file content)) : t.fileAt? p = some content := by
  rw [fileAt?, entryAt?_of_find hp h]

theorem fileAt?_congr (t : FileTree) {p q : Path} (h : p.place = q.place) :
    t.fileAt? p = t.fileAt? q := by
  rw [fileAt?, fileAt?, h]

theorem MoreFolders.fileAt? {t t' : FileTree} (h : t.MoreFolders t') (p : Path) :
    t'.fileAt? p = t.fileAt? p := by
  rcases h p.place with e | ⟨e, e'⟩
  · rw [FileTree.fileAt?, FileTree.fileAt?, e]
  · rw [FileTree.fileAt?, FileTree.fileAt?, e, e']

theorem fileAt?_set_self (t : FileTree) {p : Path} (h : p.place ≠ []) (content : Content) :
    (t.set p.place (.file content)).fileAt? p = some content := by
  rw [fileAt?, entryAt?_set_self t h]

theorem fileAt?_set_of_ne (t : FileTree) {p : Path} {place : Place} (h : p.place ≠ place)
    (entry : Entry) : (t.set place entry).fileAt? p = t.fileAt? p := by
  rw [fileAt?, fileAt?, entryAt?_set_of_ne t h]

/-- A text written at another place leaves a file alone. -/
theorem fileAt?_writeText_of_ne (t : FileTree) {p q : Path} (hp : p.isAbsolute = true)
    (h : q.place ≠ p.place) (text : String) (options : WriteOptions) :
    (t.writeText p text options).1.fileAt? q = t.fileAt? q := by
  obtain ⟨t', hf, ⟨e, he⟩ | ⟨-, -, hw⟩⟩ := t.writeText_spec hp options
  · rw [he, hf.fileAt?]
  · rw [hw, fileAt?_set_of_ne t' h, hf.fileAt?]

/-- A text that cannot be written leaves all files alone. -/
theorem fileAt?_writeText_of_error (t : FileTree) {p : Path} (hp : p.isAbsolute = true)
    {text : String} {options : WriteOptions} (h : (t.writeText p text options).2 ≠ .ok ())
    (q : Path) : (t.writeText p text options).1.fileAt? q = t.fileAt? q := by
  obtain ⟨t', hf, ⟨e, he⟩ | ⟨-, -, hw⟩⟩ := t.writeText_spec hp options
  · rw [he, hf.fileAt?]
  · rw [hw] at h
    exact absurd rfl h

/-- Where one text can be written, so can any other, and it is what stands there then. -/
theorem fileAt?_writeText_of_ok (t : FileTree) {p : Path} (hp : p.isAbsolute = true)
    {text : String} {options : WriteOptions} (h : (t.writeText p text options).2 = .ok ())
    (text' : String) :
    (t.writeText p text' options).1.fileAt? p = some (.text (options.stored text')) := by
  obtain ⟨t', hf, ⟨e, he⟩ | ⟨hn, -, hw⟩⟩ := t.writeText_spec hp options
  · rw [he] at h
    cases h
  · rw [hw]
    exact fileAt?_set_self t' hn _

end FileTree

namespace Path

/-! ## The place of a path -/

theorem normalSteps_eq_map_place {p : Path} (hp : p.isAbsolute = true) :
    normalSteps true p.steps = p.place.map .name := by
  have hnames := isName_of_mem_normalSteps hp
  rw [place]
  generalize normalSteps true p.steps = steps at hnames
  induction steps with
  | nil => rfl
  | cons step steps ih =>
    have hrest := ih fun s hs => hnames s (List.mem_cons_of_mem _ hs)
    cases step with
    | name s =>
      rw [List.filterMap_cons_some (show Step.name? (.name s) = some s from rfl), List.map_cons,
        ← hrest]
    | _ => exact absurd (hnames _ List.mem_cons_self) id

/-- Paths from the root have one normal form exactly if they lead to one place. -/
theorem normalize_eq_iff {p q : Path} (hp : p.isAbsolute = true) (hq : q.isAbsolute = true) :
    p.normalize = q.normalize ↔ p.place = q.place := by
  constructor
  · intro h
    have hs : p.normalize.steps = q.normalize.steps := by rw [h]
    rw [steps_normalize hp, steps_normalize hq, List.cons.injEq] at hs
    rw [place, place, hs.2]
  · intro h
    rw [normalize, normalize, if_pos hp, if_pos hq, normalSteps_eq_map_place hp,
      normalSteps_eq_map_place hq, h]

/-- A name that can stand between two slashes leads one place down. -/
theorem place_join_name {base : Path} (hb : base.isAbsolute = true) {name : String}
    (hn : (Step.name name.toList).IsName) :
    (base.join ⟨name⟩).place = base.place ++ [name.toList] := by
  have hrel : (Path.mk name).isAbsolute = false := by
    refine Bool.eq_false_iff.mpr fun h => ?_
    obtain ⟨s, hs⟩ := isAbsolute_iff.mp h
    exact hn.2 (hs ▸ List.mem_cons_self)
  have hpieces : pieceSteps name.toList = [.name name.toList] := by
    rw [pieceSteps, Text.splitOn_of_not_mem hn.2, List.filterMap_cons_some hn.1]
    rfl
  rw [place, place, steps_join hb hrel, hpieces, normalSteps, normalSteps, List.foldl_append,
    List.foldl_cons, List.foldl_nil, push, List.reverse_cons, List.filterMap_append]
  rfl

end Path

end ApiReview
