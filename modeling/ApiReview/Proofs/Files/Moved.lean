import ApiReview.Proofs.Files.Folders
import ApiReview.Proofs.Files.Spelling
import ApiReview.Proofs.Path.Moved
import ApiReview.Text.Blank

/-!
# One project in two folders

A project that stands in two folders (`Copies`) is found alike in both: a path below one folder
names what the moved path names below the other one (`Copies.find_moved`), as long as it can be
looked up at all. Where a lookup goes on above the folders it finds nothing there
(`Site.not_isFile_above`), so a search on the way up from a file ends alike (`Copies.find?_holding`).
-/

namespace ApiReview

open ApiReview.Path (AllNames Step Twin Moved LiesAbove fromRoot)

/-- The names by which a lookup finds the project that a folder belongs to. -/
def projectMarkers : List String :=
  ["package.json", "tsconfig.json", "node_modules"]

/-- A folder that a project stands in, with nothing above it that belongs to a project. Its path has
no blank characters and no angle brackets, and what the project has can be looked up. -/
structure Site (t : FileTree) (root : Path) : Prop where
  normal : root.IsNormal
  folder : t.isFolder root = true
  plain : ∀ c ∈ root.text.toList, Text.isBlank c = false ∧ c ≠ '<' ∧ c ≠ '>'
  alone : ∀ above ∈ root.parents, ∀ name ∈ projectMarkers,
    t.entryAt? (above.place ++ [name.toList]) = none
  short : ∀ place, t.entryAt? (root.place ++ place) ≠ none →
    (fromRoot ((root.place ++ place).map .name)).text.utf8ByteSize ≤ FileTree.maxPathBytes

/-- A path can be looked up, if there is something at its place. -/
def FileTree.Fits (t : FileTree) (p : Path) : Prop :=
  t.entryAt? p.place ≠ none → p.text.utf8ByteSize ≤ maxPathBytes

/-- A project that stands in two folders. -/
structure Copies (t u : FileTree) (here there : Path) : Prop where
  source : Site t here
  target : Site u there
  same : ∀ place, t.entryAt? (here.place ++ place) = u.entryAt? (there.place ++ place)

namespace Path

variable {a b names : List Step}

theorem AllNames.filterMap_name? (h : AllNames names) :
    names.filterMap Step.name? = names.map Step.chars := by
  induction names with
  | nil => rfl
  | cons step names ih =>
    obtain ⟨hstep, hnames⟩ := List.forall_mem_cons.mp h
    cases step with
    | name name =>
      rw [List.map_cons, ← ih hnames]
      rfl
    | _ => exact absurd hstep id

theorem AllNames.map_name_chars (h : AllNames names) :
    (names.map Step.chars).map Step.name = names := by
  induction names with
  | nil => rfl
  | cons step names ih =>
    obtain ⟨hstep, hnames⟩ := List.forall_mem_cons.mp h
    cases step with
    | name name =>
      rw [List.map_cons, List.map_cons, ih hnames]
      rfl
    | _ => exact absurd hstep id

theorem place_fromRoot (h : AllNames names) : (fromRoot names).place = names.map Step.chars := by
  rw [place_of_steps (steps_fromRoot h) h, h.filterMap_name?]

/-- A path from the root with its pieces, as far as they make a step. -/
theorem loudPieces_of_steps {p : Path} (h : p.steps = .root :: names) :
    (split p.text.toList).1 = .root ∧ p.loudPieces = names.map Step.chars := by
  obtain ⟨s, hs⟩ := isAbsolute_iff.mp (root_mem_steps.mp (h ▸ List.mem_cons_self))
  have hnames : (Text.splitOn '/' s).filterMap stepOf? = names := by
    rw [steps_of_slash hs, List.cons.injEq] at h
    exact h.2
  rw [loudPieces, hs, split_slash, filter_isSilent, hnames]
  exact ⟨rfl, rfl⟩

theorem endsLoud_concat (h : AllNames names) {step : Step} (hs : step.IsName) :
    (fromRoot (names ++ [step])).EndsLoud := by
  refine ⟨names.map Step.chars, step.chars, ?_, hs.isSilent_chars⟩
  have hne : (names ++ [step]).map Step.chars ≠ [] := by simp
  rw [toList_fromRoot, split_slash, Text.splitOn_joinWith hne (h.concat hs).not_mem_slash,
    List.map_append, List.map_singleton]

/-- Whether the last piece of a joined path makes a step hangs on what was joined. -/
theorem endsLoud_join_iff {base p : Path} (hb : base.isAbsolute = true)
    (hp : p.isAbsolute = false) :
    (base.join p).EndsLoud ↔
      ∃ front last, Text.splitOn '/' p.text.toList = front ++ [last] ∧ isSilent last = false := by
  obtain ⟨s, hs⟩ := isAbsolute_iff.mp hb
  have hne := text_ne_empty hb
  obtain ⟨front, hsplit⟩ : ∃ front, (split (base.join p).text.toList).2 =
      front ++ Text.splitOn '/' p.text.toList := by
    rw [join, hp, decide_eq_false hne, Bool.or_self, if_neg Bool.false_ne_true]
    split
    · rename_i hlast
      rw [String.toList_append, hs, List.cons_append, split_slash]
      rcases List.eq_nil_or_concat s with rfl | ⟨init, c, rfl⟩
      · exact ⟨[], rfl⟩
      · have hc : c = '/' := by
          rw [hs, List.concat_eq_append, ← List.cons_append, List.getLast?_concat] at hlast
          exact Option.some.inj hlast
        refine ⟨Text.splitOn '/' init, ?_⟩
        rw [hc, List.concat_eq_append, List.append_assoc, List.singleton_append,
          Text.splitOn_append_sep]
    · refine ⟨Text.splitOn '/' s, ?_⟩
      rw [String.toList_append, String.toList_append, hs, List.append_assoc, List.cons_append,
        split_slash]
      exact Text.splitOn_append_sep s p.text.toList
  rw [EndsLoud, hsplit]
  constructor
  · rintro ⟨init, last, he, hlast⟩
    rcases List.eq_nil_or_concat (Text.splitOn '/' p.text.toList) with hnil | ⟨init', last', hp'⟩
    · exact absurd hnil (Text.splitOn_ne_nil _ _)
    · rw [List.concat_eq_append] at hp'
      rw [hp', ← List.append_assoc] at he
      obtain ⟨-, hlasts⟩ := List.append_inj' he rfl
      exact ⟨init', last', hp', (List.cons_eq_cons.mp hlasts).1 ▸ hlast⟩
  · rintro ⟨init, last, he, hlast⟩
    exact ⟨front ++ init, last, by rw [he, List.append_assoc], hlast⟩

/-- Above a normal path are the paths of its first names. -/
theorem mem_parents_fromRoot {front behind : List Step} {step : Step}
    (h : AllNames (front ++ step :: behind)) :
    fromRoot front ∈ (fromRoot (front ++ step :: behind)).parents := by
  induction behind using List.reverseRecOn with
  | nil =>
    obtain ⟨hfront, hstep⟩ := h.of_concat
    rw [parents_fromRoot_concat hfront hstep]
    exact List.mem_cons_self
  | append_singleton behind last ih =>
    rw [← List.cons_append, ← List.append_assoc] at h ⊢
    obtain ⟨hfront, hlast⟩ := h.of_concat
    rw [parents_fromRoot_concat hfront hlast]
    exact List.mem_cons_of_mem _ (ih hfront)

end Path

namespace FileTree

variable {t u : FileTree}

theorem toOption_find (t : FileTree) (p : Path) :
    (t.find p).toOption = (t.locate p).toOption.bind t.entryAt? := by
  rw [find]
  cases t.locate p with
  | error e => rfl
  | ok place =>
    simp only [bind, Except.bind, Except.toOption, Option.bind_some]
    cases t.entryAt? place <;> rfl

theorem exists?_congr {p q : Path} (h : (t.find p).toOption = (u.find q).toOption) :
    t.exists? p = u.exists? q := by
  rw [exists?, exists?]
  cases hp : t.find p <;> cases hq : u.find q <;> rw [hp, hq] at h
  all_goals cases h

theorem isFile_congr_find {p q : Path} (h : (t.find p).toOption = (u.find q).toOption) :
    t.isFile p = u.isFile q := by
  rw [isFile, isFile]
  cases hp : t.find p <;> cases hq : u.find q <;> rw [hp, hq] at h
  all_goals cases h
  rfl

theorem readText_congr {p q : Path} (h : (t.find p).toOption = (u.find q).toOption) :
    (t.readText p).toOption = (u.readText q).toOption := by
  rw [readText, readText]
  cases hp : t.find p <;> cases hq : u.find q <;> rw [hp, hq] at h
  case error.error => rfl
  all_goals cases h
  rfl

/-- A walk that arrives finds an entry at each name before which it did not go up. -/
theorem entryAt?_of_walk {pieces : List (List Char)} {place place' : Place} {front more : List Step}
    {name : List Char} (h : t.walk place pieces = .ok place') (hfront : AllNames front)
    (hp : pieces.filterMap Path.stepOf? = front ++ .name name :: more) :
    t.entryAt? (place ++ front.map Step.chars ++ [name]) ≠ none := by
  induction pieces generalizing place front with
  | nil => exact absurd hp.symm (List.append_ne_nil_of_right_ne_nil _ (List.cons_ne_nil _ _))
  | cons piece pieces ih =>
    rw [walk] at h
    split at h
    · cases h
    · split at h
      · rename_i hsilent
        have hnone : Path.stepOf? piece = none := by rw [Path.stepOf?, if_pos hsilent]
        rw [List.filterMap_cons_none hnone] at hp
        exact ih h hfront hp
      · rename_i hsilent
        split at h
        · rename_i hup
          have hstep : Path.stepOf? piece = some .up := by
            rw [Path.stepOf?, if_neg hsilent, if_pos hup]
          rw [List.filterMap_cons_some hstep] at hp
          cases front with
          | nil => cases hp
          | cons step front =>
            rw [List.cons_append, List.cons.injEq] at hp
            have hname := hfront step List.mem_cons_self
            rw [← hp.1] at hname
            exact absurd hname id
        · rename_i hup
          split at h
          · cases h
          · split at h
            · cases h
            · rename_i hsome
              have hstep : Path.stepOf? piece = some (.name piece) := by
                rw [Path.stepOf?, if_neg hsilent, if_neg hup]
              rw [List.filterMap_cons_some hstep] at hp
              cases front with
              | nil =>
                rw [List.nil_append, List.cons.injEq, Step.name.injEq] at hp
                rw [List.map_nil, List.append_nil, ← hp.1]
                exact hsome
              | cons step front =>
                rw [List.cons_append, List.cons.injEq] at hp
                have hnext := ih h (fun s hs => hfront s (List.mem_cons_of_mem _ hs)) hp.2
                rw [List.map_cons, ← hp.1]
                rwa [List.append_assoc place, List.singleton_append] at hnext

/-- A path from the root that is found leads to an entry at each name before which it did not go
up. -/
theorem entryAt?_of_find_through {p : Path} {front more : List Step} {name : List Char}
    (hp : p.steps = .root :: (front ++ .name name :: more)) (hfront : AllNames front)
    {entry : Entry} (h : t.find p = .ok entry) :
    t.entryAt? (front.map Step.chars ++ [name]) ≠ none := by
  obtain ⟨s, hs⟩ := Path.isAbsolute_iff.mp (Path.root_mem_steps.mp (hp ▸ List.mem_cons_self))
  obtain ⟨place, hl, -⟩ := find_eq_ok.mp h
  obtain ⟨start, hstart, hw⟩ := bind_eq_ok hl
  cases startOf_eq_ok hs hstart
  rw [Path.steps_of_slash hs, List.cons.injEq] at hp
  exact entryAt?_of_walk hw hfront hp.2

/-- What a path that ends in a piece without a step names is no file. -/
theorem endsLoud_of_isFile {p : Path} (hp : p.isAbsolute = true) (h : t.isFile p = true) :
    p.EndsLoud := by
  obtain ⟨s, hs⟩ := Path.isAbsolute_iff.mp hp
  obtain ⟨content, hfind⟩ := isFile_iff.mp h
  obtain ⟨place, hl, he⟩ := find_eq_ok.mp hfind
  obtain ⟨start, hstart, hw⟩ := bind_eq_ok hl
  cases startOf_eq_ok hs hstart
  rcases List.eq_nil_or_concat (Text.splitOn '/' s) with hnil | ⟨front, last, hlast⟩
  · exact absurd hnil (Text.splitOn_ne_nil _ _)
  · rw [List.concat_eq_append] at hlast
    refine ⟨front, last, by rw [hs, Path.split_slash, hlast], ?_⟩
    refine Bool.eq_false_iff.mpr fun hsilent => ?_
    have hw : t.walk [] (Text.splitOn '/' s) = .ok place := hw
    rw [hlast, walk_append] at hw
    obtain ⟨folder, -, hw⟩ := bind_eq_ok hw
    have hfolder := folder_of_walk_cons hw
    rw [walk, if_neg (not_not_intro hfolder), if_pos hsilent, walk] at hw
    rw [← Except.ok.inj hw, hfolder] at he
    cases he

/-- The folder of a project is reached over its names. -/
theorem walk_fromRoot {names : List Step} (hn : AllNames names)
    (h : t.isFolder (fromRoot names) = true) :
    t.walk [] (names.map Step.chars) = .ok (names.map Step.chars) := by
  cases names with
  | nil => rfl
  | cons step rest =>
    have htext := Path.toList_fromRoot (step :: rest)
    have hpieces : Text.splitOn '/' (Text.joinWith '/' ((step :: rest).map Step.chars)) = _ :=
      Text.splitOn_joinWith (List.cons_ne_nil _ _) hn.not_mem_slash
    obtain ⟨place, hl, -⟩ := find_eq_ok.mp (isFolder_iff.mp h)
    obtain ⟨start, hstart, hw⟩ := bind_eq_ok hl
    cases startOf_eq_ok htext hstart
    have hw : t.walk [] (Text.splitOn '/' (Text.joinWith '/' ((step :: rest).map Step.chars))) =
      .ok place := hw
    have hplace : place = (step :: rest).map Step.chars := by
      rw [walk_eq_ok hw, ← place_of_slash htext, Path.place_fromRoot hn]
    rwa [hpieces, hplace] at hw

/-- The path of a folder that is found has no zero character, so that only the steps behind it may
have one. -/
theorem zero_mem_iff_below {names : List Step} (hn : AllNames names)
    (h : t.isFolder (fromRoot names) = true) {p : Path} {rest : List Step}
    (hp : p.steps = .root :: (names ++ rest)) :
    '\x00' ∈ p.text.toList ↔ ∃ step ∈ rest, '\x00' ∈ step.chars := by
  have hfolder : ∀ step ∈ names, '\x00' ∉ step.chars := by
    obtain ⟨place, hl, -⟩ := find_eq_ok.mp (isFolder_iff.mp h)
    obtain ⟨start, hstart, -⟩ := bind_eq_ok hl
    intro step hm hzero
    have hmem : '\x00' ∈ (fromRoot names).text.toList := by
      rw [Path.zero_mem_iff, (Path.loudPieces_of_steps (Path.steps_fromRoot hn)).2]
      exact ⟨_, List.mem_map_of_mem hm, hzero⟩
    rw [startOf, if_pos (List.contains_iff_mem.mpr hmem)] at hstart
    cases hstart
  rw [Path.zero_mem_iff, (Path.loudPieces_of_steps hp).2]
  constructor
  · rintro ⟨piece, hm, hzero⟩
    obtain ⟨step, hstep, rfl⟩ := List.mem_map.mp hm
    exact ⟨step, (List.mem_append.mp hstep).resolve_left fun hn => hfolder step hn hzero, hzero⟩
  · rintro ⟨step, hm, hzero⟩
    exact ⟨_, List.mem_map_of_mem (List.mem_append_right _ hm), hzero⟩

/-- Over steps that stay below two folders with the same entries, walks come to places with the same
names behind the folders, or fail both. -/
theorem walk_twin {α β : Place} (same : ∀ place, t.entryAt? (α ++ place) = u.entryAt? (β ++ place))
    {rest : List Step} (hsteps : ∀ step ∈ rest, step = .up ∨ step.IsName) {names : Place}
    (h : Path.RisesAtMost names.length rest) :
    Parallel (fun place place' => ∃ more, place = α ++ more ∧ place' = β ++ more)
      (t.walk (α ++ names) (rest.map Step.chars)) (u.walk (β ++ names) (rest.map Step.chars)) := by
  induction rest generalizing names with
  | nil => exact .ok ⟨names, rfl, rfl⟩
  | cons step rest ih =>
    obtain ⟨hstep, hrest⟩ := List.forall_mem_cons.mp hsteps
    rw [List.map_cons, walk, walk, same, List.append_assoc, List.append_assoc, same]
    split
    · exact .error _ _
    · rcases hstep with rfl | hname
      · -- A step up takes back one of the names behind the folders.
        rcases List.eq_nil_or_concat names with rfl | ⟨front, last, rfl⟩
        · exact absurd h Path.not_risesAtMost_up_cons
        · rw [List.concat_eq_append] at h ⊢
          rw [List.length_append, List.length_singleton, Path.risesAtMost_up_cons] at h
          have hdrop : ∀ γ : Place, (γ ++ (front ++ [last])).dropLast = γ ++ front := fun γ => by
            rw [← List.append_assoc, List.dropLast_concat]
          have hloud : ¬ Path.isSilent Step.up.chars = true := by decide
          have hup : Step.up.chars = ['.', '.'] := rfl
          rw [if_neg hloud, if_pos hup, if_neg hloud, if_pos hup, hdrop, hdrop]
          exact ih hrest h
      · have hup : step.chars ≠ ['.', '.'] := fun hup => by
          have hchars := hname.stepOf?_chars.1
          rw [hup] at hchars
          rw [← Option.some.inj hchars] at hname
          exact absurd hname id
        have hrises : Path.RisesAtMost (names ++ [step.chars]).length rest := by
          cases step with
          | name name =>
            rw [List.length_append, List.length_singleton]
            exact Path.risesAtMost_name_cons.mp h
          | _ => exact absurd hname id
        rw [hname.isSilent_chars, if_neg Bool.false_ne_true, if_neg Bool.false_ne_true, if_neg hup,
          if_neg hup]
        split
        · exact .error _ _
        · split
          · exact .error _ _
          · exact ih hrest hrises

end FileTree

/-! ## Above a project -/

/-- Above a project nothing is found through a name that would belong to one. -/
theorem Site.not_isFile_above {t : FileTree} {a : List Step} (ha : AllNames a)
    (h : Site t (fromRoot a)) {r p : Path} (hr : LiesAbove a r) {name : String}
    (hname : name ∈ projectMarkers) {more : List Step}
    (hp : p.steps = r.steps ++ .name name.toList :: more) : t.isFile p = false := by
  refine Bool.eq_false_iff.mpr fun hfile => ?_
  obtain ⟨content, hfind⟩ := FileTree.isFile_iff.mp hfile
  obtain ⟨front, step, behind, rfl, hsteps⟩ := hr
  have hfront : AllNames front := fun s hs => ha s (List.mem_append_left _ hs)
  have hnone := h.alone _ (Path.mem_parents_fromRoot ha) name hname
  rw [Path.place_fromRoot hfront] at hnone
  rw [hsteps] at hp
  exact FileTree.entryAt?_of_find_through hp hfront hfind hnone

/-- The folder of a project is no file. -/
theorem Site.steps_ne_of_isFile {t : FileTree} {a : List Step} (ha : AllNames a)
    (h : Site t (fromRoot a)) {p : Path} (hp : p.isAbsolute = true) (hfile : t.isFile p = true) :
    p.steps ≠ .root :: a := by
  intro hsteps
  obtain ⟨content, hfind⟩ := FileTree.isFile_iff.mp hfile
  have hplace := FileTree.entryAt?_of_find hp hfind
  have hfolder := FileTree.entryAt?_of_find (Path.isAbsolute_fromRoot a)
    (FileTree.isFolder_iff.mp h.folder)
  rw [Path.place_of_steps hsteps ha, ← Path.place_of_steps (Path.steps_fromRoot ha) ha,
    hfolder] at hplace
  cases hplace

/-! ## Below a project -/

theorem FileTree.find_eq_none {t : FileTree} {p : Path} (hp : p.isAbsolute = true)
    (h : t.entryAt? p.place = none) : (t.find p).toOption = none := by
  cases hfind : t.find p with
  | error e => rfl
  | ok entry =>
    rw [entryAt?_of_find hp hfind] at h
    cases h

/-- An entry below a project has a path that can be looked up. -/
theorem Site.short_of_entry {t : FileTree} {a names : List Step} (ha : AllNames a)
    (hn : AllNames names) (h : Site t (fromRoot a)) : t.Fits (fromRoot (a ++ names)) := by
  intro he
  have hall := Path.allNames_append ha hn
  have hplace : (fromRoot a).place ++ names.map Step.chars = (a ++ names).map Step.chars := by
    rw [Path.place_fromRoot ha, List.map_append]
  have hshort := h.short (names.map Step.chars)
  rw [hplace, hall.map_name_chars, ← Path.place_fromRoot hall] at hshort
  exact hshort he

/-! ## In both folders -/

namespace Copies

variable {t u : FileTree} {a b : List Step} (ha : AllNames a) (hb : AllNames b)
  (h : Copies t u (fromRoot a) (fromRoot b))

include ha hb h

/-- What stands at the places of paths that go the same way from the two folders. -/
theorem entryAt?_twin {p q : Path} (hpq : Twin a b p q) :
    t.entryAt? p.place = u.entryAt? q.place := by
  obtain ⟨rest, hp, hq, hrises⟩ := hpq
  have hplace : ∀ {c : List Step} {r : Path}, AllNames c → r.steps = .root :: (c ++ rest) →
      r.place = (fromRoot c).place ++ (Path.normalSteps true rest).filterMap Step.name? := by
    intro c r hc hr
    rw [Path.place, hr, Path.normalSteps_below hc hrises, List.filterMap_append,
      Path.place_fromRoot hc, hc.filterMap_name?]
  rw [hplace ha hp, hplace hb hq]
  exact h.same _

/-- What paths that can be looked up name, if they go the same way from the two folders. -/
theorem find_twin {p q : Path} (hpq : Twin a b p q) (hp : p.EndsLoud) (hq : q.EndsLoud)
    (hps : t.Fits p) (hqs : u.Fits q) : (t.find p).toOption = (u.find q).toOption := by
  obtain ⟨hpa, hqa⟩ := hpq.isAbsolute
  have hplaces := h.entryAt?_twin ha hb hpq
  by_cases hnone : t.entryAt? p.place = none
  · rw [FileTree.find_eq_none hpa hnone, FileTree.find_eq_none hqa (hplaces ▸ hnone)]
  replace hps := hps hnone
  replace hqs := hqs (hplaces ▸ hnone)
  obtain ⟨rest, hpsteps, hqsteps, hrises⟩ := hpq
  obtain ⟨hpanchor, hploud⟩ := Path.loudPieces_of_steps hpsteps
  obtain ⟨hqanchor, hqloud⟩ := Path.loudPieces_of_steps hqsteps
  have hsteps : ∀ step ∈ rest, step = .up ∨ step.IsName := by
    obtain ⟨s, hs⟩ := Path.isAbsolute_iff.mp hpa
    rw [Path.steps_of_slash hs, List.cons.injEq] at hpsteps
    exact fun step hm => Path.mem_pieceSteps (hpsteps.2 ▸ List.mem_append_right _ hm)
  have hsame : ∀ place, t.entryAt? (a.map Step.chars ++ place) =
      u.entryAt? (b.map Step.chars ++ place) := fun place => by
    rw [← Path.place_fromRoot ha, ← Path.place_fromRoot hb]
    exact h.same place
  have hzero : p.text.toList.contains '\x00' = q.text.toList.contains '\x00' := by
    rw [Bool.eq_iff_iff, List.contains_iff_mem, List.contains_iff_mem,
      FileTree.zero_mem_iff_below ha h.source.folder hpsteps,
      FileTree.zero_mem_iff_below hb h.target.folder hqsteps]
  have hrises : Path.RisesAtMost (List.length ([] : Place)) rest := hrises
  have hwalk := FileTree.walk_twin hsame hsteps hrises
  rw [List.append_nil, List.append_nil] at hwalk
  rw [FileTree.toOption_find, FileTree.toOption_find, FileTree.toOption_locate t hp hps,
    FileTree.toOption_locate u hq hqs, hzero, hpanchor, hqanchor, hploud, hqloud, List.map_append,
    List.map_append, FileTree.walk_append, FileTree.walk_append]
  show Option.bind (if _ then none else Except.toOption
    (t.walk [] (a.map Step.chars) >>= _)) _ = Option.bind (if _ then none else Except.toOption
    (u.walk [] (b.map Step.chars) >>= _)) _
  rw [FileTree.walk_fromRoot ha h.source.folder, FileTree.walk_fromRoot hb h.target.folder]
  split
  · rfl
  · show (t.walk (a.map Step.chars) (rest.map Step.chars)).toOption.bind _ =
      (u.walk (b.map Step.chars) (rest.map Step.chars)).toOption.bind _
    generalize t.walk (a.map Step.chars) (rest.map Step.chars) = x at hwalk
    generalize u.walk (b.map Step.chars) (rest.map Step.chars) = y at hwalk
    cases hwalk with
    | error e e' => rfl
    | ok hplace =>
      obtain ⟨more, rfl, rfl⟩ := hplace
      exact hsame more

/-- A path below one folder names what the moved path names below the other one. -/
theorem find_moved {p q : Path} (hpq : Moved a b p q) :
    (t.find p).toOption = (u.find q).toOption := by
  have htwin := hpq.twin ha hb
  obtain ⟨hpa, hqa⟩ := htwin.isAbsolute
  obtain ⟨names, hn, rfl, rfl⟩ := hpq
  rcases List.eq_nil_or_concat names with rfl | ⟨front, last, rfl⟩
  · rw [List.append_nil, List.append_nil, FileTree.isFolder_iff.mp h.source.folder,
      FileTree.isFolder_iff.mp h.target.folder]
  · have hloud : ∀ {c}, AllNames c → (fromRoot (c ++ front.concat last)).EndsLoud := fun hc => by
      obtain ⟨hfront, hlast⟩ := (List.concat_eq_append ▸ hn).of_concat
      rw [List.concat_eq_append, ← List.append_assoc]
      exact Path.endsLoud_concat (Path.allNames_append hc hfront) hlast
    exact h.find_twin ha hb htwin (hloud ha) (hloud hb) (h.source.short_of_entry ha hn)
      (h.target.short_of_entry hb hn)

/-- The nearest folder on the way up that has a file by which projects are found. -/
theorem find?_holding {p q : Path} (hpq : Moved a b p q) {name : Path}
    (hname : name.text ∈ projectMarkers) (hs : (Step.name name.text.toList).IsName) :
    Option.Rel (Moved a b) (p.ancestors.find? fun f => t.isFile (f.join name))
      (q.ancestors.find? fun f => u.isFile (f.join name)) := by
  have hpieces : Path.pieceSteps name.text.toList = [.name name.text.toList] := by
    rw [Path.pieceSteps, Text.splitOn_of_not_mem hs.2, List.filterMap_cons_some hs.1]
    rfl
  have habove : ∀ {v : FileTree} {c : List Step}, AllNames c → Site v (fromRoot c) →
      ∀ f, LiesAbove c f → ∀ x ∈ [f], v.isFile (x.join name) = false := by
    intro v c hc site f hf x hx
    obtain rfl := List.mem_singleton.mp hx
    obtain ⟨front, step, behind, rfl, hsteps⟩ := hf
    have habsolute := Path.root_mem_steps.mp (hsteps ▸ List.mem_cons_self)
    have hjoined : (x.join name).steps = x.steps ++ .name name.text.toList :: [] := by
      rw [Path.steps_join habsolute (Path.isAbsolute_of_isName hs), hpieces]
    exact site.not_isFile_above hc ⟨front, step, behind, rfl, hsteps⟩ hname hjoined
  have alone : ∀ f f', Moved a b f f' → List.Forall₂ (Moved a b) [f] [f'] := fun f f' hf =>
    .cons hf .nil
  have hsearch := (hpq.ancestors ha hb).find? alone
    (fun x y hxy => FileTree.isFile_congr_find (h.find_moved ha hb (hxy.join_name ha hb hs)))
    (habove ha h.source) (habove hb h.target)
  rwa [List.flatMap_singleton', List.flatMap_singleton'] at hsearch

end Copies

/-! ## Projects given by their entries -/

instance (t : FileTree) (p : Path) : Decidable (t.Fits p) :=
  inferInstanceAs (Decidable (_ → _))

theorem FileTree.mem_entries_of_entryAt? {t : FileTree} {place : Place}
    (h : t.entryAt? place ≠ none) (hne : place ≠ []) : ∃ e ∈ t.entries, e.1 = place := by
  rw [entryAt?, if_neg hne] at h
  by_contra hnone
  refine h (List.lookup_eq_none_iff.mpr fun e he => ?_)
  exact bne_iff_ne.mpr fun heq => hnone ⟨e, he, heq.symm⟩

/-- The paths of a tree can be looked up, if those of its entries can. -/
theorem Site.of_entries {t : FileTree} {names : List Step} (hn : AllNames names)
    (hfolder : t.isFolder (fromRoot names) = true)
    (hplain : (fromRoot names).text.toList.all fun c => !Text.isBlank c && c != '<' && c != '>')
    (halone : ∀ above ∈ (fromRoot names).parents, ∀ name ∈ projectMarkers,
      t.entryAt? (above.place ++ [name.toList]) = none)
    (hshort : ∀ e ∈ t.entries,
      (fromRoot (e.1.map .name)).text.utf8ByteSize ≤ FileTree.maxPathBytes) :
    Site t (fromRoot names) where
  normal := ⟨names, hn, rfl⟩
  folder := hfolder
  plain c hc := by
    have hc := List.all_eq_true.mp hplain c hc
    simpa only [Bool.and_eq_true, Bool.not_eq_true', bne_iff_ne, and_assoc] using hc
  alone := halone
  short := by
    intro place he
    by_cases hne : (fromRoot names).place ++ place = []
    · rw [hne]
      decide
    · obtain ⟨e, hmem, hplace⟩ := FileTree.mem_entries_of_entryAt? he hne
      exact hplace ▸ hshort e hmem

namespace FileTree

/-- A project in a folder next to the root, given by its entries. -/
def ofProject (name : String) (project : List (Place × Entry)) : FileTree where
  entries := ([name.toList], .folder) :: project.map fun e => (name.toList :: e.1, e.2)
  workingFolder := []

theorem lookup_map_cons (name : List Char) (project : List (Place × Entry)) (place : Place) :
    (project.map fun e => (name :: e.1, e.2)).lookup (name :: place) = project.lookup place := by
  induction project with
  | nil => rfl
  | cons e project ih =>
    rw [List.map_cons, List.lookup_cons, List.lookup_cons, ih]
    simp

theorem entryAt?_ofProject (name : String) (project : List (Place × Entry)) (place : Place) :
    (ofProject name project).entryAt? (name.toList :: place) =
      if place = [] then some .folder else project.lookup place := by
  rw [entryAt?, if_neg (List.cons_ne_nil _ _), ofProject, List.lookup_cons, lookup_map_cons]
  cases place with
  | nil => simp
  | cons step place => simp

end FileTree

theorem Copies.ofProject {here there : String} {project : List (Place × Entry)}
    (hhere : AllNames [.name here.toList]) (hthere : AllNames [.name there.toList])
    (hsource : Site (.ofProject here project) (fromRoot [.name here.toList]))
    (htarget : Site (.ofProject there project) (fromRoot [.name there.toList])) :
    Copies (.ofProject here project) (.ofProject there project) (fromRoot [.name here.toList])
      (fromRoot [.name there.toList]) := by
  refine ⟨hsource, htarget, fun place => ?_⟩
  rw [Path.place_fromRoot hhere, Path.place_fromRoot hthere]
  show (FileTree.ofProject here project).entryAt? (here.toList :: place) =
    (FileTree.ofProject there project).entryAt? (there.toList :: place)
  rw [FileTree.entryAt?_ofProject, FileTree.entryAt?_ofProject]

end ApiReview
