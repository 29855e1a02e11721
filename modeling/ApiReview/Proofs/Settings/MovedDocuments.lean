import ApiReview.Proofs.Settings.LikePaths
import ApiReview.Proofs.Settings.MovedPaths

/-!
# Loading a moved project

The settings of a project load alike in two folders (`parallel_load`): the chains go through the
same documents, which differ in the paths that were read from their folders only. It takes that the
documents refer to each other and to paths inside the project (`StaysTogether`), and that what they
refer to by name can be looked up in both folders (`NamesFit`).
-/

namespace ApiReview.Settings

open Json (Like LikeMembers Members Distinct find? takeOut)
open ApiReview.Path (AllNames Step Twin Moved LiesAbove StaysBelow fromRoot)
open Text

/-! ## Settings and references that stay in a project -/

/-- A path setting of a document stays in its project: it is no path from the root, and if it is
read from the folder of the document, it does not go up above the root of the project. It does not
do so either when what it comes to is trimmed. -/
@[mk_iff]
structure PathStays (root folder : Path) (s : String) : Prop where
  relative : (Path.mk s).isAbsolute = false
  below : isAnchored s = false → StaysBelow root (folder.join ⟨s⟩)
  trimmed : isAnchored s = false → StaysBelow root ⟨trimmed (folder.resolve ⟨s⟩).text⟩

/-- A reference of a document stays in its project: it is no path from the root, and what it may
mean in the project does not go up above the root of the project. -/
@[mk_iff]
structure ReferenceStays (root folder : Path) (s : String) : Prop where
  relative : (Path.mk s).isAbsolute = false
  below : isRelativeReference s = true → StaysBelow root (folder.join ⟨s⟩)
  named : isRelativeReference s = false → ∀ candidate ∈ namedCandidates root s,
    StaysBelow root candidate

/-- The documents that loading comes to refer to paths and to documents in the project only. -/
structure StaysTogether (t : FileTree) (root path : Path) : Prop where
  references : ∀ read next members s, Reaches t path read next →
    readDocument t next = .ok members → find? "extends" members = some (.string s) →
    ReferenceStays root (folderOf next) s
  paths : ∀ read next members, Reaches t path read next → readDocument t next = .ok members →
    PathsSatisfy (PathStays root (folderOf next)) (fun s => (Path.mk s).isAbsolute = false)
      (.object members)

/-- What the documents may mean by name can be looked up, where there is something. -/
def NamesFit (t : FileTree) (path : Path) : Prop :=
  ∀ read next members s, Reaches t path read next → readDocument t next = .ok members →
    find? "extends" members = some (.string s) → isRelativeReference s = false →
    ∀ folder ∈ (folderOf next).ancestors, ∀ candidate ∈ namedCandidates folder s,
      t.Fits candidate

/-! ## Documents read from their folders -/

section Documents

variable {a b : List Step} {p q : Path}

/-- A path setting and a moved one, before and after they are read from their folders. -/
theorem anchorPath_moved (ha : AllNames a) (hb : AllNames b) {folder folder' : Path}
    (hf : Twin a b folder folder') {s : String} (h : PathStays (fromRoot a) folder s) :
    MovedPath a b (anchorPath folder s) (anchorPath folder' s) := by
  cases hs : isAnchored s with
  | true =>
    rw [anchorPath, anchorPath, if_pos hs, if_pos hs]
    exact .inl ⟨h.relative, rfl⟩
  | false =>
    rw [anchorPath, anchorPath, hs]
    exact .inr ⟨_, _, hf.resolve ha hb h.relative (h.below hs), h.trimmed hs, rfl, rfl⟩

theorem CarriedPath.isAnchored (ha : AllNames a) (hb : AllNames b) {s s' : String}
    (h : CarriedPath a b s s') : isAnchored s = true ∧ Settings.isAnchored s' = true := by
  obtain ⟨p, q, hpq, -, rfl, rfl⟩ := h
  have hanchored : ∀ {r : Path}, r.isAbsolute = true → Settings.isAnchored r.text = true :=
    fun hr => by simp [Settings.isAnchored, show (Path.mk _).isAbsolute = true from hr]
  exact ⟨hanchored (hpq.twin ha hb).isAbsolute.1, hanchored (hpq.twin ha hb).isAbsolute.2⟩

/-- A document's paths move with its folder. -/
theorem like_ownDocument (ha : AllNames a) (hb : AllNames b) {members : Members}
    (hd : Json.DistinctMembers members) (hf : Twin a b (folderOf p) (folderOf q))
    (h : PathsSatisfy (PathStays (fromRoot a) (folderOf p))
      (fun s => (Path.mk s).isAbsolute = false) (.object members)) :
    Like (LikePaths (MovedPath a b) fun s => (Path.mk s).isAbsolute = false)
      (ownDocument p members) (ownDocument q members) := by
  -- A path that was read from the folders is not read once more.
  let r : String → String → Prop := fun s s' =>
    s' = s ∧ PathStays (fromRoot a) (folderOf p) s ∨ CarriedPath a b s s'
  have hr : ∀ s s', r s s' →
      r (anchorPath (folderOf p) s) (anchorPath (folderOf q) s') := by
    rintro s s' (⟨rfl, hs⟩ | hs)
    · cases hanchored : isAnchored s' with
      | true =>
        rw [anchorPath, anchorPath, if_pos hanchored, if_pos hanchored]
        exact .inl ⟨rfl, hs⟩
      | false =>
        have habsolute : (Path.mk (anchorPath (folderOf p) s')).isAbsolute = true := by
          rw [anchorPath, hanchored, if_neg Bool.false_ne_true]
          exact (Path.isPlain_resolve hf.isAbsolute.1).absolute
        refine .inr ((anchorPath_moved ha hb hf hs).resolve_left fun h => ?_)
        exact absurd h.1 (by rw [habsolute]; decide)
    · obtain ⟨hs₁, hs₂⟩ := CarriedPath.isAnchored ha hb hs
      rw [anchorPath, anchorPath, if_pos hs₁, if_pos hs₂]
      exact .inr hs
  have hdocument : Json.IsDocument (.object members) := ⟨rfl, hd⟩
  have hself : ∀ s, PathStays (fromRoot a) (folderOf p) s → r s s := fun s hs => .inl ⟨rfl, hs⟩
  obtain ⟨ns, hns, hsame⟩ := (h.like hdocument hself).members
  cases hns
  have hlike := likeMembers_anchorPaths hr (hsame.takeOut "extends")
  refine LikePaths.imp (.object hlike) fun s s' hs => hs.imp_left fun h => ?_
  exact ⟨h.2.relative, h.1⟩

end Documents

/-! ## References -/

/-- Paths that go the same way from their folders, and name the same there or nothing both. -/
structure Counterparts (t u : FileTree) (a b : List Step) (p q : Path) : Prop where
  twin : Twin a b p q
  find_eq : (t.find p).toOption = (u.find q).toOption

section References

variable {t u : FileTree} {a b : List Step} {p q : Path}

theorem Counterparts.parallel_readDocument (h : Counterparts t u a b p q) :
    Parallel Eq (readDocument t p) (readDocument u q) := by
  have htext : Parallel Eq (t.readText p) (u.readText q) :=
    .of_toOption_eq (FileTree.readText_congr h.find_eq)
  refine (htext.mapError _ _).bind fun s s' _ _ he => ?_
  subst he
  refine Parallel.bind (r := Eq) ((Parallel.of_toOption_eq rfl).mapError _ _) fun v v' _ _ he => ?_
  subst he
  cases v with
  | object members => exact .ok rfl
  | _ => exact .error _ _

/-- Documents that go the same way from their folders lie in folders that do. -/
theorem Counterparts.twin_folderOf (ha : AllNames a) (hsite : Site t (fromRoot a))
    (h : Counterparts t u a b p q) {members : Members} (hread : readDocument t p = .ok members) :
    Twin a b (folderOf p) (folderOf q) := by
  obtain ⟨s, hs, -⟩ := bind_eq_ok hread
  have hne := hsite.steps_ne_of_isFile ha h.twin.isAbsolute.1
    (FileTree.isFile_of_readText (mapError_eq_ok hs))
  obtain ⟨f, f', hf, hf', htwin⟩ := h.twin.parent? hne
  rw [folderOf, folderOf, hf, hf']
  exact htwin

/-- What a reference by name may mean in two folders: paths that go the same way and name the same,
or no files. -/
def MeansAlike (t u : FileTree) (a b : List Step) (p q : Path) : Prop :=
  Twin a b p q ∧ t.isFile p = u.isFile q ∧
    (t.isFile p = true → (t.find p).toOption = (u.find q).toOption)

variable (ha : AllNames a) (hb : AllNames b) (h : Copies t u (fromRoot a) (fromRoot b))

include ha hb h

theorem counterparts_of_moved (hpq : Moved a b p q) : Counterparts t u a b p q :=
  ⟨hpq.twin ha hb, h.find_moved ha hb hpq⟩

/-- Paths to a document by its name, below folders that go the same way, mean alike. -/
theorem meansAlike_below {f f' name : Path} (hf : Twin a b f f') (hname : name.isAbsolute = false)
    (hstays : StaysBelow (fromRoot a) (((fromRoot a).join ⟨"node_modules"⟩).join name))
    (hfit : t.Fits ((f.join ⟨"node_modules"⟩).join name))
    (hfit' : u.Fits ((f'.join ⟨"node_modules"⟩).join name)) :
    MeansAlike t u a b ((f.join ⟨"node_modules"⟩).join name)
      ((f'.join ⟨"node_modules"⟩).join name) := by
  have hmodules : (Step.name (Path.mk "node_modules").text.toList).IsName := ⟨by decide, by decide⟩
  have hjoin := hf.join_name hmodules
  obtain ⟨hfa, hfa'⟩ := hjoin.isAbsolute
  have hsteps : ∀ {base : Path}, base.isAbsolute = true →
      ((base.join ⟨"node_modules"⟩).join name).steps =
        base.steps ++ (Path.pieceSteps "node_modules".toList ++ Path.pieceSteps name.text.toList) :=
    fun hbase => by
      rw [Path.steps_join (Path.isAbsolute_join hbase) hname,
        Path.steps_join hbase (Path.isAbsolute_of_isName hmodules), List.append_assoc]
  have htwin := hjoin.join ha hname (hf.staysBelow_append ha
    (hsteps (Path.isAbsolute_fromRoot a)) (hsteps hf.isAbsolute.1) hstays)
  have hloud := (Path.endsLoud_join_iff hfa hname).trans (Path.endsLoud_join_iff hfa' hname).symm
  by_cases hends : ((f.join ⟨"node_modules"⟩).join name).EndsLoud
  · have hfind := h.find_twin ha hb htwin hends (hloud.mp hends) hfit hfit'
    exact ⟨htwin, FileTree.isFile_congr_find hfind, fun _ => hfind⟩
  · have hnone : ∀ {v : FileTree} {r : Path}, r.isAbsolute = true → ¬ r.EndsLoud →
        v.isFile r = false := fun hr hnot =>
      Bool.eq_false_iff.mpr fun hfile => hnot (FileTree.endsLoud_of_isFile hr hfile)
    have hfirst := hnone (v := t) htwin.isAbsolute.1 hends
    have hsecond := hnone (v := u) htwin.isAbsolute.2 fun hends' => hends (hloud.mpr hends')
    exact ⟨htwin, hfirst.trans hsecond.symm, fun hfile => by rw [hfirst] at hfile; cases hfile⟩

/-- A reference by name is searched for alike on the way up from two folders. -/
theorem rel_find?_named {f f' : Path} (hf : Twin a b f f') {s : String}
    (hs : (Path.mk s).isAbsolute = false)
    (hstays : ∀ candidate ∈ namedCandidates (fromRoot a) s, StaysBelow (fromRoot a) candidate)
    (hfit : ∀ folder ∈ f.ancestors, ∀ candidate ∈ namedCandidates folder s, t.Fits candidate)
    (hfit' : ∀ folder ∈ f'.ancestors, ∀ candidate ∈ namedCandidates folder s, u.Fits candidate) :
    Option.Rel (Counterparts t u a b)
      ((f.ancestors.flatMap (namedCandidates · s)).find? t.isFile)
      ((f'.ancestors.flatMap (namedCandidates · s)).find? u.isFile) := by
  have habove : ∀ {v : FileTree} {c : List Step}, AllNames c → Site v (fromRoot c) →
      ∀ folder, LiesAbove c folder → ∀ candidate ∈ namedCandidates folder s,
        v.isFile candidate = false := by
    intro v c hc site folder hfolder candidate hm
    obtain ⟨front, step, behind, -, hsteps⟩ := id hfolder
    have habsolute := Path.root_mem_steps.mp (hsteps ▸ List.mem_cons_self)
    have hbelow : ∀ {name : Path}, name.isAbsolute = false →
        v.isFile ((folder.join ⟨"node_modules"⟩).join name) = false := fun {name} hname => by
      have hjoined : ((folder.join ⟨"node_modules"⟩).join name).steps =
          folder.steps ++ .name "node_modules".toList :: Path.pieceSteps name.text.toList := by
        rw [Path.steps_join (Path.isAbsolute_join habsolute) hname,
          Path.steps_join habsolute (by decide), List.append_assoc]
        rfl
      exact site.not_isFile_above hc hfolder (by decide) hjoined
    simp only [namedCandidates, List.mem_cons, List.not_mem_nil, or_false] at hm
    rcases hm with rfl | rfl
    · exact hbelow hs
    · exact hbelow (isAbsolute_json hs)
  have hnear : ∀ g g', Twin a b g g' ∧ g ∈ f.ancestors ∧ g' ∈ f'.ancestors →
      List.Forall₂ (MeansAlike t u a b) (namedCandidates g s) (namedCandidates g' s) := by
    rintro g g' ⟨hg, hm, hm'⟩
    refine .cons ?_ (.cons ?_ .nil)
    · exact meansAlike_below ha hb h hg hs (hstays _ (by simp [namedCandidates]))
        (hfit g hm _ (by simp [namedCandidates])) (hfit' g' hm' _ (by simp [namedCandidates]))
    · exact meansAlike_below ha hb h hg (isAbsolute_json hs)
        (hstays _ (by simp [namedCandidates])) (hfit g hm _ (by simp [namedCandidates]))
        (hfit' g' hm' _ (by simp [namedCandidates]))
  have hsame : ∀ x y, MeansAlike t u a b x y → t.isFile x = u.isFile y := fun _ _ hxy => hxy.2.1
  have hsearch := hf.ancestors.mem.find? hnear hsame (habove ha h.source) (habove hb h.target)
  generalize hfirst : (f.ancestors.flatMap (namedCandidates · s)).find? t.isFile = first
    at hsearch ⊢
  generalize (f'.ancestors.flatMap (namedCandidates · s)).find? u.isFile = second at hsearch ⊢
  cases hsearch with
  | none => exact .none
  | some hxy => exact .some ⟨hxy.1, hxy.2.2 (List.find?_some hfirst)⟩

/-- A document refers to a document that goes the same way from the other folder. -/
theorem parallel_extended? {members : Members} (hf : Twin a b (folderOf p) (folderOf q))
    (hstays : ∀ s, find? "extends" members = some (.string s) →
      ReferenceStays (fromRoot a) (folderOf p) s)
    (hfit : ∀ s, find? "extends" members = some (.string s) → isRelativeReference s = false →
      ∀ folder ∈ (folderOf p).ancestors, ∀ candidate ∈ namedCandidates folder s,
        t.Fits candidate)
    (hfit' : ∀ s, find? "extends" members = some (.string s) → isRelativeReference s = false →
      ∀ folder ∈ (folderOf q).ancestors, ∀ candidate ∈ namedCandidates folder s,
        u.Fits candidate) :
    Parallel (Option.Rel (Counterparts t u a b)) (extended? t p members)
      (extended? u q members) := by
  have hresolve : ∀ s, find? "extends" members = some (.string s) →
      Option.Rel (Counterparts t u a b) (resolveReference? t (folderOf p) s)
        (resolveReference? u (folderOf q) s) := by
    intro s hs
    have hreference := hstays s hs
    rw [resolveReference?, resolveReference?]
    cases hrelative : isRelativeReference s with
    | true =>
      exact .some (counterparts_of_moved ha hb h
        (hf.resolve ha hb hreference.relative (hreference.below hrelative)))
    | false =>
      rw [hreference.relative]
      exact rel_find?_named ha hb h hf hreference.relative (hreference.named hrelative)
        (hfit s hs hrelative) (hfit' s hs hrelative)
  rw [extended?, extended?]
  cases hfind : find? "extends" members with
  | none => exact .ok .none
  | some v =>
    cases v with
    | null => exact .ok .none
    | string s =>
      have hnext := hresolve s hfind
      dsimp only
      split
      · exact .ok .none
      · generalize resolveReference? t (folderOf p) s = next at hnext ⊢
        generalize resolveReference? u (folderOf q) s = next' at hnext ⊢
        cases hnext with
        | none => exact .error _ _
        | some hnext => exact .ok (.some hnext)
    | _ => exact .error _ _

end References

/-! ## Chains -/

/-- Documents with distinct keys that are the same but for paths that move with a folder. -/
structure MovedDocument (a b : List Step) (document document' : Json) : Prop where
  isDocument : Json.IsDocument document
  like : Like (LikePaths (MovedPath a b) fun s => (Path.mk s).isAbsolute = false) document document'

section Loading

variable {t u : FileTree} {a b : List Step} {path path' : Path}

theorem MovedDocument.overlay {top top' base base' : Json} (htop : MovedDocument a b top top')
    (hbase : MovedDocument a b base base') :
    MovedDocument a b (Json.overlay base top) (Json.overlay base' top') where
  isDocument := ⟨(Json.isObject_overlay base top).trans htop.isDocument.isObject,
    Json.distinct_overlay top hbase.isDocument.distinct htop.isDocument.distinct⟩
  like := htop.like.overlay hbase.like

/-- The built-in settings have no path from the root, and none by position. -/
theorem movedDocument_defaults (a b : List Step) : MovedDocument a b defaults defaults where
  isDocument := isDocument_defaults
  like := by
    have hpaths : PathsSatisfy (fun s => (Path.mk s).isAbsolute = false)
        (fun s => (Path.mk s).isAbsolute = false) defaults :=
      .of_lists (by decide +kernel) (by decide +kernel)
    exact hpaths.like isDocument_defaults fun s hs => .inl ⟨hs, rfl⟩

/-- Documents that are the same but for moved paths are read to typed files that are. -/
theorem MovedDocument.read_eq (ha : AllNames a) (hb : AllNames b) {document document' : Json}
    (h : MovedDocument a b document document') :
    (SettingsFile.codec.read document').toOption = (SettingsFile.codec.read document).toOption.map
      (SettingsFile.mapPaths (moveText (fromRoot a) (fromRoot b))) :=
  read_like (fun _ _ hs => hs.eq_moveText ha hb) (fun _ hs => moveText_of_relative hs) (by decide)
    h.isDocument h.like

/-- The paths that are read from such documents move with the folder. -/
theorem MovedDocument.movedPath (ha : AllNames a) (hb : AllNames b) {document document' : Json}
    (h : MovedDocument a b document document') {file : SettingsFile}
    (hread : SettingsFile.codec.read document = .ok file) {s : String} (hs : s ∈ pathsOf file) :
    MovedPath a b s (moveText (fromRoot a) (fromRoot b) s) := by
  rcases ok_or_exists_of_mem_pathsOf (by decide) h.isDocument h.like hread hs with hs | ⟨s', hs⟩
  · exact .inl ⟨hs, moveText_of_relative hs⟩
  · exact hs.eq_moveText ha hb ▸ hs

theorem violations_eq_nil_iff {document : Json} (h : document.isObject = true) :
    SettingsFile.violations document = [] ↔
      (SettingsFile.codec.read document).toOption.isSome = true := by
  rw [SettingsFile.violations, h]
  cases SettingsFile.codec.read document <;> simp [Except.toOption]

theorem MovedDocument.violations_iff (ha : AllNames a) (hb : AllNames b) {document document' : Json}
    (h : MovedDocument a b document document') :
    SettingsFile.violations document = [] ↔ SettingsFile.violations document' = [] := by
  have hobject := h.isDocument.isObject
  rw [violations_eq_nil_iff hobject, violations_eq_nil_iff (h.like.isObject_eq ▸ hobject),
    h.read_eq ha hb, Option.isSome_map]

variable (ha : AllNames a) (hb : AllNames b) (h : Copies t u (fromRoot a) (fromRoot b))
  (htogether : StaysTogether t (fromRoot a) path) (hfits : NamesFit t path)
  (hfits' : NamesFit u path')

include ha hb h htogether hfits hfits'

/-- From documents that go the same way from their folders on, chains load alike. -/
theorem parallel_loadChain (bound : Nat) {read read' : List Path} {next next' : Path}
    {upper upper' : Json} (hreach : Reaches t path read next) (hreach' : Reaches u path' read' next')
    (hread : List.Forall₂ (Twin a b) read read') (hnext : Counterparts t u a b next next')
    (hupper : MovedDocument a b upper upper') :
    Parallel (MovedDocument a b) (loadChain t bound read next upper)
      (loadChain u bound read' next' upper') := by
  induction bound generalizing read read' next next' upper upper' with
  | zero => exact .error _ _
  | succ bound ih =>
    have hsame := Path.any_same_eq hread hnext.twin
    rw [loadChain, loadChain]
    refine Parallel.guard (by rw [hsame]) fun hfresh => ?_
    have hfresh' := hsame ▸ hfresh
    refine hnext.parallel_readDocument.bind fun members _ hmembers hmembers' he => ?_
    subst he
    have hf := hnext.twin_folderOf ha h.source hmembers
    have hlike := like_ownDocument ha hb (distinct_readDocument hmembers) hf
      (htogether.paths _ _ _ hreach hmembers)
    have hmerged := hupper.overlay
      ⟨isDocument_ownDocument next (distinct_readDocument hmembers), hlike⟩
    refine (parallel_extended? ha hb h hf (fun s => htogether.references _ _ _ s hreach hmembers)
      (fun s => hfits _ _ _ s hreach hmembers)
      fun s => hfits' _ _ _ s hreach' hmembers').bind fun x x' hx hx' hrel => ?_
    cases hrel with
    | none => exact .ok hmerged
    | some hcounter =>
      exact ih (hreach.next (Bool.eq_false_iff.mpr hfresh) ⟨members, hmembers, hx⟩)
        (hreach'.next (Bool.eq_false_iff.mpr hfresh') ⟨members, hmembers', hx'⟩)
        (.cons hnext.twin hread) hcounter hmerged

/-- The settings of a project load alike in two folders. -/
theorem parallel_load (hpath : Moved a b path path') :
    Parallel (MovedDocument a b) (load t path) (load u path') := by
  have habsolute : t.absolute path = path ∧ u.absolute path' = path' := by
    obtain ⟨names, hn, rfl, rfl⟩ := hpath
    exact ⟨t.absolute_eq_self ⟨_, Path.allNames_append ha hn, rfl⟩,
      u.absolute_eq_self ⟨_, Path.allNames_append hb hn, rfl⟩⟩
  rw [load, load, loadChecked, loadChecked, habsolute.1, habsolute.2]
  have hempty : MovedDocument a b (.object []) (.object []) :=
    ⟨⟨rfl, show Json.DistinctMembers [] from trivial⟩, .object .nil⟩
  refine (parallel_loadChain ha hb h htogether hfits hfits' chainBound .root .root .nil
    (counterparts_of_moved ha hb h hpath) hempty).bind fun merged merged' _ _ hmerged => ?_
  have hdocument := hmerged.overlay (movedDocument_defaults a b)
  refine Parallel.guard (not_congr (hdocument.violations_iff ha hb)) fun _ => ?_
  exact .ok hdocument

end Loading

/-! ## Projects checked document by document -/

section Documents

variable {t : FileTree} {root path : Path} {documents : List Path}

/-- What a document refers to, if that is a text. -/
def reference? (members : Members) : Option String :=
  (find? "extends" members).bind Json.text?

instance (root folder : Path) (s : String) : Decidable (PathStays root folder s) :=
  decidable_of_iff _ (pathStays_iff root folder s).symm

instance (root folder : Path) (s : String) : Decidable (ReferenceStays root folder s) :=
  decidable_of_iff _ (referenceStays_iff root folder s).symm

/-- A document refers to documents and to paths in its project only, to documents that are listed,
and what it may mean by name can be looked up. -/
@[mk_iff]
structure DocumentStays (t : FileTree) (root : Path) (documents : List Path) (p : Path)
    (members : Members) : Prop where
  extended : ∀ next ∈ (extended? t p members).toOption.join, next ∈ documents
  reference : ∀ s ∈ reference? members, ReferenceStays root (folderOf p) s
  named : ∀ s ∈ namedPaths (.object members), PathStays root (folderOf p) s
  listed : ∀ s ∈ listedPaths (.object members), (Path.mk s).isAbsolute = false
  fits : ∀ s ∈ reference? members, isRelativeReference s = false →
    ∀ folder ∈ (folderOf p).ancestors, ∀ candidate ∈ namedCandidates folder s, t.Fits candidate

instance (t : FileTree) (root : Path) (documents : List Path) (p : Path) (members : Members) :
    Decidable (DocumentStays t root documents p members) :=
  decidable_of_iff _ (documentStays_iff t root documents p members).symm

variable (hpath : path ∈ documents) (h : ∀ p ∈ documents, ∀ members ∈ (readDocument t p).toOption,
  DocumentStays t root documents p members)

include hpath h

/-- Loading comes to listed documents only, if they refer to no others. -/
theorem documentStays_of_reaches {read : List Path} {next : Path} {members : Members}
    (hreach : Reaches t path read next) (hread : readDocument t next = .ok members) :
    DocumentStays t root documents next members := by
  have hmem : next ∈ documents := by
    clear hread
    induction hreach with
    | root => exact hpath
    | next before fresh refers ih =>
      obtain ⟨members, hread, hnext⟩ := refers
      refine (h _ ih members (mem_toOption.mpr hread)).extended _ ?_
      rw [hnext]
      rfl
  exact h next hmem members (mem_toOption.mpr hread)

theorem StaysTogether.of_documents : StaysTogether t root path where
  references := by
    intro read next members s hreach hread hs
    refine (documentStays_of_reaches hpath h hreach hread).reference s ?_
    rw [reference?, hs]
    rfl
  paths := by
    intro read next members hreach hread
    have hstays := documentStays_of_reaches hpath h hreach hread
    exact .of_lists hstays.named hstays.listed

theorem NamesFit.of_documents : NamesFit t path := by
  intro read next members s hreach hread hs hname
  refine (documentStays_of_reaches hpath h hreach hread).fits s ?_ hname
  rw [reference?, hs]
  rfl

end Documents

end ApiReview.Settings
