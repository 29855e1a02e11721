import ApiReview.Analysis.Setup
import ApiReview.Files.Snapshot
import ApiReview.Proofs.Outcome
import ApiReview.Proofs.Path.Capital
import ApiReview.Settings.Prepare
import Mathlib.Data.List.Pairwise

/-!
# What becomes of the candidates

Each path is taken once, in the first of its spellings (`firstSpelling?`), and is told apart from
others by its capitals. That is too little in one way and too much in another. Where a name has the
capitals of a declaration file and is none, what comes behind it is lost
(`collectInputs_keepsDeclarations_iff`); and a file with a dot or a repeated slash in its path is
another one than the same file without (`filesApart_iff`).
-/

namespace ApiReview.Analysis

variable {candidates : List Path} {seen : List String} {p q : Path}

/-- The first of the candidates that are a path but for the case of letters. -/
def firstSpelling? (candidates : List Path) (p : Path) : Option Path :=
  candidates.find? fun q => caseKey q = caseKey p

/-- A declaration file that no candidate before it differs from by the case of letters alone. -/
def Kept (candidates : List Path) (p : Path) : Prop :=
  p.isDeclarationFile = true ∧ firstSpelling? candidates p = some p

/-! ## Each path once -/

theorem firstSpelling?_cons (p q : Path) (rest : List Path) :
    firstSpelling? (q :: rest) p =
      if caseKey q = caseKey p then some q else firstSpelling? rest p := by
  rw [firstSpelling?, List.find?_cons]
  split <;> simp_all [firstSpelling?]

theorem firstSpelling?_congr (h : caseKey p = caseKey q) :
    firstSpelling? candidates p = firstSpelling? candidates q := by
  rw [firstSpelling?, firstSpelling?, h]

theorem caseKey_of_firstSpelling? (h : firstSpelling? candidates p = some q) :
    caseKey q = caseKey p :=
  decide_eq_true_iff.mp (List.find?_some (p := fun q => caseKey q = caseKey p) h)

theorem mem_distinctByCase_iff :
    p ∈ distinctByCase seen candidates ↔
      caseKey p ∉ seen ∧ firstSpelling? candidates p = some p := by
  induction candidates generalizing seen with
  | nil => exact iff_of_false List.not_mem_nil fun h => by cases h.2
  | cons q rest ih =>
    rw [distinctByCase, firstSpelling?_cons]
    by_cases hseen : caseKey q ∈ seen
    · rw [if_pos (List.contains_iff_mem.mpr hseen), ih]
      refine and_congr_right fun hp => ?_
      rw [if_neg fun e : caseKey q = caseKey p => hp (e ▸ hseen)]
    · rw [if_neg (mt List.contains_iff_mem.mp hseen), List.mem_cons, ih, List.mem_cons, not_or]
      by_cases hkey : caseKey q = caseKey p
      · rw [if_pos hkey, Option.some_inj, eq_comm (a := q)]
        refine ⟨fun h => ?_, fun h => .inl h.2⟩
        rcases h with rfl | h
        · exact ⟨hseen, rfl⟩
        · exact absurd hkey.symm h.1.1
      · rw [if_neg hkey]
        refine ⟨fun h => ?_, fun h => .inr ⟨⟨Ne.symm hkey, h.1⟩, h.2⟩⟩
        rcases h with rfl | h
        · exact absurd rfl hkey
        · exact ⟨h.1.2, h.2⟩

theorem pairwise_distinctByCase (seen : List String) (candidates : List Path) :
    (distinctByCase seen candidates).Pairwise fun p q => caseKey p ≠ caseKey q := by
  induction candidates generalizing seen with
  | nil => exact List.Pairwise.nil
  | cons q rest ih =>
    rw [distinctByCase]
    split
    · exact ih seen
    · refine List.pairwise_cons.mpr ⟨fun p hp e => ?_, ih _⟩
      exact (mem_distinctByCase_iff.mp hp).1 (e ▸ List.mem_cons_self)

/-- What hangs on the key alone is found where it is found among all candidates. -/
theorem find?_distinctByCase {f : Path → Bool}
    (hf : ∀ p q, caseKey p = caseKey q → f p = f q)
    (hseen : ∀ p ∈ candidates, caseKey p ∈ seen → f p = false) :
    (distinctByCase seen candidates).find? f = candidates.find? f := by
  induction candidates generalizing seen with
  | nil => rfl
  | cons q rest ih =>
    obtain ⟨hq, hrest⟩ := List.forall_mem_cons.mp hseen
    rw [distinctByCase, List.find?_cons]
    by_cases hkey : caseKey q ∈ seen
    · rw [if_pos (List.contains_iff_mem.mpr hkey), hq hkey]
      exact ih hrest
    · rw [if_neg (mt List.contains_iff_mem.mp hkey), List.find?_cons]
      cases hfq : f q with
      | true => rfl
      | false =>
        refine ih fun p hp hmem => ?_
        rcases List.mem_cons.mp hmem with e | hmem
        · exact (hf p q e).trans hfq
        · exact hrest p hp hmem

theorem find?_relative (candidates : List Path) :
    (distinctByCase [] candidates).find? (fun p => !p.isAbsolute) =
      candidates.find? fun p => !p.isAbsolute := by
  refine find?_distinctByCase (fun p q h => ?_) fun _ _ hm => absurd hm List.not_mem_nil
  rw [← Path.isAbsolute_capitals p.text, ← Path.isAbsolute_capitals q.text]
  exact congrArg (fun s => !(Path.mk s).isAbsolute) h

/-- The candidates are refused for the first one that is relative. -/
theorem collectInputs_eq_error_iff {e : AnalysisError} :
    collectInputs candidates = .error e ↔
      ∃ p, candidates.find? (fun p => !p.isAbsolute) = some p ∧ e = .relativeInput p := by
  rw [collectInputs, find?_relative]
  split
  · rename_i p hp
    rw [hp]
    constructor
    · exact fun h => ⟨p, rfl, (Except.error.inj h).symm⟩
    · rintro ⟨q, hq, rfl⟩
      rw [Option.some.inj hq]
  · rename_i hnone
    rw [hnone]
    refine iff_of_false (fun h => by cases h) ?_
    rintro ⟨p, hp, -⟩
    cases hp

theorem collectInputs_of_absolute (h : ∀ p ∈ candidates, p.isAbsolute = true) :
    collectInputs candidates =
      .ok ((distinctByCase [] candidates).filter Path.isDeclarationFile) := by
  have hnone : candidates.find? (fun p => !p.isAbsolute) = none :=
    List.find?_eq_none.mpr fun p hp => by rw [h p hp]; exact Bool.false_ne_true
  rw [collectInputs, find?_relative, hnone]

theorem mem_filter_distinctByCase_iff :
    p ∈ (distinctByCase [] candidates).filter Path.isDeclarationFile ↔ Kept candidates p := by
  rw [List.mem_filter, mem_distinctByCase_iff, and_comm]
  exact and_congr_right fun _ => and_iff_right List.not_mem_nil

/-! ## Declaration files that are lost -/

/-- No declaration file is lost: each has exactly one of the inputs, in some case of letters. -/
def KeepsDeclarations (candidates inputs : List Path) : Prop :=
  ∀ c ∈ candidates, c.isDeclarationFile = true →
    inputs.countP (fun p => caseKey p = caseKey c) = 1

theorem countP_eq_one_iff {inputs : List Path}
    (h : inputs.Pairwise fun p q => caseKey p ≠ caseKey q) {key : String} :
    inputs.countP (fun p => caseKey p = key) = 1 ↔ ∃ p ∈ inputs, caseKey p = key := by
  have hkeys : (inputs.map caseKey).Nodup := List.pairwise_map.mpr h
  have hcount : inputs.countP (fun p => caseKey p = key) = (inputs.map caseKey).count key := by
    rw [List.count, List.countP_map]
    rfl
  rw [hcount, hkeys.count, ← List.mem_map]
  split
  · rename_i hm
    exact iff_of_true rfl hm
  · rename_i hm
    exact iff_of_false Nat.zero_ne_one hm

theorem kept_of_firstSpelling? (hq : q.isDeclarationFile = true)
    (h : firstSpelling? candidates p = some q) : Kept candidates q :=
  ⟨hq, firstSpelling?_congr (caseKey_of_firstSpelling? h) ▸ h⟩

/-- The inputs of candidates that are all told from the root keep all declaration files exactly if
none of these comes behind one that only a long s tells from it. -/
theorem keepsDeclarations_iff :
    KeepsDeclarations candidates
        ((distinctByCase [] candidates).filter Path.isDeclarationFile) ↔
      ∀ c ∈ candidates, c.isDeclarationFile = true →
        ∀ first ∈ firstSpelling? candidates c, ¬ first.EndsInLongS := by
  have hpairwise := (pairwise_distinctByCase [] candidates).filter Path.isDeclarationFile
  refine forall₃_congr fun c hc hdeclaration => ?_
  rw [countP_eq_one_iff hpairwise]
  constructor
  · rintro ⟨p, hp, hkey⟩ first hfirst hlong
    obtain ⟨hp, hspelling⟩ := mem_filter_distinctByCase_iff.mp hp
    rw [firstSpelling?_congr hkey] at hspelling
    obtain rfl : p = first := Option.some.inj (hspelling.symm.trans hfirst)
    rw [hlong.not_isDeclarationFile] at hp
    cases hp
  · intro h
    obtain ⟨first, hfirst⟩ : ∃ first, firstSpelling? candidates c = some first :=
      Option.isSome_iff_exists.mp (List.find?_isSome.mpr ⟨c, hc, decide_eq_true rfl⟩)
    have hkey := caseKey_of_firstSpelling? hfirst
    have hdeclared := (Path.isDeclarationFile_or_endsInLongS hkey hdeclaration).resolve_right
      (h first hfirst)
    exact ⟨first, mem_filter_distinctByCase_iff.mpr (kept_of_firstSpelling? hdeclared hfirst), hkey⟩

/-- Candidates are refused exactly for the first one that is relative. Otherwise each of the inputs
is a declaration file in its first spelling, and they come as the candidates do; no declaration file
is lost exactly if none comes behind a candidate that only a long s tells from it. -/
theorem collectInputs_keepsDeclarations_iff (candidates : List Path) :
    (∀ e, collectInputs candidates = .error e ↔
      ∃ p, candidates.find? (fun p => !p.isAbsolute) = some p ∧ e = .relativeInput p) ∧
    ((∀ p ∈ candidates, p.isAbsolute = true) →
      ∃ inputs, collectInputs candidates = .ok inputs ∧ inputs.Sublist candidates ∧
        (∀ p, p ∈ inputs ↔ Kept candidates p) ∧
        (KeepsDeclarations candidates inputs ↔
          ∀ c ∈ candidates, c.isDeclarationFile = true →
            ∀ first ∈ firstSpelling? candidates c, ¬ first.EndsInLongS)) :=
  ⟨fun _ => collectInputs_eq_error_iff, fun h =>
    have hinputs := collectInputs_of_absolute h
    ⟨_, hinputs, collectInputs_sublist hinputs, fun _ => mem_filter_distinctByCase_iff,
      keepsDeclarations_iff⟩⟩

/-- Candidates in several cases of letters, one of them with a long s and nothing behind it. -/
def mixedCandidates : List Path :=
  [⟨"/Lib/Straße.d.ts"⟩, ⟨"/notes.md"⟩, ⟨"/lib/STRASSE.D.TS"⟩, ⟨"/lib/b.d.tſ"⟩, ⟨"/lib/a.d.mts"⟩]

theorem collectInputs_keepsDeclarations_mixed :
    (∀ p ∈ mixedCandidates, p.isAbsolute = true) ∧
      ∃ inputs, collectInputs mixedCandidates = .ok inputs ∧
        inputs = [⟨"/Lib/Straße.d.ts"⟩, ⟨"/lib/a.d.mts"⟩] ∧
        KeepsDeclarations mixedCandidates inputs := by
  have habsolute : ∀ p ∈ mixedCandidates, p.isAbsolute = true := by decide
  obtain ⟨inputs, hinputs, -, -, hkeeps⟩ :=
    (collectInputs_keepsDeclarations_iff mixedCandidates).2 habsolute
  have hcollected : collectInputs mixedCandidates =
      .ok [⟨"/Lib/Straße.d.ts"⟩, ⟨"/lib/a.d.mts"⟩] := eq_ok_of_toOption (by decide +kernel)
  exact ⟨habsolute, inputs, hinputs, Except.ok.inj (hinputs.symm.trans hcollected),
    hkeeps.mpr (by decide +kernel)⟩

/-- A declaration file comes behind a name that is not one, and has the same capitals. -/
theorem not_keepsDeclarations_longS :
    ¬ ∀ candidates inputs, collectInputs candidates = .ok inputs →
        KeepsDeclarations candidates inputs := by
  intro hall
  have hlost := hall [⟨"/a.d.tſ"⟩, ⟨"/a.d.ts"⟩] [] (eq_ok_of_toOption (by decide +kernel))
    ⟨"/a.d.ts"⟩ (by decide) (by decide +kernel)
  cases hlost

/-! ## Files under several spellings -/

/-- No two of the files are one, but for the case of letters. -/
def FilesApart (files : List Path) : Prop :=
  files.Pairwise fun p q => ¬ p.SameButCase q

/-- Whatever is kept of one file says nothing in the same places. -/
def SpelledAlike (candidates : List Path) : Prop :=
  ∀ p q, Kept candidates p → Kept candidates q → p.SameButCase q →
    p.silentPieces = q.silentPieces

/-- Whether the programs of an engine have the files it is given for their root files. -/
def KeepsRoots (engine : Engine) : Prop :=
  ∀ inputs options host program, engine.createProgram inputs options host = .ok program →
    program.rootFiles = inputs

theorem Kept.mem (h : Kept candidates p) : p ∈ candidates :=
  List.mem_of_find?_eq_some h.2

theorem filesApart_iff_spelledAlike (h : ∀ p ∈ candidates, p.isAbsolute = true) :
    FilesApart ((distinctByCase [] candidates).filter Path.isDeclarationFile) ↔
      SpelledAlike candidates := by
  have hkeys := (pairwise_distinctByCase [] candidates).filter Path.isDeclarationFile
  constructor
  · intro hapart p q hp hq hsame
    by_cases he : p = q
    · rw [he]
    · have : Std.Symm fun p q : Path => ¬ p.SameButCase q :=
        ⟨fun p q hne hsame => hne (Eq.symm hsame)⟩
      have hne := List.Pairwise.forall hapart (mem_filter_distinctByCase_iff.mpr hp)
        (mem_filter_distinctByCase_iff.mpr hq) he
      exact absurd hsame hne
  · intro halike
    refine hkeys.imp_of_mem fun {p q} hp hq hkey hsame => hkey ?_
    have hp := mem_filter_distinctByCase_iff.mp hp
    have hq := mem_filter_distinctByCase_iff.mp hq
    exact (Path.capitals_eq_iff_of_isAbsolute (h p hp.mem) (h q hq.mem)).mpr
      ⟨hsame, halike p q hp hq hsame⟩

/-- What a program is made of: the inputs out of the files of the configuration, the entry points
and those that the caller adds. -/
theorem collectInputs_of_program {t : FileTree} {engine : Engine} {s : Settings}
    {extra : List Path} {compilerFolder : Option Path} {made : Program}
    (hroots : KeepsRoots engine) (h : program t engine s extra compilerFolder = .ok made) :
    ∃ config folder, s.compilerConfig t = .ok (config, folder) ∧
      collectInputs ((engine.parseConfig config folder).files ++
        s.entryPoints.map (·.filePath) ++ extra) = .ok made.rootFiles := by
  obtain ⟨asked, hplan, hmade⟩ := bind_eq_ok h
  obtain ⟨⟨config, folder⟩, hconfig, hrest⟩ := bind_eq_ok hplan
  dsimp only at hrest
  split at hrest
  · cases hrest
  · obtain ⟨inputs, hinputs, hasked⟩ := bind_eq_ok hrest
    cases hasked
    exact ⟨config, folder, hconfig, hroots _ _ _ _ hmade ▸ hinputs⟩

/-- What is accepted is told from the root. -/
theorem isAbsolute_of_collectInputs {inputs : List Path}
    (h : collectInputs candidates = .ok inputs) : ∀ p ∈ candidates, p.isAbsolute = true := by
  intro p hp
  cases hfind : candidates.find? fun p => !p.isAbsolute with
  | none => exact Bool.not_eq_false _ ▸ fun ha => List.find?_eq_none.mp hfind p hp (ha ▸ rfl)
  | some q =>
    rw [collectInputs_eq_error_iff.mpr ⟨q, hfind, rfl⟩] at h
    cases h

/-- Files that are told from the root are apart exactly if what is kept of each is spelled alike,
as it is where all declaration files have normal paths; and so are the root files of a program. -/
theorem filesApart_iff (candidates : List Path) :
    ((∀ p ∈ candidates, p.isAbsolute = true) →
      ∃ inputs, collectInputs candidates = .ok inputs ∧
        (FilesApart inputs ↔ SpelledAlike candidates)) ∧
    ((∀ p ∈ candidates, p.isDeclarationFile = true → p.IsNormal) → SpelledAlike candidates) ∧
    ∀ t engine s extra compilerFolder made, KeepsRoots engine →
      program t engine s extra compilerFolder = .ok made →
      ∃ config folder, s.compilerConfig t = .ok (config, folder) ∧
        (FilesApart made.rootFiles ↔ SpelledAlike ((engine.parseConfig config folder).files ++
          s.entryPoints.map (·.filePath) ++ extra)) := by
  refine ⟨fun h => ?_, fun h p q hp hq hsame => ?_,
    fun t engine s extra compilerFolder made hroots h => ?_⟩
  · exact ⟨_, collectInputs_of_absolute h, filesApart_iff_spelledAlike h⟩
  · exact (h p hp.mem hp.1).silentPieces_eq (h q hq.mem hq.1) hsame
  · obtain ⟨config, folder, hconfig, hinputs⟩ := collectInputs_of_program hroots h
    have habsolute := isAbsolute_of_collectInputs hinputs
    rw [collectInputs_of_absolute habsolute] at hinputs
    rw [← Except.ok.inj hinputs]
    exact ⟨config, folder, hconfig, filesApart_iff_spelledAlike habsolute⟩

/-- Candidates with normal paths, but for one that is no declaration file. -/
def normalCandidates : List Path :=
  [⟨"/lib/Index.d.ts"⟩, ⟨"/lib/./notes.md"⟩, ⟨"/LIB/index.d.ts"⟩, ⟨"/lib/extra.d.mts"⟩]

theorem keepsRoots_listing (version : String) : KeepsRoots (Engine.listing version) := by
  intro inputs options host made h
  cases h
  rfl

/-- A project with one declaration file. -/
def declaredTree : FileTree :=
  FileTree.empty.withFile ["p".toList, "lib".toList, "index.d.ts".toList] (.text "")

/-- Settings whose compiler configuration lists a file, beside the entry point. -/
def listedInput (file : String) : PrepareInput where
  document := .object
    [("projectFolder", .string "/p"),
      ("mainEntryPointFilePath", .string "<projectFolder>/lib/index.d.ts"),
      ("compiler", .object
        [("overrideTsconfig", .object [("files", .array [.string file])])])]
  documentPath := none
  manifestPath := none
  manifest := none
  lookupFolder := none
  ignoreMissingEntryPoint := false
  docComments := none

/-- The candidates where the compiler configuration lists the entry point in other letters. -/
def listedCandidates : List Path :=
  [⟨"/p/LIB/index.d.ts"⟩, ⟨"/p/lib/index.d.ts"⟩]

theorem filesApart_normalCandidates :
    ((∀ p ∈ normalCandidates, p.isAbsolute = true) ∧
      ∃ inputs, collectInputs normalCandidates = .ok inputs ∧
        inputs = [⟨"/lib/Index.d.ts"⟩, ⟨"/lib/extra.d.mts"⟩] ∧ FilesApart inputs) ∧
    ∃ s made, Settings.prepare declaredTree (listedInput "LIB/index.d.ts") = .ok s ∧
      program declaredTree (.listing "5.4") s [] none = .ok made ∧
      made.rootFiles = [⟨"/p/LIB/index.d.ts"⟩] ∧ FilesApart made.rootFiles := by
  constructor
  · have habsolute : ∀ p ∈ normalCandidates, p.isAbsolute = true := by decide
    have hnormal : ∀ p ∈ normalCandidates, p.isDeclarationFile = true → p.normalize = p := by
      decide +kernel
    obtain ⟨hcollects, hnormals, -⟩ := filesApart_iff normalCandidates
    obtain ⟨inputs, hinputs, hiff⟩ := hcollects habsolute
    have hcollected : collectInputs normalCandidates =
        .ok [⟨"/lib/Index.d.ts"⟩, ⟨"/lib/extra.d.mts"⟩] := eq_ok_of_toOption (by decide +kernel)
    exact ⟨habsolute, inputs, hinputs, Except.ok.inj (hinputs.symm.trans hcollected),
      hiff.mpr (hnormals fun p hp hd =>
        Path.isNormal_of_normalize_eq (habsolute p hp) (hnormal p hp hd))⟩
  · obtain ⟨s, hs, hparts⟩ :
        ∃ s, Settings.prepare declaredTree (listedInput "LIB/index.d.ts") = .ok s ∧
          ((s.compilerConfig declaredTree).toOption.map fun config =>
              ((Engine.listing "5.4").parseConfig config.1 config.2).files ++
                s.entryPoints.map (·.filePath) ++ [],
            (program declaredTree (.listing "5.4") s [] none).toOption.map (·.rootFiles)) =
          (some listedCandidates, some [⟨"/p/LIB/index.d.ts"⟩]) :=
      exists_ok_of_map (by decide +kernel)
    obtain ⟨hcandidates, hroots⟩ := Prod.mk.inj hparts
    obtain ⟨made, hmade, hroots⟩ := exists_ok_of_map hroots
    have hnormal : ∀ p ∈ listedCandidates, p.isAbsolute = true ∧ p.normalize = p := by
      decide +kernel
    obtain ⟨-, hnormals, hprograms⟩ := filesApart_iff listedCandidates
    obtain ⟨config, folder, hconfig, hiff⟩ :=
      hprograms declaredTree _ s [] none made (keepsRoots_listing _) hmade
    rw [hconfig] at hcandidates
    have hlisted : ((Engine.listing "5.4").parseConfig config folder).files ++
        s.entryPoints.map (·.filePath) ++ [] = listedCandidates := Option.some.inj hcandidates
    refine ⟨s, made, hs, hmade, hroots, hiff.mpr (hlisted ▸ hnormals fun p hp _ => ?_)⟩
    exact Path.isNormal_of_normalize_eq (hnormal p hp).1 (hnormal p hp).2

/-- A dot between two slashes makes two inputs of one file, and so it does where the compiler
configuration lists the entry point with a dot. -/
theorem not_filesApart_dot :
    (¬ ∀ candidates inputs, (∀ p ∈ candidates, p.isAbsolute = true) →
        collectInputs candidates = .ok inputs → FilesApart inputs) ∧
    ¬ ∀ t input s made, Settings.prepare t input = .ok s →
        program t (.listing "5.4") s [] none = .ok made → FilesApart made.rootFiles := by
  constructor
  · intro hall
    have hapart := hall [⟨"/a/b.d.ts"⟩, ⟨"/a/./b.d.ts"⟩] [⟨"/a/b.d.ts"⟩, ⟨"/a/./b.d.ts"⟩]
      (by decide) (eq_ok_of_toOption (by decide +kernel))
    exact (List.pairwise_cons.mp hapart).1 _ List.mem_cons_self (by decide +kernel)
  · intro hall
    obtain ⟨s, hs, hroots⟩ :
        ∃ s, Settings.prepare declaredTree (listedInput "./lib/index.d.ts") = .ok s ∧
          (program declaredTree (.listing "5.4") s [] none).toOption.map (·.rootFiles) =
            some [⟨"/p/./lib/index.d.ts"⟩, ⟨"/p/lib/index.d.ts"⟩] :=
      exists_ok_of_map (by decide +kernel)
    obtain ⟨made, hmade, hroots⟩ := exists_ok_of_map hroots
    have hapart := hall _ _ s made hs hmade
    rw [hroots] at hapart
    exact (List.pairwise_cons.mp hapart).1 _ List.mem_cons_self (by decide +kernel)

end ApiReview.Analysis
