import ApiReview.Analysis.Host
import ApiReview.Proofs.Files.Spelling
import ApiReview.Proofs.Path.Extension

/-!
# Hidden source files

The host of an analysis remembers which declaration files exist. A run of queries on it is told
here without the memory: each answer is what the host behind says of that one path (`Host.tells`),
and the host behind is asked for a declaration file at the first query that it could hide, and
never again (`Host.shadowing_run`). The memory does not tell the spellings of one path apart, and so
the host behind must not either (`Host.AgreesOn`).

What carries the run is that the memory holds, for each declaration file met so far and for no
other path, what the host behind says of it (`Host.Remembers`).
-/

namespace ApiReview

open Text

/-! ## Declaration files that belong to source files -/

namespace Path

theorem isDeclarationFile_of_append {p : Path} {front : List Char}
    (h : p.text.toList = front ++ ".d.ts".toList) : p.isDeclarationFile = true := by
  have hsuffix : (lowerAscii p.text.toList).reverse =
      ".d.ts".toList.reverse ++ (lowerAscii front).reverse := by
    rw [h, lowerAscii, List.map_append, List.reverse_append]
    rfl
  rw [isDeclarationFile, List.any_eq_true]
  refine ⟨".d.ts", List.mem_cons_self, ?_⟩
  rw [List.isPrefixOf_iff_prefix, hsuffix]
  exact List.prefix_append _ _

theorem endsLoud_of_splitOn {p : Path} {front : List (List Char)} {last : List Char}
    (h : splitOn '/' p.text.toList = front ++ [last]) (hloud : isSilent last = false) :
    p.EndsLoud := by
  obtain ⟨before, before', pieces, hsplit, hpieces, -, hsilent⟩ := split_eq_append p.text.toList
  rw [hpieces] at h
  rcases List.eq_nil_or_concat pieces with rfl | ⟨pieces, other, rfl⟩
  · rw [List.append_nil] at h
    rw [hsilent last (h ▸ List.mem_concat_self)] at hloud
    cases hloud
  · rw [List.concat_eq_append] at h hsplit
    rw [← List.append_assoc] at h hsplit
    obtain rfl := List.singleton_inj.mp (List.append_inj' h rfl).2
    exact ⟨_, _, hsplit, hloud⟩

theorem endsLoud_of_append {p : Path} {front : List Char}
    (h : p.text.toList = front ++ ".d.ts".toList) : p.EndsLoud := by
  have hpiece : '/' ∉ ".d.ts".toList := by decide
  obtain ⟨before, last, -, hsplit⟩ := splitOn_append_of_not_mem hpiece front
  refine endsLoud_of_splitOn (h ▸ hsplit) ?_
  rcases last with _ | ⟨c, _ | ⟨c', last⟩⟩ <;> simp [isSilent]

theorem same_trans {p q r : Path} (h : p.same q = true) (h' : q.same r = true) :
    p.same r = true := by
  simp only [same, decide_eq_true_iff] at h h' ⊢
  rw [h, h']

end Path

namespace Host

/-- What belongs to a source file ends as a declaration file does, or it ends in a step up: then the
source file's name is two dots and the extension. -/
theorem siblingDeclaration_cases {p d : Path} (h : siblingDeclaration p = some d) :
    (∃ front, d.text.toList = front ++ ".d.ts".toList) ∨
      p.EndsInDots ∧ d.lastPiece? = none ∧
        ∃ front, splitOn '/' d.text.toList = front ++ [['.', '.']] := by
  rw [siblingDeclaration] at h
  split at h
  · cases h
  · split at h
    · rename_i ext hext
      split at h
      · rw [← Option.some.inj h]
        exact Path.withExtension_cases hext "d.ts"
      · cases h
    · cases h

theorem endsLoud_of_siblingDeclaration {p d : Path} (h : siblingDeclaration p = some d) :
    d.EndsLoud := by
  rcases siblingDeclaration_cases h with ⟨front, hfront⟩ | ⟨-, -, front, hfront⟩
  · exact Path.endsLoud_of_append hfront
  · exact Path.endsLoud_of_splitOn hfront rfl

/-- What belongs to a source file is a declaration file, unless the source file's name is two dots
and the extension. -/
theorem isDeclarationFile_of_siblingDeclaration {p d : Path} (h : siblingDeclaration p = some d)
    (hp : ¬ p.EndsInDots) : d.isDeclarationFile = true := by
  rcases siblingDeclaration_cases h with ⟨front, hfront⟩ | ⟨hdots, -⟩
  · exact Path.isDeclarationFile_of_append hfront
  · exact absurd hdots hp

/-- What hides is itself never hidden. -/
theorem siblingDeclaration_siblingDeclaration {p d : Path} (h : siblingDeclaration p = some d) :
    siblingDeclaration d = none := by
  rcases siblingDeclaration_cases h with ⟨front, hfront⟩ | ⟨-, hlast, -⟩
  · rw [siblingDeclaration, if_pos (Path.isDeclarationFile_of_append hfront)]
  · rw [siblingDeclaration, Path.extension?, hlast]
    split <;> rfl

/-! ## What a run of queries comes to -/

/-- Whether a file exists, as a host says. -/
def has (host : Host Id) (p : Path) : Bool :=
  host.fileExists p

/-- The host with a record of the paths whose existence it was asked for. -/
def recorded (host : Host Id) : Host (StateM (List Path)) where
  fileExists p := do
    modify (· ++ [p])
    return host.has p
  folderExists p := return host.folderExists p
  fileText p := return host.fileText p
  libraryFolder := host.libraryFolder
  workingFolder := host.workingFolder

/-- Whether a path has a declaration file that exists. -/
def hides (host : Host Id) (p : Path) : Bool :=
  (siblingDeclaration p).any host.has

/-- What the engine is told about a path. -/
def tells (host : Host Id) (p : Path) : Bool :=
  if host.hides p then false else host.has p

/-- What one query asks of the host behind. -/
structure Lookups where
  /-- The declaration file whose existence is remembered from now on. -/
  declaration : Option Path
  itself : Option Path

/-- The paths that are asked for, in order. -/
def Lookups.paths (l : Lookups) : List Path :=
  l.declaration.toList ++ l.itself.toList

/-- Whether the declaration file of some earlier query is the same. -/
def metIn (before : List Path) (d : Path) : Bool :=
  before.any fun q => (siblingDeclaration q).any fun e => e.same d

/-- What a query asks of the host behind, with the queries before it. -/
def lookups (host : Host Id) (before : List Path) (p : Path) : Lookups where
  declaration := (siblingDeclaration p).filter fun d => !metIn before d
  itself := if host.hides p then none else some p

/-- What each of some queries asks of the host behind, with the queries before them. -/
def lookupsOf (host : Host Id) (before : List Path) : List Path → List Lookups
  | [] => []
  | p :: queries => host.lookups before p :: lookupsOf host (before ++ [p]) queries

/-- Whether the host says the same of two declaration files of queries if they are the same. -/
def AgreesOn (host : Host Id) (queries : List Path) : Prop :=
  ∀ p ∈ queries, ∀ q ∈ queries, ∀ d ∈ siblingDeclaration p, ∀ e ∈ siblingDeclaration q,
    e.same d = true → host.has e = host.has d

/-- Whether the memory holds what the host says of the declaration files of queries. -/
structure Remembers (host : Host Id) (before : List Path) (cache : DeclarationCache) : Prop where
  answers : ∀ entry ∈ cache, entry.2 = host.has entry.1
  met : ∀ entry ∈ cache, ∃ q ∈ before, entry.1 ∈ siblingDeclaration q
  holds : ∀ q ∈ before, ∀ d ∈ siblingDeclaration q, ∃ entry ∈ cache, entry.1.same d = true

variable {host : Host Id} {before : List Path} {cache : DeclarationCache}

theorem remembers_nil (host : Host Id) : host.Remembers [] [] :=
  ⟨fun _ h => absurd h List.not_mem_nil, fun _ h => absurd h List.not_mem_nil,
    fun _ h => absurd h List.not_mem_nil⟩

/-! ## One query -/

theorem metIn_iff {d : Path} :
    metIn before d = true ↔ ∃ q ∈ before, ∃ e ∈ siblingDeclaration q, e.same d = true := by
  simp only [metIn, List.any_eq_true, Option.any_eq_true, Option.mem_def]

/-- A declaration file that an earlier query met is remembered with what the host says of it. -/
theorem Remembers.remembered?_of_met (h : host.Remembers before cache) {p d : Path}
    (ha : host.AgreesOn (before ++ [p])) (hd : d ∈ siblingDeclaration p)
    (hm : metIn before d = true) : remembered? cache d = some (host.has d) := by
  obtain ⟨q, hq, e, he, hsame⟩ := metIn_iff.mp hm
  obtain ⟨entry, hentry, hkey⟩ := h.holds q hq e he
  have hfound : (cache.find? fun entry => entry.1.same d).isSome = true :=
    List.find?_isSome.mpr ⟨entry, hentry, Path.same_trans hkey hsame⟩
  obtain ⟨found, hfind⟩ := Option.isSome_iff_exists.mp hfound
  have hmem := List.mem_of_find?_eq_some hfind
  have hlike := List.find?_some hfind
  obtain ⟨q', hq', hd'⟩ := h.met found hmem
  have hsays : host.has found.1 = host.has d :=
    ha p (List.mem_append_right _ List.mem_cons_self) q' (List.mem_append_left _ hq') d hd
      found.1 hd' hlike
  rw [remembered?, hfind, Option.map_some, h.answers found hmem, hsays]

theorem Remembers.remembered?_of_not_met (h : host.Remembers before cache) {d : Path}
    (hm : metIn before d = false) : remembered? cache d = none := by
  rw [remembered?, Option.map_eq_none_iff, List.find?_eq_none]
  intro entry hentry hsame
  obtain ⟨q, hq, hd⟩ := h.met entry hentry
  rw [metIn_iff.mpr ⟨q, hq, entry.1, hd, hsame⟩] at hm
  cases hm

/-- A query that meets no declaration file, or one that is remembered, changes no memory. -/
theorem Remembers.concat_of_met (h : host.Remembers before cache) {p : Path}
    (hm : ∀ d ∈ siblingDeclaration p, metIn before d = true) :
    host.Remembers (before ++ [p]) cache where
  answers := h.answers
  met entry hentry := by
    obtain ⟨q, hq, hd⟩ := h.met entry hentry
    exact ⟨q, List.mem_append_left _ hq, hd⟩
  holds q hq d hd := by
    rcases List.mem_append.mp hq with hq | hq
    · exact h.holds q hq d hd
    · rw [List.mem_singleton.mp hq] at hd
      obtain ⟨q', hq', e, he, hsame⟩ := metIn_iff.mp (hm d hd)
      obtain ⟨entry, hentry, hkey⟩ := h.holds q' hq' e he
      exact ⟨entry, hentry, Path.same_trans hkey hsame⟩

/-- A query that meets a new declaration file adds what the host says of it to the memory. -/
theorem Remembers.concat_of_new (h : host.Remembers before cache) {p d : Path}
    (hd : siblingDeclaration p = some d) :
    host.Remembers (before ++ [p]) (cache ++ [(d, host.has d)]) where
  answers entry hentry := by
    rcases List.mem_append.mp hentry with hentry | hentry
    · exact h.answers entry hentry
    · rw [List.mem_singleton.mp hentry]
  met entry hentry := by
    rcases List.mem_append.mp hentry with hentry | hentry
    · obtain ⟨q, hq, he⟩ := h.met entry hentry
      exact ⟨q, List.mem_append_left _ hq, he⟩
    · rw [List.mem_singleton.mp hentry]
      exact ⟨p, List.mem_append_right _ List.mem_cons_self, hd⟩
  holds q hq e he := by
    rcases List.mem_append.mp hq with hq | hq
    · obtain ⟨entry, hentry, hkey⟩ := h.holds q hq e he
      exact ⟨entry, List.mem_append_left _ hentry, hkey⟩
    · rw [List.mem_singleton.mp hq, hd] at he
      cases he
      exact ⟨(d, host.has d), List.mem_append_right _ List.mem_cons_self,
        decide_eq_true rfl⟩

/-- A query with its memory and its record. -/
def query (host : Host Id) (p : Path) (cache : DeclarationCache) (log : List Path) :
    (Bool × DeclarationCache) × List Path :=
  ((host.recorded.isVisible p).run cache).run log

theorem query_of_none {p : Path} (hp : siblingDeclaration p = none) (log : List Path) :
    host.query p cache log = ((host.has p, cache), log ++ [p]) := by
  simp only [query, isVisible, hp]
  rfl

theorem query_of_some {p d : Path} (hp : siblingDeclaration p = some d) (log : List Path) :
    host.query p cache log =
      match remembered? cache d with
      | some answer =>
        if answer then ((false, cache), log) else ((host.has p, cache), log ++ [p])
      | none =>
        if host.has d then ((false, cache ++ [(d, host.has d)]), log ++ [d])
        else
          ((host.has p, cache ++ [(d, host.has d)]), log ++ [d] ++ [p]) := by
  simp only [query, isVisible, hp, declarationExists, StateT.run_bind, StateT.run_get, pure_bind]
  cases remembered? cache d with
  | some answer => cases answer <;> rfl
  | none =>
    -- The declaration file is looked up and remembered, and its answer decides.
    show StateT.run (StateT.run (if host.has d then pure false else host.recorded.fileExists p :
      StateT DeclarationCache (StateM (List Path)) Bool) (cache ++ [(d, host.has d)]))
        (log ++ [d]) = _
    cases host.has d <;> rfl

theorem lookups_of_none (host : Host Id) (before : List Path) {p : Path}
    (hp : siblingDeclaration p = none) :
    (host.lookups before p).paths = [p] ∧ host.tells p = host.has p := by
  have hh : host.hides p = false := by rw [hides, hp, Option.any_none]
  constructor
  · rw [Lookups.paths, lookups, hp, hh]
    rfl
  · rw [tells, hh]
    rfl

theorem lookups_of_some (host : Host Id) (before : List Path) {p d : Path}
    (hp : siblingDeclaration p = some d) :
    (host.lookups before p).paths =
        (if metIn before d then [] else [d]) ++ (if host.has d then [] else [p]) ∧
      host.tells p = if host.has d then false else host.has p := by
  have hh : host.hides p = host.has d := by rw [hides, hp, Option.any_some]
  constructor
  · rw [Lookups.paths, lookups, hp, hh]
    cases hm : metIn before d <;> cases hd : host.has d <;> simp [Option.filter, hm]
  · rw [tells, hh]

/-- One query is answered for its path alone, and the memory goes on to hold what it met. -/
theorem Remembers.query (h : host.Remembers before cache) {p : Path}
    (ha : host.AgreesOn (before ++ [p])) (log : List Path) :
    ∃ cache', host.query p cache log =
        ((host.tells p, cache'), log ++ (host.lookups before p).paths) ∧
      host.Remembers (before ++ [p]) cache' := by
  cases hp : siblingDeclaration p with
  | none =>
    obtain ⟨hpaths, htells⟩ := lookups_of_none host before hp
    refine ⟨cache, ?_, h.concat_of_met fun d hd => ?_⟩
    · rw [query_of_none hp, hpaths, htells]
    · rw [hp] at hd
      cases hd
  | some d =>
    obtain ⟨hpaths, htells⟩ := lookups_of_some host before hp
    rw [query_of_some hp, hpaths, htells]
    cases hm : metIn before d with
    | true =>
      refine ⟨cache, ?_, h.concat_of_met fun e he => ?_⟩
      · rw [h.remembered?_of_met ha hp hm]
        cases host.has d <;> simp
      · rw [hp] at he
        cases he
        exact hm
    | false =>
      refine ⟨cache ++ [(d, host.has d)], ?_, h.concat_of_new hp⟩
      rw [h.remembered?_of_not_met hm]
      cases host.has d <;> simp

/-! ## A run of queries -/

/-- A run of queries with its memory and its record. -/
def queryAll (host : Host Id) (queries : List Path) (cache : DeclarationCache) (log : List Path) :
    (List Bool × DeclarationCache) × List Path :=
  ((queries.mapM host.recorded.isVisible).run cache).run log

theorem queryAll_cons {p : Path} {queries : List Path} {log log' : List Path} {answer : Bool}
    {cache' : DeclarationCache} (h : host.query p cache log = ((answer, cache'), log')) :
    host.queryAll (p :: queries) cache log =
      ((answer :: (host.queryAll queries cache' log').1.1, (host.queryAll queries cache' log').1.2),
        (host.queryAll queries cache' log').2) := by
  rw [queryAll, List.mapM_cons, StateT.run_bind, StateT.run_bind]
  rw [query] at h
  rw [h]
  rfl

/-- Every query of a run is answered for its path alone. -/
theorem Remembers.queryAll (h : host.Remembers before cache) (queries : List Path)
    (ha : host.AgreesOn (before ++ queries)) (log : List Path) :
    ∃ cache', host.queryAll queries cache log =
        ((queries.map host.tells, cache'),
          log ++ (host.lookupsOf before queries).flatMap Lookups.paths) ∧
      host.Remembers (before ++ queries) cache' := by
  induction queries generalizing before cache log with
  | nil =>
    rw [List.append_nil] at ha ⊢
    exact ⟨cache, by rw [lookupsOf, List.flatMap_nil, List.append_nil]; rfl, h⟩
  | cons p queries ih =>
    have hall : before ++ p :: queries = before ++ [p] ++ queries := by
      rw [List.append_assoc, List.singleton_append]
    rw [hall] at ha ⊢
    have hp : host.AgreesOn (before ++ [p]) := fun q hq q' hq' =>
      ha q (List.mem_append_left _ hq) q' (List.mem_append_left _ hq')
    obtain ⟨cache', hquery, hnext⟩ := h.query hp log
    obtain ⟨cache'', hrest, hlast⟩ := ih hnext ha (log ++ (host.lookups before p).paths)
    refine ⟨cache'', ?_, hlast⟩
    rw [queryAll_cons hquery, hrest, List.map_cons, lookupsOf, List.flatMap_cons,
      List.append_assoc]

/-- A declaration file that is looked up is the same as none that an earlier query met. -/
theorem not_metIn_of_mem_lookupsOf {queries : List Path} {l : Lookups} {d : Path}
    (hl : l ∈ host.lookupsOf before queries) (hd : l.declaration = some d) :
    metIn before d = false := by
  induction queries generalizing before with
  | nil => cases hl
  | cons p queries ih =>
    rcases List.mem_cons.mp hl with rfl | hl
    · have hnew := (Option.filter_eq_some_iff.mp hd).2
      rwa [Bool.not_eq_true'] at hnew
    · have hlater := ih hl
      rw [metIn, List.any_append, Bool.or_eq_false_iff] at hlater
      exact hlater.1

/-- No two of the declaration files that are looked up for the memory are the same. -/
theorem pairwise_declarations (host : Host Id) (before queries : List Path) :
    ((host.lookupsOf before queries).filterMap Lookups.declaration).Pairwise
      fun d e => d.same e = false := by
  induction queries generalizing before with
  | nil => exact .nil
  | cons p queries ih =>
    rw [lookupsOf, List.filterMap_cons]
    cases hd : (host.lookups before p).declaration with
    | none => exact ih _
    | some d =>
      refine List.pairwise_cons.mpr ⟨fun e he => ?_, ih _⟩
      obtain ⟨l, hl, hle⟩ := List.mem_filterMap.mp he
      have hsibling := (Option.filter_eq_some_iff.mp hd).1
      have hnew := not_metIn_of_mem_lookupsOf hl hle
      rw [← Bool.not_eq_true, metIn_iff] at hnew
      rw [← Bool.not_eq_true]
      exact fun hsame => hnew ⟨p, List.mem_append_right _ List.mem_cons_self, d, hsibling, hsame⟩

/-- A run of queries on the host of an analysis, where the host behind says the same of declaration
files that are the same: each answer is the one for its path alone, and the declaration files that
are looked up for the memory are all different. What belongs to a source file has no declaration file
of its own. It is a declaration file itself, unless the source file ends in two dots and the
extension. -/
theorem shadowing_run (host : Host Id) (compilerFolder : Option Path) (queries : List Path)
    (ha : host.AgreesOn queries) :
    (∃ cache,
      ((queries.mapM (host.recorded.shadowing compilerFolder).fileExists).run []).run [] =
        ((queries.map host.tells, cache),
          (host.lookupsOf [] queries).flatMap Lookups.paths)) ∧
    ((host.lookupsOf [] queries).filterMap Lookups.declaration).Pairwise
      (fun d e => d.same e = false) ∧
    ∀ p d, siblingDeclaration p = some d →
      (¬ p.EndsInDots → d.isDeclarationFile = true) ∧ siblingDeclaration d = none := by
  obtain ⟨cache, hrun, -⟩ := (remembers_nil host).queryAll queries ha []
  exact ⟨⟨cache, hrun⟩, pairwise_declarations host [] queries, fun _ _ h =>
    ⟨isDeclarationFile_of_siblingDeclaration h, siblingDeclaration_siblingDeclaration h⟩⟩

/-- The host of a tree says the same of declaration files that are the same, as long as their paths
are short enough to be looked up. -/
theorem agreesOn_ofTree (t : FileTree) (workingFolder libraryFolder : Path) {queries : List Path}
    (hs : ∀ p ∈ queries, ∀ d ∈ siblingDeclaration p,
      d.text.utf8ByteSize ≤ FileTree.maxPathBytes) :
    (ofTree t workingFolder libraryFolder).AgreesOn queries := by
  intro p hp q hq d hd e he hsame
  exact t.isFile_congr hsame (endsLoud_of_siblingDeclaration he) (endsLoud_of_siblingDeclaration hd)
    (hs q hq e he) (hs p hp d hd)

/-- Sources of one declaration file, spelled in several ways, and one without. -/
def shadowedQueries : List Path :=
  [⟨"/lib/a.ts"⟩, ⟨"/lib/./a.JSX"⟩, ⟨"/lib/a.d.ts"⟩, ⟨"/lib/b.tsx"⟩, ⟨"/lib//b.js"⟩]

/-- A folder with a declaration file, its source and a source without a declaration file. -/
def shadowedHost : Host Id :=
  ofTree
    ⟨[(["lib".toList], .folder), (["lib".toList, "a.ts".toList], .file (.text "")),
      (["lib".toList, "a.d.ts".toList], .file (.text "")),
      (["lib".toList, "b.tsx".toList], .file (.text ""))], []⟩
    ⟨"/"⟩ ⟨"/engine/lib"⟩

theorem shadowing_run_shadowed :
    shadowedHost.AgreesOn shadowedQueries ∧
    shadowedQueries.map shadowedHost.tells = [false, false, true, true, false] ∧
    (∃ cache,
      ((shadowedQueries.mapM (shadowedHost.recorded.shadowing none).fileExists).run []).run [] =
        ((shadowedQueries.map shadowedHost.tells, cache),
          (shadowedHost.lookupsOf [] shadowedQueries).flatMap Lookups.paths)) ∧
    (shadowedHost.lookupsOf [] shadowedQueries).filterMap Lookups.declaration =
      [⟨"/lib/a.d.ts"⟩, ⟨"/lib/b.d.ts"⟩] := by
  have ha : shadowedHost.AgreesOn shadowedQueries :=
    agreesOn_ofTree _ _ _ (by decide +kernel)
  exact ⟨ha, by decide +kernel, (shadowing_run shadowedHost none shadowedQueries ha).1,
    by decide +kernel⟩

/-- A host that tells a declaration file from its other spelling. -/
def spellingHost : Host Id where
  fileExists p := decide (p ∈ [(⟨"/lib/a.d.ts"⟩ : Path), ⟨"/lib//a.ts"⟩])
  folderExists _ := false
  fileText _ := none
  libraryFolder := ⟨"/engine/lib"⟩
  workingFolder := ⟨"/"⟩

/-- On such a host the first spelling decides for the second. And what belongs to a source file is
no declaration file if the source file ends in two dots and the extension. -/
theorem not_tells_other_spelling :
    ((([⟨"/lib/a.ts"⟩, ⟨"/lib//a.ts"⟩].mapM
        (spellingHost.recorded.shadowing none).fileExists).run []).run []).1.1 ≠
      [⟨"/lib/a.ts"⟩, ⟨"/lib//a.ts"⟩].map spellingHost.tells ∧
    ∃ d, siblingDeclaration ⟨"/repo/..ts"⟩ = some d ∧ d.isDeclarationFile = false := by
  have hanswers : ((([⟨"/lib/a.ts"⟩, ⟨"/lib//a.ts"⟩].mapM
      (spellingHost.recorded.shadowing none).fileExists).run []).run []).1.1 = [false, false] := by
    decide +kernel
  have htells : [⟨"/lib/a.ts"⟩, ⟨"/lib//a.ts"⟩].map spellingHost.tells = [false, true] := by
    decide +kernel
  rw [hanswers, htells]
  exact ⟨by decide, ⟨"/repo/.."⟩, by decide +kernel, by decide +kernel⟩

end Host

end ApiReview
