import ApiReview.Proofs.Settings.Reading

/-!
# Values below the project folder

A value that starts with the placeholder of the project folder is read from that folder, whatever
comes behind the placeholder: the package names are put in there and nowhere else, slashes and
backslashes at its start are dropped, and the path that this makes is read once, since reading a
normal path again changes nothing (`resolvePath_projectFolder`). Loading leaves such a value alone.
-/

namespace ApiReview

open Text

namespace Placeholder

theorem hasBracket_append (s s' : List Char) :
    hasBracket (s ++ s') = (hasBracket s || hasBracket s') :=
  List.any_append

theorem hasBracket_join {base p : Path} (hb : hasBracket base.text.toList = false)
    (hp : hasBracket p.text.toList = false) : hasBracket (base.join p).text.toList = false := by
  rw [Path.join]
  split
  · exact hp
  · split
    · rw [String.toList_append, hasBracket_append, hb, hp]
      rfl
    · rw [String.toList_append, String.toList_append, hasBracket_append, hasBracket_append, hb, hp]
      rfl

/-- A normal path has no names but those of the path. -/
theorem hasBracket_normalize {p : Path} (hp : p.isAbsolute = true)
    (h : hasBracket p.text.toList = false) : hasBracket p.normalize.text.toList = false := by
  obtain ⟨s, hs⟩ := Path.isAbsolute_iff.mp hp
  rw [hs, PlaceholderValues.hasBracket_slash_cons, ← joinWith_splitOn '/' s, hasBracket_joinWith,
    List.any_eq_false] at h
  rw [Path.normalize, if_pos hp, Path.toList_fromRoot, PlaceholderValues.hasBracket_slash_cons,
    hasBracket_joinWith, List.any_eq_false]
  intro piece hpiece
  obtain ⟨step, hstep, rfl⟩ := List.mem_map.mp hpiece
  have hname := Path.isName_of_mem_normalSteps hp step hstep
  cases step with
  | name name =>
    obtain ⟨before, behind, he, -⟩ := (Path.name_mem_normalSteps_iff true).mp hstep
    have hmem : .name name ∈ p.steps := he ▸ List.mem_append_right _ List.mem_cons_self
    rw [Path.steps_of_slash hs] at hmem
    rcases List.mem_cons.mp hmem with e | hmem
    · cases e
    · obtain ⟨piece, hpiece, hstep⟩ := List.mem_filterMap.mp hmem
      rcases Path.stepOf?_eq_some hstep with ⟨-, e⟩ | e
      · cases e
      · cases e
        exact h _ hpiece
  | _ => exact absurd hname id

end Placeholder

namespace PlaceholderValues

variable {values : PlaceholderValues} {rest : String}

/-- What stands behind the project folder in a value, with the package names put in. -/
def namedRest (values : PlaceholderValues) (rest : String) : String :=
  values.putNames (String.ofList (trimEnd rest.toList))

/-- A text without the slashes and backslashes at its start, as a path. -/
def withoutSlashes (s : String) : Path :=
  ⟨String.ofList (s.toList.dropWhile fun c => c = '/' || c = '\\')⟩

theorem hasBracket_withoutSlashes {s : String} (h : Placeholder.hasBracket s.toList = false) :
    Placeholder.hasBracket (withoutSlashes s).text.toList = false := by
  rw [withoutSlashes, String.toList_ofList]
  refine List.any_eq_false.mpr fun c hc => List.any_eq_false.mp h c ?_
  exact (List.dropWhile_sublist _).subset hc

/-- No package name is put in for the project folder, or for a part of it. -/
theorem putChars_projectFolder (s : List Char) :
    values.putChars (Placeholder.projectFolder.toList ++ s) =
      Placeholder.projectFolder.toList ++ values.putChars s := by
  -- The one angle bracket that a placeholder could start at is not followed by a package name's.
  have hunscoped : ∀ s, ¬ Placeholder.unscopedPackageName.toList <+:
      Placeholder.projectFolder.toList ++ s := fun s h =>
    absurd (List.cons_prefix_cons.mp (List.cons_prefix_cons.mp h).2).1 (by decide)
  have hpackage : ∀ s, ¬ Placeholder.packageName.toList <+:
      Placeholder.projectFolder.toList ++ s := fun s h =>
    absurd (List.cons_prefix_cons.mp (List.cons_prefix_cons.mp
      (List.cons_prefix_cons.mp h).2).2).1 (by decide)
  have hput : ∀ (new : List Char) {part s : List Char},
      ¬ '<' :: part <+: Placeholder.projectFolder.toList ++ s →
        replaceAll ('<' :: part) new (Placeholder.projectFolder.toList ++ s) =
          Placeholder.projectFolder.toList ++ replaceAll ('<' :: part) new s := by
    intro new part s h
    have hbehind : replaceAll ('<' :: part) new ("projectFolder>".toList ++ s) =
        "projectFolder>".toList ++ replaceAll ('<' :: part) new s :=
      replaceAll_append_of_not_mem (by decide) s
    exact (replaceAll_cons_of_not_start h).trans (congrArg ('<' :: ·) hbehind)
  have hfirst := hput values.unscopedPackageName.toList (hunscoped s)
  have hsecond := hput values.packageName.toList (hpackage (replaceAll
    Placeholder.unscopedPackageName.toList values.unscopedPackageName.toList s))
  exact (congrArg _ hfirst).trans hsecond

theorem named_projectFolder (values : PlaceholderValues) (rest : String) :
    values.named (some (Placeholder.projectFolder ++ rest)) =
      Placeholder.projectFolder ++ values.namedRest rest := by
  have hstarts : StartsFilled (Placeholder.projectFolder.toList ++ rest.toList) := by
    rintro c hc
    cases hc
    decide
  have hends : EndsFilled Placeholder.projectFolder.toList := by decide
  refine String.toList_inj.mp ?_
  rw [toList_named, Option.getD_some, String.toList_append, String.toList_append, trim,
    hstarts.trimStart, hends.trimEnd_append, putChars_projectFolder, namedRest, toList_putNames,
    String.toList_ofList]

theorem below?_projectFolder (s : String) :
    below? (Placeholder.projectFolder ++ s) = some (withoutSlashes s) := by
  rw [below?, stripStart?_eq_some_iff.mpr (String.toList_append ..)]
  rfl

/-- A value that starts with the project folder is read from there, and nothing behind it stands for
another folder; loading does not change it. -/
theorem resolvePath_projectFolder (hf : values.projectFolder.isAbsolute = true)
    (hb : Placeholder.hasBracket values.projectFolder.text.toList = false) (field : String)
    (hr : Placeholder.hasBracket (values.namedRest rest).toList = false) :
    values.resolvePath field (some (Placeholder.projectFolder ++ rest)) =
        .ok (some (values.projectFolder.join
          (withoutSlashes (values.namedRest rest))).normalize) ∧
      (withoutSlashes (values.namedRest rest)).isAbsolute = false ∧
      (values.projectFolder.join (withoutSlashes (values.namedRest rest))).steps =
        values.projectFolder.steps ++
          Path.pieceSteps (withoutSlashes (values.namedRest rest)).text.toList ∧
      ∀ folder, Settings.anchorValue folder (.string (Placeholder.projectFolder ++ rest)) =
        .string (Placeholder.projectFolder ++ rest) := by
  have hnamed := values.named_projectFolder rest
  generalize values.namedRest rest = behind at hr hnamed
  have hbelow : below? (values.named (some (Placeholder.projectFolder ++ rest))) =
      some (withoutSlashes behind) := hnamed ▸ below?_projectFolder behind
  have hrelative := isAbsolute_below? hbelow
  have hjoin := Path.isAbsolute_join hf (p := withoutSlashes behind)
  have hfilled : values.filled (some (Placeholder.projectFolder ++ rest)) =
      (values.projectFolder.join (withoutSlashes behind)).normalize.text :=
    putFolder_of_below? hbelow
  have hbracket : Placeholder.hasBracket
      (values.projectFolder.join (withoutSlashes behind)).normalize.text.toList = false :=
    Placeholder.hasBracket_normalize hjoin
      (Placeholder.hasBracket_join hb (hasBracket_withoutSlashes hr))
  refine ⟨?_, hrelative, Path.steps_join hf hrelative, fun folder => ?_⟩
  · have hexpand : values.expand field (some (Placeholder.projectFolder ++ rest)) =
        .ok (values.projectFolder.join (withoutSlashes behind)).normalize.text := by
      refine eq_ok_of_toOption ?_
      rw [toOption_expand, hfilled, hbracket]
      rfl
    -- What is put in is a normal path from the root: reading it once more changes nothing.
    have habsolute := Path.isAbsolute_normalize hjoin
    have hagain := Path.IsNormal.normalize_eq (Path.normalize_eq_fromRoot hjoin)
    rw [resolvePath, hexpand]
    show Except.ok (if _ then none else some _) = _
    rw [if_neg (Path.text_ne_empty habsolute), Path.resolve_of_isAbsolute habsolute, hagain]
  · have hanchored : Settings.isAnchored (Placeholder.projectFolder ++ rest) = true := by
      have hstarts : startsWith _ (Placeholder.projectFolder ++ rest) = true :=
        startsWith_iff.mpr ⟨rest.toList, (String.toList_append ..).symm⟩
      rw [Settings.isAnchored, hstarts, Bool.or_true, Bool.true_or]
    rw [Settings.anchorValue, Settings.anchorPath, if_pos hanchored]

/-- Neither the slashes nor the package names, one of them with a slash of its own, lead out. -/
theorem resolvePath_projectFolder_rooted :
    let values := PlaceholderValues.ofProject ⟨"/repo/widgets"⟩ (some "@acme/widgets")
    let rest := "/\\//etc/../<unscopedPackageName>/../<packageName>/index.d.ts \t"
    values.resolvePath "mainEntryPointFilePath" (some (Placeholder.projectFolder ++ rest)) =
        .ok (some ⟨"/repo/widgets/@acme/widgets/index.d.ts"⟩) ∧
      ∀ folder, Settings.anchorValue folder (.string (Placeholder.projectFolder ++ rest)) =
        .string (Placeholder.projectFolder ++ rest) := by
  obtain ⟨hpath, -, -, hanchor⟩ := @resolvePath_projectFolder
    (.ofProject ⟨"/repo/widgets"⟩ (some "@acme/widgets"))
    "/\\//etc/../<unscopedPackageName>/../<packageName>/index.d.ts \t"
    (by decide) (by decide) "mainEntryPointFilePath" (by decide +kernel)
  have htext : ((Path.mk "/repo/widgets").join (withoutSlashes
      (namedRest (.ofProject ⟨"/repo/widgets"⟩ (some "@acme/widgets"))
        "/\\//etc/../<unscopedPackageName>/../<packageName>/index.d.ts \t"))).normalize =
      ⟨"/repo/widgets/@acme/widgets/index.d.ts"⟩ := by decide +kernel
  exact ⟨hpath.trans (congrArg (Except.ok ∘ some) htext), hanchor⟩

end PlaceholderValues

end ApiReview
