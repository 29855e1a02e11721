import ApiReview.Proofs.Json.Blame

/-!
# Where a text that is not JSON goes wrong

Between two characters the reader stands behind all that it has read, its open containers stand
where their brackets are, and what it keeps holds located errors only (`Mode.Located`). Each step
keeps this (`located_step`), so does a whole run (`located_run`), and every error of `parse` is
located in the text (`locatedIn_parse`).
-/

namespace ApiReview.Json

open Text

variable {s read rest : List Char} {c : Char}

/-! ## Strings -/

/-- What a string keeps: a located first fault, bytes of an escape still to come, and the object
that it is a key of. -/
structure StringState.Located (s : List Char) (st : StringState) : Prop where
  soft : ∀ e, st.soft = some e → LocatedIn s e
  left : ∀ n code high, st.escape = .hex n code high → 0 < n
  key : ∀ before members, st.key = some (before, members) →
    OpensAt s before ∧ MembersLocated s members

/-- A step of a string leaves a located state or ends in a located error. -/
def StringStep.Located (s : List Char) : StringStep → Prop
  | .more st | .done st => st.Located s
  | .bad fault => LocatedIn s fault.read

namespace StringState

variable {st : StringState}

theorem Located.withEscape (h : st.Located s) {escape : EscapeState}
    (he : ∀ n code high, escape = .hex n code high → 0 < n) :
    StringState.Located s { st with escape } :=
  ⟨h.soft, he, h.key⟩

theorem Located.add (h : st.Located s) (c : Char) : (st.add c).Located s :=
  ⟨h.soft, nofun, h.key⟩

theorem Located.mind (h : st.Located s) {e : SyntaxError} {p : Position}
    (he : LocatedIn s ⟨e, p⟩) : (st.mind e p).Located s := by
  refine ⟨fun e' h' => ?_, h.left, h.key⟩
  rw [StringState.mind] at h'
  cases hs : st.soft with
  | none =>
    rw [hs] at h'
    cases h'
    exact he
  | some soft =>
    rw [hs] at h'
    cases h'
    exact h.soft _ hs

theorem Located.fault (h : st.Located s) {e : SyntaxError} {p p' : Position}
    (he : LocatedIn s ⟨e, p⟩) : LocatedIn s (st.fault e p p').read := by
  cases hs : st.soft with
  | none => simpa only [StringState.fault, hs, Option.getD_none] using he
  | some soft => simpa only [StringState.fault, hs, Option.getD_some] using h.soft _ hs

theorem Located.content (h : st.Located s) : FailsLocated s st.content := by
  unfold StringState.content
  split
  next e he => exact failsLocated_error (h.soft e he)
  next => exact failsLocated_ok _

theorem Located.addCode (h : st.Located s) (code : Nat) (high : Option Nat) {p : Position}
    (he : LocatedIn s ⟨.loneSurrogate, p⟩) : (st.addCode code high p).Located s := by
  have lone : StringState.Located s { st.mind .loneSurrogate p with escape := .none } :=
    (h.mind he).withEscape nofun
  unfold StringState.addCode
  simp only
  split
  · split
    · exact h.add _
    · exact lone
  · split
    · exact lone
    · split
      · exact h.withEscape nofun
      · exact h.add _

theorem Located.plainStep (h : st.Located s) (hs : s = read ++ c :: rest) :
    (st.plainStep (placeBehind (bytes read)) c).Located s := by
  unfold StringState.plainStep
  split
  · exact h
  · split
    · exact h.withEscape nofun
    · split
      next hc => exact h.fault (locatedIn_pointAt hs hc)
      next => exact h.add c

theorem Located.escapeStep (h : st.Located s) (hs : s = read ++ c :: rest) :
    (st.escapeStep (placeBehind (bytes read)) c).Located s := by
  unfold StringState.escapeStep
  split
  · exact h.withEscape fun n code high he => by cases he; exact Nat.succ_pos 3
  · split
    · exact h.add _
    · exact h.fault (locatedIn_pointAt hs trivial)

theorem Located.hexStep (h : st.Located s) (hs : s = read ++ c :: rest) {left : Nat}
    (hl : 0 < left) (code high : Option Nat) :
    (st.hexStep (placeBehind (bytes read)) c left code high).Located s := by
  unfold StringState.hexStep
  simp only
  split
  next hc => exact h.withEscape fun n code' high' he => by cases he; omega
  next hc =>
    have hle := Nat.le_of_not_lt hc
    split
    next n hn =>
      refine h.addCode n high (locatedIn_within hs hl hle ?_)
      obtain ⟨_, -, hn⟩ := Option.bind_eq_some_iff.mp hn
      obtain ⟨d, hd, -⟩ := Option.bind_eq_some_iff.mp hn
      exact Option.isSome_of_mem hd
    next => exact h.fault (locatedIn_within hs hl hle trivial)

theorem Located.step (h : st.Located s) (hs : s = read ++ c :: rest) :
    (st.step (placeBehind (bytes read)) c).Located s := by
  have broken : (st.mind .brokenSurrogatePair ((placeBehind (bytes read)).pointAt c)).Located s :=
    h.mind (locatedIn_pointAt hs trivial)
  unfold StringState.step
  split
  · exact h.plainStep hs
  · exact h.escapeStep hs
  next left code high he => exact h.hexStep hs (h.left left code high he) code high
  · split
    · exact h.withEscape nofun
    · refine Located.plainStep ?_ hs
      exact broken.withEscape nofun
  · split
    · exact h.withEscape fun n code high he => by cases he; exact Nat.succ_pos 3
    · exact broken.escapeStep hs

end StringState

/-! ## Between two characters -/

/-- What the reader keeps is located, when it has read the given part of the text. -/
def Mode.Located (s read : List Char) : Mode → Prop
  | .value | .firstItem | .word _ _ _ => True
  | .nextItem node | .afterItem node | .finished node => node.Located s
  | .firstKey p => OpensAt s p
  | .nextKey p members => OpensAt s p ∧ MembersLocated s members
  | .colon p members name _ => OpensAt s p ∧ MembersLocated s members ∧ FailsLocated s name
  | .afterMember p members key node =>
    OpensAt s p ∧ MembersLocated s members ∧ FailsLocated s key.name ∧ node.Located s
  | .string st => st.Located s
  | .number _ start chars =>
    chars ≠ [] ∧ (∀ c ∈ chars, isNumberChar c = true) ∧
      ∃ before, read = before ++ chars.reverse ∧ start = placeBehind (bytes before)

/-- All open containers are located. -/
def FramesLocated (s : List Char) (frames : List Frame) : Prop :=
  ∀ frame ∈ frames, frame.Located s

/-- A document fails at located errors only, behind its value too. -/
def Document.Located (s : List Char) (d : Document) : Prop :=
  d.root.Located s ∧ FailsLocated s d.finish?

/-- A step goes on with located parts or ends in a located document. -/
def Progress.Located (s read : List Char) : Progress → Prop
  | .next mode frames => mode.Located s read ∧ FramesLocated s frames
  | .stop document => document.Located s

variable {frames : List Frame} {node : Node} {members : List (Key × Node × Position)}
  {p : Position}

theorem framesLocated_cons {frame : Frame} (h : frame.Located s) (hf : FramesLocated s frames) :
    FramesLocated s (frame :: frames) :=
  List.forall_mem_cons.mpr ⟨h, hf⟩

theorem located_colon {name : Except (Placed SyntaxError) String} {after : Position}
    (h : (Mode.colon p members name after).Located s read) (blame : Position) :
    (Frame.object p members ⟨name, after, blame⟩).Located s := h

theorem located_failAt (hf : FramesLocated s frames) {fault : Fault} (h : LocatedIn s fault.read)
    (began : Option Start) : (failAt frames fault began).Located s read :=
  ⟨located_unwind hf (located_broken h began), failsLocated_ok _⟩

theorem located_failInObject (hf : FramesLocated s frames) (hp : OpensAt s p)
    (hm : MembersLocated s members) {fault : Fault} (h : LocatedIn s fault.read) :
    (failInObject frames p members fault).Located s read :=
  ⟨located_unwind hf (located_object hp hm (failsLocated_error h)), failsLocated_ok _⟩

theorem located_failInArray (hf : FramesLocated s frames) (hn : node.Located s)
    (stop : Placed SyntaxError) (fault : Fault) (h : LocatedIn s fault.read) :
    (failInArray frames node stop fault).Located s read := by
  unfold failInArray
  split
  next p items outer =>
    obtain ⟨hframe, hrest⟩ := List.forall_mem_cons.mp hf
    exact ⟨located_unwind hrest (located_array hframe.1 (itemsLocated_cons hn hframe.2)
      (failsLocated_error h)), failsLocated_ok _⟩
  next => exact located_failAt hf h none

theorem located_complete (hf : FramesLocated s frames) (hn : node.Located s) :
    (complete frames node).Located s read := by
  unfold complete
  split
  next => exact ⟨hn, hf⟩
  next => exact ⟨hn, hf⟩
  next =>
    obtain ⟨⟨hp, hm, hk⟩, hrest⟩ := List.forall_mem_cons.mp hf
    exact ⟨⟨hp, hm, hk, hn⟩, hrest⟩

theorem framesLocated_addItem (hf : FramesLocated s frames) (hn : node.Located s)
    (stop : Option (Placed SyntaxError)) : FramesLocated s (addItem frames node stop) := by
  unfold addItem
  split
  next =>
    obtain ⟨⟨hp, hi⟩, hrest⟩ := List.forall_mem_cons.mp hf
    exact framesLocated_cons ⟨hp, itemsLocated_cons hn hi⟩ hrest
  next => exact hf

/-- Where no array is open, the closing bracket is blamed, which no run ever meets. -/
theorem located_closeArray (hf : FramesLocated s frames) (hs : s = read ++ ']' :: rest)
    {read' : List Char} :
    (closeArray frames ((placeBehind (bytes read)).advance ']')).Located s read' := by
  unfold closeArray
  split
  next =>
    obtain ⟨⟨hp, hi⟩, hrest⟩ := List.forall_mem_cons.mp hf
    exact located_complete hrest (located_array hp hi (failsLocated_ok _))
  next =>
    refine located_failAt hf ?_ none
    exact locatedIn_advance hs ⟨rfl, rfl⟩

/-! ## One character -/

theorem located_beginValue (hf : FramesLocated s frames) (hs : s = read ++ c :: rest)
    (hc : isSpace c = false) :
    (beginValue frames (placeBehind (bytes read)) c).Located s (read ++ [c]) := by
  have number (h : isNumberChar c = true) (state : NumberState) :
      (Mode.number state (placeBehind (bytes read)) [c]).Located s (read ++ [c]) :=
    ⟨List.cons_ne_nil _ _, List.forall_mem_singleton.mpr h, read, rfl, rfl⟩
  have opens (h : c = '[' ∨ c = '\x7b') : OpensAt s (placeBehind (bytes read)) :=
    ⟨read, c, rest, hs, h, rfl⟩
  unfold beginValue
  simp only
  split_ifs with h1 h2 h3 h4 h5 h6 h7 h8 h9
  · exact ⟨⟨nofun, nofun, nofun⟩, hf⟩
  · exact ⟨number (by rw [h2]; decide) _, hf⟩
  · exact ⟨number (by rw [h3]; decide) _, hf⟩
  · exact ⟨number (by rw [isNumberChar, h4, Bool.true_or]) _, hf⟩
  · exact ⟨trivial, hf⟩
  · exact ⟨trivial, hf⟩
  · exact ⟨trivial, hf⟩
  · exact ⟨trivial, framesLocated_cons ⟨opens (.inl h8), itemsLocated_nil⟩ hf⟩
  · exact ⟨opens (.inr h9), hf⟩
  · refine located_failAt hf ?_ none
    exact locatedIn_pointAt hs ⟨hc, by simp [beginsValue, *]⟩

theorem located_beginKey (hf : FramesLocated s frames) (hs : s = read ++ c :: rest)
    (hc : isSpace c = false) (hp : OpensAt s p) (hm : MembersLocated s members)
    {read' : List Char} :
    (beginKey p members frames (placeBehind (bytes read)) c).Located s read' := by
  unfold beginKey
  split
  next =>
    refine ⟨⟨nofun, nofun, fun p' members' h => ?_⟩, hf⟩
    cases h
    exact ⟨hp, hm⟩
  next hq =>
    refine located_failInObject hf hp hm ?_
    exact locatedIn_pointAt hs ⟨hc, hq⟩

/-- A character is read in any mode but that of a number. -/
theorem located_stepOther {mode : Mode} (hm : mode.Located s read) (hf : FramesLocated s frames)
    (hs : s = read ++ c :: rest) :
    (stepOther mode frames (placeBehind (bytes read)) c).Located s (read ++ [c]) := by
  have pointed {what : SyntaxError} (h : what.Refuses c) :
      LocatedIn s ⟨what, (placeBehind (bytes read)).pointAt c⟩ := locatedIn_pointAt hs h
  cases mode with
  | value =>
    rw [stepOther]
    split
    next => exact ⟨trivial, hf⟩
    next hc => exact located_beginValue hf hs (Bool.eq_false_iff.mpr hc)
  | firstItem =>
    rw [stepOther]
    split_ifs with hc hb
    · exact ⟨trivial, hf⟩
    · subst hb
      exact located_closeArray hf hs
    · exact located_beginValue hf hs (Bool.eq_false_iff.mpr hc)
  | nextItem previous =>
    rw [stepOther]
    split_ifs with hc hb
    · exact ⟨hm, hf⟩
    · refine located_failInArray hf hm _ _ ?_
      exact pointed (.inl hb)
    · exact located_beginValue (framesLocated_addItem hf hm _) hs (Bool.eq_false_iff.mpr hc)
  | afterItem item =>
    rw [stepOther]
    split_ifs with hc hcomma hb
    · exact ⟨hm, hf⟩
    · exact ⟨hm, hf⟩
    · subst hb
      exact located_closeArray (framesLocated_addItem hf hm none) hs
    · refine located_failInArray hf hm _ _ ?_
      exact pointed ⟨Bool.eq_false_iff.mpr hc, hcomma, hb⟩
  | firstKey p =>
    rw [stepOther]
    split_ifs with hc hb
    · exact ⟨hm, hf⟩
    · exact located_complete hf (located_object hm membersLocated_nil (failsLocated_ok _))
    · exact located_beginKey hf hs (Bool.eq_false_iff.mpr hc) hm membersLocated_nil
  | nextKey p members =>
    rw [stepOther]
    split_ifs with hc hb
    · exact ⟨hm, hf⟩
    · refine located_failInObject hf hm.1 hm.2 ?_
      exact pointed (.inr hb)
    · exact located_beginKey hf hs (Bool.eq_false_iff.mpr hc) hm.1 hm.2
  | colon p members name behind =>
    have hf' (blame : Position) := framesLocated_cons (located_colon hm blame) hf
    rw [stepOther]
    split
    next => exact ⟨hm, hf⟩
    next hc =>
      by_cases hcolon : c = ':'
      · simp only [if_pos hcolon]
        exact ⟨trivial, hf' _⟩
      · simp only [if_neg hcolon]
        refine located_failAt (hf' _) ?_ none
        exact pointed ⟨Bool.eq_false_iff.mpr hc, hcolon⟩
  | afterMember p members key node =>
    obtain ⟨hp, hmem, hk, hn⟩ := hm
    have hmem' := membersLocated_cons hk hn hmem (p := placeBehind (bytes read))
    rw [stepOther]
    split_ifs with hc hcomma hb
    · exact ⟨⟨hp, hmem, hk, hn⟩, hf⟩
    · exact ⟨⟨hp, hmem'⟩, hf⟩
    · exact located_complete hf (located_object hp hmem' (failsLocated_ok _))
    · refine located_failInObject hf hp hmem' ?_
      exact pointed ⟨Bool.eq_false_iff.mpr hc, hcomma, hb⟩
  | string st =>
    have hst := StringState.Located.step hm hs
    rw [stepOther]
    split
    next st' he =>
      rw [he] at hst
      exact ⟨hst, hf⟩
    next st' he =>
      rw [he] at hst
      split
      next => exact located_complete hf fun _ => hst.content.map _
      next p members hk =>
        obtain ⟨hp, hmem⟩ := hst.key p members hk
        exact ⟨⟨hp, hmem, hst.content⟩, hf⟩
    next fault he =>
      rw [he] at hst
      split
      next => exact located_failAt hf hst none
      next p members hk =>
        obtain ⟨hp, hmem⟩ := hm.key p members hk
        exact located_failInObject hf hp hmem hst
  | word word left start =>
    cases left with
    | nil => exact located_complete hf (located_word word _)
    | cons expected left =>
      rw [stepOther]
      split_ifs
      · refine located_failAt hf ?_ _
        exact pointed trivial
      · exact located_complete hf (located_word word _)
      · exact ⟨trivial, hf⟩
  | number state start chars =>
    refine located_failAt hf ?_ _
    exact pointed trivial
  | finished root =>
    rw [stepOther]
    split
    next => exact ⟨hm, hf⟩
    next hc => exact ⟨hm, failsLocated_error (pointed (Bool.eq_false_iff.mpr hc))⟩

/-- What goes on in a number is a character of one. -/
theorem NumberState.isNumberChar_of_step {state next : NumberState}
    (h : state.step c = .more next) : isNumberChar c = true := by
  have hzero : c = '0' → c.isDigit = true := by rintro rfl; rfl
  unfold NumberState.step at h
  grind [isNumberChar]

/-- A character is read in any mode. The one behind a number is read as one behind a value. -/
theorem located_step {mode : Mode} (hm : mode.Located s read) (hf : FramesLocated s frames)
    (hs : s = read ++ c :: rest) :
    (step ⟨mode, frames, placeBehind (bytes read)⟩ c).Located s (read ++ [c]) := by
  cases mode with
  | number state start chars =>
    obtain ⟨hne, hchars, before, rfl, rfl⟩ := hm
    rw [step]
    simp only
    split
    next next he =>
      refine ⟨⟨List.cons_ne_nil _ _, List.forall_mem_cons.mpr
        ⟨NumberState.isNumberChar_of_step he, hchars⟩, before, ?_, rfl⟩, hf⟩
      rw [List.reverse_cons, List.append_assoc]
    next =>
      refine located_failAt hf ?_ _
      exact locatedIn_pointAt hs trivial
    next =>
      have hn := located_numberNode (l := chars.reverse) hs (by simpa using hne)
        fun c hc => hchars c (List.mem_reverse.mp hc)
      have hcomplete : Progress.Located s (before ++ chars.reverse) _ := located_complete hf hn
      split
      next mode' frames' he =>
        rw [he] at hcomplete
        exact located_stepOther hcomplete.1 hcomplete.2 hs
      next document he =>
        rw [he] at hcomplete
        exact hcomplete
  | _ => exact located_stepOther hm hf hs

/-! ## The end of the text -/

theorem located_endOther {mode : Mode} (hm : mode.Located s s) (hf : FramesLocated s frames) :
    (endOther mode frames (placeBehind (bytes s))).Located s := by
  have ended {what : SyntaxError} (h : what.isEnd = true) :
      LocatedIn s ⟨what, placeBehind (bytes s)⟩ := locatedIn_end h
  have stopped {document : Document} (h : (Progress.stop document).Located s s) :
      document.Located s := h
  cases mode with
  | value | word | number => exact stopped (located_failAt hf (ended rfl) _)
  | firstItem =>
    unfold endOther
    simp only
    split
    next =>
      obtain ⟨⟨hp, hi⟩, hrest⟩ := List.forall_mem_cons.mp hf
      exact ⟨located_unwind hrest (located_array hp hi (failsLocated_error (ended rfl))),
        failsLocated_ok _⟩
    next => exact stopped (located_failAt hf (ended rfl) _)
  | nextItem node =>
    have hstop : Progress.Located s s _ := located_failInArray hf hm
      ⟨.trailingCharacters, placeBehind (bytes s)⟩ (.both .endInValue _) (ended rfl)
    rcases frames with _ | ⟨_ | _, _⟩ <;> exact stopped hstop
  | afterItem node =>
    have hstop : Progress.Located s s _ := located_failInArray hf hm
      ⟨.endInArray, placeBehind (bytes s)⟩ (.both .endInArray _) (ended rfl)
    rcases frames with _ | ⟨_ | _, _⟩ <;> exact stopped hstop
  | firstKey p => exact stopped (located_failInObject hf hm membersLocated_nil (ended rfl))
  | nextKey p members => exact stopped (located_failInObject hf hm.1 hm.2 (ended rfl))
  | colon p members name behind =>
    exact stopped (located_failAt (framesLocated_cons (located_colon hm _) hf) (ended rfl) _)
  | afterMember p members key node =>
    obtain ⟨hp, hmem, hk, hn⟩ := hm
    exact stopped (located_failInObject hf hp (membersLocated_cons hk hn hmem) (ended rfl))
  | string st =>
    unfold endOther
    simp only
    split
    next => exact stopped (located_failAt hf (hm.fault (ended rfl)) none)
    next p members hk =>
      obtain ⟨hp, hmem⟩ := hm.key p members hk
      exact stopped (located_failInObject hf hp hmem (hm.fault (ended rfl)))
  | finished root => exact ⟨hm, failsLocated_ok _⟩

theorem located_finish {mode : Mode} (hm : mode.Located s s) (hf : FramesLocated s frames) :
    (finish ⟨mode, frames, placeBehind (bytes s)⟩).Located s := by
  cases mode with
  | number state start chars =>
    obtain ⟨hne, hchars, before, hs, rfl⟩ := hm
    have hs' : s = before ++ chars.reverse ++ [] := by rw [← hs, List.append_nil]
    have hn := located_numberNode hs' (by simpa using hne)
      fun c hc => hchars c (List.mem_reverse.mp hc)
    rw [← hs] at hn
    have hcomplete : Progress.Located s s _ := located_complete hf hn
    rw [finish]
    simp only
    split
    · split
      next mode' frames' he =>
        rw [he] at hcomplete
        exact located_endOther hcomplete.1 hcomplete.2
      next document he =>
        rw [he] at hcomplete
        exact hcomplete
    · have hfail : (failAt frames (.split .endInValue .invalidNumber (placeBehind (bytes s)))
          (some ⟨placeBehind (bytes before), none⟩)).Located s s :=
        located_failAt hf (locatedIn_end rfl) _
      exact hfail
  | _ => exact located_endOther hm hf

/-! ## The whole text -/

/-- From located parts, whatever has been read, the reader comes to a located document. -/
theorem located_run {mode : Mode} (hm : mode.Located s read) (hf : FramesLocated s frames)
    (hs : s = read ++ rest) :
    (run ⟨mode, frames, placeBehind (bytes read)⟩ rest).Located s := by
  induction rest generalizing mode frames read with
  | nil =>
    rw [List.append_nil] at hs
    subst hs
    exact located_finish hm hf
  | cons c rest ih =>
    have hstep := located_step hm hf hs
    rw [run]
    split
    next mode' frames' he =>
      rw [he] at hstep
      have hplace : (placeBehind (bytes read)).advance c = placeBehind (bytes (read ++ [c])) := by
        rw [placeBehind_bytes, placeBehind_bytes, List.foldl_append]
        rfl
      simp only [hplace]
      exact ih hstep.1 hstep.2 (by rw [hs, List.append_assoc]; rfl)
    next document he =>
      rw [he] at hstep
      exact hstep

/-- Every syntax error is met at the end of the text or is about one of its bytes. -/
theorem locatedIn_parse {text : String} {e : Placed SyntaxError} (h : parse text = .error e) :
    LocatedIn text.toList e := by
  obtain ⟨hroot, hfinish⟩ :
      (run ⟨.value, [], placeBehind (bytes [])⟩ text.toList).Located text.toList :=
    located_run (show Mode.Located text.toList [] .value from trivial) nofun rfl
  exact ((hroot depthLimit).bind fun _ => hfinish.bind fun _ => failsLocated_ok _) e h

end ApiReview.Json
