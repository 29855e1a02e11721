import ApiReview.Json.Reader
import ApiReview.Proofs.Outcome
import ApiReview.Proofs.Text.Position

/-!
# The byte that a syntax error is about

A syntax error is met at the end of the text, or it names the place behind a byte and says what is
wrong with that byte's character (`SyntaxError.Refuses`). An error of one of the two kinds is
`LocatedIn` the text. Reading a tree as a value meets no other errors when its parts hold no others
(`located_array`, `located_object`), also once a fault has cut it short (`located_unwind`).
-/

namespace ApiReview.Json

open Text

/-! ## What an error says of a character -/

/-- Whether the error is met at the end of a text. -/
def SyntaxError.isEnd : SyntaxError → Bool
  | endInValue | endInArray | endInObject | endInString => true
  | _ => false

/-- Whether a value begins with the character. -/
def beginsValue (c : Char) : Bool :=
  c.isDigit || ['"', '-', 't', 'f', 'n', '[', '\x7b'].contains c

/-- Whether the character may stand in a number. -/
def isNumberChar (c : Char) : Bool :=
  c.isDigit || ['-', '+', '.', 'e', 'E'].contains c

/-- What an error says of the character that it is about. Whether a word, a number or an escape is
broken by it depends on what stands before, so that nothing is said of the character alone. -/
def SyntaxError.Refuses (c : Char) : SyntaxError → Prop
  | endInValue | endInArray | endInObject | endInString => False
  | expectedValue => isSpace c = false ∧ beginsValue c = false
  | keyNotString => isSpace c = false ∧ c ≠ '"'
  | trailingComma => c = ']' ∨ c = '\x7d'
  | expectedColon => isSpace c = false ∧ c ≠ ':'
  | expectedItemEnd => isSpace c = false ∧ c ≠ ',' ∧ c ≠ ']'
  | expectedMemberEnd => isSpace c = false ∧ c ≠ ',' ∧ c ≠ '\x7d'
  | trailingCharacters => isSpace c = false
  | numberTooLarge => isNumberChar c = true
  | controlCharacter => c.toNat < 0x20
  | loneSurrogate => (hexDigit? c).isSome = true
  | tooDeep => c = '[' ∨ c = '\x7b'
  | expectedWord | invalidNumber | invalidEscape | brokenSurrogatePair => True

/-- Whether the error may be about white space, which is not skipped inside a string, a word or a
number. -/
def SyntaxError.mayRefuseSpace : SyntaxError → Bool
  | controlCharacter | invalidEscape | brokenSurrogatePair | expectedWord | invalidNumber => true
  | _ => false

theorem SyntaxError.Refuses.not_isSpace {what : SyntaxError} {c : Char} (h : what.Refuses c)
    (hw : what.mayRefuseSpace = false) : isSpace c = false := by
  cases what with
  | endInValue | endInArray | endInObject | endInString => exact h.elim
  | expectedValue | keyNotString | expectedColon | expectedItemEnd | expectedMemberEnd => exact h.1
  | trailingCharacters => exact h
  | trailingComma | tooDeep => rcases h with rfl | rfl <;> rfl
  | numberTooLarge | loneSurrogate =>
    rw [Bool.eq_false_iff]
    intro hc
    simp only [isSpace, Bool.or_eq_true, decide_eq_true_eq] at hc
    rcases hc with ((rfl | rfl) | rfl) | rfl <;> cases h
  | _ => cases hw

/-- The error names the place behind byte `i` of the text and is about the byte's character. -/
structure Placed.Blames (e : Placed SyntaxError) (s : List Char) (i : Nat) : Prop where
  place : e.place = placeBehind ((bytes s).take (i + 1))
  refused : ∃ c, charAt? s i = some c ∧ e.what.Refuses c

namespace Placed.Blames

variable {e : Placed SyntaxError} {s : List Char} {i j : Nat}

theorem lt (h : e.Blames s i) : i < byteLength s :=
  let ⟨_, hc, _⟩ := h.refused
  lt_byteLength_of_charAt? hc

theorem unique (hi : e.Blames s i) (hj : e.Blames s j) : i = j :=
  Nat.succ.inj (placeBehind_take_inj hi.lt hj.lt (hi.place.symm.trans hj.place))

/-- Outside strings, words and numbers no line feed is blamed. -/
theorem not_lineFeed (h : e.Blames s i) (hw : e.what.mayRefuseSpace = false) :
    (bytes s)[i]? ≠ some lineFeed := by
  intro hb
  obtain ⟨c, hc, hr⟩ := h.refused
  have := hr.not_isSpace hw
  rw [lineFeed_of_charAt? hc hb] at this
  cases this

end Placed.Blames

/-- The error is met at the end of the text or is about one of its bytes. -/
def LocatedIn (s : List Char) (e : Placed SyntaxError) : Prop :=
  (e.what.isEnd = true ∧ e.place = placeBehind (bytes s)) ∨ ∃ i, e.Blames s i

variable {s : List Char} {α β : Type}

theorem locatedIn_end {what : SyntaxError} (h : what.isEnd = true) :
    LocatedIn s ⟨what, placeBehind (bytes s)⟩ :=
  .inl ⟨h, rfl⟩

/-- An error that names the place behind the first bytes of a character is about the last of
these. -/
theorem locatedIn_within {what : SyntaxError} {before behind : List Char} {c : Char} {n : Nat}
    (hs : s = before ++ c :: behind) (hn : 0 < n) (hc : n ≤ c.utf8Size) (h : what.Refuses c) :
    LocatedIn s ⟨what, (placeBehind (bytes before)).advanceBytes c n⟩ := by
  subst hs
  refine .inr ⟨byteLength before + (n - 1), ?_, c, ?_, h⟩
  · rw [Nat.add_assoc, Nat.sub_add_cancel hn, bytes_append, bytes_cons, ← length_bytes,
      List.take_length_add_append,
      List.take_append_of_le_length (by rw [String.length_utf8EncodeChar]; exact hc),
      placeBehind_bytes_append before c hn hc]
  · rw [charAt?_append, charAt?, if_pos (by omega)]

theorem locatedIn_pointAt {what : SyntaxError} {before behind : List Char} {c : Char}
    (hs : s = before ++ c :: behind) (h : what.Refuses c) :
    LocatedIn s ⟨what, (placeBehind (bytes before)).pointAt c⟩ :=
  locatedIn_within hs Nat.one_pos c.utf8Size_pos h

theorem locatedIn_advance {what : SyntaxError} {before behind : List Char} {c : Char}
    (hs : s = before ++ c :: behind) (h : what.Refuses c) :
    LocatedIn s ⟨what, (placeBehind (bytes before)).advance c⟩ :=
  locatedIn_within hs c.utf8Size_pos (Nat.le_refl _) h

/-! ## Trees -/

/-- Every failure is located in the text. -/
def FailsLocated (s : List Char) (r : Except (Placed SyntaxError) α) : Prop :=
  ∀ e, r = .error e → LocatedIn s e

theorem failsLocated_ok (a : α) : FailsLocated s (.ok a) := nofun

theorem failsLocated_error {e : Placed SyntaxError} (h : LocatedIn s e) :
    FailsLocated s (.error e : Except _ α) := by
  rintro _ ⟨⟩
  exact h

theorem FailsLocated.bind {r : Except (Placed SyntaxError) α}
    {f : α → Except (Placed SyntaxError) β} (hr : FailsLocated s r)
    (hf : ∀ a, FailsLocated s (f a)) : FailsLocated s (r >>= f) := by
  intro e h
  rcases bind_eq_error h with h | ⟨a, -, h⟩
  · exact hr e h
  · exact hf a e h

theorem FailsLocated.map {r : Except (Placed SyntaxError) α} (hr : FailsLocated s r) (f : α → β) :
    FailsLocated s (r.map f) :=
  fun e h => hr e (map_eq_error h)

/-- Reading the tree as a value fails at located errors only. -/
def Node.Located (s : List Char) (node : Node) : Prop :=
  ∀ depth, FailsLocated s (node.value? depth)

/-- A bracket opens at the place. -/
def OpensAt (s : List Char) (p : Position) : Prop :=
  ∃ before c behind, s = before ++ c :: behind ∧ (c = '[' ∨ c = '\x7b') ∧
    p = placeBehind (bytes before)

/-- Items of an array whose trees are located. -/
def ItemsLocated (s : List Char) (items : List (Node × Option (Placed SyntaxError))) : Prop :=
  ∀ item ∈ items, item.1.Located s

/-- Members of an object whose keys and trees are located. -/
def MembersLocated (s : List Char) (members : List (Key × Node × Position)) : Prop :=
  ∀ m ∈ members, FailsLocated s m.1.name ∧ m.2.1.Located s

theorem itemsLocated_nil : ItemsLocated s [] := nofun

theorem membersLocated_nil : MembersLocated s [] := nofun

theorem itemsLocated_cons {node : Node} {stop : Option (Placed SyntaxError)}
    {items : List (Node × Option (Placed SyntaxError))} (h : node.Located s)
    (hi : ItemsLocated s items) : ItemsLocated s ((node, stop) :: items) :=
  List.forall_mem_cons.mpr ⟨h, hi⟩

theorem membersLocated_cons {key : Key} {node : Node} {p : Position}
    {members : List (Key × Node × Position)} (hk : FailsLocated s key.name) (h : node.Located s)
    (hm : MembersLocated s members) : MembersLocated s ((key, node, p) :: members) :=
  List.forall_mem_cons.mpr ⟨⟨hk, h⟩, hm⟩

theorem failsLocated_descend? {p : Position} (h : OpensAt s p) (depth : Nat) :
    FailsLocated s (descend? p depth) := by
  obtain ⟨before, c, behind, hs, hc, rfl⟩ := h
  have hdeep : LocatedIn s ⟨.tooDeep, openingPlace (placeBehind (bytes before))⟩ := by
    have hp : openingPlace (placeBehind (bytes before)) =
        (placeBehind (bytes before)).pointAt c := by
      rcases hc with rfl | rfl <;> rfl
    rw [hp]
    exact locatedIn_pointAt hs hc
  match depth with
  | 0 => exact failsLocated_error hdeep
  | 1 => exact failsLocated_error hdeep
  | depth + 2 => exact failsLocated_ok _

theorem failsLocated_itemValues? {items : List (Node × Option (Placed SyntaxError))}
    (h : ItemsLocated s items) (depth : Nat) : FailsLocated s (itemValues? depth items) := by
  induction items with
  | nil => exact failsLocated_ok _
  | cons item items ih =>
    obtain ⟨h, hi⟩ := List.forall_mem_cons.mp h
    exact (h depth).bind fun _ => (ih hi).bind fun _ => failsLocated_ok _

theorem failsLocated_memberValues? {members : List (Key × Node × Position)}
    (h : MembersLocated s members) (depth : Nat) (done : Members) :
    FailsLocated s (memberValues? depth done members) := by
  induction members generalizing done with
  | nil => exact failsLocated_ok _
  | cons m members ih =>
    obtain ⟨⟨hk, h⟩, hm⟩ := List.forall_mem_cons.mp h
    exact hk.bind fun _ => (h depth).bind fun _ => ih hm _

/-- A container fails where it opens, at one of its parts, which were kept the last one first, or
where it closes. -/
theorem located_array {p : Position} {items : List (Node × Option (Placed SyntaxError))}
    {closing : Closing} (hp : OpensAt s p) (hi : ItemsLocated s items)
    (hc : FailsLocated s closing.read?) : (Node.array p items.reverse closing).Located s := by
  intro depth
  have hi' : ItemsLocated s items.reverse := fun item h => hi item (List.mem_reverse.mp h)
  exact (failsLocated_descend? hp depth).bind fun depth =>
    (failsLocated_itemValues? hi' depth).bind fun _ => hc.bind fun _ => failsLocated_ok _

theorem located_object {p : Position} {members : List (Key × Node × Position)} {closing : Closing}
    (hp : OpensAt s p) (hm : MembersLocated s members) (hc : FailsLocated s closing.read?) :
    (Node.object p members.reverse closing).Located s := by
  intro depth
  have hm' : MembersLocated s members.reverse := fun m h => hm m (List.mem_reverse.mp h)
  exact (failsLocated_descend? hp depth).bind fun depth =>
    (failsLocated_memberValues? hm' depth []).bind fun _ => hc.bind fun _ => failsLocated_ok _

theorem located_broken {fault : Fault} (h : LocatedIn s fault.read) (began : Option Start) :
    (Node.broken fault began).Located s :=
  fun _ => failsLocated_error h

theorem located_word (word : Word) (span : Span) : (word.node span).Located s := by
  cases word <;> exact fun _ => failsLocated_ok _

/-! ## Open containers -/

/-- The frame stands where its bracket opens, and all it holds so far is located. -/
def Frame.Located (s : List Char) : Frame → Prop
  | .array p items => OpensAt s p ∧ ItemsLocated s items
  | .object p members key => OpensAt s p ∧ MembersLocated s members ∧ FailsLocated s key.name

/-- A tree cut short is located where its parts are. -/
theorem located_unwind {frames : List Frame} (hf : ∀ frame ∈ frames, frame.Located s) {node : Node}
    (h : node.Located s) : (unwind frames node).Located s := by
  induction frames generalizing node with
  | nil => exact h
  | cons frame frames ih =>
    obtain ⟨hframe, hrest⟩ := List.forall_mem_cons.mp hf
    cases frame with
    | array p items =>
      exact ih hrest (located_array hframe.1 (itemsLocated_cons h hframe.2) (failsLocated_ok _))
    | object p members key =>
      exact ih hrest (located_object hframe.1 (membersLocated_cons hframe.2.2 h hframe.2.1)
        (failsLocated_ok _))

/-! ## Numbers -/

theorem isNumberChar_le {c : Char} (h : isNumberChar c = true) : c.val ≤ 127 := by
  rw [isNumberChar, Bool.or_eq_true, List.contains_iff_mem] at h
  rcases h with h | h
  · have := (Char.isDigit_iff_toNat.mp h).2
    exact Nat.le_trans this (by decide)
  · simp only [List.mem_cons, List.not_mem_nil, or_false] at h
    rcases h with rfl | rfl | rfl | rfl | rfl <;> decide

theorem utf8Size_of_isNumberChar {c : Char} (h : isNumberChar c = true) : c.utf8Size = 1 :=
  Char.utf8Size_eq_one_iff.mpr (isNumberChar_le h)

/-- The characters of a number stand on one line, a byte each. -/
theorem placeBehind_number (before : List Char) {l : List Char}
    (hl : ∀ c ∈ l, isNumberChar c = true) :
    placeBehind (bytes (before ++ l)) =
      ⟨(placeBehind (bytes before)).line, (placeBehind (bytes before)).column + l.length⟩ := by
  have hlen : (bytes l).length = l.length := by
    rw [length_bytes]
    induction l with
    | nil => rfl
    | cons c l ih =>
      obtain ⟨hc, hl⟩ := List.forall_mem_cons.mp hl
      rw [byteLength, utf8Size_of_isNumberChar hc, ih hl, List.length_cons, Nat.add_comm]
  have hm : lineFeed ∉ bytes l := by
    intro hm
    obtain ⟨c, hc, hm⟩ := List.mem_flatMap.mp hm
    have := hl c hc
    rw [lineFeed_mem_utf8EncodeChar hm] at this
    exact absurd this (by decide)
  rw [bytes_append, placeBehind_append_of_not_mem _ hm, hlen]

theorem length_ite_drop_le (c : Prop) [Decidable c] (l : List Char) :
    (if c then l.drop 1 else l).length ≤ l.length := by
  split
  · exact (List.drop_sublist ..).length_le
  · exact Nat.le_refl _

/-- There are fewer digits in an exponent than characters in the literal. -/
theorem length_exponent_lt {l : List Char} (h : l ≠ []) :
    (literalOf l).exponent.length < l.length := by
  have hpos := List.length_pos_iff.mpr h
  have hbody := length_ite_drop_le (l.head? = some '-') l
  have hdrop := (List.dropWhile_sublist (fun c : Char => !(decide (c = 'e') || decide (c = 'E')))
    (l := if l.head? = some '-' then l.drop 1 else l)).length_le
  simp only [literalOf, digitsOf, List.length_map]
  refine Nat.lt_of_le_of_lt (length_ite_drop_le _ _) ?_
  rw [List.length_drop]
  omega

/-- A number that is too large is blamed on a character of its own. -/
theorem located_numberNode {before behind l : List Char} (hs : s = before ++ l ++ behind)
    (hne : l ≠ []) (hl : ∀ c ∈ l, isNumberChar c = true) :
    (numberNode (placeBehind (bytes before)) (placeBehind (bytes (before ++ l))) l).Located s := by
  -- a literal's places, counted in characters
  have upTo {n : Nat} (hn : n < l.length) : LocatedIn s ⟨.numberTooLarge,
      ⟨(placeBehind (bytes before)).line, (placeBehind (bytes before)).column + (n + 1)⟩⟩ := by
    have hs : s = (before ++ l.take n) ++ l[n] :: (l.drop (n + 1) ++ behind) := by
      rw [hs, List.append_assoc, List.append_assoc, ← List.cons_append,
        ← List.drop_eq_getElem_cons hn, ← List.append_assoc (l.take n), List.take_append_drop]
    have hnum := hl _ (List.getElem_mem hn)
    have h : LocatedIn s ⟨.numberTooLarge, _⟩ := locatedIn_pointAt hs hnum
    rw [placeBehind_number before fun c hc => hl c (List.mem_of_mem_take hc),
      List.length_take_of_le (Nat.le_of_lt hn)] at h
    rwa [Position.pointAt, Position.advanceBytes,
      if_neg (fun he => by rw [he] at hnum; exact absurd hnum (by decide)), Nat.add_assoc] at h
  intro depth
  have hpos := List.length_pos_iff.mpr hne
  have hexp := length_exponent_lt hne
  unfold numberNode
  simp only
  split
  · exact failsLocated_ok _
  · refine failsLocated_error ?_
    rw [placeBehind_number before hl, ← Nat.sub_add_cancel hpos]
    exact upTo (by omega)
  · rename_i read _
    refine failsLocated_error ?_
    have hlt : l.length - ((literalOf l).exponent.length - read) - 1 < l.length := by omega
    convert upTo hlt using 3
    omega

end ApiReview.Json
