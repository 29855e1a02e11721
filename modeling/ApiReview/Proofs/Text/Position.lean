import ApiReview.Text.Position
import Mathlib.Data.List.Induction

/-!
# Bytes and their places

The bytes of a text are told apart by line and column: `offsetOf` leads from the place of a byte
back to the byte (`offsetOf_placeOf`). What reads a text character by character stands, behind some
bytes, at `placeBehind` of them (`placeBehind_bytes`). Behind a line feed that is the start of the
next line, and there alone `offsetOf` does not find the byte that was read last
(`offsetOf_placeBehind_iff`).
-/

namespace ApiReview.Text

/-- The bytes of a text in UTF-8. -/
def bytes (s : List Char) : List UInt8 :=
  s.flatMap String.utf8EncodeChar

/-- The byte that ends a line. -/
def lineFeed : UInt8 := 10

/-- The place behind some bytes: one more line than line feeds, and the bytes behind the last of
them. -/
def placeBehind (b : List UInt8) : Position :=
  ⟨1 + b.count lineFeed, (b.reverse.takeWhile (· ≠ lineFeed)).length⟩

/-- The place of byte `i`: one more line than line feeds before it, and the bytes of its line up to
and including it. -/
def placeOf (b : List UInt8) (i : Nat) : Position :=
  ⟨1 + (b.take i).count lineFeed, ((b.take i).reverse.takeWhile (· ≠ lineFeed)).length + 1⟩

/-- The character that byte `i` belongs to. -/
def charAt? : List Char → Nat → Option Char
  | [], _ => none
  | c :: s, i => if i < c.utf8Size then some c else charAt? s (i - c.utf8Size)

@[simp] theorem bytes_append (s t : List Char) : bytes (s ++ t) = bytes s ++ bytes t :=
  List.flatMap_append

@[simp] theorem bytes_cons (c : Char) (s : List Char) :
    bytes (c :: s) = String.utf8EncodeChar c ++ bytes s :=
  List.flatMap_cons

@[simp] theorem length_bytes (s : List Char) : (bytes s).length = byteLength s := by
  induction s with
  | nil => rfl
  | cons c s ih => rw [bytes_cons, List.length_append, String.length_utf8EncodeChar, ih, byteLength]

theorem charAt?_append (s t : List Char) (i : Nat) :
    charAt? (s ++ t) (byteLength s + i) = charAt? t i := by
  induction s with
  | nil => rw [List.nil_append, byteLength, Nat.zero_add]
  | cons c s ih =>
    rw [List.cons_append, charAt?, byteLength, if_neg (by omega), Nat.add_assoc,
      Nat.add_sub_cancel_left, ih]

theorem lt_byteLength_of_charAt? {s : List Char} {i : Nat} {c : Char} (h : charAt? s i = some c) :
    i < byteLength s := by
  induction s generalizing i with
  | nil => cases h
  | cons d s ih =>
    rw [charAt?] at h
    rw [byteLength]
    split at h
    next hi => omega
    next => have := ih h; omega

theorem utf8EncodeChar_lineFeed : String.utf8EncodeChar '\n' = [lineFeed] := rfl

/-- Every byte of a longer character is above 127, so a line feed is a character of its own. -/
theorem lineFeed_mem_utf8EncodeChar {c : Char} (h : lineFeed ∈ String.utf8EncodeChar c) :
    c = '\n' := by
  have small {n k : Nat} (hn : n + k < 256) (hk : 128 ≤ k) : lineFeed ≠ UInt8.ofNat (n + k) := by
    intro he
    have he := congrArg UInt8.toNat he
    rw [UInt8.toNat_ofNat', Nat.mod_eq_of_lt hn, show lineFeed.toNat = 10 from rfl] at he
    omega
  unfold String.utf8EncodeChar at h
  simp only at h
  split at h
  next hv =>
    have he := congrArg UInt8.toNat (List.mem_singleton.mp h)
    rw [UInt8.toNat_ofNat', Nat.mod_eq_of_lt (by omega)] at he
    exact Char.toNat_inj.mp he.symm
  next =>
    exfalso
    split at h
    · simp only [List.mem_cons, List.not_mem_nil, or_false] at h
      rcases h with h | h <;> exact small (by omega) (by omega) h
    · split at h <;> simp only [List.mem_cons, List.not_mem_nil, or_false] at h
      · rcases h with h | h | h <;> exact small (by omega) (by omega) h
      · rcases h with h | h | h | h <;> exact small (by omega) (by omega) h

/-! ## Places behind bytes -/

theorem placeOf_eq (b : List UInt8) (i : Nat) :
    placeOf b i = ⟨(placeBehind (b.take i)).line, (placeBehind (b.take i)).column + 1⟩ := rfl

theorem placeBehind_append_lineFeed (b : List UInt8) :
    placeBehind (b ++ [lineFeed]) = ⟨(placeBehind b).line + 1, 0⟩ := by
  simp [placeBehind, Nat.add_assoc]

theorem placeBehind_append_of_not_mem (b : List UInt8) {x : List UInt8} (h : lineFeed ∉ x) :
    placeBehind (b ++ x) = ⟨(placeBehind b).line, (placeBehind b).column + x.length⟩ := by
  have ne : ∀ a ∈ x.reverse, decide (a ≠ lineFeed) = true := fun a ha =>
    decide_eq_true fun he => h (he ▸ List.mem_reverse.mp ha)
  simp only [placeBehind, List.count_append, List.count_eq_zero.mpr h, Nat.add_zero,
    List.reverse_append, List.takeWhile_append_of_pos ne, List.length_append, List.length_reverse,
    Nat.add_comm]

/-- Behind a byte that ends no line is the place of that byte. -/
theorem placeBehind_take_succ {b : List UInt8} {i : Nat} (hi : i < b.length) :
    placeBehind (b.take (i + 1)) =
      if b[i]? = some lineFeed then ⟨(placeOf b i).line + 1, 0⟩ else placeOf b i := by
  rw [List.take_succ_eq_append_getElem hi, placeOf_eq]
  split
  next h =>
    rw [(List.getElem_eq_iff hi).mpr h, placeBehind_append_lineFeed]
  next h =>
    refine placeBehind_append_of_not_mem _ fun hm => h ?_
    rw [List.mem_singleton.mp hm, List.getElem?_eq_getElem hi]

/-- The first bytes of a character lead where `advanceBytes` says. -/
theorem placeBehind_bytes_append (s : List Char) (c : Char) {n : Nat} (hn : 0 < n)
    (hc : n ≤ c.utf8Size) :
    placeBehind (bytes s ++ (String.utf8EncodeChar c).take n) =
      (placeBehind (bytes s)).advanceBytes c n := by
  unfold Position.advanceBytes
  split
  next h =>
    subst h
    rw [utf8EncodeChar_lineFeed, List.take_of_length_le (by exact hn), placeBehind_append_lineFeed]
  next h =>
    have hm : lineFeed ∉ (String.utf8EncodeChar c).take n := fun hm =>
      h (lineFeed_mem_utf8EncodeChar (List.mem_of_mem_take hm))
    rw [placeBehind_append_of_not_mem _ hm, List.length_take, String.length_utf8EncodeChar,
      Nat.min_eq_left hc]

/-- Whoever reads the characters one by one stands behind their bytes. -/
theorem placeBehind_bytes (s : List Char) : placeBehind (bytes s) = s.foldl .advance .start := by
  induction s using List.reverseRecOn with
  | nil => rfl
  | append_singleton s c ih =>
    have hc : bytes (s ++ [c]) = bytes s ++ (String.utf8EncodeChar c).take c.utf8Size := by
      rw [bytes_append, bytes_cons, ← String.length_utf8EncodeChar, List.take_length]
      exact congrArg _ (List.append_nil _)
    rw [List.foldl_append, hc, placeBehind_bytes_append s c c.utf8Size_pos (Nat.le_refl _), ih]
    rfl

theorem lineFeed_of_charAt? {s : List Char} {i : Nat} {c : Char} (hc : charAt? s i = some c)
    (hb : (bytes s)[i]? = some lineFeed) : c = '\n' := by
  induction s generalizing i with
  | nil => cases hc
  | cons d s ih =>
    rw [bytes_cons] at hb
    rw [charAt?] at hc
    split at hc
    next hi =>
      cases hc
      rw [List.getElem?_append_left (by rwa [String.length_utf8EncodeChar])] at hb
      exact lineFeed_mem_utf8EncodeChar (List.mem_of_getElem? hb)
    next hi =>
      rw [List.getElem?_append_right (by rw [String.length_utf8EncodeChar]; omega),
        String.length_utf8EncodeChar] at hb
      exact ih hc hb

/-! ## From places back to bytes -/

/-- `lineStart`, told from the bytes. -/
def byteLineStart : Nat → List UInt8 → Nat
  | 0, _ => 0
  | _ + 1, [] => 0
  | n + 1, x :: b => 1 + byteLineStart (if x = lineFeed then n else n + 1) b

theorem byteLineStart_append_of_not_mem (n : Nat) {x : List UInt8} (h : lineFeed ∉ x)
    (b : List UInt8) : byteLineStart (n + 1) (x ++ b) = x.length + byteLineStart (n + 1) b := by
  induction x with
  | nil => rw [List.nil_append, List.length_nil, Nat.zero_add]
  | cons y x ih =>
    rw [List.mem_cons, not_or] at h
    rw [List.cons_append, byteLineStart, if_neg (Ne.symm h.1), ih h.2, List.length_cons]
    omega

theorem lineStart_eq_byteLineStart (n : Nat) (s : List Char) :
    lineStart n s = byteLineStart n (bytes s) := by
  induction s generalizing n with
  | nil => cases n <;> rfl
  | cons c s ih =>
    cases n with
    | zero => cases h : bytes (c :: s) <;> rfl
    | succ n =>
      rw [lineStart, ih, bytes_cons]
      split
      next h => subst h; rfl
      next h =>
        rw [byteLineStart_append_of_not_mem n (fun hm => h (lineFeed_mem_utf8EncodeChar hm)),
          String.length_utf8EncodeChar]

/-- The line behind a line feed starts there. -/
theorem byteLineStart_count_succ (b b' : List UInt8) :
    byteLineStart (b.count lineFeed + 1) (b ++ lineFeed :: b') = b.length + 1 := by
  induction b with
  | nil => cases b' <;> rfl
  | cons x b ih =>
    rw [List.cons_append, byteLineStart, List.length_cons, List.count_cons]
    by_cases hx : x = lineFeed
    · rw [if_pos hx, if_pos (beq_iff_eq.mpr hx), ih, Nat.add_comm]
    · rw [if_neg hx, if_neg (by simpa using hx), Nat.add_zero, ih, Nat.add_comm]

/-- The start of the line that some bytes end in, and the bytes of that line, are all of them. -/
theorem byteLineStart_add_column (b b' : List UInt8) :
    byteLineStart ((placeBehind b).line - 1) (b ++ b') + (placeBehind b).column = b.length := by
  induction b using List.reverseRecOn generalizing b' with
  | nil => cases b' <;> rfl
  | append_singleton b x ih =>
    rw [List.append_assoc, List.singleton_append, List.length_append, List.length_singleton]
    by_cases hx : x = lineFeed
    · subst hx
      rw [placeBehind_append_lineFeed, Nat.add_sub_cancel, Nat.add_zero]
      simpa [placeBehind, Nat.add_comm] using byteLineStart_count_succ b b'
    · rw [placeBehind_append_of_not_mem b (by simpa using Ne.symm hx), List.length_singleton,
        ← Nat.add_assoc, ih]

variable {s : List Char} {i : Nat}

/-- On a line counted from one there is an offset, at most at the end of the text. -/
theorem exists_offsetOf (s : List Char) {p : Position} (hp : 1 ≤ p.line) :
    ∃ n, offsetOf s p = some n ∧ n ≤ byteLength s := by
  obtain ⟨n, hn⟩ : ∃ n, offsetOf s p = some n := ⟨_, if_neg (Nat.ne_of_gt hp)⟩
  exact ⟨n, hn, offsetOf_le_length hn⟩

/-- The start of a line and a column on it are a number of bytes. -/
theorem lineStart_add_column (hi : i ≤ byteLength s) :
    lineStart ((placeBehind ((bytes s).take i)).line - 1) s +
      (placeBehind ((bytes s).take i)).column = i := by
  have h := byteLineStart_add_column ((bytes s).take i) ((bytes s).drop i)
  rwa [List.take_append_drop, List.length_take, length_bytes, Nat.min_eq_left hi,
    ← lineStart_eq_byteLineStart] at h

/-- A place is behind one number of bytes only. -/
theorem placeBehind_take_inj {j : Nat} (hi : i ≤ byteLength s) (hj : j ≤ byteLength s)
    (h : placeBehind ((bytes s).take i) = placeBehind ((bytes s).take j)) : i = j := by
  rw [← lineStart_add_column hi, h, lineStart_add_column hj]

theorem offsetOf_placeOf (hi : i < byteLength s) : offsetOf s (placeOf (bytes s) i) = some i := by
  have hline : (placeOf (bytes s) i).line ≠ 0 := by simp [placeOf]
  have hle := Nat.le_of_lt hi
  rw [offsetOf, if_neg hline, placeOf_eq, Nat.add_sub_cancel, lineStart_add_column hle,
    Nat.min_eq_left hle]

/-- From the place behind a byte `offsetOf` finds the byte, unless it ends a line: then it finds
the one behind it. -/
theorem offsetOf_placeBehind (hi : i < byteLength s) :
    offsetOf s (placeBehind ((bytes s).take (i + 1))) =
      some (if (bytes s)[i]? = some lineFeed then i + 1 else i) := by
  have hlt : i < (bytes s).length := length_bytes s ▸ hi
  have hsum := lineStart_add_column hi
  rw [placeBehind_take_succ hlt] at hsum ⊢
  split
  next hb =>
    rw [if_pos hb] at hsum
    rw [offsetOf, if_neg (Nat.succ_ne_zero _), Nat.zero_sub, hsum, Nat.min_eq_left hi]
  next => exact offsetOf_placeOf hi

theorem offsetOf_placeBehind_iff (hi : i < byteLength s) :
    offsetOf s (placeBehind ((bytes s).take (i + 1))) = some i ↔
      (bytes s)[i]? ≠ some lineFeed := by
  rw [offsetOf_placeBehind hi, Option.some.injEq]
  split
  next h => exact ⟨fun he => by omega, fun hne => absurd h hne⟩
  next h => exact ⟨fun _ => h, fun _ => rfl⟩

end ApiReview.Text
