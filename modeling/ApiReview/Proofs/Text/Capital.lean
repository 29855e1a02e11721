import ApiReview.Text.Capital
import Mathlib.Data.Bool.AllAny
import Mathlib.Data.List.Forall2

/-!
# Where capitals come from

Every character has a capital form (`capital_ne_nil`). A mark of ASCII comes from itself alone
(`mem_capital_iff_of_mark`), so that texts keep their slashes and dots. A letter of ASCII may come
from elsewhere: the long s has the capital of the small s, and some ligatures have two letters or
more. What a text in capitals ends in tells the end of the text itself, up to such letters
(`IsEnding.exists_of_prefix`).
-/

namespace ApiReview.Text

variable {c x : Char}

/-! ## Character by character -/

theorem forall_ascii {P : Char → Prop} (h : ∀ n < 128, P (Char.ofNat n)) (hc : c.toNat < 128) :
    P c :=
  Char.ofNat_toNat c ▸ h _ hc

/-- Of the letters outside ASCII with one capital, two have a capital in ASCII. -/
theorem capitalRuns_outside :
    ∀ r ∈ capitalRuns, 128 ≤ r.last →
      (r.first = r.last ∧ (r.first = 0x131 ∧ r.distance = -232 ∨
        r.first = 0x17F ∧ r.distance = -300)) ∨
        128 ≤ r.first + r.distance ∧ (r.last + r.distance < 0xD800 ∨
          0xDFFF < r.first + r.distance ∧ r.last + r.distance < 0x110000) := by
  decide +kernel

theorem toNat_ofNat_of_isValidChar {n : Nat} (h : n.isValidChar) : (Char.ofNat n).toNat = n := by
  rw [Char.ofNat, dif_pos h]
  rfl

theorem capitalDistance?_eq_some {code : Nat} {d : Int} (h : capitalDistance? code = some d) :
    ∃ r ∈ capitalRuns, r.first ≤ code ∧ code ≤ r.last ∧ r.distance = d := by
  obtain ⟨r, hr, hd⟩ := Option.map_eq_some_iff.mp h
  have hrange := List.find?_some hr
  simp only [Bool.and_eq_true, decide_eq_true_eq] at hrange
  exact ⟨r, List.mem_of_find?_eq_some hr, hrange.1.1, hrange.1.2, hd⟩

/-- Outside ASCII: a capital outside ASCII, that of the dotless i or of the long s, or a
sequence. -/
theorem capital_outside (h : 128 ≤ c.toNat) :
    (∃ x, capital c = [x] ∧ 128 ≤ x.toNat) ∨ (c = 'ı' ∧ capital c = ['I']) ∨
      (c = 'ſ' ∧ capital c = ['S']) ∨
        ∃ entry ∈ capitalSequences, capital c = entry.2.map Char.ofNat := by
  rw [capital, if_neg (Nat.not_lt.mpr h)]
  split
  · rename_i entry hentry
    exact .inr (.inr (.inr ⟨entry, List.mem_of_find?_eq_some hentry, rfl⟩))
  · split
    · rename_i d hd
      obtain ⟨r, hr, hfirst, hlast, rfl⟩ := capitalDistance?_eq_some hd
      rcases capitalRuns_outside r hr (Nat.le_trans h hlast) with ⟨hone, hcode⟩ | ⟨hlow, hhigh⟩
      · rcases hcode with ⟨hcode, hdistance⟩ | ⟨hcode, hdistance⟩
        · obtain rfl : c = 'ı' := by rw [← Char.ofNat_toNat c, show c.toNat = 0x131 by omega]
          exact .inr (.inl ⟨rfl, hdistance ▸ rfl⟩)
        · obtain rfl : c = 'ſ' := by rw [← Char.ofNat_toNat c, show c.toNat = 0x17F by omega]
          exact .inr (.inr (.inl ⟨rfl, hdistance ▸ rfl⟩))
      · refine .inl ⟨_, rfl, ?_⟩
        have hvalid : (Int.ofNat c.toNat + r.distance).toNat.isValidChar := by
          rw [Nat.isValidChar, Int.ofNat_eq_natCast]
          omega
        rw [toNat_ofNat_of_isValidChar hvalid, Int.ofNat_eq_natCast]
        omega
    · exact .inl ⟨c, rfl, h⟩

theorem capital_ne_nil (c : Char) : capital c ≠ [] := by
  by_cases h : c.toNat < 128
  · rw [capital_of_ascii h]
    exact List.cons_ne_nil _ _
  · have hentries : ∀ entry ∈ capitalSequences, entry.2 ≠ [] := by decide +kernel
    rcases capital_outside (Nat.not_lt.mp h) with ⟨x, hx, -⟩ | ⟨-, hx⟩ | ⟨-, hx⟩ | ⟨entry, he, hx⟩
    · exact hx ▸ List.cons_ne_nil _ _
    · exact hx ▸ List.cons_ne_nil _ _
    · exact hx ▸ List.cons_ne_nil _ _
    · rw [hx]
      exact fun hnil => hentries entry he (List.map_eq_nil_iff.mp hnil)

/-- A mark of ASCII is its own capital form, and part of no other. -/
theorem mem_capital_iff_of_mark (hx : x.toNat < 128) (hmark : x.isAlpha = false) :
    x ∈ capital c ↔ c = x := by
  have hletter : x.isAlpha ≠ true := Bool.eq_false_iff.mp hmark
  by_cases h : c.toNat < 128
  · have hupper : c.toUpper = c ∨ c.isAlpha = true ∧ c.toUpper.isAlpha = true :=
      forall_ascii (P := fun c => c.toUpper = c ∨ c.isAlpha = true ∧ c.toUpper.isAlpha = true)
        (by decide) h
    rw [capital_of_ascii h, List.mem_singleton]
    rcases hupper with hsame | ⟨halpha, hupper⟩
    · rw [hsame]
      exact eq_comm
    · exact iff_of_false (fun e => hletter (e ▸ hupper)) fun e => hletter (e ▸ halpha)
  · refine iff_of_false (fun hm => ?_) fun e => h (e ▸ hx)
    have hentries : ∀ entry ∈ capitalSequences, ∀ n ∈ entry.2,
        128 ≤ (Char.ofNat n).toNat ∨ (Char.ofNat n).isAlpha = true := by decide +kernel
    rcases capital_outside (Nat.not_lt.mp h) with ⟨y, hy, hy'⟩ | ⟨-, hy⟩ | ⟨-, hy⟩ | ⟨entry, he, hy⟩
      <;> rw [hy] at hm
    · rw [List.mem_singleton.mp hm] at hx
      exact Nat.not_lt.mpr hy' hx
    · exact hletter (List.mem_singleton.mp hm ▸ rfl)
    · exact hletter (List.mem_singleton.mp hm ▸ rfl)
    · obtain ⟨n, hn, rfl⟩ := List.mem_map.mp hm
      exact (hentries entry he n hn).elim (fun hn => Nat.not_lt.mpr hn hx) hletter

theorem capital_of_mark (hx : x.toNat < 128) (hmark : x.isAlpha = false) : capital x = [x] := by
  have hmem : x ∈ capital x := (mem_capital_iff_of_mark hx hmark).mpr rfl
  rw [capital_of_ascii hx] at hmem ⊢
  rw [← List.mem_singleton.mp hmem]

theorem slash_mem_capital_iff : '/' ∈ capital c ↔ c = '/' :=
  mem_capital_iff_of_mark (by decide) (by decide)

theorem dot_mem_capital_iff : '.' ∈ capital c ↔ c = '.' :=
  mem_capital_iff_of_mark (by decide) (by decide)

/-! ## The ends of texts -/

/-- The capitals that the names of declaration files end in. -/
def endingChars : List Char :=
  ['D', 'T', 'S', 'M', 'C', '.']

/-- A character has a capital form that ends in one of these as the capital letter of ASCII that it
is, as a long s, or as a ligature of an s and that letter. -/
theorem capital_of_getLast? (hx : x ∈ endingChars) (h : (capital c).getLast? = some x) :
    (capital c = [x] ∧ (c.toLower = x.toLower ∨ c = 'ſ' ∧ x = 'S')) ∨ capital c = ['S', x] := by
  by_cases hascii : c.toNat < 128
  · have hlower : c.toUpper.toLower = c.toLower :=
      forall_ascii (P := fun c => c.toUpper.toLower = c.toLower) (by decide) hascii
    rw [capital_of_ascii hascii] at h ⊢
    obtain rfl : c.toUpper = x := Option.some.inj h
    exact .inl ⟨rfl, .inl hlower.symm⟩
  · have hlow : ∀ x ∈ endingChars, x.toNat < 128 := List.all_iff_forall_prop.mp (by decide)
    have hentries : ∀ entry ∈ capitalSequences, endingChars.all fun x =>
        (entry.2.map Char.ofNat).getLast? = some x → entry.2.map Char.ofNat = ['S', x] := by
      decide +kernel
    rcases capital_outside (Nat.not_lt.mp hascii) with
      ⟨y, hy, hy'⟩ | ⟨-, hy⟩ | ⟨rfl, hy⟩ | ⟨entry, he, hy⟩ <;> rw [hy] at h ⊢
    · obtain rfl : y = x := Option.some.inj h
      exact absurd (hlow y hx) (Nat.not_lt.mpr hy')
    · obtain rfl : 'I' = x := Option.some.inj h
      exact absurd hx (by decide)
    · obtain rfl : 'S' = x := Option.some.inj h
      exact .inl ⟨rfl, .inr ⟨rfl, rfl⟩⟩
    · exact .inr (List.all_iff_forall_prop.mp (hentries entry he) x hx h)

/-- The end of a declaration file's name in capitals, given from the right: none of its characters
but the last one stands behind an s, and the first one is a dot. -/
def IsEnding : List Char → Prop
  | [] => False
  | [x] => x = '.'
  | x :: y :: rest => x ∈ endingChars ∧ y ≠ 'S' ∧ IsEnding (y :: rest)

instance decidableIsEnding : DecidablePred IsEnding
  | [] => isFalse id
  | [_] => inferInstanceAs (Decidable (_ = _))
  | _ :: y :: rest =>
    have := decidableIsEnding (y :: rest)
    inferInstanceAs (Decidable (_ ∧ _ ∧ _))

/-- The last character of a text in capitals is that of the capital form of its last character. -/
theorem exists_of_cons_prefix {t s : List Char}
    (h : x :: t <+: s.flatMap fun c => (capital c).reverse) :
    ∃ c rest, s = c :: rest ∧ (capital c).getLast? = some x ∧
      x :: t <+: (capital c).reverse ++ rest.flatMap fun c => (capital c).reverse := by
  cases s with
  | nil => exact absurd (List.prefix_nil.mp h) (List.cons_ne_nil _ _)
  | cons c rest =>
    rw [List.flatMap_cons] at h
    refine ⟨c, rest, rfl, ?_, h⟩
    have hne : (capital c).reverse ≠ [] := fun e => capital_ne_nil c (List.reverse_eq_nil_iff.mp e)
    obtain ⟨y, more, hy⟩ := List.exists_cons_of_ne_nil hne
    rw [hy, List.cons_append, List.cons_prefix_cons] at h
    rw [← List.head?_reverse, hy, h.1, List.head?_cons]

/-- A text that ends in capitals like the name of a declaration file does so itself, in capitals or
not, but for long s. -/
theorem IsEnding.exists_of_prefix {t s : List Char} (ht : IsEnding t)
    (h : t <+: s.flatMap fun c => (capital c).reverse) :
    ∃ last front, s = last ++ front ∧
      List.Forall₂ (fun c x => c.toLower = x.toLower ∨ c = 'ſ' ∧ x = 'S') last t := by
  induction t generalizing s with
  | nil => exact absurd ht id
  | cons x t ih =>
    obtain ⟨c, rest, rfl, hlast, hprefix⟩ := exists_of_cons_prefix h
    cases t with
    | nil =>
      obtain rfl : x = '.' := ht
      obtain rfl : c = '.' := dot_mem_capital_iff.mp (List.mem_of_getLast? hlast)
      exact ⟨['.'], rest, rfl, .cons (.inl rfl) .nil⟩
    | cons y t =>
      obtain ⟨hx, hy, ht⟩ := ht
      rcases capital_of_getLast? hx hlast with ⟨hone, hsame⟩ | htwo
      · rw [hone] at hprefix
        obtain ⟨last, front, rfl, hends⟩ := ih ht (List.cons_prefix_cons.mp hprefix).2
        exact ⟨c :: last, front, rfl, .cons hsame hends⟩
      · -- The ligature would put an s before the letter.
        rw [htwo] at hprefix
        have hs := (List.cons_prefix_cons.mp (List.cons_prefix_cons.mp hprefix).2).1
        exact absurd hs hy

end ApiReview.Text
