import ApiReview.Proofs.Json.Overlay
import ApiReview.Proofs.Keyed
import ApiReview.Proofs.Outcome
import Mathlib.Data.List.Forall2
import Mathlib.Data.List.Nodup

/-!
# Reading back what was written

A codec may read back what it writes of one value, even where it does not for all of them: a table
does if its keys differ (`roundTrips_table`). A record does if its fields have names of their own
and what they write makes, field by field, the instance out of the blank one
(`Record.roundTrips`). What a record writes for a name is what the field of that name writes
(`Record.find?_writeMembers_eq_some_iff`).
-/

namespace ApiReview.Json

variable {σ α : Type}

theorem find?_eq_some_iff_mem {members : Members} (h : (keys members).Nodup) {key : String}
    {v : Json} : find? key members = some v ↔ (key, v) ∈ members := by
  induction members with
  | nil => simp [find?]
  | cons m members ih =>
    obtain ⟨k, w⟩ := m
    obtain ⟨hfresh, hrest⟩ : k ∉ keys members ∧ (keys members).Nodup := List.nodup_cons.mp h
    rw [find?, List.mem_cons, Prod.mk.injEq]
    split
    · rename_i hk
      have hnot : (key, v) ∉ members := fun hm => hfresh (hk ▸ List.mem_map_of_mem hm)
      simp [hk, hnot, eq_comm]
    · rename_i hk
      rw [ih hrest]
      simp [Ne.symm hk]

/-- What is written of a value reads back. -/
def Codec.RoundTrips (c : Codec α) (a : α) : Prop :=
  c.read (c.write a) = .ok a

/-- No value is written as null. -/
def Codec.NeverNull (c : Codec α) : Prop :=
  ∀ a, c.write a ≠ .null

namespace Codec

variable {c : Codec α}

/-! ## What is written as null -/

@[simp] theorem neverNull_string : string.NeverNull := fun _ => Json.noConfusion

@[simp] theorem neverNull_boolean : boolean.NeverNull := fun _ => Json.noConfusion

@[simp] theorem neverNull_members : members.NeverNull := fun _ => Json.noConfusion

@[simp] theorem neverNull_list : c.list.NeverNull := fun _ => Json.noConfusion

@[simp] theorem neverNull_table : c.table.NeverNull := fun _ => Json.noConfusion

@[simp] theorem neverNull_choice {variants : List (String × α)} {nameOf : α → String} :
    (choice variants nameOf).NeverNull := fun _ => Json.noConfusion

@[simp] theorem neverNull_codec {r : Record σ} : r.codec.NeverNull := fun _ => Json.noConfusion

@[simp] theorem NeverNull.write_eq_null_iff (hn : c.NeverNull) {a : α} :
    c.write a = .null ↔ False :=
  iff_false_intro (hn a)

@[simp] theorem write_optional_eq_null_iff (hn : c.NeverNull) {o : Option α} :
    c.optional.write o = .null ↔ o = none := by
  cases o with
  | none => exact iff_of_true rfl rfl
  | some a => exact iff_of_false (hn a) (Option.some_ne_none a)

/-! ## What is written as no object -/

/-- No value is written as an object. -/
def Flat (c : Codec α) : Prop :=
  ∀ a, (c.write a).isObject = false

@[simp] theorem flat_string : string.Flat := fun _ => rfl

@[simp] theorem flat_boolean : boolean.Flat := fun _ => rfl

@[simp] theorem flat_list : c.list.Flat := fun _ => rfl

@[simp] theorem flat_choice {variants : List (String × α)} {nameOf : α → String} :
    (choice variants nameOf).Flat := fun _ => rfl

/-- Nothing stands below a value that is no object. -/
@[simp] theorem Flat.at?_write (h : c.Flat) {a : α} {key : String} {p : List String} :
    (c.write a).at? (key :: p) = none :=
  at?_cons_of_not_object (h a) key p

@[simp] theorem at?_write_optional_eq_some_iff {o : Option α} {key : String} {p : List String}
    {v : Json} : (c.optional.write o).at? (key :: p) = some v ↔
      ∃ a, o = some a ∧ (c.write a).at? (key :: p) = some v := by
  cases o with
  | none => exact iff_of_false nofun fun ⟨_, h, _⟩ => absurd h (Option.some_ne_none _).symm
  | some a => simp [optional]

/-! ## Codecs of a few kinds -/

theorem roundTrips_optional {o : Option α} (hn : c.NeverNull)
    (h : ∀ a, o = some a → c.RoundTrips a) : c.optional.RoundTrips o := by
  cases o with
  | none => rfl
  | some a =>
    have hnull := hn a
    have hr : c.read (c.write a) = .ok a := h a rfl
    show c.optional.read (c.write a) = .ok (some a)
    cases hw : c.write a with
    | null => exact absurd hw hnull
    | _ =>
      rw [hw] at hr
      show (c.read _).map some = _
      rw [hr]
      rfl

theorem roundTrips_list {as : List α} (h : ∀ a ∈ as, c.RoundTrips a) : c.list.RoundTrips as := by
  show readItems c.read (as.map c.write) = .ok as
  induction as with
  | nil => rfl
  | cons a as ih =>
    obtain ⟨ha, has⟩ := List.forall_mem_cons.mp h
    have ha : c.read (c.write a) = .ok a := ha
    rw [List.map_cons, readItems, ha, ih has]
    rfl

theorem putEntry_of_not_mem {key : String} (a : α) {entries : List (String × α)}
    (h : key ∉ entries.map (·.1)) : putEntry key a entries = entries ++ [(key, a)] := by
  rw [Keyed.putEntry_eq_put]
  exact Keyed.put_of_not_mem h

/-- Entries with keys of their own are read behind the others. -/
theorem readEntries_map {entries done : List (String × α)}
    (h : ((done ++ entries).map (·.1)).Nodup) (he : ∀ e ∈ entries, c.RoundTrips e.2) :
    readEntries c.read done (entries.map fun e => (e.1, c.write e.2)) = .ok (done ++ entries) := by
  induction entries generalizing done with
  | nil =>
    rw [List.append_nil]
    rfl
  | cons e entries ih =>
    obtain ⟨hvalue, he⟩ := List.forall_mem_cons.mp he
    have hvalue : c.read (c.write e.2) = .ok e.2 := hvalue
    have hfresh : e.1 ∉ done.map (·.1) := by
      rw [List.map_append] at h
      exact fun hm => (List.nodup_append.mp h).2.2 e.1 hm e.1 List.mem_cons_self rfl
    rw [List.append_cons] at h ⊢
    rw [List.map_cons, readEntries, hvalue, ← ih h he, ← putEntry_of_not_mem e.2 hfresh]
    rfl

theorem roundTrips_table {entries : List (String × α)} (h : (entries.map (·.1)).Nodup)
    (he : ∀ e ∈ entries, c.RoundTrips e.2) : c.table.RoundTrips entries :=
  readEntries_map h he

theorem nodup_putEntry {key : String} (a : α) {entries : List (String × α)}
    (h : (entries.map (·.1)).Nodup) : ((putEntry key a entries).map (·.1)).Nodup := by
  rw [Keyed.putEntry_eq_put]
  exact Keyed.nodup_keys_put h _

theorem nodup_readEntries {read : Json → Except Misfit α} {members : Members}
    {done entries : List (String × α)} (hd : (done.map (·.1)).Nodup)
    (h : readEntries read done members = .ok entries) : (entries.map (·.1)).Nodup := by
  induction members generalizing done with
  | nil =>
    cases h
    exact hd
  | cons m members ih =>
    obtain ⟨a, -, h⟩ := bind_eq_ok h
    exact ih (nodup_putEntry a hd) h

/-- A table that is read has keys that differ. -/
theorem nodup_of_read_table {v : Json} {entries : List (String × α)}
    (h : c.table.read v = .ok entries) : (entries.map (·.1)).Nodup := by
  cases v with
  | object members =>
    have hnil : (([] : List (String × α)).map (·.1)).Nodup := List.nodup_nil
    exact nodup_readEntries hnil h
  | _ => cases h

theorem read_of_read_optional {v : Json} {a : α} (h : c.optional.read v = .ok (some a)) :
    c.read v = .ok a := by
  cases v with
  | null => cases h
  | _ =>
    obtain ⟨b, hb, hab⟩ := map_eq_ok h
    cases hab
    exact hb

end Codec

/-! ## Records -/

/-- What a field writes of an instance makes a change to whatever it is read into. A field that
writes nothing need not be given, and makes none. -/
def Field.Sends (f : Field σ) (s : σ) (change : σ → σ) : Prop :=
  match f.write s with
  | some v => ∀ t, f.read v t = .ok (change t)
  | none => f.required = false ∧ ∀ t, change t = t

namespace Field

variable {name : String} {c : Codec α} {set : α → σ → σ} {s : σ}

theorem sends_of {get : σ → α} (h : c.RoundTrips (get s)) :
    (Field.of name c get set).Sends s (set (get s)) := by
  intro t
  have h : c.read (c.write (get s)) = .ok (get s) := h
  show (c.read (c.write (get s))).map (set · t) = _
  rw [h]
  rfl

theorem sends_needed {get : σ → α} (h : c.RoundTrips (get s)) :
    (Field.needed name c get set).Sends s (set (get s)) :=
  have hof : (Field.of name c get set).Sends s (set (get s)) := sends_of h
  hof

/-- An optional field that is not written when it is absent sets only what is there. -/
theorem sends_ofPresent {get : σ → Option α} {set : Option α → σ → σ}
    (hn : c.NeverNull) (h : ∀ a, get s = some a → c.RoundTrips a) :
    (Field.ofPresent name c get set).Sends s ((get s).elim id fun a => set (some a)) := by
  have hw : (Field.ofPresent name c get set).write s = (get s).map c.write := rfl
  rw [Sends, hw]
  cases ho : get s with
  | none => exact ⟨rfl, fun _ => rfl⟩
  | some a =>
    intro t
    have ha : c.optional.read (c.write a) = .ok (some a) :=
      Codec.roundTrips_optional (o := some a) hn fun b hb => h b (ho.trans hb)
    show (c.optional.read (c.write a)).map (set · t) = _
    rw [ha]
    rfl

end Field

namespace Record

variable {r : Record σ} {s : σ}

theorem field?_name (hn : r.fieldNames.Nodup) {f : Field σ} (hf : f ∈ r.fields) :
    r.field? f.name = some f := by
  rw [field?]
  cases h : r.fields.find? (fun g => g.name = f.name) with
  | none => exact absurd (decide_eq_true rfl) (List.find?_eq_none.mp h f hf)
  | some g =>
    have hname : g.name = f.name := by simpa using List.find?_some h
    rw [List.inj_on_of_nodup_map hn (List.mem_of_find?_eq_some h) hf hname]

theorem mem_writeMembers_iff {name : String} {v : Json} :
    (name, v) ∈ r.writeMembers s ↔ ∃ f ∈ r.fields, f.name = name ∧ f.write s = some v := by
  rw [writeMembers, List.mem_filterMap]
  refine exists_congr fun f => and_congr_right fun _ => ?_
  rw [Option.map_eq_some_iff]
  constructor
  · rintro ⟨w, hw, he⟩
    cases he
    exact ⟨rfl, hw⟩
  · rintro ⟨rfl, hw⟩
    exact ⟨v, hw, rfl⟩

/-- What is written are the fields that have something to write. -/
theorem keys_writeMembers :
    keys (r.writeMembers s) = (r.fields.filter fun f => (f.write s).isSome).map Field.name := by
  rw [writeMembers]
  induction r.fields with
  | nil => rfl
  | cons f fields ih =>
    rw [List.filterMap_cons, List.filter_cons]
    cases f.write s with
    | none => exact ih
    | some v => exact congrArg (f.name :: ·) ih

theorem nodup_keys_writeMembers (hn : r.fieldNames.Nodup) : (keys (r.writeMembers s)).Nodup := by
  rw [keys_writeMembers]
  exact hn.sublist (List.filter_sublist.map Field.name)

theorem find?_writeMembers_eq_some_iff (hn : r.fieldNames.Nodup) {name : String} {v : Json} :
    find? name (r.writeMembers s) = some v ↔
      ∃ f ∈ r.fields, f.name = name ∧ f.write s = some v := by
  rw [find?_eq_some_iff_mem (nodup_keys_writeMembers hn), mem_writeMembers_iff]

/-- The value in a place of a written record stands in what a field writes. -/
theorem at?_write_eq_some_iff (hn : r.fieldNames.Nodup) {key : String} {p : List String}
    {v : Json} : (r.codec.write s).at? (key :: p) = some v ↔
      ∃ f ∈ r.fields, f.name = key ∧ ∃ w, f.write s = some w ∧ w.at? p = some v := by
  show (Json.object (r.writeMembers s)).at? (key :: p) = some v ↔ _
  rw [at?_cons_object, Option.bind_eq_some_iff]
  constructor
  · rintro ⟨w, hw, hv⟩
    obtain ⟨f, hf, hname, hw⟩ := (find?_writeMembers_eq_some_iff hn).mp hw
    exact ⟨f, hf, hname, w, hw, hv⟩
  · rintro ⟨f, hf, hname, w, hw, hv⟩
    exact ⟨w, (find?_writeMembers_eq_some_iff hn).mpr ⟨f, hf, hname, hw⟩, hv⟩

theorem at?_singleton_write_eq_some_iff (hn : r.fieldNames.Nodup) {key : String} {v : Json} :
    (r.codec.write s).at? [key] = some v ↔
      ∃ f ∈ r.fields, f.name = key ∧ f.write s = some v := by
  rw [at?_write_eq_some_iff hn]
  refine exists_congr fun f => and_congr_right fun _ => and_congr_right fun _ => ?_
  exact ⟨fun ⟨w, hw, hv⟩ => hw.trans hv, fun hw => ⟨v, hw, rfl⟩⟩

/-- What is written as null of a record are its options, each given with whether it is absent, that
are absent. -/
def Nulls (r : Record σ) (options : σ → List (String × Bool)) : Prop :=
  ∀ s name, (r.codec.write s).at? [name] = some .null ↔ (name, true) ∈ options s

/-- The members that are left are those of the fields that are left: by induction on them. -/
theorem readMembers_filterMap (hn : r.fieldNames.Nodup) {fields : List (Field σ)}
    (hf : ∀ f ∈ fields, f ∈ r.fields) {changes : List (σ → σ)}
    (h : List.Forall₂ (fun f change => f.Sends s change) fields changes) (t : σ) :
    r.readMembers t (fields.filterMap fun f => (f.write s).map fun v => (f.name, v)) =
      .ok (changes.foldl (fun t change => change t) t) := by
  induction h generalizing t with
  | nil => rfl
  | @cons f change fields changes hsend _ ih =>
    obtain ⟨hmem, hf⟩ := List.forall_mem_cons.mp hf
    rw [Field.Sends] at hsend
    rw [List.filterMap_cons, List.foldl_cons]
    cases hw : f.write s with
    | none =>
      rw [hw] at hsend
      rw [hsend.2 t]
      exact ih hf t
    | some v =>
      rw [hw] at hsend
      show r.readMembers t ((f.name, v) :: _) = _
      rw [readMembers, field?_name hn hmem]
      show (f.read v t >>= fun t => r.readMembers t _) = _
      rw [hsend t]
      exact ih hf (change t)

/-- Every field that must be given is written. -/
theorem write_ne_none_of_required {fields : List (Field σ)} {changes : List (σ → σ)}
    (h : List.Forall₂ (fun f change => f.Sends s change) fields changes) :
    ∀ f ∈ fields, f.required = true → f.write s ≠ none := by
  induction h with
  | nil => exact fun _ hf => absurd hf List.not_mem_nil
  | cons hsend _ ih =>
    refine List.forall_mem_cons.mpr ⟨fun hr hw => ?_, ih⟩
    rw [Field.Sends, hw] at hsend
    exact absurd (hr.symm.trans hsend.1) (by decide)

theorem missing?_writeMembers (h : ∀ f ∈ r.fields, f.required = true → f.write s ≠ none) :
    r.missing? (keys (r.writeMembers s)) = none := by
  rw [missing?, Option.map_eq_none_iff, List.find?_eq_none]
  intro f hf hmissing
  rw [Bool.and_eq_true, Bool.not_eq_true', List.contains_eq_mem, decide_eq_false_iff_not]
    at hmissing
  obtain ⟨v, hw⟩ := Option.ne_none_iff_exists'.mp (h f hf hmissing.1)
  exact hmissing.2 (List.mem_map.mpr ⟨(f.name, v), mem_writeMembers_iff.mpr ⟨f, hf, rfl, hw⟩, rfl⟩)

/-- An instance reads back if the changes that its fields send make it out of the blank one. -/
theorem roundTrips {changes : List (σ → σ)} (hn : r.fieldNames.Nodup)
    (h : List.Forall₂ (fun f change => f.Sends s change) r.fields changes)
    (hs : changes.foldl (fun t change => change t) r.blank = s) : r.codec.RoundTrips s := by
  have hmembers : r.readMembers r.blank (r.writeMembers s) = .ok s := by
    rw [writeMembers, readMembers_filterMap hn (fun _ hf => hf) h, hs]
  show r.read (.object (r.writeMembers s)) = .ok s
  rw [read, missing?_writeMembers (write_ne_none_of_required h)]
  exact bind_of_ok hmembers rfl

/-! ## What every instance that is read has -/

theorem readMembers_keeps {P : σ → Prop}
    (hf : ∀ f ∈ r.fields, ∀ v t t', P t → f.read v t = .ok t' → P t') {members : Members} {t t' : σ}
    (ht : P t) (h : r.readMembers t members = .ok t') : P t' := by
  induction members generalizing t with
  | nil =>
    cases h
    exact ht
  | cons m members ih =>
    obtain ⟨name, v⟩ := m
    rw [readMembers] at h
    split at h
    · rename_i f hfield
      obtain ⟨next, hnext, h⟩ := bind_eq_ok h
      exact ih (hf f (List.mem_of_find?_eq_some hfield) v t next ht hnext) h
    · split at h
      · exact ih ht h
      · cases h

theorem readArray_keeps {P : σ → Prop} {fields : List (Field σ)}
    (hf : ∀ f ∈ fields, ∀ v t t', P t → f.read v t = .ok t' → P t') {items : List Json} {t t' : σ}
    (ht : P t) (h : r.readArray t fields items = .ok t') : P t' := by
  induction fields generalizing items t with
  | nil =>
    rw [readArray] at h
    cases h
    exact ht
  | cons f fields ih =>
    obtain ⟨hfirst, hf⟩ := List.forall_mem_cons.mp hf
    cases items with
    | nil =>
      rw [readArray] at h
      split at h
      · cases h
      · cases h
        exact ht
    | cons v items =>
      obtain ⟨next, hnext, h⟩ := bind_eq_ok h
      exact ih hf (hfirst v t next ht hnext) h

/-- What the blank instance has and every field keeps, every instance has that is read. -/
theorem of_read {P : σ → Prop} (hblank : P r.blank)
    (hf : ∀ f ∈ r.fields, ∀ v t t', P t → f.read v t = .ok t' → P t') {v : Json}
    (h : r.read v = .ok s) : P s := by
  cases v with
  | object members =>
    obtain ⟨t, ht, h⟩ := bind_eq_ok h
    split at h
    · cases h
    · cases h
      exact readMembers_keeps hf hblank ht
  | array items =>
    obtain ⟨t, ht, h⟩ := bind_eq_ok h
    split at h
    · cases h
    · cases h
      exact readArray_keeps hf hblank ht
  | _ => cases h

end Record

end ApiReview.Json
