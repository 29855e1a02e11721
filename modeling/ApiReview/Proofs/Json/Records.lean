import ApiReview.Json.Codec
import ApiReview.Proofs.Json.Keys
import Mathlib.Data.List.Nodup

/-!
# The components of records

A record is read member by member, or item by item where it is given as an array. A component that
one field sets, and every other field leaves alone (`Record.Reads`), has after reading what that
field's codec reads from the field's value (`Reads.get_read`), wherever the value stands. Putting
another value in the place of the field's one sets the component and nothing else
(`Reads.read_change`).
-/

namespace ApiReview.Json

open Codec

variable {σ α : Type}

/-- A component of the instances of a type, with the way to get and set it. -/
structure Component (σ α : Type) where
  get : σ → α
  set : α → σ → σ
  get_set : ∀ a s, get (set a s) = a := by intros; rfl
  set_get : ∀ s, set (get s) s = s := by intros; rfl
  set_set : ∀ a b s, set a (set b s) = set a s := by intros; rfl

/-- One field reads the component, by a codec, and no other field touches it. -/
structure Record.Reads (r : Record σ) (name : String) (c : Codec α) (x : Component σ α) : Prop where
  distinct : r.fieldNames.Nodup
  named : name ∈ r.fieldNames
  own : ∀ f ∈ r.fields, f.name = name → ∀ v s, f.read v s = (c.read v).map (x.set · s)
  other : ∀ f ∈ r.fields, f.name ≠ name → ∀ v s a, f.read v (x.set a s) = (f.read v s).map (x.set a)

/-- The value of a field, whether the record is given by its members or as an array. -/
def Record.valueOf? (r : Record σ) (name : String) : Json → Option Json
  | .object members => find? name members
  | .array items => items[r.fieldNames.idxOf name]?
  | _ => none

/-- The value of a field by its place, where the record is given as an array. -/
def Record.listed? (r : Record σ) (name : String) : Json → Option Json
  | .array items => items[r.fieldNames.idxOf name]?
  | _ => none

/-- A field has its value by its name or by its place. -/
theorem Record.valueOf?_eq_some_iff {r : Record σ} {name : String} {v w : Json} :
    r.valueOf? name v = some w ↔ v.get? name = some w ∨ r.listed? name v = some w := by
  cases v <;> simp only [Record.valueOf?, Record.listed?, get?, reduceCtorEq, or_false, false_or]

theorem DistinctItems.mem {items : List Json} (h : DistinctItems items) {v : Json}
    (hv : v ∈ items) : Distinct v := by
  induction items with
  | nil => cases hv
  | cons w rest ih =>
    rcases List.mem_cons.mp hv with rfl | hv
    · exact h.1
    · exact ih h.2 hv

theorem Record.distinct_valueOf? {r : Record σ} {name : String} {v w : Json} (hd : Distinct v)
    (h : r.valueOf? name v = some w) : Distinct w := by
  cases v with
  | object members => exact DistinctMembers.find? hd h
  | array items => exact DistinctItems.mem hd (List.mem_of_getElem? h)
  | _ => cases h

/-- A field that sets another component commutes with setting this one. -/
theorem Field.read_of_comm {β : Type} {f : Field σ} {c : Codec β} {set' : β → σ → σ}
    {set : α → σ → σ} (hf : ∀ v s, f.read v s = (c.read v).map (set' · s))
    (h : ∀ a b s, set' b (set a s) = set a (set' b s)) (v : Json) (s : σ) (a : α) :
    f.read v (set a s) = (f.read v s).map (set a) := by
  rw [hf, hf]
  cases c.read v with
  | error e => rfl
  | ok b => exact congrArg Except.ok (h a b s)

/-- The fields of a record with names of their own; the one in the given place is for the
component, and those in the other places leave it alone. -/
theorem Record.reads_at {r : Record σ} {name : String} {c : Codec α} {x : Component σ α} (i : Nat)
    (distinct : r.fieldNames.Nodup) {f : Field σ} (hi : r.fields[i]? = some f)
    (hname : f.name = name) (own : ∀ v s, f.read v s = (c.read v).map (x.set · s))
    (other : ∀ g ∈ r.fields.eraseIdx i,
      ∀ v s a, g.read v (x.set a s) = (g.read v s).map (x.set a)) : r.Reads name c x where
  distinct := distinct
  named := List.mem_map.mpr ⟨f, List.mem_of_getElem? hi, hname⟩
  own g hg hgname v s := by
    rw [List.inj_on_of_nodup_map distinct hg (List.mem_of_getElem? hi) (hgname.trans hname.symm),
      own]
  other g hg hgname := by
    obtain ⟨j, hj⟩ := List.mem_iff_getElem?.mp hg
    have hne : j ≠ i := by
      rintro rfl
      exact hgname (Option.some.inj (hj.symm.trans hi) ▸ hname)
    exact other g (List.mem_eraseIdx_iff_getElem?.mpr ⟨j, hne, hj⟩)

namespace Record.Reads

variable {r : Record σ} {name : String} {c : Codec α} {x : Component σ α}

/-- What the field reads is set. -/
theorem get_of_own (h : r.Reads name c x) {f : Field σ} (hf : f ∈ r.fields) (hn : f.name = name)
    {v : Json} {s s' : σ} (hr : f.read v s = .ok s') : c.read v = .ok (x.get s') := by
  rw [h.own f hf hn] at hr
  obtain ⟨a, ha, rfl⟩ := map_eq_ok hr
  rw [ha, x.get_set]

/-- What another field reads leaves the component alone. -/
theorem get_of_other (h : r.Reads name c x) {f : Field σ} (hf : f ∈ r.fields) (hn : f.name ≠ name)
    {v : Json} {s s' : σ} (hr : f.read v s = .ok s') : x.get s' = x.get s := by
  have hset := h.other f hf hn v s (x.get s)
  rw [x.set_get, hr] at hset
  rw [Except.ok.inj hset, x.get_set]

/-- A value other than null is read by the codec itself. -/
theorem exists_of_optional {c : Codec α} {v : Json} (hv : v ≠ .null) {o : Option α}
    (h : c.optional.read v = .ok o) : ∃ a, c.read v = .ok a ∧ o = some a := by
  cases v with
  | null => exact absurd rfl hv
  | _ =>
    obtain ⟨a, ha, rfl⟩ := map_eq_ok h
    exact ⟨a, ha, rfl⟩

theorem mem_of_field? {key : String} {f : Field σ} (h : r.field? key = some f) :
    f ∈ r.fields ∧ f.name = key := by
  rw [Record.field?] at h
  exact ⟨List.mem_of_find?_eq_some h, by simpa using List.find?_some h⟩

/-! ## By members -/

/-- Members that do not have the field leave the component alone. -/
theorem get_readMembers_of_none (h : r.Reads name c x) {members : Members}
    (hnone : find? name members = none) {s s' : σ} (hr : r.readMembers s members = .ok s') :
    x.get s' = x.get s := by
  induction members generalizing s with
  | nil => rw [← Except.ok.inj hr]
  | cons m rest ih =>
    obtain ⟨key, v⟩ := m
    rw [find?] at hnone
    split at hnone
    · cases hnone
    · rename_i hne
      rw [Record.readMembers] at hr
      split at hr
      · rename_i f hf
        obtain ⟨hmem, hname⟩ := mem_of_field? hf
        obtain ⟨s₁, hs₁, hr⟩ := bind_eq_ok hr
        rw [ih hnone hr, h.get_of_other hmem (hname ▸ hne) hs₁]
      · split at hr
        · exact ih hnone hr
        · cases hr

/-- The component is what the codec reads from the field's value. -/
theorem get_readMembers_of_some (h : r.Reads name c x) {members : Members}
    (hd : DistinctMembers members) {w : Json} (hsome : find? name members = some w) {s s' : σ}
    (hr : r.readMembers s members = .ok s') : c.read w = .ok (x.get s') := by
  induction members generalizing s with
  | nil => cases hsome
  | cons m rest ih =>
    obtain ⟨key, v⟩ := m
    obtain ⟨hfresh, -, hd⟩ := hd
    rw [find?] at hsome
    rw [Record.readMembers] at hr
    by_cases e : key = name
    · subst e
      rw [if_pos rfl] at hsome
      cases hsome
      split at hr
      · rename_i f hf
        obtain ⟨hmem, hname⟩ := mem_of_field? hf
        obtain ⟨s₁, hs₁, hr⟩ := bind_eq_ok hr
        rw [h.get_readMembers_of_none hfresh hr, h.get_of_own hmem hname hs₁]
      · rename_i hf
        -- The record has a field of that name.
        obtain ⟨f, hmem, hname⟩ := List.mem_map.mp h.named
        exact absurd (decide_eq_true hname) (List.find?_eq_none.mp hf f hmem)
    · rw [if_neg e] at hsome
      split at hr
      · obtain ⟨s₁, -, hr⟩ := bind_eq_ok hr
        exact ih hd hsome hr
      · split at hr
        · exact ih hd hsome hr
        · cases hr

/-! ## By items -/

/-- Fields that do not include this one leave the component alone. -/
theorem get_readArray_of_not_mem (h : r.Reads name c x) {fields : List (Field σ)}
    (hf : ∀ f ∈ fields, f ∈ r.fields) (hnot : name ∉ fields.map Field.name) {items : List Json}
    {s s' : σ} (hr : r.readArray s fields items = .ok s') : x.get s' = x.get s := by
  induction fields generalizing items s with
  | nil =>
    rw [Record.readArray] at hr
    rw [← Except.ok.inj hr]
  | cons f fields ih =>
    rw [List.map_cons, List.mem_cons, not_or] at hnot
    cases items with
    | nil =>
      rw [Record.readArray] at hr
      split at hr
      · cases hr
      · rw [← Except.ok.inj hr]
    | cons v items =>
      rw [Record.readArray] at hr
      obtain ⟨s₁, hs₁, hr⟩ := bind_eq_ok hr
      rw [ih (fun g hg => hf g (List.mem_cons_of_mem _ hg)) hnot.2 hr,
        h.get_of_other (hf f List.mem_cons_self) (Ne.symm hnot.1) hs₁]

/-- The component is what the codec reads from the item in the field's place, if there is one. -/
theorem get_readArray (h : r.Reads name c x) {fields : List (Field σ)}
    (hf : ∀ f ∈ fields, f ∈ r.fields) (hnodup : (fields.map Field.name).Nodup)
    (hmem : name ∈ fields.map Field.name) {items : List Json} {s s' : σ}
    (hr : r.readArray s fields items = .ok s') :
    match items[(fields.map Field.name).idxOf name]? with
    | some w => c.read w = .ok (x.get s')
    | none => x.get s' = x.get s := by
  induction fields generalizing items s with
  | nil => cases hmem
  | cons f fields ih =>
    have hrest : ∀ g ∈ fields, g ∈ r.fields := fun g hg => hf g (List.mem_cons_of_mem _ hg)
    rw [List.map_cons] at hnodup hmem ⊢
    obtain ⟨hfresh, hnodup⟩ := List.nodup_cons.mp hnodup
    cases items with
    | nil =>
      rw [Record.readArray] at hr
      split at hr
      · cases hr
      · rw [← Except.ok.inj hr]
        rfl
    | cons v items =>
      rw [Record.readArray] at hr
      obtain ⟨s₁, hs₁, hr⟩ := bind_eq_ok hr
      by_cases e : f.name = name
      · subst e
        rw [List.idxOf_cons_self, List.getElem?_cons_zero]
        show c.read v = .ok (x.get s')
        rw [h.get_readArray_of_not_mem hrest hfresh hr,
          h.get_of_own (hf f List.mem_cons_self) rfl hs₁]
      · have hlater := ih hrest hnodup ((List.mem_cons.mp hmem).resolve_left (Ne.symm e)) hr
        rw [List.idxOf_cons, cond_eq_ite, if_neg (by simpa using e), List.getElem?_cons_succ]
        split at hlater
        · exact hlater
        · rw [hlater, h.get_of_other (hf f List.mem_cons_self) e hs₁]

/-- After reading, the component is what the codec reads from the field's value; without such a
value it is as in the blank record. -/
theorem get_read (h : r.Reads name c x) {v : Json} (hd : Distinct v) {s : σ}
    (hr : r.read v = .ok s) :
    match r.valueOf? name v with
    | some w => c.read w = .ok (x.get s)
    | none => x.get s = x.get r.blank := by
  cases v with
  | object members =>
    obtain ⟨s', hs', hr⟩ := bind_eq_ok hr
    have hs : s' = s := by
      split at hr
      · cases hr
      · exact Except.ok.inj hr
    subst hs
    show match find? name members with | some w => _ | none => _
    split
    · rename_i w hw
      exact h.get_readMembers_of_some hd hw hs'
    · rename_i hnone
      exact h.get_readMembers_of_none hnone hs'
  | array items =>
    obtain ⟨s', hs', hr⟩ := bind_eq_ok hr
    have hs : s' = s := by
      split at hr
      · cases hr
      · exact Except.ok.inj hr
    subst hs
    exact h.get_readArray (fun _ hf => hf) h.distinct h.named hs'
  | _ => cases hr

/-! ## Texts -/

/-- An optional text is what its value is as a text. -/
theorem eq_some_iff_of_read {v : Json} {o : Option String}
    (h : Codec.string.optional.read v = .ok o) (s : String) : o = some s ↔ v = .string s := by
  cases v with
  | null => cases h; simp only [reduceCtorEq]
  | string text => cases h; simp only [Option.some.injEq, Json.string.injEq]
  | _ => cases h

/-- The text that a record has is the one in its field. -/
theorem get_eq_some_iff {x : Component σ (Option String)}
    (h : r.Reads name Codec.string.optional x) (hblank : x.get r.blank = none) {v : Json}
    (hd : Distinct v) {s : σ} (hr : r.read v = .ok s) (text : String) :
    x.get s = some text ↔ r.valueOf? name v = some (.string text) := by
  have hread := h.get_read hd hr
  split at hread
  · rename_i w hw
    rw [eq_some_iff_of_read hread, hw, Option.some_inj]
  · rename_i hnone
    rw [hread, hblank, hnone]
    simp only [reduceCtorEq]

/-- The text that a part of a record has is the one in the field of the part. -/
theorem bind_get_eq_some_iff {τ : Type} {q : Record τ} {key : String}
    {x : Component σ (Option τ)} {y : Component τ (Option String)}
    (h : r.Reads key q.codec.optional x) (hblank : x.get r.blank = none)
    (hy : q.Reads name Codec.string.optional y) (hyblank : y.get q.blank = none) {v : Json}
    (hd : Distinct v) {s : σ} (hr : r.read v = .ok s) (text : String) :
    (x.get s).bind y.get = some text ↔
      (r.valueOf? key v).bind (q.valueOf? name) = some (.string text) := by
  have hread := h.get_read hd hr
  split at hread
  · rename_i w hw
    rw [hw, Option.bind_some]
    by_cases hnull : w = .null
    · subst hnull
      rw [← Except.ok.inj hread]
      simp only [Option.bind_none, Record.valueOf?, reduceCtorEq]
    · obtain ⟨t, ht, hget⟩ := exists_of_optional hnull hread
      rw [hget, Option.bind_some]
      exact hy.get_eq_some_iff hyblank (Record.distinct_valueOf? hd hw) ht text
  · rename_i hnone
    rw [hread, hblank, hnone]
    simp only [Option.bind_none, reduceCtorEq]

/-! ## Another value -/

/-- Members that do not have the field are read alike, whatever the component is. -/
theorem readMembers_set (h : r.Reads name c x) {members : Members}
    (hnone : find? name members = none) (a : α) (s : σ) :
    r.readMembers (x.set a s) members = (r.readMembers s members).map (x.set a) := by
  induction members generalizing s with
  | nil => rfl
  | cons m rest ih =>
    obtain ⟨key, v⟩ := m
    rw [find?] at hnone
    split at hnone
    · cases hnone
    · rename_i hne
      rw [Record.readMembers, Record.readMembers]
      cases hf : r.field? key with
      | none =>
        dsimp only
        split
        · exact ih hnone s
        · rfl
      | some f =>
        obtain ⟨hmem, hname⟩ := mem_of_field? hf
        dsimp only
        rw [h.other f hmem (hname ▸ hne)]
        cases f.read v s with
        | error e => rfl
        | ok s₁ => exact ih hnone s₁

/-- Another value of the field sets the component, and nothing else. -/
theorem readMembers_change (h : r.Reads name c x) {members : Members} (hd : DistinctMembers members)
    {v w : Json} (hv : find? name members = some v) {a b : α} (hb : c.read v = .ok b)
    (ha : c.read w = .ok a) (s : σ) :
    r.readMembers s (change name (fun _ => w) members) =
      (r.readMembers s members).map (x.set a) := by
  induction members generalizing s with
  | nil => cases hv
  | cons m rest ih =>
    obtain ⟨key, u⟩ := m
    obtain ⟨hfresh, -, hd⟩ := hd
    rw [find?] at hv
    rw [change]
    by_cases e : key = name
    · subst e
      rw [if_pos rfl] at hv ⊢
      cases hv
      rw [Record.readMembers, Record.readMembers]
      cases hf : r.field? key with
      | none =>
        obtain ⟨f, hmem, hname⟩ := List.mem_map.mp h.named
        exact absurd (decide_eq_true hname) (List.find?_eq_none.mp hf f hmem)
      | some f =>
        obtain ⟨hmem, hname⟩ := mem_of_field? hf
        dsimp only
        rw [h.own f hmem hname, h.own f hmem hname, ha, hb]
        show r.readMembers (x.set a s) rest = (r.readMembers (x.set b s) rest).map (x.set a)
        rw [← h.readMembers_set hfresh, x.set_set]
    · rw [if_neg e] at hv ⊢
      rw [Record.readMembers, Record.readMembers]
      cases r.field? key with
      | none =>
        dsimp only
        split
        · exact ih hd hv s
        · rfl
      | some f =>
        dsimp only
        cases f.read u s with
        | error e => rfl
        | ok s₁ => exact ih hd hv s₁

theorem keys_change (key : String) (f : Json → Json) (members : Members) :
    keys (change key f members) = keys members := by
  induction members with
  | nil => rfl
  | cons m rest ih =>
    rw [change]
    split
    · rfl
    · exact congrArg (m.1 :: ·) ih

/-- A record with another value of the field is the record with another component. -/
theorem read_change (h : r.Reads name c x) {members : Members} (hd : DistinctMembers members)
    {v w : Json} (hv : find? name members = some v) {a b : α} (hb : c.read v = .ok b)
    (ha : c.read w = .ok a) :
    r.read (.object (change name (fun _ => w) members)) =
      (r.read (.object members)).map (x.set a) := by
  show (r.readMembers r.blank _ >>= _) = (r.readMembers r.blank members >>= _).map _
  rw [h.readMembers_change hd hv hb ha, keys_change]
  cases r.readMembers r.blank members with
  | error e => rfl
  | ok s =>
    generalize r.missing? (keys members) = missing
    cases missing <;> rfl

end Record.Reads

end ApiReview.Json
