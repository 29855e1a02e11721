import ApiReview.Proofs.Json.Overlay
import ApiReview.Proofs.Json.Records
import ApiReview.Proofs.Outcome

/-!
# Documents that are alike but for some values

Two documents are alike (`Like`) if they have the same keys in the same order, and what stands in
one place in them, where that is no object, is related. Laying documents over each other keeps them
alike (`Like.overlay`), and so does changing values in related ways (`LikeMembers.change`). A record
is read from documents that are alike to instances that are related in turn, if its fields are
(`Record.readsLike`).
-/

namespace ApiReview.Json

/-- How values are related, place by place: each place is given by the keys on the way to it. -/
abbrev Relation := List String → Json → Json → Prop

/-- The relation below a key. -/
abbrev Relation.below (r : Relation) (key : String) : Relation := fun p => r (key :: p)

mutual

/-- Values with the same keys and related values in the same places. -/
inductive Like : Relation → Json → Json → Prop where
  | value {r : Relation} {v w : Json} (hv : v.isObject = false) (hw : w.isObject = false)
      (h : r [] v w) : Like r v w
  | object {r : Relation} {ms ns : Members} (h : LikeMembers r ms ns) :
      Like r (.object ms) (.object ns)

/-- Members with the same keys in the same order, and values that are alike. -/
inductive LikeMembers : Relation → Members → Members → Prop where
  | nil {r : Relation} : LikeMembers r [] []
  | cons {r : Relation} {key : String} {v w : Json} {ms ns : Members} (h : Like (r.below key) v w)
      (rest : LikeMembers r ms ns) : LikeMembers r ((key, v) :: ms) ((key, w) :: ns)

end

variable {r r' : Relation} {v w : Json} {ms ns : Members} {key : String}

theorem Like.isObject_eq (h : Like r v w) : v.isObject = w.isObject := by
  cases h with
  | value hv hw => rw [hv, hw]
  | object => rfl

theorem Like.of_not_object (h : Like r v w) (hv : v.isObject = false) : r [] v w := by
  cases h with
  | value _ _ h => exact h
  | object => cases hv

theorem Like.members (h : Like r (.object ms) w) : ∃ ns, w = .object ns ∧ LikeMembers r ms ns := by
  cases h with
  | value hv => cases hv
  | object h => exact ⟨_, rfl, h⟩

/-! ## Where values are related to themselves -/

mutual

/-- A value is alike to itself if each place in it is. -/
theorem like_refl : ∀ (v : Json) {r : Relation}, Distinct v →
    (∀ p u, v.at? p = some u → u.isObject = false → r p u u) → Like r v v
  | .null, _, _, h | .boolean _, _, _, h | .number _, _, _, h | .string _, _, _, h
  | .array _, _, _, h => .value rfl rfl (h [] _ rfl rfl)
  | .object ms, _, hd, h => .object (likeMembers_refl ms hd h)

theorem likeMembers_refl : ∀ (ms : Members) {r : Relation}, DistinctMembers ms →
    (∀ p u, (Json.object ms).at? p = some u → u.isObject = false → r p u u) → LikeMembers r ms ms
  | [], _, _, _ => .nil
  | (key, v) :: ms, r, ⟨hfresh, hv, hd⟩, h => by
    refine .cons (like_refl v hv fun p u hu => h (key :: p) u ?_)
      (likeMembers_refl ms hd fun p u hu ho => h p u ?_ ho)
    · rw [at?_cons_object, find?, if_pos rfl]
      exact hu
    · cases p with
      | nil =>
        cases hu
        cases ho
      | cons k p =>
        rw [at?_cons_object] at hu ⊢
        obtain ⟨w, hw, hu⟩ := Option.bind_eq_some_iff.mp hu
        have hne : key ≠ k := by
          rintro rfl
          rw [hfresh] at hw
          cases hw
        rw [find?, if_neg hne, hw]
        exact hu

end

mutual

theorem Like.imp : ∀ {v w : Json} {r r' : Relation}, Like r v w →
    (∀ p v w, r p v w → r' p v w) → Like r' v w
  | _, _, _, _, .value hv hw h, hr => .value hv hw (hr _ _ _ h)
  | _, _, _, _, .object h, hr => .object (h.imp hr)

theorem LikeMembers.imp : ∀ {ms ns : Members} {r r' : Relation}, LikeMembers r ms ns →
    (∀ p v w, r p v w → r' p v w) → LikeMembers r' ms ns
  | _, _, _, _, .nil, _ => .nil
  | _, _, _, _, .cons h rest, hr => .cons (h.imp fun p => hr (_ :: p)) (rest.imp hr)

end

mutual

/-- Values that are equal in every place are equal. -/
theorem Like.eq : ∀ {v w : Json} {r : Relation}, Like r v w → (∀ p v w, r p v w → v = w) → v = w
  | _, _, _, .value _ _ h, hr => hr _ _ _ h
  | _, _, _, .object h, hr => congrArg Json.object (h.eq hr)

theorem LikeMembers.eq : ∀ {ms ns : Members} {r : Relation}, LikeMembers r ms ns →
    (∀ p v w, r p v w → v = w) → ms = ns
  | _, _, _, .nil, _ => rfl
  | _, _, _, .cons h rest, hr => by rw [h.eq fun p => hr (_ :: p), rest.eq hr]

end

/-! ## Keys -/

theorem LikeMembers.keys_eq (h : LikeMembers r ms ns) : keys ms = keys ns := by
  induction ms generalizing ns with
  | nil =>
    cases h
    rfl
  | cons m ms ih =>
    cases h with
    | cons h rest => exact congrArg (_ :: ·) (ih rest)

theorem LikeMembers.find? (h : LikeMembers r ms ns) (key : String) :
    Option.Rel (Like (r.below key)) (find? key ms) (find? key ns) := by
  induction ms generalizing ns with
  | nil =>
    cases h
    exact .none
  | cons m ms ih =>
    cases h with
    | @cons _ k v w _ ns h rest =>
      rw [Json.find?, Json.find?]
      split
      · rename_i e
        exact .some (e ▸ h)
      · exact ih rest

/-- What stands in a place is alike, below that place. -/
theorem Like.at? {p : List String} (h : Like r v w) :
    Option.Rel (Like fun q => r (p ++ q)) (v.at? p) (w.at? p) := by
  induction p generalizing r v w with
  | nil => exact .some h
  | cons key p ih =>
    cases h with
    | value hv hw =>
      rw [at?_cons_of_not_object hv, at?_cons_of_not_object hw]
      exact .none
    | @object _ ms ns h =>
      rw [at?_cons_object, at?_cons_object]
      have hfind := h.find? key
      cases hv : Json.find? key ms <;> cases hw : Json.find? key ns <;> rw [hv, hw] at hfind
      · exact .none
      · cases hfind
      · cases hfind
      · cases hfind with
        | some h => exact ih h

/-! ## Changes -/

theorem LikeMembers.append (h : LikeMembers r ms ns) {more more' : Members}
    (h' : LikeMembers r more more') : LikeMembers r (ms ++ more) (ns ++ more') := by
  induction ms generalizing ns with
  | nil =>
    cases h
    exact h'
  | cons m ms ih =>
    cases h with
    | cons h rest => exact .cons h (ih rest)

theorem LikeMembers.put (h : LikeMembers r ms ns) (hv : Like (r.below key) v w) :
    LikeMembers r (put key v ms) (put key w ns) := by
  induction ms generalizing ns with
  | nil =>
    cases h
    exact .cons hv .nil
  | cons m ms ih =>
    cases h with
    | @cons _ k u u' _ ns h rest =>
      rw [Json.put, Json.put]
      split
      · rename_i e
        exact .cons (e ▸ hv) rest
      · exact .cons h (ih rest)

theorem LikeMembers.change (h : LikeMembers r ms ns) {f g : Json → Json}
    (hf : ∀ v w, Like (r.below key) v w → Like (r.below key) (f v) (g w)) :
    LikeMembers r (change key f ms) (change key g ns) := by
  induction ms generalizing ns with
  | nil =>
    cases h
    exact .nil
  | cons m ms ih =>
    cases h with
    | @cons _ k v w _ ns h rest =>
      rw [Json.change, Json.change]
      split
      · rename_i e
        exact .cons (e ▸ hf v w (e ▸ h)) rest
      · exact .cons h (ih rest)

/-- Members that are alike end in members that are. -/
theorem LikeMembers.of_concat {ms' : Members} {k : String}
    (h : LikeMembers r (ms' ++ [(k, v)]) ns) :
    ∃ ns' w, ns = ns' ++ [(k, w)] ∧ LikeMembers r ms' ns' ∧ Like (r.below k) v w := by
  induction ms' generalizing ns with
  | nil =>
    cases h with
    | @cons _ _ _ w _ _ h rest =>
      cases rest
      exact ⟨[], w, rfl, .nil, h⟩
  | cons m ms' ih =>
    cases h with
    | @cons _ key' v' w' _ ns h rest =>
      obtain ⟨ns', w, rfl, hinit, hlast⟩ := ih rest
      exact ⟨(key', w') :: ns', w, rfl, .cons h hinit, hlast⟩

theorem LikeMembers.takeOut (h : LikeMembers r ms ns) (key : String) :
    LikeMembers r (takeOut key ms) (takeOut key ns) := by
  induction ms generalizing ns with
  | nil =>
    cases h
    exact .nil
  | cons m ms ih =>
    cases h with
    | @cons _ k v w _ ns h rest =>
      rw [Json.takeOut, Json.takeOut]
      split
      · -- The last member takes the place of the one that is taken out.
        rcases List.eq_nil_or_concat ms with rfl | ⟨init, ⟨k', v'⟩, rfl⟩
        · cases rest
          exact .nil
        · rw [List.concat_eq_append] at rest ⊢
          obtain ⟨ns', w', rfl, hinit, hlast⟩ := rest.of_concat
          rw [List.getLast?_concat, List.getLast?_concat, List.dropLast_concat,
            List.dropLast_concat]
          exact .cons hlast hinit
      · exact .cons h (ih rest)

/-! ## One document over another -/

mutual

/-- Documents that are alike, laid over documents that are alike. -/
theorem Like.overlay : ∀ {top top' base base' : Json} {r : Relation}, Like r top top' →
    Like r base base' → Like r (overlay base top) (overlay base' top')
  | _, _, _, _, _, .value hv hw h, _ => by
    rw [overlay_of_not_object hv, overlay_of_not_object hw]
    exact .value hv hw h
  | _, _, _, _, _, .object h, hbase => by
    cases hbase with
    | value hv hw =>
      rw [overlay_object_of_not_object hv, overlay_object_of_not_object hw]
      exact .object h
    | object hbase =>
      rw [overlay_object, overlay_object]
      exact .object (h.overlay hbase)

theorem LikeMembers.overlay : ∀ {top top' base base' : Members} {r : Relation},
    LikeMembers r top top' → LikeMembers r base base' →
    LikeMembers r (overlayMembers base top) (overlayMembers base' top')
  | _, _, _, _, _, .nil, hbase => by
    rw [overlayMembers, overlayMembers]
    exact hbase
  | _, _, base, base', _, @LikeMembers.cons _ key v w _ _ h rest, hbase => by
    rw [overlayMembers_cons, overlayMembers_cons]
    refine rest.overlay ?_
    have hfind := hbase.find? key
    unfold layMember
    cases hv : Json.find? key base <;> cases hw : Json.find? key base' <;> rw [hv, hw] at hfind
    · exact hbase.append (.cons h .nil)
    · cases hfind
    · cases hfind
    · cases hfind with
      | some hold => exact hbase.put (h.overlay hold)

end

/-! ## Reading records -/

/-- A codec reads values that are alike to instances that a function takes to each other. -/
def ReadsLike {α : Type} (r : Relation) (c : Codec α) (m : α → α) : Prop :=
  ∀ v w, Distinct v → Like r v w → (c.read w).toOption = (c.read v).toOption.map m

variable {α σ : Type} {c : Codec α} {m : α → α}

/-- Where values are equal, what is read from them is. -/
theorem readsLike_of_eq (c : Codec α) (h : ∀ p v w, r p v w → v = w) : ReadsLike r c id := by
  intro v w _ hvw
  rw [hvw.eq h, Option.map_id]
  rfl

theorem ReadsLike.optional (h : ReadsLike r c m)
    (hnull : ∀ v w, r [] v w → (v = .null ↔ w = .null)) :
    ReadsLike r c.optional (Option.map m) := by
  have hread : ∀ {v : Json}, v ≠ .null →
      (c.optional.read v).toOption = (c.read v).toOption.map some := fun {v} hv => by
    cases v with
    | null => exact absurd rfl hv
    | _ =>
      show ((c.read _).map some).toOption = _
      cases c.read _ <;> rfl
  intro v w hd hvw
  by_cases hv : v = .null
  · subst hv
    obtain rfl := (hnull _ _ (hvw.of_not_object rfl)).mp rfl
    rfl
  · have hw : w ≠ .null := by
      rintro rfl
      cases hvw with
      | value _ _ hr => exact hv ((hnull _ _ hr).mpr rfl)
    rw [hread hv, hread hw, h v w hd hvw]
    cases (c.read v).toOption <;> rfl

/-- A field reads values that are alike to instances that a function takes to each other. -/
def Field.ReadsLike (r : Relation) (f : Field σ) (m : σ → σ) : Prop :=
  ∀ v w, Distinct v → Like (r.below f.name) v w → ∀ s,
    (f.read w (m s)).toOption = (f.read v s).toOption.map m

theorem Field.readsLike {f : Field σ} {m' : σ → σ} {set : α → σ → σ}
    (hread : ∀ v s, f.read v s = (c.read v).map (set · s)) (h : Json.ReadsLike (r.below f.name) c m)
    (hset : ∀ a s, set (m a) (m' s) = m' (set a s)) : f.ReadsLike r m' := by
  intro v w hd hvw s
  have hvalues := h v w hd hvw
  rw [hread, hread]
  generalize c.read v = x at hvalues
  generalize c.read w = y at hvalues
  cases x <;> cases y
  · rfl
  · cases hvalues
  · cases hvalues
  · cases hvalues
    exact congrArg some (hset _ s)

theorem Record.readMembers_like {q : Record σ} {m : σ → σ}
    (hfields : ∀ f ∈ q.fields, f.ReadsLike r m) (hd : DistinctMembers ms)
    (h : LikeMembers r ms ns) (s : σ) :
    (q.readMembers (m s) ns).toOption = (q.readMembers s ms).toOption.map m := by
  induction ms generalizing ns s with
  | nil =>
    cases h
    rfl
  | cons member ms ih =>
    cases h with
    | @cons _ key v w _ ns h rest =>
      obtain ⟨-, hv, hd⟩ := hd
      rw [Record.readMembers, Record.readMembers]
      cases hf : q.field? key with
      | none =>
        dsimp only
        split
        · exact ih hd rest s
        · rfl
      | some f =>
        obtain ⟨hmem, rfl⟩ := Record.Reads.mem_of_field? hf
        have hread := hfields f hmem v w hv h s
        dsimp only
        generalize f.read v s = x at hread
        generalize f.read w (m s) = y at hread
        cases x <;> cases y
        · rfl
        · cases hread
        · cases hread
        · cases hread
          exact ih hd rest _

/-- A record reads members that are alike to instances that a function takes to each other, if its
fields do. -/
theorem Record.read_object_like {q : Record σ} {m : σ → σ} (hblank : m q.blank = q.blank)
    (hfields : ∀ f ∈ q.fields, f.ReadsLike r m) (hd : DistinctMembers ms)
    (h : LikeMembers r ms ns) :
    (q.read (.object ns)).toOption = (q.read (.object ms)).toOption.map m := by
  have hmembers := q.readMembers_like hfields hd h q.blank
  rw [hblank] at hmembers
  show (q.readMembers q.blank ns >>= _).toOption = (q.readMembers q.blank ms >>= _).toOption.map m
  rw [← h.keys_eq]
  generalize q.readMembers q.blank ms = x at hmembers
  generalize q.readMembers q.blank ns = y at hmembers
  cases x <;> cases y
  · rfl
  · cases hmembers
  · cases hmembers
  · cases hmembers
    simp only [bind, Except.bind]
    cases q.missing? (keys ms) <;> rfl

/-- A record reads values that are alike to instances that a function takes to each other, if its
fields do, and if it does so where it is not given by its members. -/
theorem Record.readsLike {q : Record σ} {m : σ → σ} (hblank : m q.blank = q.blank)
    (hfields : ∀ f ∈ q.fields, f.ReadsLike r m)
    (hvalue : ∀ v w, Distinct v → v.isObject = false → r [] v w →
      (q.read w).toOption = (q.read v).toOption.map m) : Json.ReadsLike r q.codec m := by
  intro v w hd hvw
  cases hvw with
  | value hv hw h => exact hvalue v w hd hv h
  | object h => exact Record.read_object_like hblank hfields hd h

end ApiReview.Json
