import ApiReview.Pipeline.Preamble
import ApiReview.Proofs.Message.Accounting
import ApiReview.Proofs.Pipeline.Steps

/-!
# Runs that go on

A run counts its warnings and takes none back, and it keeps its callback (`Run.Onward`); progress
messages leave the findings alone besides (`Router.Tells`), and all that comes before the analysis
is progress messages. So of two steps that do the same unless the first of them ends with a warning
counted (`Run.Agrees`), longer ones can be made that are so again.
-/

namespace ApiReview

/-- The callback changes the level of no message. -/
def Callback.KeepsLevels {σ : Type} (c : Callback σ) : Prop :=
  ∀ state m, (c.onMessage state m).2.level = m.level

theorem Callback.keepsLevels_none : Callback.none.KeepsLevels := fun _ _ => rfl

namespace Router

variable {σ : Type} {r r' r'' : Router σ}

/-- From one router to a later one: the callback is the same, and no warning is taken back. -/
structure Onward (r r' : Router σ) : Prop where
  callback : r'.callback = r.callback
  warnings : r.warnings ≤ r'.warnings

theorem Onward.refl (r : Router σ) : r.Onward r := ⟨rfl, Nat.le_refl _⟩

theorem Onward.trans (h : r.Onward r') (h' : r'.Onward r'') : r.Onward r'' :=
  ⟨h'.callback.trans h.callback, Nat.le_trans h.warnings h'.warnings⟩

theorem callback_count (r : Router σ) (level : Level) : (r.count level).callback = r.callback := by
  cases level <;> rfl

/-- From one router to a later one, with progress messages alone in between. -/
structure Tells (r r' : Router σ) : Prop extends Onward r r' where
  findings : r'.findings = r.findings

theorem Tells.refl (r : Router σ) : r.Tells r := ⟨.refl r, rfl⟩

theorem Tells.trans (h : r.Tells r') (h' : r'.Tells r'') : r.Tells r'' :=
  ⟨h.toOnward.trans h'.toOnward, h'.findings.trans h.findings⟩

theorem tells_deliver (r : Router σ) (m : Message) : r.Tells (r.deliver m).1 := by
  obtain ⟨hfindings, -, hwarnings⟩ := r.deliver_spec none m
  refine ⟨⟨?_, ?_⟩, hfindings⟩
  · cases hm : m.handled with
    | true => rw [deliver_of_handled r hm]
    | false =>
      rcases hc : r.callback.onMessage r.state (r.withRule m) with ⟨state, back⟩
      rw [deliver_of_open r hm hc]
      split
      · exact callback_count _ _
      · exact callback_count _ _
  · rw [hwarnings]
    exact Nat.le_add_right _ _

theorem tells_log (r : Router σ) (level : Level) (notice : Notice) (text : String) :
    r.Tells (r.log level notice text) :=
  r.tells_deliver _

/-- A relation of routers along which progress messages lead. -/
structure Telling (P : Router σ → Router σ → Prop) : Prop where
  refl : ∀ r, P r r
  trans : ∀ {r r' r''}, P r r' → P r' r'' → P r r''
  log : ∀ r level notice text, P r (r.log level notice text)

theorem telling_tells : Telling (Tells : Router σ → Router σ → Prop) :=
  ⟨.refl, .trans, tells_log⟩

theorem Telling.logDiagnostic {P : Router σ → Router σ → Prop} (hP : Telling P) (r : Router σ)
    (text : String) : P r (r.logDiagnostic text) := by
  rw [Router.logDiagnostic]
  split
  · exact hP.log _ _ _ _
  · exact hP.refl r

theorem tells_logDiagnostic (r : Router σ) (text : String) : r.Tells (r.logDiagnostic text) :=
  telling_tells.logDiagnostic r text

theorem onward_deliverAt (r : Router σ) (index : Nat) : r.Onward (r.deliverAt index) := by
  rw [deliverAt]
  split
  · rename_i m _
    exact ⟨(r.tells_deliver m).callback, (r.tells_deliver m).warnings⟩
  · exact .refl r

theorem onward_flush (r : Router σ) : r.Onward r.flush := by
  rw [flush]
  generalize r.findings.pending = indices
  induction indices generalizing r with
  | nil => exact .refl r
  | cons index rest ih => exact (r.onward_deliverAt index).trans (ih (r.deliverAt index))

/-- A progress message is counted by its level, if the callback leaves it that. -/
theorem counts_log (hc : r.callback.KeepsLevels) (level : Level) (notice : Notice)
    (text : String) :
    (r.log level notice text).errors = r.errors + (decide (level = .error)).toNat ∧
      (r.log level notice text).warnings = r.warnings + (decide (level = .warning)).toNat := by
  rcases hm : r.callback.onMessage r.state
      (r.withRule { Message.plain .console notice.id text with level })
    with ⟨state, back⟩
  have hback : back.level = level := by
    have hlevel := hc r.state (r.withRule { Message.plain .console notice.id text with level })
    rw [hm] at hlevel
    exact hlevel
  obtain ⟨-, herrors, hwarnings⟩ :=
    r.deliver_spec none { Message.plain .console notice.id text with level }
  rw [showing_of_open r none rfl hm, List.countP_singleton, Event.comesBack, hback] at herrors
  rw [showing_of_open r none rfl hm, List.countP_singleton, Event.comesBack, hback] at hwarnings
  refine ⟨herrors.trans ?_, hwarnings.trans ?_⟩
  · cases decide (level = .error) <;> rfl
  · cases decide (level = .warning) <;> rfl

/-- A warning is counted if the callback leaves it one. -/
theorem warned_log (hc : r.callback.KeepsLevels) (notice : Notice) (text : String) :
    0 < (r.log .warning notice text).warnings := by
  rw [(counts_log hc .warning notice text).2]
  exact Nat.succ_pos _

end Router

section Onward

variable {σ κ α β : Type}

/-- From one session to a later one: the messages go on, and a report found changed has been warned
of, unless the callback may change that. -/
structure Session.Onward (s s' : Session σ κ) : Prop where
  router : s.router.Onward s'.router
  told : s.router.callback.KeepsLevels → s'.reportChanged = true →
    s.reportChanged = true ∨ 0 < s'.router.warnings

namespace Session

variable {s s' s'' : Session σ κ}

theorem onward_of_router (h : s.router.Onward s'.router)
    (hr : s'.reportChanged = s.reportChanged) : s.Onward s' :=
  ⟨h, fun _ hc => .inl (hr ▸ hc)⟩

theorem Onward.refl (s : Session σ κ) : s.Onward s := onward_of_router (.refl _) rfl

theorem Onward.trans (h : s.Onward s') (h' : s'.Onward s'') : s.Onward s'' := by
  refine ⟨h.router.trans h'.router, fun hc hr => ?_⟩
  have hc' : s'.router.callback.KeepsLevels := h.router.callback ▸ hc
  rcases h'.told hc' hr with hr' | hw
  · exact (h.told hc hr').imp_right fun hw => Nat.lt_of_lt_of_le hw h'.router.warnings
  · exact .inr hw

end Session

namespace Run

/-- A step goes on from every session, whatever comes of it. -/
def Onward (x : Run σ κ α) : Prop := ∀ s : Session σ κ, s.Onward (x s).2

theorem follows_onward : Follows (Session.Onward : Session σ κ → Session σ κ → Prop) :=
  ⟨.refl, .trans⟩

theorem onward_pure (a : α) : Onward (pure a : Run σ κ α) := follows_onward.along_pure a

theorem onward_get : Onward (get : Run σ κ (Session σ κ)) := follows_onward.along_get

theorem onward_modify {f : Session σ κ → Session σ κ} (h : ∀ s : Session σ κ, s.Onward (f s)) :
    Onward (modify f : Run σ κ PUnit) := h

theorem Onward.bind {x : Run σ κ α} {f : α → Run σ κ β} (hx : Onward x)
    (hf : ∀ a, Onward (f a)) : Onward (x >>= f) :=
  follows_onward.along_bind hx hf

theorem onward_forM {as : List α} {f : α → Run σ κ PUnit} (h : ∀ a ∈ as, Onward (f a)) :
    Onward (as.forM f) :=
  follows_onward.along_forM h

theorem onward_route {f : Router σ → Router σ} (h : ∀ r : Router σ, r.Onward (f r)) :
    Onward (route f : Run σ κ Unit) :=
  onward_modify fun s => Session.onward_of_router (h s.router) rfl

theorem onward_log (level : Level) (notice : Notice) (text : String) :
    Onward (log level notice text : Run σ κ Unit) :=
  onward_route fun r => (r.tells_log level notice text).toOnward

theorem onward_collection : Onward (collection : Run σ κ κ) := follows_onward.along_collection

theorem onward_ask (call : Call) (work : Work α) : Onward (ask call work : Run σ κ α) := fun s => by
  rw [ask_run]
  rcases work s.router.findings with ⟨e | a, findings⟩
  · exact Session.onward_of_router ⟨rfl, Nat.le_refl _⟩ rfl
  · exact Session.onward_of_router ⟨rfl, Nat.le_refl _⟩ rfl

theorem onward_write (artifact : Artifact) (path : Path) (text : String) (options : WriteOptions) :
    Onward (write artifact path text options : Run σ κ Unit) := fun s => by
  rw [write_run]
  rcases s.files.writeText path text options with ⟨files, _ | _⟩
  · exact Session.onward_of_router (.refl _) rfl
  · exact Session.onward_of_router (.refl _) rfl

/-- Messages lead onward, and so does whatever is written. -/
theorem leads_onward :
    Leads (Session.Onward : Session σ κ → Session σ κ → Prop) fun _ => True where
  toFollows := follows_onward
  log := onward_log
  write artifact path text options _ := onward_write artifact path text options

/-! ## Steps that agree until a warning -/

/-- A step does what another one does, unless that one ends with a warning counted. -/
def Agrees (y x : Run σ κ α) : Prop :=
  ∀ s, s.router.callback.KeepsLevels → 0 < (x s).2.router.warnings ∨ y s = x s

theorem Agrees.refl (x : Run σ κ α) : Agrees x x := fun _ _ => .inr rfl

theorem Agrees.bind {x y : Run σ κ α} {f g : α → Run σ κ β} (h : Agrees y x) (hx : Onward x)
    (hfg : ∀ a, Agrees (g a) (f a)) (hf : ∀ a, Onward (f a)) : Agrees (y >>= g) (x >>= f) := by
  intro s hc
  have hs := h s hc
  have hcallback := (hx s).router.callback
  rcases hr : x s with ⟨e | a, s'⟩
  · rw [hr] at hs
    rw [bind_run_error hr]
    exact hs.imp_right fun hy => bind_run_error hy g
  · rw [hr] at hs hcallback
    rw [bind_run_ok hr]
    rcases hs with hw | hy
    · exact .inl (Nat.lt_of_lt_of_le hw (hf a s').router.warnings)
    · rw [bind_run_ok hy]
      exact hfg a s' (hcallback.symm ▸ hc)

theorem agrees_forM {as : List α} {f g : α → Run σ κ PUnit} (h : ∀ a ∈ as, Agrees (g a) (f a))
    (hf : ∀ a ∈ as, Onward (f a)) : Agrees (as.forM g) (as.forM f) := by
  induction as with
  | nil => exact .refl _
  | cons a as ih =>
    have hrest : ∀ b ∈ as, b ∈ a :: as := fun b hb => List.mem_cons_of_mem _ hb
    rw [List.forM, List.forM]
    exact (h a List.mem_cons_self).bind (hf a List.mem_cons_self)
      (fun _ => ih (fun b hb => h b (hrest b hb)) fun b hb => hf b (hrest b hb))
      fun _ => onward_forM fun b hb => hf b (hrest b hb)

/-- Behind a warning, anything agrees. -/
theorem agrees_of_warning (y : Run σ κ α) (notice : Notice) (text : String)
    {f : Unit → Run σ κ α} (hf : ∀ a, Onward (f a)) :
    Agrees y (log .warning notice text >>= f) := fun s hc => by
  have hlog : (log .warning notice text : Run σ κ Unit) s =
      (.ok (), { s with router := s.router.log .warning notice text }) := rfl
  rw [bind_run_ok hlog]
  have hnext := (hf () { s with router := s.router.log .warning notice text }).router.warnings
  exact .inl (Nat.lt_of_lt_of_le (Router.warned_log hc notice text) hnext)

end Run

end Onward

/-! ## Before the analysis -/

namespace Job

variable {σ κ : Type}

section Telling

variable {P : Router σ → Router σ → Prop} (hP : Router.Telling P)

include hP

theorem telling_tellDocComments (job : Job κ) (r : Router σ) : P r (job.tellDocComments r) := by
  rw [tellDocComments]
  cases job.settings.docComments.filePath with
  | some path => exact hP.log _ _ _ _
  | none => exact hP.refl r

theorem telling_tellEngine (t : FileTree) (folder : Path) (engineVersion : String)
    (r : Router σ) : P r (tellEngine t folder engineVersion r) := by
  unfold tellEngine
  extract_lets r'
  have hfirst : P r r' := hP.log _ _ _ _
  split
  · exact hP.trans hfirst (hP.log _ _ _ _)
  · exact hfirst

theorem telling_logSection (title text : String) (r : Router σ) :
    P r (logSection title text r) := by
  have line : ∀ (r : Router σ) text, P r (r.logDiagnostic text) := hP.logDiagnostic
  have head : ∀ r : Router σ, P r (r.logHeader title) := fun r =>
    hP.trans (hP.trans (line r _) (line _ _)) (line _ _)
  exact hP.trans (hP.trans (head r) (line _ _)) (line _ _)

theorem telling_logSettings (job : Job κ) (r : Router σ) : P r (job.logSettings r) := by
  have section_ : ∀ title text (r : Router σ), P r (logSection title text r) :=
    telling_logSection hP
  rw [logSettings]
  split
  · exact hP.trans (hP.trans (hP.trans (hP.logDiagnostic r "") (section_ _ _ _))
      (section_ _ _ _)) (section_ _ _ _)
  · exact hP.refl r

/-- All that is done before the analysis is telling. -/
theorem telling_preamble (job : Job κ) (s : Session σ κ) :
    ∃ router, job.preamble s = (.ok (), { s with router }) ∧ P s.router router :=
  ⟨_, rfl, hP.trans (hP.trans (telling_tellDocComments hP job _) (telling_tellEngine hP _ _ _ _))
    (telling_logSettings hP job _)⟩

end Telling

end Job

end ApiReview
