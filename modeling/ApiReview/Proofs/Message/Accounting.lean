import ApiReview.Proofs.Message.Events
import Mathlib.Data.List.Nodup

/-!
# What becomes of findings

Every finding is claimed or shown at most once in a run, and once exactly if it is handled in the
end; a flush leaves none open, and errors and warnings are the messages that come back from the
callback with these levels (`balanced_start`). Each request accounts for the findings that it
handles and for the messages that it counts (`perform_accounts`), and accounts add up.
-/

namespace ApiReview

open Router (Event)

namespace Findings

/-- Whether there is a finding at an index and it is handled. -/
def isHandledAt (f : Findings) (index : Nat) : Bool :=
  f.messages[index]?.any (·.handled)

theorem isHandledAt_eq_true {f : Findings} {index : Nat} :
    f.isHandledAt index = true ↔ ∃ m, f.messages[index]? = some m ∧ m.handled = true := by
  rw [isHandledAt]
  cases f.messages[index]? with
  | none => exact ⟨fun h => absurd h Bool.false_ne_true, fun ⟨m, h, _⟩ => absurd h (by simp)⟩
  | some m => exact ⟨fun h => ⟨m, rfl, h⟩, fun ⟨m', h, hm⟩ => by cases h; exact hm⟩

theorem isHandledAt_of_some {f : Findings} {index : Nat} {m : Message}
    (h : f.messages[index]? = some m) : f.isHandledAt index = m.handled := by
  rw [isHandledAt, h]
  rfl

theorem getElem?_replace_self {f : Findings} {index : Nat} {m : Message}
    (h : f.messages[index]? = some m) (m' : Message) :
    (f.replace index m').messages[index]? = some m' := by
  obtain ⟨hi, -⟩ := List.getElem?_eq_some_iff.mp h
  exact List.getElem?_set_self hi

theorem getElem?_replace_of_ne (f : Findings) {index i : Nat} (h : i ≠ index) (m : Message) :
    (f.replace index m).messages[i]? = f.messages[i]? :=
  List.getElem?_set_ne (Ne.symm h)

theorem replace_self {f : Findings} {index : Nat} {m : Message}
    (h : f.messages[index]? = some m) : f.replace index m = f := by
  obtain ⟨hi, rfl⟩ := List.getElem?_eq_some_iff.mp h
  rw [replace, List.set_getElem_self]

/-! ## The findings of declarations -/

/-- The findings of each declaration are there, and none is given twice. -/
def Linked (f : Findings) : Prop :=
  ∀ d, (f.indicesOf d).Nodup ∧ ∀ i ∈ f.indicesOf d, i < f.messages.length

theorem linked_ofReporting (reporting : Reporting) : (ofReporting reporting).Linked :=
  fun _ => ⟨List.nodup_nil, fun _ h => absurd h List.not_mem_nil⟩

theorem lookup_linkIn (index : Nat) (declaration d : String) (table : List (String × List Nat)) :
    ((linkIn index declaration table).lookup d).getD [] =
      if d = declaration then (table.lookup d).getD [] ++ [index]
      else (table.lookup d).getD [] := by
  induction table with
  | nil =>
    by_cases h : d = declaration
    · rw [if_pos h, linkIn, List.lookup_cons, beq_iff_eq.mpr h]
      rfl
    · rw [if_neg h, linkIn, List.lookup_cons, beq_eq_false_iff_ne.mpr h]
  | cons e rest ih =>
    obtain ⟨d', indices⟩ := e
    rw [linkIn]
    by_cases hd : d' = declaration
    · subst hd
      rw [if_pos rfl, List.lookup_cons, List.lookup_cons]
      by_cases h : d = d'
      · rw [if_pos h, beq_iff_eq.mpr h]
        rfl
      · rw [if_neg h, beq_eq_false_iff_ne.mpr h]
    · rw [if_neg hd, List.lookup_cons, List.lookup_cons]
      by_cases h : d = d'
      · subst h
        rw [if_neg hd, beq_self_eq_true]
      · rw [beq_eq_false_iff_ne.mpr h]
        exact ih

theorem Linked.of_eq {f f' : Findings} (h : f.Linked) (hd : f'.declarations = f.declarations)
    (hl : f.messages.length ≤ f'.messages.length) : f'.Linked := fun d => by
  obtain ⟨hn, hi⟩ := h d
  rw [indicesOf, hd]
  exact ⟨hn, fun i hm => Nat.lt_of_lt_of_le (hi i hm) hl⟩

theorem length_add (f : Findings) (m : Message) :
    (f.add m).messages.length = f.messages.length + 1 := by
  rw [add, List.length_append]
  rfl

theorem Linked.add {f : Findings} (h : f.Linked) (m : Message) : (f.add m).Linked :=
  h.of_eq rfl (by rw [length_add]; omega)

theorem Linked.addFor {f : Findings} (h : f.Linked) (m : Message) (declaration : Option String) :
    (f.addFor m declaration).Linked := by
  cases declaration with
  | none => exact h.add m
  | some declaration =>
    intro d
    obtain ⟨hn, hi⟩ := h d
    have hl : (f.addFor m (some declaration)).messages.length = f.messages.length + 1 :=
      length_add f m
    have hx : (f.addFor m (some declaration)).indicesOf d =
        if d = declaration then f.indicesOf d ++ [f.messages.length] else f.indicesOf d :=
      lookup_linkIn f.messages.length declaration d f.declarations
    rw [hl, hx]
    split
    · refine ⟨List.nodup_append.mpr ⟨hn, List.nodup_singleton _, fun a ha b hb => ?_⟩,
        fun i hm => ?_⟩
      · have := hi a ha
        rw [List.mem_singleton.mp hb]
        omega
      · rcases List.mem_append.mp hm with hm | hm
        · exact Nat.lt_succ_of_lt (hi i hm)
        · rw [List.mem_singleton.mp hm]
          exact Nat.lt_succ_self _
    · exact ⟨hn, fun i hm => Nat.lt_succ_of_lt (hi i hm)⟩

/-! ## Claiming -/

theorem claims_cons (f : Findings) (index : Nat) (rest : List Nat) :
    f.claims (index :: rest) = f.claims [index] ++ f.claims rest :=
  List.filterMap_append (l := [index])

/-- What is claimed elsewhere does not change the claims. -/
theorem claims_replace_of_not_mem (f : Findings) {index : Nat} {indices : List Nat}
    (h : index ∉ indices) (m : Message) : (f.replace index m).claims indices = f.claims indices := by
  refine List.filterMap_congr fun i hi => ?_
  have hne : i ≠ index := fun e => h (e ▸ hi)
  rw [getElem?_replace_of_ne f hne m]
  rfl

theorem claims_singleton_of_claimable {f : Findings} {index : Nat} {m : Message}
    (h : f.messages[index]? = some m) (hc : f.isClaimable m = true) :
    f.claims [index] = [.claimed index m.markHandled] := by
  simp only [claims, List.filterMap_cons, List.filterMap_nil, h, Option.filter_some, hc, if_true,
    Option.map_some]

theorem claims_singleton_of_not_claimable {f : Findings} {index : Nat} {m : Message}
    (h : f.messages[index]? = some m) (hc : f.isClaimable m = false) : f.claims [index] = [] := by
  simp only [claims, List.filterMap_cons, List.filterMap_nil, h, Option.filter_some, hc,
    Bool.false_eq_true, if_false, Option.map_none]

theorem claims_singleton_of_none {f : Findings} {index : Nat}
    (h : f.messages[index]? = none) : f.claims [index] = [] := by
  simp only [claims, List.filterMap_cons, List.filterMap_nil, h, Option.filter_none,
    Option.map_none]

end Findings

/-! ## Accounts -/

/-- Whether a message comes back from the callback with a level. -/
def Router.Event.comesBack (level : Level) : Event → Bool
  | .claimed _ _ => false
  | .shown _ _ back => back.level = level

/-- Events account for what became of findings: each that is handled now and was not before is
consumed once, and the others are as they were. -/
structure Findings.Accounts (f : Findings) (events : List Event) (f' : Findings) : Prop where
  handled : ∀ i, (f'.isHandledAt i).toNat =
    (f.isHandledAt i).toNat + events.countP (·.consumes i)
  kept : ∀ (i : Nat) (m : Message), f.messages[i]? = some m →
    ∃ m' : Message, f'.messages[i]? = some m' ∧ (m'.handled = false → m' = m)

namespace Findings

theorem Accounts.refl (f : Findings) : f.Accounts [] f :=
  ⟨fun _ => rfl, fun _ m h => ⟨m, h, fun _ => rfl⟩⟩

theorem Accounts.trans {f f' f'' : Findings} {events events' : List Event}
    (h : f.Accounts events f') (h' : f'.Accounts events' f'') :
    f.Accounts (events ++ events') f'' := by
  refine ⟨fun i => ?_, fun i m hm => ?_⟩
  · rw [h'.handled, h.handled, List.countP_append, Nat.add_assoc]
  · obtain ⟨m', hm', hk⟩ := h.kept i m hm
    obtain ⟨m'', hm'', hk'⟩ := h'.kept i m' hm'
    refine ⟨m'', hm'', fun ho => ?_⟩
    have he := hk' ho
    rw [he] at ho ⊢
    exact hk ho

/-- A finding handled. -/
theorem accounts_replace {f : Findings} {index : Nat} {m m' : Message}
    (h : f.messages[index]? = some m) (ho : m.handled = false) (hm' : m'.handled = true)
    {e : Event} (he : ∀ i, e.consumes i = decide (i = index)) :
    f.Accounts [e] (f.replace index m') := by
  refine ⟨fun i => ?_, fun i n hn => ?_⟩
  · rw [List.countP_singleton, he]
    by_cases hi : i = index
    · subst hi
      rw [isHandledAt_of_some h, isHandledAt_of_some (getElem?_replace_self h m'), ho, hm',
        decide_eq_true rfl]
      rfl
    · rw [isHandledAt, getElem?_replace_of_ne f hi, decide_eq_false hi]
      rfl
  · by_cases hi : i = index
    · subst hi
      refine ⟨m', getElem?_replace_self h m', fun e => ?_⟩
      rw [hm'] at e
      cases e
    · exact ⟨n, (getElem?_replace_of_ne f hi m').trans hn, fun _ => rfl⟩

/-- A new finding is open. -/
theorem accounts_of_concat {f f' : Findings} {m : Message}
    (h : f'.messages = f.messages ++ [m]) (ho : m.handled = false) : f.Accounts [] f' := by
  refine ⟨fun i => ?_, fun i n hn => ?_⟩
  · rw [List.countP_nil, Nat.add_zero, isHandledAt, isHandledAt, h]
    by_cases hi : i < f.messages.length
    · rw [List.getElem?_append_left hi]
    · rw [List.getElem?_append_right (Nat.le_of_not_lt hi),
        List.getElem?_eq_none (Nat.le_of_not_lt hi)]
      cases i - f.messages.length with
      | zero => rw [List.getElem?_cons_zero, Option.any_some, ho]; rfl
      | succ n => rfl
  · obtain ⟨hi, -⟩ := List.getElem?_eq_some_iff.mp hn
    exact ⟨n, by rw [h, List.getElem?_append_left hi, hn], fun _ => rfl⟩

theorem accounts_addFor (f : Findings) {m : Message} (ho : m.handled = false)
    (declaration : Option String) : f.Accounts [] (f.addFor m declaration) := by
  cases declaration with
  | none => exact accounts_of_concat rfl ho
  | some d => exact accounts_of_concat rfl ho

/-- Claiming gives the findings of its events and handles them. -/
theorem claimAt_spec (f : Findings) {indices : List Nat} (hn : indices.Nodup) :
    (f.claimAt indices).2 = (f.claims indices).filterMap Event.claimed? ∧
      f.Accounts (f.claims indices) (f.claimAt indices).1 ∧
      (f.claimAt indices).1.declarations = f.declarations := by
  induction indices generalizing f with
  | nil => exact ⟨rfl, .refl f, rfl⟩
  | cons index rest ih =>
    obtain ⟨hi, hn⟩ := List.nodup_cons.mp hn
    rw [claims_cons, claimAt]
    cases hm : f.messages[index]? with
    | none =>
      rw [claims_singleton_of_none hm]
      exact ih f hn
    | some m =>
      cases hc : f.isClaimable m with
      | false =>
        rw [claims_singleton_of_not_claimable hm hc]
        simp only [hc, Bool.false_eq_true, if_false]
        exact ih f hn
      | true =>
        have ho : m.handled = false := by
          rw [isClaimable, Bool.and_eq_true, Bool.not_eq_true'] at hc
          exact hc.1
        obtain ⟨hg, ha, hd⟩ := ih (f.replace index m.markHandled) hn
        rw [claims_replace_of_not_mem f hi] at hg ha
        rw [claims_singleton_of_claimable hm hc]
        simp only [hc, if_true]
        refine ⟨?_, ?_, hd⟩
        · rw [hg]
          rfl
        · refine (accounts_replace hm ho rfl fun i => ?_).trans ha
          rw [Event.consumes]
          exact decide_eq_decide.mpr eq_comm

end Findings

namespace Router

variable {σ : Type}

/-- Events account for what became of findings, and for the errors and warnings counted. -/
structure Accounts (r : Router σ) (events : List Event) (r' : Router σ) : Prop where
  findings : r.findings.Accounts events r'.findings
  errors : r'.errors = r.errors + events.countP (·.comesBack .error)
  warnings : r'.warnings = r.warnings + events.countP (·.comesBack .warning)

theorem Accounts.refl (r : Router σ) : r.Accounts [] r :=
  ⟨.refl r.findings, rfl, rfl⟩

theorem Accounts.trans {r r' r'' : Router σ} {events events' : List Event}
    (h : r.Accounts events r') (h' : r'.Accounts events' r'') :
    r.Accounts (events ++ events') r'' := by
  refine ⟨h.findings.trans h'.findings, ?_, ?_⟩
  · rw [h'.errors, h.errors, List.countP_append, Nat.add_assoc]
  · rw [h'.warnings, h.warnings, List.countP_append, Nat.add_assoc]

/-- Nothing is counted where only findings change. -/
theorem accounts_findings (r : Router σ) {events : List Event} {findings : Findings}
    (h : r.findings.Accounts events findings) (hs : shownIn events = []) :
    r.Accounts events { r with findings } := by
  have hc : ∀ level, events.countP (·.comesBack level) = 0 := fun level => by
    refine List.countP_eq_zero.mpr fun e he hb => ?_
    cases e with
    | claimed i m => cases hb
    | shown i given back =>
      have hm : (given, back) ∈ shownIn events := List.mem_filterMap.mpr ⟨_, he, rfl⟩
      rw [hs] at hm
      cases hm
  exact ⟨h, by rw [hc, Nat.add_zero], by rw [hc, Nat.add_zero]⟩

/-! ## Showing -/

theorem findings_count (r : Router σ) (level : Level) : (r.count level).findings = r.findings := by
  cases level <;> rfl

theorem errors_count (r : Router σ) (level : Level) :
    (r.count level).errors = r.errors + (decide (level = .error)).toNat := by
  cases level <;> rfl

theorem warnings_count (r : Router σ) (level : Level) :
    (r.count level).warnings = r.warnings + (decide (level = .warning)).toNat := by
  cases level <;> rfl

/-- A message that was shown is handled. -/
theorem handled_deliver (r : Router σ) (m : Message) : (r.deliver m).2.handled = true := by
  cases hm : m.handled with
  | true => rw [deliver_of_handled r hm, hm]
  | false =>
    rcases hc : r.callback.onMessage r.state (r.withRule m) with ⟨state, back⟩
    rw [deliver_of_open r hm hc]
    split
    · assumption
    · rfl

/-- Showing a message changes no finding, and counts it by the level that it comes back with. -/
theorem deliver_spec (r : Router σ) (index : Option Nat) (m : Message) :
    (r.deliver m).1.findings = r.findings ∧
      (r.deliver m).1.errors = r.errors + (r.showing index m).countP (·.comesBack .error) ∧
      (r.deliver m).1.warnings = r.warnings + (r.showing index m).countP (·.comesBack .warning) := by
  cases hm : m.handled with
  | true =>
    rw [deliver_of_handled r hm, showing_of_handled r index hm]
    exact ⟨rfl, rfl, rfl⟩
  | false =>
    rcases hc : r.callback.onMessage r.state (r.withRule m) with ⟨state, back⟩
    have hcount : ∀ level, [Event.shown index (r.withRule m) back].countP (·.comesBack level) =
        (decide (back.level = level)).toNat := fun level => by
      rw [List.countP_singleton, Event.comesBack]
      cases decide (back.level = level) <;> rfl
    rw [deliver_of_open r hm hc, showing_of_open r index hm hc, hcount, hcount]
    have he := errors_count { r with state } back.level
    have hw := warnings_count { r with state } back.level
    have hf := findings_count { r with state } back.level
    split
    · exact ⟨hf, he, hw⟩
    · exact ⟨hf, he, hw⟩

/-- Showing a progress message consumes no finding. -/
theorem accounts_deliver (r : Router σ) (m : Message) :
    r.Accounts (r.showing none m) (r.deliver m).1 := by
  obtain ⟨hf, he, hw⟩ := r.deliver_spec none m
  refine ⟨⟨fun i => ?_, fun i n hn => ⟨n, by rw [hf, hn], fun _ => rfl⟩⟩, he, hw⟩
  have hnone : (r.showing none m).countP (·.consumes i) = 0 := by
    rw [showing]
    split
    · rfl
    · rw [List.countP_singleton]
      rfl
  rw [hf, hnone, Nat.add_zero]

theorem accounts_deliverAt (r : Router σ) (index : Nat) :
    r.Accounts (r.showingAt index) (r.deliverAt index) := by
  rw [showingAt, deliverAt]
  cases hm : r.findings.messages[index]? with
  | none => exact .refl r
  | some m =>
    obtain ⟨hf, he, hw⟩ := r.deliver_spec (some index) m
    refine ⟨?_, he, hw⟩
    show r.findings.Accounts (r.showing (some index) m)
      ((r.deliver m).1.findings.replace index (r.deliver m).2)
    rw [hf]
    cases ho : m.handled with
    | true =>
      rw [deliver_of_handled r ho, showing_of_handled r _ ho, Findings.replace_self hm]
      exact .refl _
    | false =>
      rcases hc : r.callback.onMessage r.state (r.withRule m) with ⟨state, back⟩
      rw [showing_of_open r _ ho hc]
      refine Findings.accounts_replace hm ho (r.handled_deliver m) fun i => ?_
      rw [Event.consumes]
      exact decide_eq_decide.mpr (Option.some_inj.trans eq_comm)

theorem accounts_foldl_deliverAt (r : Router σ) (indices : List Nat) :
    r.Accounts (r.showingAll indices) (indices.foldl deliverAt r) := by
  induction indices generalizing r with
  | nil => exact .refl r
  | cons index rest ih => exact (r.accounts_deliverAt index).trans (ih (r.deliverAt index))

theorem accounts_log (r : Router σ) (level : Level) (notice : Notice) (text : String) :
    r.Accounts (r.logging level notice text) (r.log level notice text) :=
  r.accounts_deliver { Message.plain .console notice.id text with level }

theorem accounts_logLines (r : Router σ) (lines : List String) :
    r.Accounts (r.loggingLines lines) (r.logLines lines) := by
  induction lines generalizing r with
  | nil => exact .refl r
  | cons text rest ih =>
    refine Accounts.trans ?_ (ih (r.logDiagnostic text))
    rw [logDiagnostic]
    split
    · exact r.accounts_log .verbose .diagnostics text
    · exact .refl r

/-! ## Requests -/

theorem claimed?_showing (r : Router σ) (index : Option Nat) (m : Message) :
    (r.showing index m).filterMap Event.claimed? = [] := by
  rw [showing]
  split <;> rfl

theorem claimed?_showingAll (r : Router σ) (indices : List Nat) :
    (r.showingAll indices).filterMap Event.claimed? = [] := by
  induction indices generalizing r with
  | nil => rfl
  | cons index rest ih =>
    rw [showingAll, List.filterMap_append, ih, List.append_nil, showingAt]
    split
    · exact r.claimed?_showing _ _
    · rfl

theorem claimed?_loggingLines (r : Router σ) (lines : List String) :
    (r.loggingLines lines).filterMap Event.claimed? = [] := by
  induction lines generalizing r with
  | nil => rfl
  | cons text rest ih =>
    rw [loggingLines, List.filterMap_append, ih, List.append_nil]
    split
    · exact r.claimed?_showing _ _
    · rfl

/-- A claim gives the messages of its events, sorted; other requests give and claim none. -/
theorem perform_eq_claimed {r : Router σ} (h : r.findings.Linked) (q : Request) :
    (r.perform q).2 = Findings.sorted ((r.events q).filterMap Event.claimed?) := by
  have hnone : Findings.sorted [] = [] := List.mergeSort_nil
  cases q with
  | claimFor declaration =>
    exact congrArg Findings.sorted (r.findings.claimAt_spec (h declaration).1).1
  | claimRest => exact congrArg Findings.sorted (r.findings.claimAt_spec List.nodup_range).1
  | flush => rw [events, claimed?_showingAll, hnone]; rfl
  | log level notice text => rw [events, logging, claimed?_showing, hnone]; rfl
  | logDiagnostic text => rw [events, claimed?_loggingLines, hnone]; rfl
  | logHeader title => rw [events, claimed?_loggingLines, hnone]; rfl
  | logFooter => rw [events, claimed?_loggingLines, hnone]; rfl
  | diagnostic d => exact hnone.symm
  | finding id text location declaration exportName => exact hnone.symm
  | docFinding id text location declaration => exact hnone.symm

/-- A request accounts for what it changes. -/
theorem perform_accounts {r : Router σ} (h : r.findings.Linked) (q : Request) :
    r.Accounts (r.events q) (r.perform q).1 := by
  cases q with
  | diagnostic d =>
    refine r.accounts_findings ?_ rfl
    rw [Findings.addDiagnostic]
    split
    · exact Findings.accounts_of_concat rfl rfl
    · exact Findings.accounts_of_concat rfl rfl
    · exact .refl _
    · exact .refl _
  | finding id text location declaration exportName =>
    exact r.accounts_findings (Findings.accounts_addFor _ rfl declaration) rfl
  | docFinding id text location declaration =>
    exact r.accounts_findings (Findings.accounts_addFor _ rfl declaration) rfl
  | claimFor declaration =>
    exact r.accounts_findings (r.findings.claimAt_spec (h declaration).1).2.1
      (shownIn_claims _ _)
  | claimRest =>
    exact r.accounts_findings (r.findings.claimAt_spec List.nodup_range).2.1
      (shownIn_claims _ _)
  | flush => exact r.accounts_foldl_deliverAt r.findings.pending
  | log level notice text => exact r.accounts_log level notice text
  | logDiagnostic text => exact r.accounts_logLines [text]
  | logHeader title => exact r.accounts_logLines (headerLines title)
  | logFooter => exact r.accounts_logLines [diagnosticsLine ++ "\n"]

theorem declarations_deliverAt (r : Router σ) (index : Nat) :
    (r.deliverAt index).findings.declarations = r.findings.declarations := by
  rw [deliverAt]
  split
  · rename_i m _
    show (r.deliver m).1.findings.declarations = _
    rw [(r.deliver_spec none m).1]
  · rfl

theorem declarations_foldl_deliverAt (r : Router σ) (indices : List Nat) :
    (indices.foldl deliverAt r).findings.declarations = r.findings.declarations := by
  induction indices generalizing r with
  | nil => rfl
  | cons index rest ih => rw [List.foldl_cons, ih, declarations_deliverAt]

theorem findings_log (r : Router σ) (level : Level) (notice : Notice) (text : String) :
    (r.log level notice text).findings = r.findings :=
  (r.deliver_spec none _).1

theorem findings_logLines (r : Router σ) (lines : List String) :
    (r.logLines lines).findings = r.findings := by
  induction lines generalizing r with
  | nil => rfl
  | cons text rest ih =>
    refine (ih (r.logDiagnostic text)).trans ?_
    rw [logDiagnostic]
    split
    · exact r.findings_log _ _ _
    · rfl

/-- No finding goes. -/
theorem Accounts.length_le {r r' : Router σ} {events : List Event} (h : r.Accounts events r') :
    r.findings.messages.length ≤ r'.findings.messages.length := by
  refine Nat.le_of_not_lt fun hl => ?_
  obtain ⟨m', hm', -⟩ := h.findings.kept _ _ (List.getElem?_eq_getElem hl)
  rw [List.getElem?_eq_none (Nat.le_refl _)] at hm'
  cases hm'

/-- The findings of declarations stay linked. -/
theorem linked_perform {r : Router σ} (h : r.findings.Linked) (q : Request) :
    (r.perform q).1.findings.Linked := by
  have hl := (perform_accounts h q).length_le
  cases q with
  | diagnostic d =>
    refine h.of_eq ?_ hl
    show (r.findings.addDiagnostic d).declarations = _
    rw [Findings.addDiagnostic]
    split <;> rfl
  | finding id text location declaration exportName => exact h.addFor _ declaration
  | docFinding id text location declaration => exact h.addFor _ declaration
  | claimFor declaration =>
    exact h.of_eq (r.findings.claimAt_spec (h declaration).1).2.2 hl
  | claimRest => exact h.of_eq (r.findings.claimAt_spec List.nodup_range).2.2 hl
  | flush => exact h.of_eq (r.declarations_foldl_deliverAt r.findings.pending) hl
  | log level notice text => exact (r.findings_log level notice text).symm ▸ h
  | logDiagnostic text => exact (r.findings_logLines [text]).symm ▸ h
  | logHeader title => exact (r.findings_logLines (headerLines title)).symm ▸ h
  | logFooter => exact (r.findings_logLines [diagnosticsLine ++ "\n"]).symm ▸ h

/-! ## Flushing -/

theorem mem_pending {f : Findings} {index : Nat} {m : Message}
    (h : f.messages[index]? = some m) (ho : m.handled = false) : index ∈ f.pending := by
  rw [Findings.pending, List.mem_map]
  refine ⟨(index, m), List.mem_mergeSort.mpr (List.mem_filter.mpr ⟨?_, ?_⟩), rfl⟩
  · obtain ⟨hi, -⟩ := List.getElem?_eq_some_iff.mp h
    exact List.mem_iff_getElem?.mpr ⟨index,
      List.getElem?_zip_eq_some.mpr ⟨List.getElem?_range hi, h⟩⟩
  · rw [ho]
    rfl

/-- What is handled stays so. -/
theorem Accounts.isHandledAt {r r' : Router σ} {events : List Event} (h : r.Accounts events r')
    {index : Nat} (hi : r.findings.isHandledAt index = true) :
    r'.findings.isHandledAt index = true := by
  have hh := h.findings.handled index
  rw [hi] at hh
  cases h' : r'.findings.isHandledAt index with
  | true => rfl
  | false =>
    rw [h'] at hh
    exact absurd hh (by simp only [Bool.toNat_true, Bool.toNat_false]; omega)

theorem isHandledAt_deliverAt (r : Router σ) {index : Nat} {m : Message}
    (h : r.findings.messages[index]? = some m) :
    (r.deliverAt index).findings.isHandledAt index = true := by
  have hf : (r.deliverAt index).findings = r.findings.replace index (r.deliver m).2 := by
    rw [deliverAt, h]
    show (r.deliver m).1.findings.replace index (r.deliver m).2 = _
    rw [(r.deliver_spec none m).1]
  rw [hf, Findings.isHandledAt_of_some (Findings.getElem?_replace_self h _), handled_deliver]

/-- Findings that are shown one after another are all handled. -/
theorem isHandledAt_foldl_deliverAt (r : Router σ) {indices : List Nat} {index : Nat}
    (hi : index ∈ indices) (hl : index < r.findings.messages.length) :
    (indices.foldl deliverAt r).findings.isHandledAt index = true := by
  induction indices generalizing r with
  | nil => cases hi
  | cons first rest ih =>
    rw [List.foldl_cons]
    rcases List.mem_cons.mp hi with rfl | hi
    · exact ((r.deliverAt index).accounts_foldl_deliverAt rest).isHandledAt
        (r.isHandledAt_deliverAt (List.getElem?_eq_getElem hl))
    · exact ih _ hi (Nat.lt_of_lt_of_le hl (r.accounts_deliverAt first).length_le)

/-- A flush leaves no finding open. -/
theorem isHandledAt_flush (r : Router σ) {index : Nat}
    (hl : index < r.findings.messages.length) :
    r.flush.findings.isHandledAt index = true := by
  have hm := List.getElem?_eq_getElem hl
  cases ho : (r.findings.messages[index]).handled with
  | false => exact r.isHandledAt_foldl_deliverAt (mem_pending hm ho) hl
  | true =>
    refine (r.accounts_foldl_deliverAt r.findings.pending).isHandledAt ?_
    rw [Findings.isHandledAt_of_some hm, ho]

/-! ## Runs -/

theorem linked_run {r : Router σ} (h : r.findings.Linked) (requests : List Request) :
    (r.run requests).findings.Linked := by
  induction requests generalizing r with
  | nil => exact h
  | cons q rest ih => exact ih (linked_perform h q)

theorem accounts_run {r : Router σ} (h : r.findings.Linked) (requests : List Request) :
    r.Accounts (r.history requests) (r.run requests) := by
  induction requests generalizing r with
  | nil => exact .refl r
  | cons q rest ih => exact (perform_accounts h q).trans (ih (linked_perform h q))

/-- How often a finding is claimed or shown in a run. -/
def timesConsumed (r : Router σ) (requests : List Request) (index : Nat) : Nat :=
  (r.history requests).countP (·.consumes index)

/-- How often a message comes back from the callback with a level in a run. -/
def timesBack (r : Router σ) (requests : List Request) (level : Level) : Nat :=
  (r.history requests).countP (·.comesBack level)

/-- What becomes of the findings and messages of a run. -/
structure Balanced (r : Router σ) (requests : List Request) : Prop where
  /-- Each finding is claimed or shown at most once, and once exactly if it is handled. -/
  once : ∀ i, r.timesConsumed requests i ≤ 1 ∧ (r.timesConsumed requests i = 1 ↔
    ∃ m, (r.run requests).findings.messages[i]? = some m ∧ m.handled = true)
  /-- No finding goes, and while it is open it is as it was recorded. -/
  kept : ∀ before rest, requests = before ++ rest → ∀ (i : Nat) (m : Message),
    (r.run before).findings.messages[i]? = some m →
      ∃ m' : Message, (r.run requests).findings.messages[i]? = some m' ∧
        (m'.handled = false → m' = m)
  /-- A request gives the messages that it claims. -/
  given : ∀ before q rest, requests = before ++ q :: rest →
    ((r.run before).perform q).2 =
      Findings.sorted (((r.run before).events q).filterMap Event.claimed?)
  /-- After a flush, each finding until then has been consumed once, and it stays handled. -/
  flushed : ∀ before rest, requests = before ++ .flush :: rest → ∀ i,
    i < (r.run before).findings.messages.length →
      r.timesConsumed (before ++ [.flush]) i = 1 ∧ r.timesConsumed requests i = 1 ∧
        ∃ m, (r.run requests).findings.messages[i]? = some m ∧ m.handled = true
  /-- The errors are the messages that came back from the callback as errors. -/
  errors : (r.run requests).errors = r.timesBack requests .error
  warnings : (r.run requests).warnings = r.timesBack requests .warning
  /-- A callback that keeps a journal is shown the messages shown in the run and no others, in their
  order; otherwise the run is the same. -/
  journal : (r.recording []).run requests =
    (r.run requests).recording (shownIn (r.history requests))

/-- A router with no findings and no counts. -/
structure IsFresh (r : Router σ) : Prop where
  linked : r.findings.Linked
  noFindings : r.findings.messages = []
  noErrors : r.errors = 0
  noWarnings : r.warnings = 0

/-- From the start, a finding is consumed once if it is handled, and not at all if it is not. -/
theorem IsFresh.timesConsumed_eq {r : Router σ} (h : r.IsFresh) (requests : List Request)
    (index : Nat) :
    r.timesConsumed requests index = ((r.run requests).findings.isHandledAt index).toNat := by
  have ha := (accounts_run h.linked requests).findings.handled index
  have h0 : r.findings.isHandledAt index = false := by
    rw [Findings.isHandledAt, h.noFindings]
    rfl
  rw [h0, Bool.toNat_false, Nat.zero_add] at ha
  exact ha.symm

theorem IsFresh.balanced {r : Router σ} (h : r.IsFresh) (requests : List Request) :
    r.Balanced requests := by
  have ha := accounts_run h.linked requests
  refine ⟨fun i => ?_, ?_, ?_, ?_, ?_, ?_, ?_⟩
  · rw [h.timesConsumed_eq, ← Findings.isHandledAt_eq_true]
    cases (r.run requests).findings.isHandledAt i <;> decide
  · rintro before rest rfl i m hm
    rw [run_append]
    exact (accounts_run (linked_run h.linked before) rest).findings.kept i m hm
  · rintro before q rest rfl
    exact perform_eq_claimed (linked_run h.linked before) q
  · rintro before rest rfl i hi
    have hf : (r.run (before ++ [.flush])).findings.isHandledAt i = true := by
      rw [run_append]
      exact (r.run before).isHandledAt_flush hi
    have hr : (r.run (before ++ .flush :: rest)).findings.isHandledAt i = true := by
      rw [List.append_cons, run_append]
      exact (accounts_run (linked_run h.linked _) rest).isHandledAt hf
    rw [h.timesConsumed_eq, h.timesConsumed_eq, hf, hr]
    exact ⟨rfl, rfl, Findings.isHandledAt_eq_true.mp hr⟩
  · rw [ha.errors, h.noErrors, Nat.zero_add]
    rfl
  · rw [ha.warnings, h.noWarnings, Nat.zero_add]
    rfl
  · rw [run_recording, List.nil_append]

/-- Every run from the start is balanced, whatever the rules, the callback and the requests. -/
theorem balanced_start (reporting : Reporting) (callback : Callback σ) (state : σ)
    (folder : Option Path) (display : Display) (requests : List Request) :
    (start reporting callback state folder display).Balanced requests :=
  IsFresh.balanced ⟨Findings.linked_ofReporting reporting, rfl, rfl, rfl⟩ requests

end Router

end ApiReview
