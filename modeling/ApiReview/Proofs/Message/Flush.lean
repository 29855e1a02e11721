import ApiReview.Proofs.Message.Accounting
import ApiReview.Proofs.Message.Order

/-!
# The order in which a flush shows messages

A flush shows the findings that nobody has handled, sorted by file, line and id
(`Message.mayPrecede_iff`); those with the same key are shown in the order in which they were made.
If no two of them have the same key, what a run shows in the end, what its callback makes of it and
what is counted do not hang on the order in which the findings were made (`flush_sorted`).
-/

namespace ApiReview

namespace Findings

/-- The findings that nobody has handled, in the order in which they were made. -/
def unhandled (f : Findings) : List Message :=
  f.messages.filter fun m => !m.handled

theorem zip_range_getElem? {α : Type} (as : List α) {i : Nat} {a : α}
    (h : (i, a) ∈ (List.range as.length).zip as) : as[i]? = some a := by
  obtain ⟨n, hn⟩ := List.mem_iff_getElem?.mp h
  obtain ⟨hi, ha⟩ := List.getElem?_zip_eq_some.mp hn
  obtain ⟨hlt, rfl⟩ := List.getElem?_eq_some_iff.mp hi
  rwa [List.getElem_range]

/-- The findings at the pending indices are those that nobody has handled, sorted. -/
theorem filterMap_pending (f : Findings) :
    f.pending.filterMap (f.messages[·]?) = sorted f.unhandled := by
  have hzip : ((List.range f.messages.length).zip f.messages).map Prod.snd = f.messages :=
    List.map_snd_zip (Nat.le_of_eq List.length_range.symm)
  have hunhandled : f.unhandled = (((List.range f.messages.length).zip f.messages).filter
      fun e => !e.2.handled).map Prod.snd := by
    calc f.messages.filter (fun m => !m.handled)
      _ = (((List.range f.messages.length).zip f.messages).map Prod.snd).filter
          fun m => !m.handled := by rw [hzip]
      _ = _ := List.filter_map
  rw [hunhandled, sorted, ← List.map_mergeSort (r := fun a b => a.2.mayPrecede b.2)
    (f := Prod.snd) fun _ _ _ _ => rfl, pending, List.filterMap_map, ← List.filterMap_eq_map]
  refine List.filterMap_congr fun e he => ?_
  exact zip_range_getElem? f.messages (List.mem_of_mem_filter (List.mem_mergeSort.mp he))

theorem nodup_pending (f : Findings) : f.pending.Nodup := by
  have hindices : (((List.range f.messages.length).zip f.messages).map Prod.fst).Nodup := by
    rw [List.map_fst_zip (Nat.le_of_eq List.length_range)]
    exact List.nodup_range
  refine List.Perm.nodup (((List.mergeSort_perm _ _).map Prod.fst).symm) ?_
  exact hindices.sublist (List.filter_sublist.map Prod.fst)

/-! ## Sorted messages -/

theorem perm_sorted (messages : List Message) : (sorted messages).Perm messages :=
  List.mergeSort_perm messages Message.mayPrecede

theorem pairwise_sorted (messages : List Message) :
    (sorted messages).Pairwise fun a b => a.mayPrecede b = true :=
  List.pairwise_mergeSort Message.mayPrecede_trans Message.mayPrecede_total messages

/-- Messages with the same key stay in their order. -/
theorem filter_sorted (messages : List Message)
    (k : Option (List Path.Step) × Option Nat × String) :
    (sorted messages).filter (·.key = k) = messages.filter (·.key = k) := by
  have hpairwise : (messages.filter (·.key = k)).Pairwise fun a b => a.mayPrecede b = true := by
    refine List.pairwise_of_forall_mem_list fun a ha b hb => ?_
    have hkey : a.key = b.key :=
      (of_decide_eq_true (List.mem_filter.mp ha).2).trans
        (of_decide_eq_true (List.mem_filter.mp hb).2).symm
    exact Message.mayPrecede_iff.mpr (.inr hkey)
  have hsublist : (messages.filter (·.key = k)).Sublist (sorted messages) :=
    List.sublist_mergeSort Message.mayPrecede_trans Message.mayPrecede_total hpairwise
      List.filter_sublist
  have hself := hsublist.filter (·.key = k)
  simp only [List.filter_filter, Bool.and_self] at hself
  exact (hself.eq_of_length ((perm_sorted messages).symm.filter _).length_eq).symm

/-- Messages of which no two have the same key are sorted alike, in whatever order they come. -/
theorem sorted_eq_of_perm {messages messages' : List Message} (h : messages'.Perm messages)
    (hkeys : (messages.map Message.key).Nodup) : sorted messages' = sorted messages := by
  have hsorted := (perm_sorted messages').trans (h.trans (perm_sorted messages).symm)
  refine List.Perm.eq_of_pairwise (fun a b ha hb hab hba => ?_) (pairwise_sorted messages')
    (pairwise_sorted messages) hsorted
  have hkey := Message.key_eq_of_mayPrecede hab hba
  refine List.inj_on_of_nodup_map hkeys ?_ ?_ hkey
  · exact (perm_sorted messages).subset (hsorted.subset ha)
  · exact (perm_sorted messages).subset hb

end Findings

namespace Router

variable {σ : Type}

/-! ## Delivering without marking findings -/

/-- The router with other findings. -/
def withFindings (r : Router σ) (findings : Findings) : Router σ :=
  { r with findings }

/-- Messages delivered one after another. The findings stay as they are. -/
def deliverAll (r : Router σ) (messages : List Message) : Router σ :=
  messages.foldl (fun r m => (r.deliver m).1) r

/-- Of the findings, only the rules matter to a delivery. -/
theorem deliver_withFindings (r : Router σ) {findings : Findings}
    (h : findings.rules = r.findings.rules) (m : Message) :
    (r.withFindings findings).deliver m =
      ((r.deliver m).1.withFindings findings, (r.deliver m).2) := by
  cases hm : m.handled with
  | true => rw [deliver_of_handled _ hm, deliver_of_handled _ hm]
  | false =>
    rcases hc : r.callback.onMessage r.state (r.withRule m) with ⟨state, back⟩
    have hrule : (r.withFindings findings).withRule m = r.withRule m := by
      rw [withRule, withRule, withFindings, h]
    have hc' : (r.withFindings findings).callback.onMessage (r.withFindings findings).state
        ((r.withFindings findings).withRule m) = (state, back) := by
      rw [hrule]
      exact hc
    rw [deliver_of_open _ hm hc, deliver_of_open _ hm hc']
    cases back.handled <;> cases back.level <;> rfl

theorem deliverAll_withFindings (r : Router σ) {findings : Findings}
    (h : findings.rules = r.findings.rules) (messages : List Message) :
    (r.withFindings findings).deliverAll messages =
      (r.deliverAll messages).withFindings findings := by
  induction messages generalizing r with
  | nil => rfl
  | cons m rest ih =>
    have hrules : findings.rules = (r.deliver m).1.findings.rules := by
      rw [h, (r.deliver_spec none m).1]
    rw [deliverAll, List.foldl_cons, deliver_withFindings r h]
    exact ih (r.deliver m).1 hrules

/-- Findings delivered at some indices are delivered as messages, and are changed by it. -/
theorem foldl_deliverAt (r : Router σ) {indices : List Nat} (hn : indices.Nodup) :
    ∃ findings : Findings, findings.rules = r.findings.rules ∧ indices.foldl deliverAt r =
      (r.deliverAll (indices.filterMap (r.findings.messages[·]?))).withFindings findings := by
  induction indices generalizing r with
  | nil => exact ⟨r.findings, rfl, rfl⟩
  | cons index rest ih =>
    obtain ⟨hnew, hn⟩ := List.nodup_cons.mp hn
    rw [List.foldl_cons]
    cases hm : r.findings.messages[index]? with
    | none =>
      rw [show r.deliverAt index = r by rw [deliverAt, hm], List.filterMap_cons_none hm]
      exact ih r hn
    | some m =>
      have hself := (r.deliver_spec none m).1
      have hstep : r.deliverAt index =
          (r.deliver m).1.withFindings (r.findings.replace index (r.deliver m).2) := by
        rw [deliverAt, hm]
        show (r.deliver m).1.withFindings
          ((r.deliver m).1.findings.replace index (r.deliver m).2) = _
        rw [hself]
      have hrules : (r.findings.replace index (r.deliver m).2).rules =
          (r.deliver m).1.findings.rules := by
        rw [hself]
        rfl
      -- What is delivered further on stands at other indices.
      have hrest : rest.filterMap ((r.deliverAt index).findings.messages[·]?) =
          rest.filterMap (r.findings.messages[·]?) := by
        refine List.filterMap_congr fun i hi => ?_
        rw [hstep]
        exact Findings.getElem?_replace_of_ne _ (fun e : i = index => hnew (e ▸ hi)) _
      obtain ⟨findings, hsame, hfold⟩ := ih (r.deliverAt index) hn
      refine ⟨findings, ?_, ?_⟩
      · rw [hsame, hstep]
        rfl
      · rw [hfold, hrest, hstep, deliverAll_withFindings _ hrules, List.filterMap_cons_some hm]
        rfl

/-- A flush delivers the findings that nobody has handled, sorted. -/
theorem flush_eq (r : Router σ) : ∃ findings : Findings, findings.rules = r.findings.rules ∧
    r.flush = (r.deliverAll (Findings.sorted r.findings.unhandled)).withFindings findings := by
  rw [flush, ← Findings.filterMap_pending]
  exact r.foldl_deliverAt r.findings.nodup_pending

/-! ## What is delivered -/

/-- The messages that a flush gives to the callback, in their order, with what comes back. -/
def delivered (r : Router σ) : List (Message × Message) :=
  (r.recording []).flush.state.2

theorem withRule_deliver (r : Router σ) (m m' : Message) :
    (r.deliver m).1.withRule m' = r.withRule m' := by
  rw [withRule, withRule, (r.deliver_spec none m).1]

/-- Messages that nobody has handled are all given to the callback. -/
theorem journal_deliverAll (r : Router σ) (journal : List (Message × Message))
    {messages : List Message} (h : ∀ m ∈ messages, m.handled = false) :
    ((r.recording journal).deliverAll messages).state.2.map Prod.fst =
      journal.map Prod.fst ++ messages.map r.withRule := by
  induction messages generalizing r journal with
  | nil => exact (List.append_nil _).symm
  | cons m rest ih =>
    obtain ⟨hm, hrest⟩ := List.forall_mem_cons.mp h
    rcases hc : r.callback.onMessage r.state (r.withRule m) with ⟨state, back⟩
    rw [deliverAll, List.foldl_cons, deliver_recording r journal none]
    show (((r.deliver m).1.recording _).deliverAll rest).state.2.map Prod.fst = _
    have hrule : (r.deliver m).1.withRule = r.withRule := funext (r.withRule_deliver m)
    rw [ih _ _ hrest, showing_of_open r none hm hc, List.map_append, List.append_assoc, hrule]
    rfl

theorem delivered_eq (r : Router σ) :
    r.delivered.map Prod.fst = (Findings.sorted r.findings.unhandled).map r.withRule := by
  have hopen : ∀ m ∈ Findings.sorted r.findings.unhandled, m.handled = false := fun m hm => by
    have hm := (Findings.perm_sorted _).subset hm
    simpa [Findings.unhandled] using (List.mem_filter.mp hm).2
  obtain ⟨findings, -, hflush⟩ := (r.recording []).flush_eq
  rw [delivered, hflush]
  exact journal_deliverAll r [] hopen

/-! ## Findings recorded in another order -/

namespace Request

/-- Whether a request records a finding. -/
def Records : Request → Prop
  | diagnostic _ | finding _ _ _ _ _ | docFinding _ _ _ _ => True
  | _ => False

/-- The findings that a request records. -/
def recorded : Request → List Message
  | diagnostic d => ((Findings.ofReporting .empty).addDiagnostic d).messages
  | finding id text location declaration exportName =>
    ((Findings.ofReporting .empty).addFinding id text location declaration exportName).messages
  | docFinding id text location declaration =>
    ((Findings.ofReporting .empty).addDocFinding id text location declaration).messages
  | _ => []

end Request

theorem messages_addFor (f : Findings) (m : Message) (declaration : Option String) :
    (f.addFor m declaration).messages = f.messages ++ [m] := by
  cases declaration <;> rfl

/-- Recording changes nothing but the findings. -/
theorem perform_of_records (r : Router σ) {q : Request} (h : q.Records) :
    ∃ findings : Findings, findings.rules = r.findings.rules ∧
      findings.messages = r.findings.messages ++ q.recorded ∧
      (r.perform q).1 = r.withFindings findings := by
  cases q with
  | diagnostic d =>
    refine ⟨_, ?_, ?_, rfl⟩
    · rw [Findings.addDiagnostic]
      split <;> rfl
    · rw [Request.recorded, Findings.addDiagnostic, Findings.addDiagnostic]
      cases d.severity
      case error | warning => rfl
      all_goals exact (List.append_nil _).symm
  | finding id text location declaration exportName =>
    refine ⟨_, ?_, ?_, rfl⟩
    · cases declaration <;> rfl
    · rw [Request.recorded, Findings.addFinding, Findings.addFinding, messages_addFor,
        messages_addFor]
      rfl
  | docFinding id text location declaration =>
    refine ⟨_, ?_, ?_, rfl⟩
    · cases declaration <;> rfl
    · rw [Request.recorded, Findings.addDocFinding, Findings.addDocFinding, messages_addFor,
        messages_addFor]
      rfl
  | _ => exact absurd h id

theorem run_of_records (r : Router σ) {requests : List Request} (h : ∀ q ∈ requests, q.Records) :
    ∃ findings : Findings, findings.rules = r.findings.rules ∧
      findings.messages = r.findings.messages ++ requests.flatMap Request.recorded ∧
      r.run requests = r.withFindings findings := by
  induction requests generalizing r with
  | nil => exact ⟨r.findings, rfl, (List.append_nil _).symm, rfl⟩
  | cons q rest ih =>
    obtain ⟨hq, hrest⟩ := List.forall_mem_cons.mp h
    obtain ⟨first, hrules, hmessages, hperform⟩ := r.perform_of_records hq
    obtain ⟨findings, hrules', hmessages', hrun⟩ := ih (r.perform q).1 hrest
    rw [hperform] at hrules' hmessages'
    refine ⟨findings, hrules'.trans hrules, ?_, ?_⟩
    · rw [hmessages', withFindings, hmessages, List.flatMap_cons, List.append_assoc]
    · rw [run_cons, hrun, hperform]
      rfl

/-- Routers that differ in the order of their findings deliver the same, if no two findings that
nobody has handled have the same key. -/
theorem flush_of_perm (r : Router σ) {findings findings' : Findings}
    (hrules : findings.rules = r.findings.rules) (hrules' : findings'.rules = r.findings.rules)
    (hperm : findings'.messages.Perm findings.messages)
    (hkeys : (findings.unhandled.map Message.key).Nodup) :
    ∃ last : Findings, (r.withFindings findings').flush =
      (r.withFindings findings).flush.withFindings last := by
  obtain ⟨last, hlast, hflush⟩ := (r.withFindings findings).flush_eq
  obtain ⟨last', hlast', hflush'⟩ := (r.withFindings findings').flush_eq
  have hsorted : Findings.sorted (r.withFindings findings').findings.unhandled =
      Findings.sorted (r.withFindings findings).findings.unhandled :=
    Findings.sorted_eq_of_perm (hperm.filter _) hkeys
  refine ⟨last', ?_⟩
  rw [hflush, hflush', hsorted, deliverAll_withFindings r hrules, deliverAll_withFindings r hrules']
  rfl

/-- A flush gives the findings that nobody has handled to the callback, sorted, and findings with
the same key in the order in which they were made. If no two of them have the same key, findings
that are recorded in another order are delivered alike, with the same end. -/
theorem flush_sorted (r : Router σ) :
    ((r.recording []).flush = r.flush.recording r.delivered ∧
      ∃ due : List Message, r.delivered.map Prod.fst = due.map r.withRule ∧
        due.Perm r.findings.unhandled ∧ due.Pairwise (fun a b => a.compare b ≠ .gt) ∧
        ∀ k, due.filter (·.key = k) = r.findings.unhandled.filter (·.key = k)) ∧
    ∀ requests requests' : List Request, (∀ q ∈ requests, q.Records) → requests'.Perm requests →
      ((r.run requests).findings.unhandled.map Message.key).Nodup →
      (r.run requests').delivered = (r.run requests).delivered ∧
        (r.run requests').flush.state = (r.run requests).flush.state ∧
        (r.run requests').flush.errors = (r.run requests).flush.errors ∧
        (r.run requests').flush.warnings = (r.run requests).flush.warnings ∧
        (r.run requests').flush.printed = (r.run requests).flush.printed := by
  refine ⟨⟨?_, Findings.sorted r.findings.unhandled, r.delivered_eq, Findings.perm_sorted _, ?_,
    Findings.filter_sorted _⟩, fun requests requests' hrecords hperm hkeys => ?_⟩
  · have hjournal := congrArg Prod.fst (r.perform_recording [] .flush)
    rw [delivered, show (r.recording []).flush = _ from hjournal]
    rfl
  · exact (Findings.pairwise_sorted _).imp of_decide_eq_true
  · obtain ⟨findings, hrules, hmessages, hrun⟩ := r.run_of_records hrecords
    obtain ⟨findings', hrules', hmessages', hrun'⟩ :=
      r.run_of_records fun q hq => hrecords q (hperm.subset hq)
    have hsame : findings'.messages.Perm findings.messages := by
      rw [hmessages, hmessages']
      exact (hperm.flatMap_right _).append_left _
    rw [hrun] at hkeys
    obtain ⟨last, hlast⟩ := r.flush_of_perm hrules hrules' hsame hkeys
    obtain ⟨last', hlast'⟩ := (r.recording []).flush_of_perm hrules hrules' hsame hkeys
    rw [hrun, hrun', hlast]
    exact ⟨congrArg (fun r => r.state.2) hlast', rfl, rfl, rfl, rfl⟩

/-- Findings of two files. -/
def linkFindings : List Request :=
  [.finding "ae-unresolved-link" "x" ⟨⟨"/repo/b.d.ts"⟩, some 1, none⟩ none none,
    .finding "ae-missing-release-tag" "x" ⟨⟨"/repo/a.d.ts"⟩, some 9, none⟩ none none,
    .diagnostic ⟨2304, .error, "x", none⟩,
    .docFinding "tsdoc-undefined-tag" "x" ⟨⟨"/repo/./a.d.ts"⟩, some 2, none⟩ none]

/-- Shows the first message as an error, and the others as they are. -/
def firstAsError : Callback Nat where
  onMessage shown m := (shown + 1, if shown = 0 then { m with level := .error } else m)

/-- Recorded the other way round, the findings of two files are delivered alike. -/
theorem flush_sorted_linkFindings :
    (∀ q ∈ linkFindings, q.Records) ∧
      (((start .empty firstAsError 0 none ⟨false, false⟩).run
        linkFindings).findings.unhandled.map Message.key).Nodup ∧
      ((start .empty firstAsError 0 none ⟨false, false⟩).run linkFindings.reverse).delivered =
        ((start .empty firstAsError 0 none ⟨false, false⟩).run linkFindings).delivered := by
  have hrecords : ∀ q ∈ linkFindings, q.Records := by
    simp only [linkFindings, List.forall_mem_cons, Request.Records, List.not_mem_nil,
      false_implies, implies_true, and_self]
  have hkeys : (((start .empty firstAsError 0 none ⟨false, false⟩).run
      linkFindings).findings.unhandled.map Message.key).Nodup := by decide +kernel
  exact ⟨hrecords, hkeys, ((start .empty firstAsError 0 none ⟨false, false⟩).flush_sorted.2 _ _
    hrecords linkFindings.reverse_perm hkeys).1⟩

end Router

end ApiReview
