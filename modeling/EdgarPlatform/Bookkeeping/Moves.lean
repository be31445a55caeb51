import EdgarPlatform.Bookkeeping.Effects

/-!
# What one call can do

Every way an accepted call changes the store, in one relation: the invariants of the store are proved by its cases. From it follows how the row of one unit moves. It stays as it is, is claimed, reported, set waiting or completed, an expansion's parent is sealed as it is completed, and a compaction drops the units of a complete run. A row that was not there is pending work that a start or an expansion lists.
-/

namespace EdgarPlatform.Bookkeeping

open Records (Json)

variable {runText : Uuid → String} {db db' : Store} {request : Request} {answer : Answer}

theorem get?_dropRows {κ α : Type} [DecidableEq κ] (m : IndexMap κ α) (drop : κ → α → Bool) (key : κ) :
    (dropRows m drop).get? key = (m.get? key).filter fun value => !drop key value := by
  refine Option.ext fun value => ?_
  rw [Option.filter_eq_some_iff, IndexMap.get?_eq_some_iff, IndexMap.get?_eq_some_iff, dropRows, List.mem_filter]

/-- A compaction of some runs: each was complete with every event delivered, and loses its units and events; of its row only the summary and the time of compaction are written. -/
structure Compacts (dropped : List Uuid) (db db' : Store) : Prop where
  leases : db'.leases = db.leases
  checkpoints : db'.checkpoints = db.checkpoints
  work : ∀ u, db'.work.get? u = if u.run ∈ dropped then none else db.work.get? u
  counts : ∀ r, r ∉ dropped → ∀ cond, countWork db' r cond = countWork db r cond
  outbox : ∀ e event, db'.outbox.get? e = some event ↔ db.outbox.get? e = some event ∧
    ¬ (event.unit.run ∈ dropped ∧ event.deliveredAt.isSome = true)
  kept : ∀ r, r ∉ dropped → db'.runs.get? r = db.runs.get? r
  compacted : ∀ r ∈ dropped, ∃ run summary t, db.runs.get? r = some run ∧ run.state = .complete ∧ run.compactedAt = none ∧
    (∀ e event, db.outbox.get? e = some event → event.unit.run = r → event.deliveredAt.isSome = true) ∧
    db'.runs.get? r = some { run with summary := summary, compactedAt := some t }

theorem countP_filter_of_imp {α : Type} (keep cond : α → Bool) (items : List α)
    (h : ∀ x ∈ items, cond x = true → keep x = true) : (items.filter keep).countP cond = items.countP cond := by
  rw [List.countP_filter]
  refine List.countP_congr fun x hx => ?_
  rw [Bool.and_eq_true]
  exact ⟨fun h => h.1, fun hcond => ⟨hcond, h x hx hcond⟩⟩

theorem compactOne_compacts {session : Session} {dropped : List Uuid} {mid : Store} {r : Uuid} {run : PipelineRun}
    (h : Compacts dropped db mid) (hr : r ∉ dropped) (hrun : db.runs.get? r = some run) (hcomplete : run.state = .complete)
    (hfresh : run.compactedAt = none)
    (hdelivered : ∀ e event, db.outbox.get? e = some event → event.unit.run = r → event.deliveredAt.isSome = true) :
    Compacts (r :: dropped) db (compactOne session mid r run) := by
  refine ⟨h.leases, h.checkpoints, ?_, ?_, ?_, ?_, ?_⟩
  · intro u
    show (dropRows mid.work _).get? u = _
    rw [get?_dropRows, h.work]
    by_cases hu : u.run = r
    · cases (if u.run ∈ dropped then none else db.work.get? u) <;> simp [hu]
    · by_cases hmem : u.run ∈ dropped
      · simp [hmem]
      · cases db.work.get? u <;> simp [hmem, hu]
  · intro other hother cond
    rw [List.mem_cons, not_or] at hother
    rw [← h.counts other hother.2 cond]
    refine countP_filter_of_imp _ _ _ fun entry _ hentry => ?_
    simp only [Bool.and_eq_true, decide_eq_true_eq] at hentry
    simp [hentry.1, hother.1]
  · intro e event
    show (dropRows mid.outbox _).get? e = _ ↔ _
    rw [get?_dropRows, Option.filter_eq_some_iff, h.outbox]
    simp only [Bool.not_eq_true', Bool.and_eq_false_imp, decide_eq_true_eq, List.mem_cons]
    constructor
    · rintro ⟨⟨hevent, hkept⟩, hone⟩
      refine ⟨hevent, ?_⟩
      rintro ⟨hr | hmem, hdone⟩
      · rw [hone hr] at hdone
        cases hdone
      · exact hkept ⟨hmem, hdone⟩
    · rintro ⟨hevent, hkept⟩
      refine ⟨⟨hevent, fun hmem => hkept ⟨.inr hmem.1, hmem.2⟩⟩, fun hr => ?_⟩
      by_contra hdone
      exact hkept ⟨.inl hr, by rwa [Bool.not_eq_false] at hdone⟩
  · intro other hother
    rw [List.mem_cons, not_or] at hother
    show (mid.runs.insert r _).get? other = _
    rw [IndexMap.get?_insert_of_ne _ _ hother.1, h.kept other hother.2]
  · intro other hmember
    obtain hother | hother := List.mem_cons.1 hmember
    · subst hother
      exact ⟨run, _, session.clock, hrun, hcomplete, hfresh, hdelivered, IndexMap.get?_insert_self _ _ _⟩
    · obtain ⟨row, summary, t, hrow, hstate, hnone, hall, hget⟩ := h.compacted other hother
      refine ⟨row, summary, t, hrow, hstate, hnone, hall, ?_⟩
      show (mid.runs.insert r _).get? other = _
      rw [IndexMap.get?_insert_of_ne _ _ (by rintro rfl; exact hr hother), hget]

theorem compact_eq_ok {session : Session} {days : Int} {total : Nat}
    (h : compact runText session db days = .ok (total, db')) : ∃ dropped, Compacts dropped db db' := by
  rw [compact, Except.ite_error_eq_ok] at h
  obtain ⟨_, h⟩ := h
  cases h
  have hmem : ∀ entry ∈ db.runs.entries.filter fun entry => compactable runText session db days entry.1 entry.2,
      db.runs.get? entry.1 = some entry.2 ∧ entry.2.state = .complete ∧ entry.2.compactedAt = none ∧
        ∀ e event, db.outbox.get? e = some event → event.unit.run = entry.1 → event.deliveredAt.isSome = true := by
    intro entry hentry
    obtain ⟨hentry, hcompactable⟩ := List.mem_filter.1 hentry
    simp only [compactable, Bool.and_eq_true, decide_eq_true_eq, Bool.not_eq_true', List.any_eq_false] at hcompactable
    obtain ⟨⟨⟨⟨⟨hcomplete, _⟩, _⟩, hfresh⟩, hpending⟩, _⟩ := hcompactable
    refine ⟨IndexMap.get?_eq_some_iff.2 hentry, hcomplete, hfresh, fun e event hevent hrun => ?_⟩
    have := hpending event (IndexMap.mem_values_of_get? hevent)
    rw [Option.isSome_iff_ne_none]
    intro hnone
    simp [hrun, hnone] at this
  have hnodup : ((db.runs.entries.filter fun entry => compactable runText session db days entry.1 entry.2).map
      Prod.fst).Nodup := db.runs.nodup.sublist (List.filter_sublist.map Prod.fst)
  generalize db.runs.entries.filter (fun entry => compactable runText session db days entry.1 entry.2) = chosen at hmem hnodup
  suffices hfold : ∀ (dropped : List Uuid) (mid : Store), Compacts dropped db mid → (∀ entry ∈ chosen, entry.1 ∉ dropped) →
      ∃ dropped, Compacts dropped db (chosen.foldl (fun db entry => compactOne session db entry.1 entry.2) mid) by
    refine hfold [] db ⟨rfl, rfl, by simp, fun _ _ _ => rfl, by simp, fun _ _ => rfl, by simp⟩ (by simp)
  induction chosen with
  | nil => exact fun dropped mid h _ => ⟨dropped, h⟩
  | cons entry rest ih =>
      intro dropped mid hmid hfree
      rw [List.map_cons, List.nodup_cons] at hnodup
      obtain ⟨hrun, hcomplete, hfresh, hdelivered⟩ := hmem entry (by simp)
      refine ih (fun other hother => hmem other (List.mem_cons_of_mem _ hother)) hnodup.2 (entry.1 :: dropped) _
        (compactOne_compacts hmid (hfree entry (by simp)) hrun hcomplete hfresh hdelivered) ?_
      intro other hother
      rw [List.mem_cons, not_or]
      refine ⟨fun heq => hnodup.1 (List.mem_map.2 ⟨other, hother, heq⟩), hfree other (List.mem_cons_of_mem _ hother)⟩

theorem silent_eq_ok {result : Except Refusal Store} (h : silent result = .ok (answer, db')) :
    result = .ok db' ∧ answer = .done := by
  obtain ⟨db, hdb, heq⟩ := Records.map_eq_ok.1 h
  cases heq
  exact ⟨hdb, rfl⟩

theorem answered_eq_ok {α : Type} {wrap : α → Answer} {result : Except Refusal (α × Store)}
    (h : answered wrap result = .ok (answer, db')) : ∃ value, result = .ok (value, db') ∧ answer = wrap value := by
  obtain ⟨⟨value, db⟩, hdb, heq⟩ := Records.map_eq_ok.1 h
  cases heq
  exact ⟨value, hdb, rfl⟩

theorem openCheckpoint_eq {r : Uuid} {resource : String} (h : openCheckpoint db r resource = .ok db') :
    db' = { db with checkpoints := db'.checkpoints } := by
  rw [openCheckpoint] at h
  split_ifs at h <;> cases h <;> rfl

theorem writeResource_eq {r : Uuid} {resource : String} {position : Int} {cursor : Option Json} {receipt : Json}
    {revision : Nat} (h : writeResource db r resource position cursor receipt = .ok (revision, db')) :
    db' = { db with checkpoints := db'.checkpoints } := by
  rw [writeResource] at h
  obtain ⟨held, _, h⟩ := Except.bind_eq_ok.1 h
  rw [Except.ite_error_eq_ok] at h
  cases h.2
  rfl

/-- What an accepted call answers and leaves. -/
inductive Effect (db : Store) (request : Request) : Answer → Store → Prop
  | unchanged {answer : Answer} (noProof : ∀ held, answer ≠ .proof (some held)) : Effect db request answer db
  | started {r : Uuid} {submission : Json} {hash : String} {items : List WorkEntry} {run : PipelineRun} {db' : Store}
      (call : request.call = .startRun r submission hash items)
      (found : (insertRun db r submission hash items.length).runs.get? r = some run) (uncompacted : run.compactedAt = none)
      (inserted : items.foldlM (startEntry r) (insertRun db r submission hash items.length) = .ok db')
      (accounted : countWork db' r (fun _ _ => true) = run.expectedCount) : Effect db request .done db'
  | claimed {u : UnitId} {a : Uuid} {seconds : Int} {prereqs : List String} {w : WorkItem} {leases : IndexMap String Lease}
      {proof : List LeaseProof} (call : request.call = .claim u a seconds prereqs)
      (claimed : Claimed request.session db u a seconds prereqs w leases proof) :
      Effect db request (.proof (some proof)) { db with leases := leases, work := db.work.insert u (claimedWork w a) }
  | renewed {u : UnitId} {a : Uuid} {proof : List LeaseProof} {seconds : Int} {w : WorkItem}
      (call : request.call = .heartbeat u a proof seconds) (authorized : Authorized request.session db u a proof w) :
      Effect db request (.proof (some (heldProofs (renewLeases db.leases u.run a request.session.clock seconds) u.run a)))
        { db with leases := renewLeases db.leases u.run a request.session.clock seconds }
  | waited {u : UnitId} {message : String} {attempt : Option Uuid} {proof : List LeaseProof} {w : WorkItem} {released : Store}
      (call : request.call = .waitWork u message attempt proof) (found : db.work.get? u = some w)
      (unverified : w.state ≠ .verified) (cause : Waited request.session db u w attempt proof released) :
      Effect db request .done { released with work := db.work.insert u (waitingWork w message) }
  | reported {u : UnitId} {a : Uuid} {proof : List LeaseProof} {candidate : Json} {profile runtime : String} {w : WorkItem}
      {pinned : Store} (call : request.call = .report u a proof candidate profile runtime)
      (authorized : Authorized request.session db u a proof w) (named : isCandidate candidate = true)
      (running : w.state = .running) (pins : Pins db pinned) :
      Effect db request .done { pinned with work := db.work.insert u (reportedWork w candidate request.session.login) }
  | verifying {u : UnitId} {a : Uuid} {seconds : Int} {w : WorkItem} {leases : IndexMap String Lease}
      {proof : List LeaseProof} (call : request.call = .verifyClaim u a seconds) (found : db.work.get? u = some w)
      (reported : w.state = .reported) (attempt : w.attempt = some a)
      (taken : takeLeases (verifyToken request.session.clock a) u.run a request.session.clock seconds db.leases w.resources
        = .ok (leases, proof)) : Effect db request (.proof (some proof)) { db with leases := leases }
  | pinned {db' : Store} (pins : Pins db db') : Effect db request .done db'
  | completed {u : UnitId} {a : Uuid} {proof : List LeaseProof} {receipt checks : Json} {event : Uuid} {w : WorkItem}
      {db' : Store} (call : request.call = .finish u a proof receipt checks event)
      (authorized : Authorized request.session db u a proof w)
      (completed : Completed request.session db u w a receipt checks event db') : Effect db request .done db'
  | advanced {u : UnitId} {a : Uuid} {proof : List LeaseProof} {receipt checks : Json} {event : Uuid} {resource : String}
      {revision position : Int} {w : WorkItem} {opened finished db' : Store} {next : Nat}
      (call : request.call = .finishResource u a proof receipt checks event resource revision position)
      (authorized : Authorized request.session db u a proof w) (range : 0 ≤ revision ∧ -1 ≤ position)
      (leased : resource ∈ w.resources) (opens : openCheckpoint db u.run resource = .ok opened)
      (agrees : checkResource opened resource revision.toNat position = .ok ())
      (completed : Completed request.session opened u w a receipt checks event finished)
      (written : writeResource finished u.run resource position (cursorOf w.unit) receipt = .ok (next, db')) :
      Effect db request (.revision next) db'
  | repeated {u : UnitId} {a : Uuid} {proof : List LeaseProof} {receipt checks : Json} {event : Uuid}
      {children : List WorkEntry} {childStep : String} {parent : WorkItem} {db' : Store}
      (call : request.call = .finishExpand u a proof receipt checks event children childStep)
      (found : db.work.get? u = some parent) (verified : parent.state = .verified) (sealed : parent.generatedCount ≠ none)
      (evidence : parent.receipt = some receipt ∧ parent.checks = checks)
      (inserted : children.foldlM (insertChild u.run childStep true) db = .ok db') : Effect db request .done db'
  | expanded {u : UnitId} {a : Uuid} {proof : List LeaseProof} {receipt checks : Json} {event : Uuid}
      {children : List WorkEntry} {childStep : String} {parent : WorkItem} {added finished db' : Store} {run : PipelineRun}
      (call : request.call = .finishExpand u a proof receipt checks event children childStep) (other : childStep ≠ u.step)
      (keys : (children.map WorkEntry.key).Nodup) (generated : generatedStep parent.unit = some childStep)
      (authorized : Authorized request.session db u a proof parent)
      (expanded : Expanded request.session db u parent a receipt checks event children childStep added finished run db') :
      Effect db request .done db'
  | recorded {wire : Completion} {run : PipelineRun} (call : request.call = .recordRunChecks wire)
      (found : db.runs.get? wire.run = some run) (uncompacted : run.compactedAt = none)
      (observed : wire.counters = observeCounters db wire.run run)
      (complete : wire.complete = true → wire.counters.incomplete wire.checks = false) :
      Effect db request .done { db with runs := db.runs.insert wire.run (recordedRun wire request.session.clock run) }
  | resumed {wire : Resumption} {run : PipelineRun} (call : request.call = .resumeRun wire)
      (found : db.runs.get? wire.run = some run) (uncompacted : run.compactedAt = none) :
      Effect db request .done { db with runs := db.runs.insert wire.run (resumedRun run) }
  | blocked {r : Uuid} {message : String} (call : request.call = .blockRun r message) :
      Effect db request .done { db with runs := (blockRun db r message).runs }
  | delivered {event : Uuid} {message : Option String} (call : request.call = .delivery event message) :
      Effect db request .done { db with outbox := (delivery request.session db event message).outbox }
  | compacted {days : Int} {total : Nat} {dropped : List Uuid} {db' : Store} (call : request.call = .compact days)
      (compacts : Compacts dropped db db') : Effect db request (.count total) db'

theorem insertRun_of_get? {r : Uuid} {submission : Json} {hash : String} {count : Nat} {run : PipelineRun}
    (h : (insertRun db r submission hash count).runs.get? r = some run) (hcompacted : run.compactedAt.isSome = true) :
    insertRun db r submission hash count = db := by
  rw [insertRun] at h ⊢
  split_ifs at h ⊢ with hheld
  · rfl
  · rw [IndexMap.get?_insert_self] at h
    cases h
    cases hcompacted

theorem perform_effect (h : perform runText db request = .ok (answer, db')) : Effect db request answer db' := by
  cases hcall : request.call with
  | startRun r submission hash items =>
      simp only [perform, hcall] at h
      obtain ⟨hdone, rfl⟩ := silent_eq_ok h
      obtain ⟨run, hrun, _, _, ⟨hcompacted, heq⟩ | ⟨hfresh, hitems, hcount⟩⟩ := startRun_eq_ok hdone
      · rw [heq, insertRun_of_get? hrun hcompacted]
        exact .unchanged (by simp)
      · exact .started hcall hrun hfresh hitems hcount
  | claim v a seconds prereqs =>
      simp only [perform, hcall] at h
      obtain ⟨value, hclaim, rfl⟩ := answered_eq_ok h
      obtain ⟨rfl, rfl⟩ | ⟨w', leases, proof, hclaimed, rfl, rfl⟩ := claim_eq_ok hclaim
      · exact .unchanged (by simp)
      · exact .claimed hcall hclaimed
  | heartbeat v a proof seconds =>
      simp only [perform, hcall] at h
      obtain ⟨value, hheld, rfl⟩ := answered_eq_ok h
      obtain ⟨⟨w, hauthorized⟩, rfl, rfl⟩ := heartbeat_eq_ok hheld
      exact .renewed hcall hauthorized
  | waitWork v message attempt proof =>
      simp only [perform, hcall] at h
      obtain ⟨hdone, rfl⟩ := silent_eq_ok h
      obtain rfl | ⟨w', released, hfound, hopen, hwaited, rfl⟩ := waitWork_eq_ok hdone
      · exact .unchanged (by simp)
      · exact .waited hcall hfound hopen hwaited
  | report v a proof candidate profile runtime =>
      simp only [perform, hcall] at h
      obtain ⟨hdone, rfl⟩ := silent_eq_ok h
      obtain ⟨w', hauthorized, hcandidate, ⟨_, rfl⟩ | ⟨hrunning, pinned, hpins, rfl⟩⟩ := report_eq_ok hdone
      · exact .unchanged (by simp)
      · exact .reported hcall hauthorized hcandidate hrunning hpins
  | verifyClaim v a seconds =>
      simp only [perform, hcall] at h
      obtain ⟨value, hverify, rfl⟩ := answered_eq_ok h
      obtain ⟨rfl, rfl⟩ | ⟨w', leases, proof, hfound, hreported, hattempt, htaken, rfl, rfl⟩ := verifyClaim_eq_ok hverify
      · exact .unchanged (by simp)
      · exact .verifying hcall hfound hreported hattempt htaken
  | pinVerifier v runtime =>
      simp only [perform, hcall] at h
      obtain ⟨hdone, rfl⟩ := silent_eq_ok h
      exact .pinned (pinVerifier_pins hdone)
  | finish v a proof receipt checks event =>
      simp only [perform, hcall] at h
      obtain ⟨hdone, rfl⟩ := silent_eq_ok h
      obtain ⟨w', hfound, ⟨_, _, _, rfl⟩ | ⟨hauthorized, hcompleted⟩⟩ := finish_eq_ok hdone
      · exact .unchanged (by simp)
      · exact .completed hcall hauthorized hcompleted
  | finishResource v a proof receipt checks event resource revision position =>
      simp only [perform, hcall] at h
      obtain ⟨value, hfinish, rfl⟩ := answered_eq_ok h
      obtain ⟨w', hfound, hrevision, hposition, ⟨_, rfl, _⟩ | ⟨hopen, hadvance⟩⟩ := finishResource_eq_ok hfinish
      · exact .unchanged (by simp)
      · obtain ⟨hleased, _, opened, finished, hopened, hagrees, hauthorized, hdone, hwrite⟩ :=
          advanceResource_eq_ok hfound hopen hadvance
        exact .advanced hcall hauthorized ⟨hrevision, hposition⟩ hleased hopened hagrees hdone hwrite
  | finishExpand v a proof receipt checks event children childStep =>
      simp only [perform, hcall] at h
      obtain ⟨hdone, rfl⟩ := silent_eq_ok h
      obtain ⟨hother, hkeys, parent, hfound, hgenerated, ⟨hverified, hsealed, hreceipt, hchecks, hchildren⟩ |
        ⟨hauthorized, added, finished, run, hexpanded⟩⟩ := finishExpand_eq_ok hdone
      · exact .repeated hcall hfound hverified hsealed ⟨hreceipt, hchecks⟩ hchildren
      · exact .expanded hcall hother hkeys hgenerated hauthorized hexpanded
  | recordRunChecks wire =>
      simp only [perform, hcall] at h
      obtain ⟨hdone, rfl⟩ := silent_eq_ok h
      obtain ⟨run, hrun, hfresh, hobserved, hcomplete, rfl⟩ := recordRunChecks_eq_ok hdone
      exact .recorded hcall hrun hfresh hobserved hcomplete
  | resumeRun wire =>
      simp only [perform, hcall] at h
      obtain ⟨hdone, rfl⟩ := silent_eq_ok h
      obtain ⟨run, hrun, hfresh, rfl⟩ := resumeRun_eq_ok hdone
      exact .resumed hcall hrun hfresh
  | blockRun r message =>
      simp only [perform, hcall] at h
      cases h
      rw [blockRun_eq]
      exact .blocked hcall
  | delivery event message =>
      simp only [perform, hcall] at h
      cases h
      rw [delivery_eq]
      exact .delivered hcall
  | compact days =>
      simp only [perform, hcall] at h
      obtain ⟨value, hcompact, rfl⟩ := answered_eq_ok h
      obtain ⟨dropped, hdropped⟩ := compact_eq_ok hcompact
      exact .compacted hcall hdropped

/-- The calls that complete a unit without children, with the evidence they complete it with. -/
inductive Completes (u : UnitId) (a : Uuid) (receipt checks : Json) : Call → Prop
  | finish (proof : List LeaseProof) (event : Uuid) : Completes u a receipt checks (.finish u a proof receipt checks event)
  | finishResource (proof : List LeaseProof) (event : Uuid) (resource : String) (revision position : Int) :
      Completes u a receipt checks (.finishResource u a proof receipt checks event resource revision position)

/-- The row of a unit before and after one call. -/
inductive Moved (db : Store) (request : Request) (u : UnitId) : WorkItem → WorkItem → Prop
  | same (w : WorkItem) : Moved db request u w w
  | claimed {w : WorkItem} {a : Uuid} {seconds : Int} {prereqs : List String} {leases : IndexMap String Lease}
      {proof : List LeaseProof} (call : request.call = .claim u a seconds prereqs)
      (claimed : Claimed request.session db u a seconds prereqs w leases proof) : Moved db request u w (claimedWork w a)
  | waited {w : WorkItem} {message : String} {attempt : Option Uuid} {proof : List LeaseProof} {released : Store}
      (call : request.call = .waitWork u message attempt proof) (unverified : w.state ≠ .verified)
      (cause : Waited request.session db u w attempt proof released) : Moved db request u w (waitingWork w message)
  | reported {w : WorkItem} {a : Uuid} {proof : List LeaseProof} {candidate : Json} {profile runtime : String}
      (call : request.call = .report u a proof candidate profile runtime)
      (authorized : Authorized request.session db u a proof w) (running : w.state = .running) :
      Moved db request u w (reportedWork w candidate request.session.login)
  | completed {w : WorkItem} {a : Uuid} {receipt checks : Json} {deadline : Option Instant}
      (call : Completes u a receipt checks request.call) (reported : w.state = .reported) (attempt : w.attempt = some a)
      (names : namesCandidate w.candidate (some receipt) = true) (valid : validReceipt receipt = true) :
      Moved db request u w (completedWork request.session w receipt checks deadline)
  | sealed {w : WorkItem} {a : Uuid} {proof : List LeaseProof} {receipt checks : Json} {event : Uuid}
      {children : List WorkEntry} {childStep : String} {deadline : Option Instant}
      (call : request.call = .finishExpand u a proof receipt checks event children childStep)
      (reported : w.state = .reported) (attempt : w.attempt = some a)
      (names : namesCandidate w.candidate (some receipt) = true) (valid : validReceipt receipt = true)
      (generated : generatedStep w.unit = some childStep) :
      Moved db request u w (sealWork (completedWork request.session w receipt checks deadline) children.length)

/-- The calls that list new work, with the run and the entries. -/
inductive Lists (r : Uuid) : List WorkEntry → Call → Prop
  | started (submission : Json) (hash : String) (items : List WorkEntry) :
      Lists r items (.startRun r submission hash items)
  | expanded (u : UnitId) (run : u.run = r) (a : Uuid) (proof : List LeaseProof) (receipt checks : Json) (event : Uuid)
      (children : List WorkEntry) (childStep : String) :
      Lists r children (.finishExpand u a proof receipt checks event children childStep)

theorem moved_of_insert {u v : UnitId} {w x x' : WorkItem} (hx : db.work.get? v = some x) (hu : db.work.get? u = some w)
    (hmoved : Moved db request u w x') : ∃ y, (db.work.insert u x').get? v = some y ∧ Moved db request v x y := by
  rw [IndexMap.get?_insert]
  split_ifs with hv
  · subst hv
    cases hu.symm.trans hx
    exact ⟨x', rfl, hmoved⟩
  · exact ⟨x, hx, .same x⟩

theorem advanced_work {session : Session} {opened finished : Store} {u : UnitId} {w : WorkItem} {a : Uuid}
    {receipt checks : Json} {event : Uuid} {resource : String} {position : Int} {cursor : Option Json} {next : Nat}
    (hopens : openCheckpoint db u.run resource = .ok opened)
    (hdone : Completed session opened u w a receipt checks event finished)
    (hwritten : writeResource finished u.run resource position cursor receipt = .ok (next, db')) :
    db.work.get? u = some w ∧
      db'.work = db.work.insert u (completedWork session w receipt checks (earliestEnd db.leases u.run a)) := by
  have hfound := hdone.found
  have hwork := hdone.work
  rw [openCheckpoint_eq hopens] at hfound hwork
  refine ⟨hfound, ?_⟩
  rw [writeResource_eq hwritten]
  exact hwork

theorem Effect.moves (h : Effect db request answer db') {u : UnitId} {w : WorkItem} (hw : db.work.get? u = some w) :
    (∃ w', db'.work.get? u = some w' ∧ Moved db request u w w') ∨
      (db'.work.get? u = none ∧ ∃ days, request.call = .compact days) := by
  cases h with
  | unchanged => exact .inl ⟨w, hw, .same w⟩
  | started call found uncompacted inserted accounted =>
      exact .inl ⟨w, (startEntries_adds inserted).kept u w (by rw [insertRun_eq]; exact hw), .same w⟩
  | claimed call claimed => exact .inl (moved_of_insert hw claimed.found (.claimed call claimed))
  | renewed => exact .inl ⟨w, hw, .same w⟩
  | waited call found unverified cause => exact .inl (moved_of_insert hw found (.waited call unverified cause))
  | reported call authorized named running pins =>
      exact .inl (moved_of_insert hw authorized.found (.reported call authorized running))
  | verifying => exact .inl ⟨w, hw, .same w⟩
  | pinned pins => exact .inl ⟨w, by rw [pins.1, hw], .same w⟩
  | @completed v a proof receipt checks event x _ call authorized completed =>
      rw [completed.work]
      exact .inl (moved_of_insert hw completed.found
        (.completed (call ▸ .finish proof event) completed.reported completed.attempt completed.names completed.valid))
  | @advanced v a proof receipt checks event resource revision position x _ _ _ _ call authorized range leased opens agrees
      completed written =>
      obtain ⟨hfound, hwork⟩ := advanced_work opens completed written
      rw [hwork]
      exact .inl (moved_of_insert hw hfound (.completed (call ▸ .finishResource proof event resource revision position)
        completed.reported completed.attempt completed.names completed.valid))
  | repeated call found verified sealed evidence inserted => exact .inl ⟨w, (insertChildren_adds inserted).kept u w hw, .same w⟩
  | @expanded v a proof receipt checks event children childStep parent added finished _ run call other keys generated
      authorized expanded =>
      have hdone := expanded.completed
      refine .inl ?_
      rw [expanded.work, hdone.work, IndexMap.get?_insert]
      split_ifs with hv
      · subst hv
        cases authorized.found.symm.trans hw
        exact ⟨_, rfl, .sealed call hdone.reported hdone.attempt hdone.names hdone.valid generated⟩
      · rw [IndexMap.get?_insert_of_ne _ _ hv]
        exact ⟨w, (insertChildren_adds expanded.inserted).kept u w hw, .same w⟩
  | recorded => exact .inl ⟨w, hw, .same w⟩
  | resumed => exact .inl ⟨w, hw, .same w⟩
  | blocked => exact .inl ⟨w, hw, .same w⟩
  | delivered => exact .inl ⟨w, hw, .same w⟩
  | @compacted days _ dropped _ call compacts =>
      rw [compacts.work]
      by_cases hmem : u.run ∈ dropped
      · exact .inr ⟨if_pos hmem, days, call⟩
      · exact .inl ⟨w, by rw [if_neg hmem, hw], .same w⟩

theorem not_new_of_insert {u v : UnitId} {w x x' : WorkItem} (hx : db.work.get? v = some x) (hnone : db.work.get? u = none)
    (hw : (db.work.insert v x').get? u = some w) : False := by
  rw [IndexMap.get?_insert] at hw
  split_ifs at hw with hv
  · rw [hv, hx] at hnone
    cases hnone
  · rw [hnone] at hw
    cases hw

theorem new_of_adds {r : Uuid} {entries : List WorkEntry} {before after : Store} (h : Adds r entries before after)
    {u : UnitId} {w : WorkItem} (hnone : before.work.get? u = none) (hw : after.work.get? u = some w)
    (hlists : Lists r entries request.call) :
    ∃ entries, Lists u.run entries request.call ∧ ∃ entry ∈ entries, u = entry.id u.run ∧ w = entry.pending := by
  obtain hold | ⟨entry, hentry, rfl, hpending⟩ := h.added u w hw
  · rw [hnone] at hold
    cases hold
  · exact ⟨entries, hlists, entry, hentry, rfl, hpending⟩

theorem Effect.new (h : Effect db request answer db') {u : UnitId} {w : WorkItem} (hnone : db.work.get? u = none)
    (hw : db'.work.get? u = some w) :
    ∃ entries, Lists u.run entries request.call ∧ ∃ entry ∈ entries, u = entry.id u.run ∧ w = entry.pending := by
  have habsent : db.work.get? u ≠ some w := by simp [hnone]
  cases h with
  | unchanged => exact absurd hw habsent
  | @started r submission hash items _ _ call found uncompacted inserted accounted =>
      exact new_of_adds (startEntries_adds inserted) (by rw [insertRun_eq]; exact hnone) hw
        (call ▸ .started submission hash items)
  | claimed call claimed => exact (not_new_of_insert claimed.found hnone hw).elim
  | renewed => exact absurd hw habsent
  | waited call found unverified cause => exact (not_new_of_insert found hnone hw).elim
  | reported call authorized named running pins => exact (not_new_of_insert authorized.found hnone hw).elim
  | verifying => exact absurd hw habsent
  | pinned pins => exact absurd (by rw [pins.1] at hw; exact hw) habsent
  | completed call authorized completed =>
      rw [completed.work] at hw
      exact (not_new_of_insert completed.found hnone hw).elim
  | advanced call authorized range leased opens agrees completed written =>
      obtain ⟨hfound, hwork⟩ := advanced_work opens completed written
      rw [hwork] at hw
      exact (not_new_of_insert hfound hnone hw).elim
  | @repeated v a proof receipt checks event children childStep _ _ call found verified sealed evidence inserted =>
      exact new_of_adds (insertChildren_adds inserted) hnone hw
        (call ▸ .expanded v rfl a proof receipt checks event children childStep)
  | @expanded v a proof receipt checks event children childStep parent added finished _ run call other keys generated
      authorized expanded =>
      have hne : u ≠ v := by
        rintro rfl
        rw [authorized.found] at hnone
        cases hnone
      rw [expanded.work, expanded.completed.work, IndexMap.get?_insert_of_ne _ _ hne, IndexMap.get?_insert_of_ne _ _ hne] at hw
      exact new_of_adds (insertChildren_adds expanded.inserted) hnone hw
        (call ▸ .expanded v rfl a proof receipt checks event children childStep)
  | recorded => exact absurd hw habsent
  | resumed => exact absurd hw habsent
  | blocked => exact absurd hw habsent
  | delivered => exact absurd hw habsent
  | compacted call compacts =>
      rw [compacts.work, hnone, ite_self] at hw
      cases hw

end EdgarPlatform.Bookkeeping
