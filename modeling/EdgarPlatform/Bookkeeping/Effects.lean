import EdgarPlatform.Bookkeeping.Lifecycle

/-!
# What a call does to the tables

Each routine is read once, for what it writes when it is not refused. A claim, a report, a note and a completion write one row of work; only a start and an expansion add rows, all pending; only a compaction removes rows. From these readings the invariants of the store follow table by table.
-/

namespace EdgarPlatform.Bookkeeping

open Records (Json)

variable {session : Session} {db db' : Store} {u : UnitId} {w : WorkItem} {a : Uuid} {proof : List LeaseProof}

variable {r : Uuid}

theorem requireExecutable_eq_ok (h : requireExecutable db r = .ok ()) :
    ∃ run, db.runs.get? r = some run ∧ isExecutable run = true := by
  rw [requireExecutable] at h
  split_ifs at h with hrun
  cases hget : db.runs.get? r with
  | none => simp [hget] at hrun
  | some run => exact ⟨run, rfl, by simpa [hget] using hrun⟩

theorem checkSeconds_eq_ok {seconds : Int} (h : checkSeconds seconds = .ok ()) : 2 ≤ seconds ∧ seconds ≤ 86400 := by
  rw [checkSeconds, Except.ite_error_eq_ok] at h
  have hrange := h.1
  omega

/-- What live authority is. -/
structure Authorized (session : Session) (db : Store) (u : UnitId) (a : Uuid) (proof : List LeaseProof) (w : WorkItem) :
    Prop where
  accepted : authority session db u a proof = .ok ()
  executable : ∃ run, db.runs.get? u.run = some run ∧ isExecutable run = true
  found : db.work.get? u = some w
  state : w.state = .running ∨ w.state = .reported
  attempt : w.attempt = some a
  covers : coversResources w proof = true
  held : ∀ p ∈ proof, p.resource ∈ w.resources ∧ ∃ l, db.leases.get? p.resource = some l ∧ l.heldBy u.run a = true ∧
    l.token = p.token ∧ l.live session.clock = true

theorem checkProof_eq_ok {p : LeaseProof} (h : checkProof session db u a w p = .ok ()) :
    p.resource ∈ w.resources ∧ ∃ l, db.leases.get? p.resource = some l ∧ l.heldBy u.run a = true ∧
      l.token = p.token ∧ l.live session.clock = true := by
  rw [checkProof, Except.ite_error_eq_ok, not_not] at h
  obtain ⟨hmem, hlease⟩ := h
  obtain ⟨l, hl, hlease⟩ := Except.bind_eq_ok.1 hlease
  rw [Except.ite_error_eq_ok, not_not] at hlease
  exact ⟨hmem, l, selectLease_eq_ok.1 hl, hlease.1⟩

theorem authority_eq_ok (h : authority session db u a proof = .ok ()) : ∃ w, Authorized session db u a proof w := by
  have haccepted := h
  rw [authority] at h
  obtain ⟨_, hexecutable, h⟩ := Except.bind_eq_ok.1 h
  obtain ⟨w, hfound, h⟩ := Except.bind_eq_ok.1 h
  rw [Except.ite_error_eq_ok, Except.ite_error_eq_ok, not_not, Bool.not_eq_false] at h
  obtain ⟨⟨hstate, hattempt⟩, hcovers, hheld⟩ := h
  refine ⟨w, haccepted, requireExecutable_eq_ok hexecutable, selectWork_eq_ok.1 hfound, hstate, hattempt, hcovers, ?_⟩
  intro p hp
  exact checkProof_eq_ok (Runs.forM_ok_of_mem hheld p (Sorting.mem_sortByKey.2 hp))

def claimedWork (w : WorkItem) (a : Uuid) : WorkItem :=
  if w.state = .running then startedWork w a else { startedWork w a with candidate := none, reporter := none }

def completedWork (session : Session) (w : WorkItem) (receipt checks : Json) (deadline : Option Instant) : WorkItem :=
  { verifiedWork w receipt checks deadline with verifier := some session.login }

theorem updateWork_started (h : updateWork session db u w (startedWork w a) = .ok db') :
    db' = { db with work := db.work.insert u (claimedWork w a) } := by
  rw [updateWork] at h
  obtain ⟨kept, hkept, h⟩ := Except.bind_eq_ok.1 h
  cases h
  have hclaimed : reportedCandidate session db u w (startedWork w a) = .ok (claimedWork w a) := by
    by_cases hrunning : w.state = .running <;> simp [reportedCandidate, claimedWork, startedWork, hrunning]
  rw [hclaimed] at hkept
  cases hkept
  rfl

theorem updateWork_waiting {message : String} (h : updateWork session db u w (waitingWork w message) = .ok db') :
    db' = { db with work := db.work.insert u (waitingWork w message) } := by
  rw [updateWork] at h
  obtain ⟨kept, hkept, h⟩ := Except.bind_eq_ok.1 h
  cases h
  simp only [reportedCandidate, waitingWork, reduceCtorEq, false_and, if_false, Except.ok.injEq] at hkept
  rw [← hkept]
  rfl

theorem updateWork_reported {candidate : Json} {login : String}
    (h : updateWork session db u w (reportedWork w candidate login) = .ok db') :
    db' = { db with work := db.work.insert u (reportedWork w candidate login) } := by
  rw [updateWork] at h
  obtain ⟨kept, hkept, h⟩ := Except.bind_eq_ok.1 h
  cases h
  simp only [reportedCandidate, reportedWork, reduceCtorEq, false_and, if_false, Except.ok.injEq] at hkept
  rw [← hkept]
  rfl

variable {receipt checks : Json}

theorem updateWork_verified {deadline : Option Instant} (hopen : w.state ≠ .verified)
    (h : updateWork session db u w (verifiedWork w receipt checks deadline) = .ok db') :
    w.state = .reported ∧ namesCandidate w.candidate (some receipt) = true ∧ w.reporter ≠ some session.login ∧
      isIssuer session (frozenProfile db u.run u.step) .verifier = true ∧
      db' = { db with work := db.work.insert u (completedWork session w receipt checks deadline) } := by
  rw [updateWork] at h
  obtain ⟨kept, hkept, h⟩ := Except.bind_eq_ok.1 h
  cases h
  rw [reportedCandidate, if_pos ⟨rfl, hopen⟩, Except.ite_error_eq_ok, Except.ite_error_eq_ok, not_not, not_or,
    Bool.not_eq_false] at hkept
  obtain ⟨⟨hreported, hnames⟩, ⟨hissuer, hreporter⟩, hkept⟩ := hkept
  cases hkept
  exact ⟨hreported, hnames, hreporter, hissuer, rfl⟩

/-- What taking some resources leaves: the others as they were, and each taken one granted. -/
def TakenBy (r a : Uuid) (now seconds : Int) (leases : IndexMap String Lease) (front : List String) (taken : IndexMap String Lease) : Prop :=
  (∀ x, x ∉ front → taken.get? x = leases.get? x) ∧ ∀ x ∈ front, ∃ token, taken.get? x = some (grantLease token r a now seconds)

theorem TakenBy.take {now seconds : Int} {leases taken : IndexMap String Lease} {front : List String}
    (h : TakenBy r a now seconds leases front taken) (x : String) (token : Nat) :
    TakenBy r a now seconds leases (front ++ [x]) (taken.insert x (grantLease token r a now seconds)) := by
  refine ⟨fun y hy => ?_, fun y hy => ?_⟩
  · rw [List.mem_append, not_or] at hy
    rw [IndexMap.get?_insert_of_ne _ _ (by simpa using hy.2)]
    exact h.1 y hy.1
  · rw [IndexMap.get?_insert]
    split_ifs with hxy
    · exact ⟨token, rfl⟩
    · exact h.2 y ((List.mem_append.1 hy).resolve_right (by simpa using hxy))

theorem takeLeases_invariant {grant : Option Lease → Except Refusal Nat} {now seconds : Int}
    {leases leases' : IndexMap String Lease} {resources : List String} {proof : List LeaseProof}
    (h : takeLeases grant r a now seconds leases resources = .ok (leases', proof)) : TakenBy r a now seconds leases resources leases' := by
  have hrun := Runs.run_invariant
    (fun front (taken : IndexMap String Lease × List LeaseProof) => TakenBy r a now seconds leases front taken.1) h (by simp [TakenBy]) ?_
  · simpa only [TakenBy, Sorting.mem_sortByKey] using hrun
  · intro front x back mid next _ hmid hnext
    obtain ⟨token, _, hnext⟩ := Except.bind_eq_ok.1 hnext
    cases hnext
    exact hmid.take x token

theorem live_grantLease {token : Nat} {r a : Uuid} {now seconds : Int} (h : 0 < seconds) :
    (grantLease token r a now seconds).live now = true := by
  show decide (now < now + seconds * 1000000) = true
  rw [decide_eq_true_eq]
  omega

theorem takeLeases_claim {now seconds : Int} {leases leases' : IndexMap String Lease}
    {resources : List String} {proof : List LeaseProof} (hseconds : 0 < seconds)
    (h : takeLeases (claimToken now) r a now seconds leases resources = .ok (leases', proof)) :
    resources.Nodup ∧ ∀ x ∈ resources, ((leases.get? x).getD .fresh).live now = false := by
  have hrun := Runs.run_invariant
    (fun front (taken : IndexMap String Lease × List LeaseProof) => front.Nodup ∧
      (∀ x ∈ front, ((leases.get? x).getD .fresh).live now = false) ∧ TakenBy r a now seconds leases front taken.1) h (by simp [TakenBy]) ?_
  · refine ⟨(Sorting.sortByKey_perm id resources).nodup_iff.1 hrun.1, fun x hx => hrun.2.1 x (Sorting.mem_sortByKey.2 hx)⟩
  · rintro front x back mid next - ⟨hnodup, hlapsed, htaken⟩ hnext
    obtain ⟨token, htoken, hnext⟩ := Except.bind_eq_ok.1 hnext
    cases hnext
    rw [claimToken, Except.ite_error_eq_ok, Bool.not_eq_true] at htoken
    have hnew : x ∉ front := by
      intro hx
      obtain ⟨token, hget⟩ := htaken.2 x hx
      have hlive := htoken.1
      rw [hget, Option.getD_some, live_grantLease hseconds] at hlive
      cases hlive
    refine ⟨List.Nodup.append hnodup (List.nodup_singleton x) (by simpa using hnew), ?_, htaken.take x token⟩
    intro y hy
    obtain hy | hy := List.mem_append.1 hy
    · exact hlapsed y hy
    · rw [List.mem_singleton.1 hy, ← htaken.1 x hnew]
      exact htoken.1

/-- A claim that took its unit. -/
structure Claimed (session : Session) (db : Store) (u : UnitId) (a : Uuid) (seconds : Int) (prereqs : List String)
    (w : WorkItem) (leases : IndexMap String Lease) (proof : List LeaseProof) : Prop where
  required : require session db u [.worker] = .ok ()
  duration : checkSeconds seconds = .ok ()
  executable : requireExecutable db u.run = .ok ()
  found : db.work.get? u = some w
  unverified : w.state ≠ .verified
  prerequisites : requirePrerequisites db u.run prereqs = .ok ()
  resources : w.resources ≠ []
  taken : takeLeases (claimToken session.clock) u.run a session.clock seconds db.leases w.resources = .ok (leases, proof)

theorem requirePrerequisites_eq_ok {prereqs : List String} (h : requirePrerequisites db r prereqs = .ok ()) :
    ∀ step ∈ prereqs, ∀ v other, db.work.get? v = some other → v.run = r → v.step = step → other.state = .verified := by
  rw [requirePrerequisites, Except.ite_error_eq_ok, List.any_eq_true] at h
  intro step hstep v other hother hrun hv
  by_contra hopen
  refine h.1 ⟨step, hstep, anyWork_iff.2 ⟨v, other, hother, hrun, hv, ?_⟩⟩
  simpa using hopen

theorem claim_eq_ok {seconds : Int} {prereqs : List String} {answer : Option (List LeaseProof)}
    (h : claim session db u a seconds prereqs = .ok (answer, db')) :
    (answer = none ∧ db' = db) ∨
      ∃ w leases proof, Claimed session db u a seconds prereqs w leases proof ∧ answer = some proof ∧
        db' = { db with leases := leases, work := db.work.insert u (claimedWork w a) } := by
  rw [claim] at h
  obtain ⟨_, hrequire, h⟩ := Except.bind_eq_ok.1 h
  rw [claimUnit] at h
  obtain ⟨_, hseconds, h⟩ := Except.bind_eq_ok.1 h
  obtain ⟨_, hexecutable, h⟩ := Except.bind_eq_ok.1 h
  obtain ⟨w, hfound, h⟩ := Except.bind_eq_ok.1 h
  by_cases hverified : w.state = .verified
  · rw [if_pos hverified] at h
    cases h
    exact .inl ⟨rfl, rfl⟩
  · rw [if_neg hverified] at h
    obtain ⟨_, hprereqs, h⟩ := Except.bind_eq_ok.1 h
    rw [Except.ite_error_eq_ok] at h
    obtain ⟨hresources, h⟩ := h
    obtain ⟨taken, htaken, h⟩ := Except.bind_eq_ok.1 h
    obtain ⟨started, hstarted, h⟩ := Except.bind_eq_ok.1 h
    cases h
    exact .inr ⟨w, taken.1, taken.2, ⟨hrequire, hseconds, hexecutable, selectWork_eq_ok.1 hfound, hverified, hprereqs,
      hresources, htaken⟩, rfl, updateWork_started hstarted⟩

theorem heartbeat_eq_ok {seconds : Int} {held : List LeaseProof}
    (h : heartbeat session db u a proof seconds = .ok (held, db')) :
    (∃ w, Authorized session db u a proof w) ∧ held = heldProofs db'.leases u.run a ∧
      db' = { db with leases := renewLeases db.leases u.run a session.clock seconds } := by
  rw [heartbeat] at h
  obtain ⟨_, _, h⟩ := Except.bind_eq_ok.1 h
  rw [renewUnit] at h
  obtain ⟨_, _, h⟩ := Except.bind_eq_ok.1 h
  obtain ⟨_, hauthority, h⟩ := Except.bind_eq_ok.1 h
  cases h
  exact ⟨authority_eq_ok hauthority, rfl, rfl⟩

theorem noteWaiting_eq_ok {message : String} (h : noteWaiting session db u message = .ok db') :
    db' = db ∨ ∃ w, db.work.get? u = some w ∧ w.state ≠ .verified ∧
      db' = { db with work := db.work.insert u (waitingWork w message) } := by
  rw [noteWaiting] at h
  split at h
  · cases h
    exact .inl rfl
  · rename_i w hfound
    split_ifs at h with hverified
    · cases h
      exact .inl rfl
    · exact .inr ⟨w, hfound, hverified, updateWork_waiting h⟩

/-- Who made a unit wait: an attempt with live authority, which ends its leases, or a note on a unit whose attempt holds no live lease. -/
inductive Waited (session : Session) (db : Store) (u : UnitId) (w : WorkItem) : Option Uuid → List LeaseProof → Store → Prop
  | given {a : Uuid} {proof : List LeaseProof} (authorized : Authorized session db u a proof w) :
      Waited session db u w (some a) proof { db with leases := expireLeases db.leases u.run a session.clock }
  | noted {proof : List LeaseProof} (lapsed : ∀ a, w.attempt = some a → anyLive db u.run a session.clock = false) :
      Waited session db u w none proof db

theorem waitWork_eq_ok {message : String} {attempt : Option Uuid}
    (h : waitWork session db u message attempt proof = .ok db') :
    db' = db ∨ ∃ w released, db.work.get? u = some w ∧ w.state ≠ .verified ∧ Waited session db u w attempt proof released ∧
      db' = { released with work := db.work.insert u (waitingWork w message) } := by
  rw [waitWork] at h
  obtain ⟨_, _, h⟩ := Except.bind_eq_ok.1 h
  cases attempt with
  | some a =>
      obtain ⟨_, hauthority, h⟩ := Except.bind_eq_ok.1 h
      obtain ⟨w, hauthorized⟩ := authority_eq_ok hauthority
      have hopen : w.state ≠ .verified := by
        intro hverified
        have := hauthorized.state
        simp [hverified] at this
      obtain rfl | ⟨w', hfound, _, rfl⟩ := noteWaiting_eq_ok h
      · rw [noteWaiting] at h
        simp only [hauthorized.found, if_neg hopen] at h
        have heq := congrArg (fun db => db.work.get? u) (updateWork_waiting h)
        simp only [IndexMap.get?_insert_self, hauthorized.found, Option.some.injEq] at heq
        have := hauthorized.state
        rw [heq] at this
        simp [waitingWork] at this
      · cases hauthorized.found.symm.trans hfound
        exact .inr ⟨w, _, hfound, hopen, .given hauthorized, rfl⟩
  | none =>
      rw [releaseUnit] at h
      split_ifs at h with hlive
      · cases h
        exact .inl rfl
      · obtain rfl | ⟨w, hfound, hopen, rfl⟩ := noteWaiting_eq_ok h
        · exact .inl rfl
        · refine .inr ⟨w, db, hfound, hopen, .noted ?_, rfl⟩
          intro a ha
          simpa [hfound, ha] using hlive

theorem pinRuntime_eq_ok {slot runtime changed : String} (h : pinRuntime db r slot runtime changed = .ok db') :
    db' = db ∨ ∃ run, db.runs.get? r = some run ∧
      db' = { db with runs := db.runs.insert r { run with runtimes := run.runtimes.insert slot runtime } } := by
  rw [pinRuntime] at h
  obtain ⟨run, hrun, h⟩ := Except.bind_eq_ok.1 h
  split at h
  · cases h
    exact .inr ⟨run, selectRun_eq_ok.1 hrun, rfl⟩
  · rw [Except.ite_error_eq_ok] at h
    cases h.2
    exact .inl rfl

def Pins (db db' : Store) : Prop :=
  db' = { db with runs := db'.runs } ∧ ∀ r, (db'.runs.get? r).map (fun run => { run with runtimes := .empty })
    = (db.runs.get? r).map fun run => { run with runtimes := .empty }

theorem Pins.refl (db : Store) : Pins db db := ⟨rfl, fun _ => rfl⟩

theorem pinRuntime_pins {slot runtime changed : String} (h : pinRuntime db r slot runtime changed = .ok db') :
    Pins db db' := by
  obtain rfl | ⟨run, hrun, rfl⟩ := pinRuntime_eq_ok h
  · exact Pins.refl _
  · refine ⟨rfl, fun other => ?_⟩
    simp only [IndexMap.get?_insert]
    split_ifs with hother
    · subst hother
      rw [hrun]
      rfl
    · rfl

theorem report_eq_ok {candidate : Json} {profile runtime : String}
    (h : report session db u a proof candidate profile runtime = .ok db') :
    ∃ w, Authorized session db u a proof w ∧ isCandidate candidate = true ∧
      ((w.state = .reported ∧ db' = db) ∨ (w.state = .running ∧ ∃ pinned, Pins db pinned ∧
        db' = { pinned with work := db.work.insert u (reportedWork w candidate session.login) })) := by
  rw [report, Except.ite_error_eq_ok, Except.ite_error_eq_ok, not_not] at h
  obtain ⟨⟨hcandidate, _⟩, _, h⟩ := h
  obtain ⟨_, _, h⟩ := Except.bind_eq_ok.1 h
  obtain ⟨_, hauthority, h⟩ := Except.bind_eq_ok.1 h
  obtain ⟨w, hauthorized⟩ := authority_eq_ok hauthority
  obtain ⟨w', hfound, h⟩ := Except.bind_eq_ok.1 h
  cases hauthorized.found.symm.trans (selectWork_eq_ok.1 hfound)
  refine ⟨w, hauthorized, hcandidate, ?_⟩
  split_ifs at h with hreported hconflict
  · cases h
    exact .inl ⟨hreported, rfl⟩
  · obtain ⟨pinned, hpinned, h⟩ := Except.bind_eq_ok.1 h
    have hpins := pinRuntime_pins hpinned
    refine .inr ⟨hauthorized.state.resolve_right hreported, pinned, hpins, ?_⟩
    rw [updateWork_reported h, hpins.1]

theorem verifyClaim_eq_ok {seconds : Int} {answer : Option (List LeaseProof)}
    (h : verifyClaim session db u a seconds = .ok (answer, db')) :
    (answer = none ∧ db' = db) ∨ ∃ w leases proof, db.work.get? u = some w ∧ w.state = .reported ∧ w.attempt = some a ∧
      takeLeases (verifyToken session.clock a) u.run a session.clock seconds db.leases w.resources = .ok (leases, proof) ∧
      answer = some proof ∧ db' = { db with leases := leases } := by
  rw [verifyClaim] at h
  obtain ⟨_, _, h⟩ := Except.bind_eq_ok.1 h
  obtain ⟨_, _, h⟩ := Except.bind_eq_ok.1 h
  obtain ⟨_, _, h⟩ := Except.bind_eq_ok.1 h
  obtain ⟨w, hfound, h⟩ := Except.bind_eq_ok.1 h
  split_ifs at h with hreported hreporter
  · obtain ⟨taken, htaken, h⟩ := Except.bind_eq_ok.1 h
    cases h
    exact .inr ⟨w, taken.1, taken.2, selectWork_eq_ok.1 hfound, hreported.1, hreported.2, htaken, rfl, rfl⟩
  · cases h
    exact .inl ⟨rfl, rfl⟩

theorem pinVerifier_pins {runtime : String} (h : pinVerifier session db u runtime = .ok db') : Pins db db' := by
  rw [pinVerifier, Except.ite_error_eq_ok] at h
  obtain ⟨_, _, h⟩ := Except.bind_eq_ok.1 h.2
  exact pinRuntime_pins h

theorem advanceCheckpoint_eq (db : Store) (r : Uuid) (step : String) :
    advanceCheckpoint db r step = { db with checkpoints := (advanceCheckpoint db r step).checkpoints } := by
  rw [advanceCheckpoint]
  split <;> rfl

theorem advanceCheckpoint_congr {other : Store} {step : String} (hwork : other.work = db.work)
    (hcheckpoints : other.checkpoints = db.checkpoints) :
    (advanceCheckpoint other r step).checkpoints = (advanceCheckpoint db r step).checkpoints := by
  cases db
  cases other
  simp only at hwork hcheckpoints
  subst hwork hcheckpoints
  simp only [advanceCheckpoint, lastOrdinal, ordinalsOf, movedCheckpoint, itemAt]
  split <;> rfl

/-- A completion of a unit that was not verified before. -/
structure Completed (session : Session) (db : Store) (u : UnitId) (w : WorkItem) (a : Uuid) (receipt checks : Json)
    (event : Uuid) (db' : Store) : Prop where
  found : db.work.get? u = some w
  reported : w.state = .reported
  attempt : w.attempt = some a
  names : namesCandidate w.candidate (some receipt) = true
  valid : validReceipt receipt = true
  passed : allPassed checks = true
  runs : db'.runs = db.runs
  work : db'.work = db.work.insert u (completedWork session w receipt checks (earliestEnd db.leases u.run a))
  leases : db'.leases = expireLeases db.leases u.run a session.clock
  outbox : recordEvent db.outbox u event (eventPayload u event receipt checks) session.clock = .ok db'.outbox
  checkpoints : db'.checkpoints = (advanceCheckpoint { db with work := db'.work } u.run u.step).checkpoints

theorem finish_eq_ok {event : Uuid}
    (h : finish session db u a proof receipt checks event = .ok db') :
    ∃ w, db.work.get? u = some w ∧
      ((w.state = .verified ∧ w.receipt = some receipt ∧ w.checks = checks ∧ db' = db) ∨
        (Authorized session db u a proof w ∧ Completed session db u w a receipt checks event db')) := by
  rw [finish] at h
  obtain ⟨w, hfound, h⟩ := Except.bind_eq_ok.1 h
  have hget := selectWork_eq_ok.1 hfound
  refine ⟨w, hget, ?_⟩
  by_cases hverified : w.state = .verified
  · rw [if_pos hverified, Except.ite_error_eq_ok, not_or, not_not, not_not] at h
    obtain ⟨⟨hreceipt, hchecks⟩, h⟩ := h
    cases h
    exact .inl ⟨hverified, hreceipt, hchecks, rfl⟩
  · rw [if_neg hverified] at h
    obtain ⟨_, hauthority, h⟩ := Except.bind_eq_ok.1 h
    obtain ⟨w', hauthorized⟩ := authority_eq_ok hauthority
    cases hauthorized.found.symm.trans hget
    rw [Except.ite_error_eq_ok, not_not] at h
    obtain ⟨⟨hvalid, hpassed⟩, h⟩ := h
    rw [completeUnit] at h
    obtain ⟨written, hwritten, h⟩ := Except.bind_eq_ok.1 h
    obtain ⟨outbox, houtbox, h⟩ := Except.bind_eq_ok.1 h
    obtain ⟨_, _, h⟩ := Except.bind_eq_ok.1 h
    cases h
    obtain ⟨hreported, hnames, _, _, rfl⟩ := updateWork_verified hverified hwritten
    refine .inr ⟨hauthorized, hget, hreported, hauthorized.attempt, hnames, hvalid, hpassed, ?_, ?_, ?_, ?_, ?_⟩
    · rw [advanceCheckpoint_eq]
    · rw [advanceCheckpoint_eq]
    · rw [advanceCheckpoint_eq]
    · rw [advanceCheckpoint_eq]
      exact houtbox
    · exact advanceCheckpoint_congr (by rw [advanceCheckpoint_eq]) rfl

theorem advanceResource_eq_ok {event : Uuid} {resource : String} {revision : Nat} {position : Int}
    {answer : Nat} (hfound : db.work.get? u = some w) (hopen : w.state ≠ .verified)
    (h : advanceResource session db u w a proof receipt checks event resource revision position = .ok (answer, db')) :
    resource ∈ w.resources ∧
      (∀ v other, db.work.get? v = some other → v.run = u.run → v.step = u.step → other.ordinal < w.ordinal →
        other.state = .verified) ∧
      ∃ opened finished, openCheckpoint db u.run resource = .ok opened ∧
        checkResource opened resource revision position = .ok () ∧ Authorized session db u a proof w ∧
        Completed session opened u w a receipt checks event finished ∧
        writeResource finished u.run resource position (cursorOf w.unit) receipt = .ok (answer, db') := by
  rw [advanceResource] at h
  obtain ⟨_, hauthority, h⟩ := Except.bind_eq_ok.1 h
  obtain ⟨w', hauthorized⟩ := authority_eq_ok hauthority
  cases hauthorized.found.symm.trans hfound
  rw [Except.ite_error_eq_ok, Except.ite_error_eq_ok, not_not] at h
  obtain ⟨hresource, hhole, h⟩ := h
  obtain ⟨opened, hopened, h⟩ := Except.bind_eq_ok.1 h
  obtain ⟨_, hcheck, h⟩ := Except.bind_eq_ok.1 h
  obtain ⟨finished, hfinished, h⟩ := Except.bind_eq_ok.1 h
  have hwork : opened.work = db.work := by
    rw [openCheckpoint] at hopened
    split_ifs at hopened <;> cases hopened <;> rfl
  refine ⟨hresource, ?_, opened, finished, hopened, hcheck, hauthorized, ?_, h⟩
  · intro v other hother hrun hstep hlt
    by_contra hunfinished
    exact hhole (anyWork_iff.2 ⟨v, other, hother, hrun, hstep, by simp [hlt, hunfinished]⟩)
  · obtain ⟨w', hget, hsame | ⟨_, hcompleted⟩⟩ := finish_eq_ok hfinished
    · rw [hwork, hfound] at hget
      cases hget
      exact absurd hsame.1 hopen
    · rw [hwork, hfound] at hget
      cases hget
      exact hcompleted

theorem finishResource_eq_ok {event : Uuid} {resource : String} {revision position : Int}
    {answer : Nat}
    (h : finishResource session db u a proof receipt checks event resource revision position = .ok (answer, db')) :
    ∃ w, db.work.get? u = some w ∧ 0 ≤ revision ∧ -1 ≤ position ∧
      ((w.state = .verified ∧ db' = db ∧ repeatResource db u.run resource position receipt = .ok answer) ∨
        (w.state ≠ .verified ∧
          advanceResource session db u w a proof receipt checks event resource revision.toNat position = .ok (answer, db'))) := by
  rw [finishResource] at h
  obtain ⟨w, hfound, h⟩ := Except.bind_eq_ok.1 h
  have hget := selectWork_eq_ok.1 hfound
  rw [Except.ite_error_eq_ok, not_or, not_or, not_lt, not_lt] at h
  obtain ⟨⟨_, hrevision, hposition⟩, h⟩ := h
  refine ⟨w, hget, hrevision, hposition, ?_⟩
  by_cases hverified : w.state = .verified
  · rw [if_pos hverified] at h
    obtain ⟨same, hsame, h⟩ := Except.bind_eq_ok.1 h
    obtain ⟨held, hheld, h⟩ := Except.bind_eq_ok.1 h
    cases h
    obtain ⟨w', hget', ⟨_, _, _, rfl⟩ | ⟨_, hcompleted⟩⟩ := finish_eq_ok hsame
    · exact .inl ⟨hverified, rfl, hheld⟩
    · cases hget.symm.trans hcompleted.found
      have := hcompleted.reported
      rw [hverified] at this
      cases this
  · rw [if_neg hverified] at h
    exact .inr ⟨hverified, h⟩

/-- Rows of pending work were added, each for one of the entries, and nothing else changed but checkpoints that were opened. -/
structure Adds (r : Uuid) (entries : List WorkEntry) (db db' : Store) : Prop where
  runs : db'.runs = db.runs
  leases : db'.leases = db.leases
  outbox : db'.outbox = db.outbox
  kept : ∀ v x, db.work.get? v = some x → db'.work.get? v = some x
  added : ∀ v x, db'.work.get? v = some x → db.work.get? v = some x ∨ ∃ entry ∈ entries, v = entry.id r ∧ x = entry.pending
  checkpointsKept : ∀ place c, db.checkpoints.get? place = some c → db'.checkpoints.get? place = some c
  checkpointsAdded : ∀ place c, db'.checkpoints.get? place = some c → db.checkpoints.get? place = some c ∨
    (c = ⟨-1, none, none, none, 0⟩ ∧ ∃ entry ∈ entries, place = (r, entry.step))

theorem Adds.refl (r : Uuid) (entries : List WorkEntry) (db : Store) : Adds r entries db db :=
  ⟨rfl, rfl, rfl, fun _ _ h => h, fun _ _ h => .inl h, fun _ _ h => h, fun _ _ h => .inl h⟩

theorem Adds.trans {front back : List WorkEntry} {mid : Store} (h : Adds r front db mid)
    (h' : Adds r back mid db') : Adds r (front ++ back) db db' := by
  refine ⟨h'.runs.trans h.runs, h'.leases.trans h.leases, h'.outbox.trans h.outbox, fun v x hx => h'.kept v x (h.kept v x hx),
    ?_, fun place c hc => h'.checkpointsKept place c (h.checkpointsKept place c hc), ?_⟩
  · intro v x hx
    obtain hx | ⟨entry, hentry, hv⟩ := h'.added v x hx
    · obtain hx | ⟨entry, hentry, hv⟩ := h.added v x hx
      · exact .inl hx
      · exact .inr ⟨entry, List.mem_append_left _ hentry, hv⟩
    · exact .inr ⟨entry, List.mem_append_right _ hentry, hv⟩
  · intro place c hc
    obtain hc | ⟨heq, entry, hentry, hplace⟩ := h'.checkpointsAdded place c hc
    · obtain hc | ⟨heq, entry, hentry, hplace⟩ := h.checkpointsAdded place c hc
      · exact .inl hc
      · exact .inr ⟨heq, entry, List.mem_append_left _ hentry, hplace⟩
    · exact .inr ⟨heq, entry, List.mem_append_right _ hentry, hplace⟩

theorem insertWork_adds (db : Store) (r : Uuid) (entry : WorkEntry) : Adds r [entry] db (insertWork db r entry) := by
  rw [insertWork]
  split_ifs with htaken
  · exact Adds.refl r _ db
  · refine ⟨rfl, rfl, rfl, ?_, ?_, fun _ _ h => h, fun _ _ h => .inl h⟩
    · intro v x hx
      have hne : v ≠ entry.id r := by
        rintro rfl
        exact htaken (by simp [IndexMap.contains, hx])
      exact (IndexMap.get?_insert_of_ne _ _ hne).trans hx
    · intro v x hx
      rw [IndexMap.get?_insert] at hx
      split_ifs at hx with hv
      · cases hx
        exact .inr ⟨entry, by simp, hv, rfl⟩
      · exact .inl hx

variable {childStep : String}

theorem insertChild_eq_ok {sealed : Bool} {child : WorkEntry}
    (h : insertChild r childStep sealed db child = .ok db') :
    db' = insertWork db r child ∧ child.step = childStep ∧ 0 ≤ child.ordinal ∧
      (∀ v x, db.work.get? v = some x → v.run = r → v.step = childStep → x.ordinal = child.ordinal → v = child.id r) ∧
      (sealed = false → db.work.get? (child.id r) = none) ∧
      ∃ x, db'.work.get? (child.id r) = some x ∧ sameWork child x = true := by
  rw [insertChild, Except.ite_error_eq_ok, Except.ite_error_eq_ok, Except.ite_error_eq_ok, not_or, not_lt] at h
  obtain ⟨hformed, ⟨hordinal, hconflict⟩, hnew, h⟩ := h
  split_ifs at h with hsame
  cases h
  have hstep : child.step = childStep := by
    simp only [wellFormedChild, Bool.not_eq_false, Bool.and_eq_true, decide_eq_true_eq] at hformed
    exact hformed.1.1.1
  refine ⟨rfl, hstep, hordinal, ?_, ?_, ?_⟩
  · intro v x hx hrun hv hat
    by_contra hne
    refine hconflict (anyWork_iff.2 ⟨v, x, hx, hrun, hv, ?_⟩)
    have hkey : v.key ≠ child.key := by
      intro hkey
      apply hne
      cases v
      simp_all [WorkEntry.id]
    simp [hat, hkey]
  · intro hsealed
    rw [← Option.not_isSome_iff_eq_none]
    exact fun hsome => hnew ⟨hsealed, hsome⟩
  · obtain ⟨x, hx⟩ := Option.isSome_iff_exists.1 (Option.isSome_of_any hsame)
    exact ⟨x, hx, by simpa [hx] using hsame⟩

theorem insertChildren_adds {sealed : Bool} {children : List WorkEntry}
    (h : children.foldlM (insertChild r childStep sealed) db = .ok db') : Adds r children db db' := by
  refine Runs.run_invariant (fun front mid => Adds r front db mid) h (Adds.refl r [] db) ?_
  intro front child back mid next _ hmid hnext
  rw [(insertChild_eq_ok hnext).1]
  exact hmid.trans (insertWork_adds mid r child)

theorem openStep_kept {checkpoints : IndexMap (Uuid × String) Checkpoint} {step : String}
    {place : Uuid × String} {c : Checkpoint} (h : checkpoints.get? place = some c) :
    (openStep checkpoints r step).get? place = some c := by
  rw [openStep]
  split_ifs with hheld
  · exact h
  · rw [IndexMap.get?_insert_of_ne _ _ (by rintro rfl; exact hheld (by simp [IndexMap.contains, h]))]
    exact h

theorem openStep_cases {checkpoints : IndexMap (Uuid × String) Checkpoint} {step : String}
    {place : Uuid × String} {c : Checkpoint} (h : (openStep checkpoints r step).get? place = some c) :
    checkpoints.get? place = some c ∨ (c = ⟨-1, none, none, none, 0⟩ ∧ place = (r, step)) := by
  rw [openStep] at h
  split_ifs at h with hheld
  · exact .inl h
  · rw [IndexMap.get?_insert] at h
    split_ifs at h with hplace
    · cases h
      exact .inr ⟨rfl, hplace⟩
    · exact .inl h

theorem startEntry_eq_ok {entry : WorkEntry} (h : startEntry r db entry = .ok db') :
    0 ≤ entry.ordinal ∧ Adds r [entry] db db' ∧ db'.work = (insertWork db r entry).work := by
  rw [startEntry, Except.ite_error_eq_ok, not_lt] at h
  obtain ⟨hordinal, h⟩ := h
  split_ifs at h with hsame
  cases h
  have hadds := insertWork_adds db r entry
  refine ⟨hordinal, ⟨hadds.runs, hadds.leases, hadds.outbox, hadds.kept, hadds.added, fun _ _ h => openStep_kept h, ?_⟩, rfl⟩
  intro place c hc
  obtain hc | ⟨hc, hplace⟩ := openStep_cases hc
  · exact .inl hc
  · exact .inr ⟨hc, entry, by simp, hplace⟩

theorem startEntries_adds {items : List WorkEntry} (h : items.foldlM (startEntry r) db = .ok db') :
    Adds r items db db' := by
  refine Runs.run_invariant (fun front mid => Adds r front db mid) h (Adds.refl r [] db) ?_
  intro front entry back mid next _ hmid hnext
  exact hmid.trans (startEntry_eq_ok hnext).2.1

/-- An expansion that completed its parent: the children are in, the parent is verified and counts them, the run expects them. -/
structure Expanded (session : Session) (db : Store) (u : UnitId) (parent : WorkItem) (a : Uuid) (receipt checks : Json)
    (event : Uuid) (children : List WorkEntry) (childStep : String) (added finished : Store) (run : PipelineRun)
    (db' : Store) : Prop where
  inserted : children.foldlM (insertChild u.run childStep false) db = .ok added
  completed : Completed session added u parent a receipt checks event finished
  expecting : db.runs.get? u.run = some run
  runs : db'.runs = db.runs.insert u.run (expectMore run children.length)
  work : db'.work = finished.work.insert u
    (sealWork (completedWork session parent receipt checks (earliestEnd db.leases u.run a)) children.length)
  leases : db'.leases = expireLeases db.leases u.run a session.clock
  outbox : db'.outbox = finished.outbox
  checkpoints : db'.checkpoints = openStep finished.checkpoints u.run childStep

theorem sealExpansion_eq_ok {count : Nat} (h : sealExpansion db u childStep count = .ok db') :
    ∃ w run, db.work.get? u = some w ∧ db.runs.get? u.run = some run ∧
      db' = { db with work := db.work.insert u (sealWork w count)
                      runs := db.runs.insert u.run (expectMore run count)
                      checkpoints := openStep db.checkpoints u.run childStep } := by
  rw [sealExpansion] at h
  obtain ⟨w, hw, h⟩ := Except.bind_eq_ok.1 h
  obtain ⟨run, hrun, h⟩ := Except.bind_eq_ok.1 h
  cases h
  exact ⟨w, run, selectWork_eq_ok.1 hw, selectRun_eq_ok.1 hrun, rfl⟩

theorem checkParent_eq_ok {parent : WorkItem}
    (h : checkParent session db u parent a proof receipt checks = .ok ()) :
    (parent.state ≠ .verified ∧ ∃ w, Authorized session db u a proof w) ∨
      (parent.state = .verified ∧ parent.generatedCount ≠ none ∧ parent.receipt = some receipt ∧ parent.checks = checks) := by
  rw [checkParent] at h
  by_cases hopen : parent.state ≠ .verified
  · rw [if_pos hopen] at h
    exact .inl ⟨hopen, authority_eq_ok h⟩
  · rw [if_neg hopen, Except.ite_error_eq_ok, not_or, not_or, not_not, not_not] at h
    exact .inr ⟨not_not.1 hopen, h.1⟩

theorem finishExpand_eq_ok {event : Uuid} {children : List WorkEntry}
    (h : finishExpand session db u a proof receipt checks event children childStep = .ok db') :
    childStep ≠ u.step ∧ (children.map WorkEntry.key).Nodup ∧
      ∃ parent, db.work.get? u = some parent ∧ generatedStep parent.unit = some childStep ∧
        ((parent.state = .verified ∧ parent.generatedCount ≠ none ∧ parent.receipt = some receipt ∧ parent.checks = checks ∧
            children.foldlM (insertChild u.run childStep true) db = .ok db') ∨
          (Authorized session db u a proof parent ∧ ∃ added finished run,
            Expanded session db u parent a receipt checks event children childStep added finished run db')) := by
  rw [finishExpand, Except.ite_error_eq_ok, Except.ite_error_eq_ok, not_or, not_or, not_not] at h
  obtain ⟨⟨_, _, hstep⟩, hkeys, h⟩ := h
  obtain ⟨parent, hfound, h⟩ := Except.bind_eq_ok.1 h
  have hget := selectWork_eq_ok.1 hfound
  rw [Except.ite_error_eq_ok, not_not] at h
  obtain ⟨hgenerated, h⟩ := h
  obtain ⟨_, hparent, h⟩ := Except.bind_eq_ok.1 h
  obtain ⟨added, hadded, h⟩ := Except.bind_eq_ok.1 h
  refine ⟨hstep, hkeys, parent, hget, hgenerated, ?_⟩
  obtain ⟨hopen, w, hauthorized⟩ | ⟨hverified, hcount, hreceipt, hchecks⟩ := checkParent_eq_ok hparent
  · cases hauthorized.found.symm.trans hget
    rw [decide_eq_false hopen] at hadded
    rw [if_neg hopen] at h
    obtain ⟨finished, hfinished, h⟩ := Except.bind_eq_ok.1 h
    have hadds := insertChildren_adds hadded
    obtain ⟨w, hw, ⟨hverified, _⟩ | ⟨_, hcompleted⟩⟩ := finish_eq_ok hfinished
    · cases (hadds.kept u parent hget).symm.trans hw
      exact absurd hverified hopen
    · cases (hadds.kept u parent hget).symm.trans hw
      obtain ⟨w, run, hw, hrun, rfl⟩ := sealExpansion_eq_ok h
      have hruns : finished.runs = db.runs := hcompleted.runs.trans hadds.runs
      refine .inr ⟨hauthorized, added, finished, run, hadded, hcompleted, hruns ▸ hrun, ?_, ?_, ?_, rfl, rfl⟩
      · rw [hruns]
      · rw [hcompleted.work, IndexMap.get?_insert_self, Option.some.injEq] at hw
        rw [← hw, hadds.leases]
      · show finished.leases = _
        rw [hcompleted.leases, hadds.leases]
  · rw [decide_eq_true hverified] at hadded
    rw [if_pos hverified] at h
    cases h
    exact .inl ⟨hverified, hcount, hreceipt, hchecks, hadded⟩

theorem startRun_eq_ok {submission : Json} {hash : String} {items : List WorkEntry}
    (h : startRun db r submission hash items = .ok db') :
    ∃ run, (insertRun db r submission hash items.length).runs.get? r = some run ∧ run.submission = submission ∧
      run.submissionHash = hash ∧
      ((run.compactedAt.isSome = true ∧ db' = insertRun db r submission hash items.length) ∨
        (run.compactedAt = none ∧ items.foldlM (startEntry r) (insertRun db r submission hash items.length) = .ok db' ∧
          countWork db' r (fun _ _ => true) = run.expectedCount)) := by
  rw [startRun, Except.ite_error_eq_ok] at h
  obtain ⟨_, h⟩ := h
  obtain ⟨run, hrun, h⟩ := Except.bind_eq_ok.1 h
  rw [Except.ite_error_eq_ok, not_or, not_not, not_not] at h
  obtain ⟨⟨hsubmission, hhash⟩, h⟩ := h
  refine ⟨run, selectRun_eq_ok.1 hrun, hsubmission, hhash, ?_⟩
  by_cases hcompacted : run.compactedAt.isSome = true
  · rw [if_pos hcompacted] at h
    cases h
    exact .inl ⟨hcompacted, rfl⟩
  · rw [if_neg hcompacted, startWork] at h
    obtain ⟨started, hstarted, h⟩ := Except.bind_eq_ok.1 h
    rw [Except.ite_error_eq_ok, not_not] at h
    obtain ⟨hcount, h⟩ := h
    cases h
    exact .inr ⟨Option.not_isSome_iff_eq_none.1 hcompacted, hstarted, hcount⟩

theorem insertRun_eq (db : Store) (r : Uuid) (submission : Json) (hash : String) (count : Nat) :
    insertRun db r submission hash count = { db with runs := (insertRun db r submission hash count).runs } := by
  rw [insertRun]
  split_ifs <;> rfl

theorem blockRun_eq (db : Store) (r : Uuid) (message : String) :
    blockRun db r message = { db with runs := (blockRun db r message).runs } := by
  rw [blockRun]
  split <;> rfl

theorem delivery_eq (session : Session) (db : Store) (event : Uuid) (message : Option String) :
    delivery session db event message = { db with outbox := (delivery session db event message).outbox } := by
  rw [delivery]
  split
  · rfl
  · split_ifs <;> rfl

theorem recordRunChecks_eq_ok {wire : Completion} (h : recordRunChecks session db wire = .ok db') :
    ∃ run, db.runs.get? wire.run = some run ∧ run.compactedAt = none ∧ wire.counters = observeCounters db wire.run run ∧
      (wire.complete = true → wire.counters.incomplete wire.checks = false) ∧
      db' = { db with runs := db.runs.insert wire.run (recordedRun wire session.clock run) } := by
  rw [recordRunChecks] at h
  split at h
  · cases h
  · rename_i run hrun
    rw [Except.ite_error_eq_ok, Except.ite_error_eq_ok, Except.ite_error_eq_ok, Except.ite_error_eq_ok,
      Except.ite_error_eq_ok, Option.not_isSome_iff_eq_none, not_not] at h
    obtain ⟨hcompacted, hcounters, hcomplete, _, _, h⟩ := h
    cases h
    refine ⟨run, hrun, hcompacted, hcounters, ?_, rfl⟩
    intro hwire
    by_contra hincomplete
    exact hcomplete ⟨hwire, Bool.not_eq_false _ ▸ hincomplete⟩

theorem resumeRun_eq_ok {wire : Resumption} (h : resumeRun db wire = .ok db') :
    ∃ run, db.runs.get? wire.run = some run ∧ run.compactedAt = none ∧
      db' = { db with runs := db.runs.insert wire.run (resumedRun run) } := by
  rw [resumeRun] at h
  split at h
  · cases h
  · rename_i run hrun
    rw [Except.ite_error_eq_ok, Except.ite_error_eq_ok, Option.not_isSome_iff_eq_none] at h
    obtain ⟨hcompacted, _, h⟩ := h
    cases h
    exact ⟨run, hrun, hcompacted, rfl⟩

end EdgarPlatform.Bookkeeping
