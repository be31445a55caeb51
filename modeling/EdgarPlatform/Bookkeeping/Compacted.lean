import EdgarPlatform.Bookkeeping.Operations

/-!
# Compacted runs

A compaction leaves a complete run without its units and events. An operation that reverifies the run's frozen scope then finds no stored unit: unless the run never had one, the accounting fails and blocks the run, which is no longer complete. An operation leaves a compacted run as it is exactly where it reverifies nothing, or the run had no work to lose.
-/

namespace EdgarPlatform.Bookkeeping

open Records (Json)

inductive Operation where
  | finalize
  | check
  | resume
  | deliver (limit : Nat)
  | claim (step key : String) (a : Uuid)
  | heartbeat (step key : String) (a : Uuid) (proof : List LeaseProof)
  | tasks (profile : String) (limit : Nat) (attempt : Nat → Uuid)
  | status (limit : Nat) (step : Option String)

inductive Reply where
  | status (status : Status)
  | checks (checks : RunChecks)
  | count (count : Nat)
  | claimed (proof : Option (List LeaseProof))
  | held (proof : List LeaseProof)
  | tasks (units : List UnitId)

/-- An operation as it is made: in its surroundings, by a session at its times. -/
structure Made where
  env : Surroundings
  session : Nat → Nat → Session
  operation : Operation

def Made.program (made : Made) (r : Uuid) : Engine Reply :=
  match made.operation with
  | .finalize => finalize made.env (made.session 0) r >>= fun shown => pure (.status shown)
  | .check => check made.env r >>= fun checks => pure (.checks checks)
  | .resume => resume made.env (made.session 0) r >>= fun shown => pure (.status shown)
  | .deliver limit => deliver made.env (made.session 0) r limit >>= fun count => pure (.count count)
  | .claim step key a => claimUnitOf made.env (made.session 0) ⟨r, step, key⟩ a >>= fun proof => pure (.claimed proof)
  | .heartbeat step key a proof => heartbeatOf made.env (made.session 0) ⟨r, step, key⟩ a proof >>= fun proof => pure (.held proof)
  | .tasks profile limit attempt => tasks made.env made.session attempt r profile limit >>= fun found => pure (.tasks found)
  | .status limit step => status r limit step >>= fun shown => pure (.status shown)

def operate (r : Uuid) (db : Store) (operations : List Made) : Store :=
  operations.foldl (fun db made => (made.program r db).2) db

/-- The operation reverifies the frozen scope of a compacted run. -/
def Operation.reverifies : Operation → Bool
  | .resume => false
  | .status _ _ => false
  | .deliver limit => 1 ≤ limit && limit ≤ 1000
  | .tasks _ limit _ => 1 ≤ limit && limit ≤ 1000
  | _ => true

def Operation.finalizes : Operation → Bool
  | .finalize => true
  | _ => false

/-- A compacted run's row, with nothing left of its work. -/
structure Emptied (db : Store) (r : Uuid) (run : PipelineRun) : Prop where
  found : db.runs.get? r = some run
  complete : run.state = .complete
  compacted : run.compactedAt.isSome = true
  work : ∀ u w, db.work.get? u = some w → u.run ≠ r
  events : ∀ e event, db.outbox.get? e = some event → event.unit.run ≠ r

variable {env : Surroundings} {db db' : Store} {r : Uuid} {run : PipelineRun}

theorem Emptied.workOf_eq (h : Emptied db r run) : workOf db r = [] := by
  rw [workOf, List.filter_eq_nil_iff]
  intro entry hentry
  simpa using h.work entry.1 entry.2 (IndexMap.get?_eq_some_iff.2 hentry)

theorem Emptied.eventsOf_eq (h : Emptied db r run) : eventsOf db r = [] := by
  rw [eventsOf, List.filter_eq_nil_iff]
  intro entry hentry
  simpa using h.events entry.1 entry.2 (IndexMap.get?_eq_some_iff.2 hentry)

theorem emptied_of_compact {runText : Uuid → String} {session : Session} {days : Int} {answer : Answer} {before : PipelineRun}
    (hcompact : perform runText db ⟨session, .compact days⟩ = .ok (answer, db')) (hbefore : db.runs.get? r = some before)
    (hfresh : before.compactedAt = none) (hrun : db'.runs.get? r = some run) (hdone : run.compactedAt.isSome = true) :
    Emptied db' r run ∧ run.state = before.state ∧ run.checks = before.checks ∧ run.completedAt = before.completedAt := by
  obtain ⟨total, hcompact, _⟩ := answered_eq_ok hcompact
  obtain ⟨dropped, hdropped⟩ := compact_eq_ok hcompact
  have hmem : r ∈ dropped := by
    by_contra hnot
    rw [hdropped.kept r hnot, hbefore] at hrun
    cases hrun
    rw [hfresh] at hdone
    cases hdone
  obtain ⟨row, summary, t, hrow, hcomplete, _, hdelivered, hget⟩ := hdropped.compacted r hmem
  cases hbefore.symm.trans hrow
  cases hget.symm.trans hrun
  refine ⟨⟨hrun, hcomplete, rfl, fun u w hw hu => ?_, fun e event he hunit => ?_⟩, rfl, rfl, rfl⟩
  · rw [hdropped.work, if_pos (hu ▸ hmem)] at hw
    cases hw
  · obtain ⟨hevent, hkept⟩ := (hdropped.outbox e event).1 he
    exact hkept ⟨hunit ▸ hmem, hdelivered e event hevent hunit⟩

theorem frozenScope_nil {config : Config} {items : List WorkEntry} (h : frozenUnits env run = .ok (config, items)) :
    frozenScope env run [] = if items = [] ∧ run.expectedCount = 0 then .ok (config, [])
      else .error (.blocked "Generated work accounting changed") := by
  rw [frozenScope, h, Except.bind_ok, List.foldlM_nil]
  show (ensure _ _ >>= _) = _
  rw [ensure]
  cases items with
  | nil =>
      by_cases hnone : run.expectedCount = 0
      · rw [if_pos (by simp [hnone]), if_pos ⟨rfl, hnone⟩]
        rfl
      · rw [if_neg (by simpa using fun h => hnone h.symm), if_neg fun h => hnone h.2]
        rfl
  | cons entry rest =>
      rw [if_neg (by simp), if_neg (by simp)]
      rfl

def FrozeNothing (env : Surroundings) (run : PipelineRun) : Prop :=
  isLegacy run.submission = false ∧ run.expectedCount = 0 ∧ ∃ config, frozenUnits env run = .ok (config, [])

/-- The reverification ends before it can block the run: the run belongs to the earlier protocol, or reading its submission fails with an exception the engine does not take up. -/
def EndsEarly (env : Surroundings) (run : PipelineRun) : Prop :=
  isLegacy run.submission = true ∨ ∃ fault, frozenUnits env run = .error fault ∧ fault.caught = none

theorem Emptied.frozen_nothing (h : Emptied db r run) (hnothing : FrozeNothing env run) :
    ∃ config, validate config = .ok () ∧ frozen env r db = (.ok ⟨run, config, []⟩, db) := by
  obtain ⟨hlegacy, hnone, config, hunits⟩ := hnothing
  refine ⟨config, ?_, ?_⟩
  · obtain ⟨frozen, hfrozen, hunits⟩ := Except.bind_eq_ok.1 hunits
    have hsame : frozen = config := by
      obtain ⟨_, _, hunits⟩ := Except.bind_eq_ok.1 hunits
      obtain ⟨_, _, hunits⟩ := Except.bind_eq_ok.1 hunits
      obtain ⟨_, _, hunits⟩ := Except.bind_eq_ok.1 hunits
      obtain ⟨_, _, hunits⟩ := Except.bind_eq_ok.1 hunits
      obtain ⟨_, _, hunits⟩ := Except.bind_eq_ok.1 hunits
      obtain ⟨_, _, hunits⟩ := Except.bind_eq_ok.1 hunits
      cases hunits
      rfl
    rw [← hsame]
    exact frozenConfig_valid hfrozen
  · rw [frozen, h.found, h.workOf_eq]
    simp only [hlegacy, frozenScope_nil hunits]
    simp [hnone]

theorem Emptied.frozen_early (h : Emptied db r run) (hearly : EndsEarly env run) : ∃ fault, frozen env r db = (.error fault, db) := by
  rw [frozen, h.found]
  obtain hlegacy | ⟨fault, hunits, hcaught⟩ := hearly
  · exact ⟨_, by simp only [hlegacy, if_true]; rfl⟩
  · by_cases hlegacy : isLegacy run.submission = true
    · exact ⟨_, by simp only [hlegacy, if_true]; rfl⟩
    · have hscope : frozenScope env run (workOf db r) = .error fault := by
        rw [frozenScope, hunits]
        rfl
      refine ⟨fault, ?_⟩
      simp only [if_neg hlegacy, hscope, blockOn, hcaught]

theorem Emptied.frozen_blocks (h : Emptied db r run) (hwork : ¬ FrozeNothing env run) (hlate : ¬ EndsEarly env run) :
    ∃ fault message, frozen env r db = (.error fault, blockRun db r message) := by
  rw [EndsEarly, not_or] at hlate
  obtain ⟨hlegacy, hcaught⟩ := hlate
  rw [frozen, h.found, h.workOf_eq]
  simp only [if_neg hlegacy]
  cases hunits : frozenUnits env run with
  | error fault =>
      have hscope : frozenScope env run [] = .error fault := by
        rw [frozenScope, hunits]
        rfl
      cases hmessage : fault.caught with
      | none => exact absurd ⟨fault, hunits, hmessage⟩ hcaught
      | some message => exact ⟨fault.raised, message, by simp only [hscope, blockOn, hmessage]⟩
  | ok frozen =>
      obtain ⟨config, items⟩ := frozen
      rw [frozenScope_nil hunits, if_neg]
      · exact ⟨_, _, rfl⟩
      · rintro ⟨rfl, hnone⟩
        exact hwork ⟨by simpa using hlegacy, hnone, config, hunits⟩

theorem Emptied.claim_refused (h : Emptied db r run) (env : Surroundings) (session : Session) (step key : String) (a : Uuid) (seconds : Int)
    (prereqs : List String) :
    ∃ refusal, transition env session (.claim ⟨r, step, key⟩ a seconds prereqs) db = (.error (.refused refusal), db) ∧
      refusal.code ≠ "55P03" := by
  have hstopped : requireExecutable db r = .error (raised "Run is not executable") := by
    rw [requireExecutable, h.found, Option.any_some, isExecutable, h.complete]
    rfl
  have hclaim : ∃ refusal, claim session db ⟨r, step, key⟩ a seconds prereqs = .error refusal ∧ refusal.code ≠ "55P03" := by
    rw [claim, require]
    split_ifs
    · rw [Except.bind_ok, claimUnit, checkSeconds]
      split_ifs
      · exact ⟨_, rfl, by decide⟩
      · rw [Except.bind_ok, hstopped]
        exact ⟨_, rfl, by decide⟩
    · exact ⟨_, rfl, by decide⟩
  obtain ⟨refusal, hrefused, hcode⟩ := hclaim
  refine ⟨refusal, ?_, hcode⟩
  simp only [transition, perform, hrefused]
  rfl

theorem Emptied.heartbeat_refused (h : Emptied db r run) (env : Surroundings) (session : Session) (step key : String) (a : Uuid)
    (proof : List LeaseProof) (seconds : Int) :
    ∃ refusal, transition env session (.heartbeat ⟨r, step, key⟩ a proof seconds) db = (.error (.refused refusal), db) := by
  have hstopped : requireExecutable db r = .error (raised "Run is not executable") := by
    rw [requireExecutable, h.found, Option.any_some, isExecutable, h.complete]
    rfl
  have hheld : ∃ refusal, heartbeat session db ⟨r, step, key⟩ a proof seconds = .error refusal := by
    rw [heartbeat, require]
    split_ifs
    · rw [Except.bind_ok, renewUnit, checkSeconds]
      split_ifs
      · exact ⟨_, rfl⟩
      · rw [Except.bind_ok, authority, hstopped]
        exact ⟨_, rfl⟩
    · exact ⟨_, rfl⟩
  obtain ⟨refusal, hrefused⟩ := hheld
  refine ⟨refusal, ?_⟩
  simp only [transition, perform, hrefused]
  rfl

theorem status_found {db : Store} {r : Uuid} {run : PipelineRun} (hfound : db.runs.get? r = some run) :
    status r 100 none db = (.ok (statusOf db r 100 none run), db) := by
  rw [status, hfound]
  rfl

theorem validate_attempts {config : Config} (h : validate config = .ok ()) : 1 ≤ config.attempts := by
  rw [validate] at h
  obtain ⟨_, _, h⟩ := Except.bind_eq_ok.1 h
  obtain ⟨_, _, h⟩ := Except.bind_eq_ok.1 h
  obtain ⟨_, hattempts, _⟩ := Except.bind_eq_ok.1 h
  rw [checkInteger, blockUnless_eq_ok, Bool.and_eq_true, decide_eq_true_eq] at hattempts
  exact hattempts.1

theorem Emptied.finalize_nothing (h : Emptied db r run) (hnothing : FrozeNothing env run) (session : Nat → Session) :
    finalize env session r db = (.ok (statusOf db r 100 none run), db) := by
  obtain ⟨config, hvalid, hfrozen⟩ := h.frozen_nothing hnothing
  have hattempts := validate_attempts hvalid
  obtain ⟨tries, htries⟩ : ∃ tries, config.attempts.toNat = tries + 1 := ⟨config.attempts.toNat - 1, by omega⟩
  rw [finalize, Program.bind_of_ok hfrozen]
  show finalizeTries env session r config.attempts.toNat 0 ⟨run, config, []⟩ db = _
  rw [htries, finalizeTries, if_pos h.compacted]
  exact status_found h.found

theorem handle_of_error {α : Type} {x : Engine α} {f : Fault → Engine α} {db mid : Store} {fault : Fault} (h : x db = (.error fault, mid)) :
    Program.handle x f db = f fault mid := by
  rw [Program.handle, h]

theorem Emptied.no_events (h : Emptied db r run) (limit : Nat) : pendingEvents db r limit = [] := by
  rw [pendingEvents, h.eventsOf_eq]
  simp [Sorting.sortByKey]

theorem Emptied.no_keys (h : Emptied db r run) (step : String) (now : Instant) : availableKeys db r step now = [] := by
  rw [availableKeys, h.workOf_eq]
  simp [Sorting.sortByKey]

theorem Emptied.deliver_nothing (h : Emptied db r run) (hnothing : FrozeNothing env run) (session : Nat → Session) (limit : Nat) :
    (deliver env session r limit db).2 = db := by
  obtain ⟨config, _, hfrozen⟩ := h.frozen_nothing hnothing
  rw [deliver]
  refine Program.bind_leaves rfl fun _ _ => ?_
  rw [Program.bind_of_ok hfrozen]
  refine Program.bind_leaves rfl fun events hevents => ?_
  have hnone : events = [] := by
    cases hevents
    exact h.no_events limit
  rw [hnone]
  rfl

theorem Emptied.claim_nothing (h : Emptied db r run) (hnothing : FrozeNothing env run) (session : Nat → Session) (step key : String)
    (a : Uuid) : (claimUnitOf env session ⟨r, step, key⟩ a db).2 = db := by
  obtain ⟨config, hvalid, hfrozen⟩ := h.frozen_nothing hnothing
  have hattempts := validate_attempts hvalid
  obtain ⟨tries, htries⟩ : ∃ tries, config.attempts.toNat = tries + 1 := ⟨config.attempts.toNat - 1, by omega⟩
  rw [claimUnitOf, Program.bind_of_ok hfrozen]
  cases hstep : config.steps.find? fun configured => configured.name = step with
  | none => simp only [Program.fail]
  | some configured =>
      obtain ⟨refusal, hrefused, hcode⟩ := h.claim_refused env (session 0) step key a config.leaseSeconds configured.requires
      simp only [htries, claimTries]
      rw [handle_of_error (Program.bind_of_error hrefused), if_neg]
      · rfl
      · simpa [isContention] using hcode

theorem Emptied.heartbeat_nothing (h : Emptied db r run) (hnothing : FrozeNothing env run) (session : Nat → Session) (step key : String)
    (a : Uuid) (proof : List LeaseProof) : (heartbeatOf env session ⟨r, step, key⟩ a proof db).2 = db := by
  obtain ⟨config, _, hfrozen⟩ := h.frozen_nothing hnothing
  obtain ⟨refusal, hrefused⟩ := h.heartbeat_refused env (session 0) step key a proof config.leaseSeconds
  rw [heartbeatOf, Program.bind_of_ok hfrozen, Program.bind_of_error hrefused]

theorem Emptied.tasks_nothing (h : Emptied db r run) (hnothing : FrozeNothing env run) (session : Nat → Nat → Session)
    (attempt : Nat → Uuid) (profile : String) (limit : Nat) : (tasks env session attempt r profile limit db).2 = db := by
  obtain ⟨config, _, hfrozen⟩ := h.frozen_nothing hnothing
  rw [tasks]
  refine Program.bind_leaves rfl fun _ _ => ?_
  rw [Program.bind_of_ok hfrozen]
  show ((config.steps.foldlM (stepTasks env session attempt r profile limit) [] : Engine (List UnitId)) db).2 = db
  rw [Program.foldlM_idle]
  intro step _
  rw [stepTasks]
  split_ifs
  · rfl
  · have hkeys : Program.read (fun db => availableKeys db r step.name (session 0 0).clock) db = ((.ok [] : Except Fault _), db) := by
      rw [Program.read, h.no_keys]
    rw [Program.bind_of_ok hkeys]
    rfl

theorem Emptied.check_nothing (h : Emptied db r run) (hnothing : FrozeNothing env run) : (check env r db).2 = db := by
  obtain ⟨config, _, hfrozen⟩ := h.frozen_nothing hnothing
  have hobserved : observations r db = (.ok (observeCounters db r run), db) := by rw [observations, h.found]
  rw [check, Program.bind_of_ok hfrozen, Program.bind_of_ok hobserved]
  rfl

theorem Emptied.resume_refused (h : Emptied db r run) (session : Nat → Session) : (resume env session r db).2 = db := by
  rw [resume, h.found]
  simp only [h.compacted, if_true]

theorem status_leaves (db : Store) (r : Uuid) (limit : Nat) (step : Option String) : (status r limit step db).2 = db := by
  rw [status]
  cases withinThousand limit <;> cases db.runs.get? r <;> rfl

theorem Emptied.leaves_nothing (h : Emptied db r run) (made : Made) (hnothing : FrozeNothing made.env run) :
    (made.program r db).2 = db := by
  cases hop : made.operation with
  | finalize =>
      simp only [Made.program, hop]
      rw [Program.bind_of_ok (h.finalize_nothing hnothing _)]
      rfl
  | check =>
      simp only [Made.program, hop]
      exact Program.bind_leaves (h.check_nothing hnothing) fun _ _ => rfl
  | resume =>
      simp only [Made.program, hop]
      exact Program.bind_leaves (h.resume_refused _) fun _ _ => rfl
  | deliver limit =>
      simp only [Made.program, hop]
      exact Program.bind_leaves (h.deliver_nothing hnothing _ limit) fun _ _ => rfl
  | claim step key a =>
      simp only [Made.program, hop]
      exact Program.bind_leaves (h.claim_nothing hnothing _ step key a) fun _ _ => rfl
  | heartbeat step key a proof =>
      simp only [Made.program, hop]
      exact Program.bind_leaves (h.heartbeat_nothing hnothing _ step key a proof) fun _ _ => rfl
  | tasks profile limit attempt =>
      simp only [Made.program, hop]
      exact Program.bind_leaves (h.tasks_nothing hnothing _ attempt profile limit) fun _ _ => rfl
  | status limit step =>
      simp only [Made.program, hop]
      exact Program.bind_leaves (status_leaves db r limit step) fun _ _ => rfl

theorem within_thousand {limit : Nat} (h : (1 ≤ limit && limit ≤ 1000) = true) : withinThousand limit = .ok () := by
  rw [withinThousand, if_pos (by simpa using h)]

theorem beyond_thousand {limit : Nat} (h : (1 ≤ limit && limit ≤ 1000) = false) : withinThousand limit = .error (.other "ValueError") := by
  rw [withinThousand, if_neg fun hlimit => by simp [hlimit.1, hlimit.2] at h]

variable {made : Made}

theorem program_of_frozen {mid : Store} {fault : Fault} (hreverifies : made.operation.reverifies = true)
    (hfrozen : frozen made.env r db = (.error fault, mid)) : made.program r db = (.error fault, mid) := by
  cases hop : made.operation with
  | finalize =>
      simp only [Made.program, hop]
      exact Program.bind_of_error (Program.bind_of_error hfrozen)
  | check =>
      simp only [Made.program, hop]
      exact Program.bind_of_error (Program.bind_of_error hfrozen)
  | resume =>
      rw [hop] at hreverifies
      cases hreverifies
  | deliver limit =>
      rw [hop] at hreverifies
      have hlimit : Program.given (withinThousand limit) db = (.ok (), db) := by rw [Program.given, within_thousand hreverifies]
      simp only [Made.program, hop]
      refine Program.bind_of_error ?_
      rw [deliver, Program.bind_of_ok hlimit]
      exact Program.bind_of_error hfrozen
  | claim step key a =>
      simp only [Made.program, hop]
      exact Program.bind_of_error (Program.bind_of_error hfrozen)
  | heartbeat step key a proof =>
      simp only [Made.program, hop]
      exact Program.bind_of_error (Program.bind_of_error hfrozen)
  | tasks profile limit attempt =>
      rw [hop] at hreverifies
      have hlimit : Program.given (withinThousand limit) db = (.ok (), db) := by rw [Program.given, within_thousand hreverifies]
      simp only [Made.program, hop]
      refine Program.bind_of_error ?_
      rw [tasks, Program.bind_of_ok hlimit]
      exact Program.bind_of_error hfrozen
  | status limit step =>
      rw [hop] at hreverifies
      cases hreverifies

theorem Emptied.leaves_idle (h : Emptied db r run) (hidle : made.operation.reverifies = false) :
    (made.program r db).2 = db := by
  cases hop : made.operation with
  | resume =>
      simp only [Made.program, hop]
      exact Program.bind_leaves (h.resume_refused _) fun _ _ => rfl
  | status limit step =>
      simp only [Made.program, hop]
      exact Program.bind_leaves (status_leaves db r limit step) fun _ _ => rfl
  | deliver limit =>
      rw [hop] at hidle
      have hlimit : (Program.given (withinThousand limit) : Engine Unit) db = (.error (.other "ValueError"), db) := by
        rw [Program.given, beyond_thousand hidle]
      simp only [Made.program, hop, deliver]
      rw [Program.bind_of_error (Program.bind_of_error hlimit)]
  | tasks profile limit attempt =>
      rw [hop] at hidle
      have hlimit : (Program.given (withinThousand limit) : Engine Unit) db = (.error (.other "ValueError"), db) := by
        rw [Program.given, beyond_thousand hidle]
      simp only [Made.program, hop, tasks]
      rw [Program.bind_of_error (Program.bind_of_error hlimit)]
  | finalize => simp [hop, Operation.reverifies] at hidle
  | check => simp [hop, Operation.reverifies] at hidle
  | claim step key a => simp [hop, Operation.reverifies] at hidle
  | heartbeat step key a proof => simp [hop, Operation.reverifies] at hidle

/-- After each of some operations the run is complete with its checks and its completion time, and a finalization has shown its status. -/
def StaysCompacted (r : Uuid) (run : PipelineRun) (db : Store) (operations : List Made) : Prop :=
  ∀ front made back, operations = front ++ made :: back →
    (∃ after, (made.program r (operate r db front)).2.runs.get? r = some after ∧ after.state = .complete ∧ after.checks = run.checks ∧
      after.completedAt = run.completedAt) ∧
    (made.operation = .finalize → ∃ stored, (operate r db front).runs.get? r = some stored ∧
      (made.program r (operate r db front)).1 = .ok (.status (statusOf (operate r db front) r 100 none stored)))

/-- The operation reverifies nothing, or has nothing to miss: the run froze no unit, or, for all but a finalization, the reverification ends before it compares the units. -/
def Spares (run : PipelineRun) (made : Made) : Prop :=
  made.operation.reverifies = true → FrozeNothing made.env run ∨ (made.operation ≠ .finalize ∧ EndsEarly made.env run)

theorem Emptied.leaves_spared (h : Emptied db r run) (hspares : Spares run made) : (made.program r db).2 = db := by
  cases hreverifies : made.operation.reverifies with
  | false => exact h.leaves_idle hreverifies
  | true =>
      obtain hnothing | ⟨_, hearly⟩ := hspares hreverifies
      · exact h.leaves_nothing made hnothing
      · obtain ⟨fault, hfrozen⟩ := h.frozen_early hearly
        rw [program_of_frozen hreverifies hfrozen]

theorem Emptied.operate_spared (h : Emptied db r run) {operations : List Made} (hspares : ∀ made ∈ operations, Spares run made) :
    operate r db operations = db := by
  induction operations with
  | nil => rfl
  | cons made rest ih =>
      show operate r (made.program r db).2 rest = db
      rw [h.leaves_spared (hspares made (by simp))]
      exact ih fun other hother => hspares other (List.mem_cons_of_mem _ hother)

theorem Emptied.stays (h : Emptied db r run) {operations : List Made} (hspares : ∀ made ∈ operations, Spares run made) :
    StaysCompacted r run db operations := by
  intro front made back hsplit
  rw [hsplit] at hspares
  have hmade := hspares made (by simp)
  rw [h.operate_spared fun other hother => hspares other (List.mem_append_left _ hother)]
  refine ⟨⟨run, ?_, h.complete, rfl, rfl⟩, fun hfinalize => ⟨run, h.found, ?_⟩⟩
  · rw [h.leaves_spared hmade]
    exact h.found
  · obtain hnothing | ⟨hother, _⟩ := hmade (by rw [hfinalize]; rfl)
    · simp only [Made.program, hfinalize]
      rw [Program.bind_of_ok (h.finalize_nothing hnothing _)]
      rfl
    · exact absurd hfinalize hother

theorem Emptied.spares_of_stays (h : Emptied db r run) {rest : List Made}
    (hstays : StaysCompacted r run db (made :: rest)) : Spares run made := by
  intro hreverifies
  by_contra hnot
  rw [not_or, not_and] at hnot
  obtain ⟨⟨after, hafter, hcomplete, _⟩, hstatus⟩ := hstays [] made rest rfl
  by_cases hearly : EndsEarly made.env run
  · obtain ⟨fault, hfrozen⟩ := h.frozen_early hearly
    have hfinalize : made.operation = .finalize := by
      by_contra hother
      exact hnot.2 hother hearly
    obtain ⟨stored, _, hshown⟩ := hstatus hfinalize
    rw [show operate r db [] = db from rfl, program_of_frozen hreverifies hfrozen] at hshown
    cases hshown
  · obtain ⟨fault, message, hfrozen⟩ := h.frozen_blocks hnot.1 hearly
    rw [show operate r db [] = db from rfl, program_of_frozen hreverifies hfrozen] at hafter
    have hblocked : after.state = .blocked := by
      have hrow : (blockRun db r message).runs.get? r = some (blockedRun run message) := by
        rw [blockRun, h.found]
        exact IndexMap.get?_insert_self _ _ _
      cases hrow.symm.trans hafter
      rfl
    rw [hblocked] at hcomplete
    cases hcomplete

theorem StaysCompacted.tail {rest : List Made} (h : StaysCompacted r run db (made :: rest)) :
    StaysCompacted r run (made.program r db).2 rest :=
  fun front other back hsplit => h (made :: front) other back (by rw [hsplit]; rfl)

theorem Emptied.stays_iff (h : Emptied db r run) (operations : List Made) :
    StaysCompacted r run db operations ↔ ∀ made ∈ operations, Spares run made := by
  refine ⟨fun hstays => ?_, h.stays⟩
  induction operations with
  | nil => simp
  | cons made rest ih =>
      have hmade := h.spares_of_stays hstays
      have hrest := hstays.tail
      rw [h.leaves_spared hmade] at hrest
      intro other hother
      obtain rfl | hother := List.mem_cons.1 hother
      · exact hmade
      · exact ih hrest other hother

/-- A run that a compaction took up stays as it completed, through any operations on it, exactly where each of them spares it. -/
theorem compacted_run_stays {runText : Uuid → String} {session : Session} {days : Int} {answer : Answer} {before : PipelineRun}
    (hcompact : perform runText db ⟨session, .compact days⟩ = .ok (answer, db')) (hbefore : db.runs.get? r = some before)
    (hfresh : before.compactedAt = none) (hrun : db'.runs.get? r = some run) (hdone : run.compactedAt.isSome = true)
    (operations : List Made) :
    StaysCompacted r before db' operations ↔ ∀ made ∈ operations, Spares run made := by
  obtain ⟨hemptied, _, hchecks, hcompleted⟩ := emptied_of_compact hcompact hbefore hfresh hrun hdone
  rw [← hemptied.stays_iff operations]
  simp only [StaysCompacted, hchecks, hcompleted]

def auditRules : Json := .obj [("sha256", .str (sampleDigest 'e')), ("uri", .str "rules")]

def auditBody : Json := .obj [("steps", .arr [])]

def auditDigest (document : Json) : String :=
  match document with
  | .arr _ => sampleDigest 'f'
  | document => if document = auditBody then sampleDigest 'b' else sampleDigest 'a'

def auditSubmission : Json :=
  .obj [("inputs", sampleReference), ("journal", .str changeJournal), ("kind", .str "pipeline"), ("name", .str "audit"),
    ("profiles", .obj [("copy", .str "copy")]), ("protocol", taskProtocol), ("rule_version", .num "1"), ("rules", auditRules),
    ("target", .str "lake"), ("worklist_hash", .str (sampleDigest 'f'))]

/-- The run has one unit, and its artifacts read as they were frozen. -/
def auditSurroundings : Surroundings where
  runText := toString
  listText := fun _ => ""
  document := fun reference => .ok (if reference = auditRules
    then .obj [("body", auditBody), ("digest", .str (sampleDigest 'b')), ("kind", .str "pipeline"), ("name", .str "audit"), ("version", .num "1")]
    else .null)
  verified := fun _ => .ok ()
  digest := auditDigest
  authority := fun _ _ => .ok ()
  configuration := fun _ _ => .ok (sampleConfig [sampleStep "copy" []])
  manifest := fun _ => .ok (sampleManifest [("copy", [sampleUnit "k" .null])])
  expansion := fun _ => .error (.blocked "Invalid expansion manifest")
  evidence := fun _ _ => pure ()
  envelope := fun _ _ => pure ()
  append := fun _ _ => pure ()

/-- The unit is worked on, its event is delivered, and the run completes. -/
def auditCalls : List Request :=
  ⟨workerAt 0, .startRun 1 auditSubmission (sampleDigest 'a') [sampleWorkEntry "copy" "k" 0 .null]⟩ ::
    sampleWork ⟨1, "copy", "k"⟩ 11 [] 0 21 ++
      [⟨workerAt 5, .delivery 21 none⟩,
        ⟨workerAt 6, .recordRunChecks (preparedCompletion 1 ⟨1, 1, 1, 0, 0⟩ ⟨none, none, some true⟩)⟩]

def auditStore : Store := Machines.run (perform toString) .empty auditCalls

def auditCompaction : Request := ⟨workerAt (31 * day), .compact 30⟩

def compactedStore : Store := Machines.run (perform toString) auditStore [auditCompaction]

def auditOperation (operation : Operation) : Made := ⟨auditSurroundings, fun _ _ => workerAt (32 * day), operation⟩

example : (frozen auditSurroundings 1 auditStore).1.toOption.isSome = true := by decide +kernel

theorem auditCompaction_accepted : ∃ answer, perform toString auditStore auditCompaction = .ok (answer, compactedStore) := by
  have haccepted : (perform toString auditStore auditCompaction).toOption.isSome = true := by decide +kernel
  cases hresult : perform toString auditStore auditCompaction with
  | error refusal =>
      rw [hresult] at haccepted
      cases haccepted
  | ok accepted =>
      refine ⟨accepted.1, ?_⟩
      rw [compactedStore, Machines.run_cons, Machines.run_nil, Machines.after_of_ok hresult]

theorem auditStore_complete : ∃ before, auditStore.runs.get? 1 = some before ∧ before.compactedAt = none := by
  have hrow : (auditStore.runs.get? 1).map PipelineRun.compactedAt = some none := by decide +kernel
  exact Option.map_eq_some_iff.1 hrow

theorem compactedStore_compacted : ∃ run, compactedStore.runs.get? 1 = some run ∧ run.compactedAt = some (31 * day) := by
  have hrow : (compactedStore.runs.get? 1).map PipelineRun.compactedAt = some (some (31 * day)) := by decide +kernel
  exact Option.map_eq_some_iff.1 hrow

/-- The run stays as it completed while its status is read and it is not resumed. -/
theorem compacted_run_stays_read :
    ∃ before, auditStore.runs.get? 1 = some before ∧
      StaysCompacted 1 before compactedStore [auditOperation .resume, auditOperation (.status 100 none)] := by
  obtain ⟨answer, hcompact⟩ := auditCompaction_accepted
  obtain ⟨before, hbefore, hfresh⟩ := auditStore_complete
  obtain ⟨run, hrun, hdone⟩ := compactedStore_compacted
  refine ⟨before, hbefore, (compacted_run_stays hcompact hbefore hfresh hrun (by rw [hdone]; rfl) _).2 ?_⟩
  intro made hmade hreverifies
  obtain rfl | hmade := List.mem_cons.1 hmade
  · cases hreverifies
  · cases List.mem_singleton.1 hmade
    cases hreverifies

/-- A finalization blocks the compacted run. -/
theorem finalize_blocks_compacted :
    ¬ ∀ (calls : List Request) (session : Session) (days : Int) (answer : Answer) (db' : Store) (r : Uuid) (before run : PipelineRun)
        (operations : List Made),
      perform toString (Machines.run (perform toString) .empty calls) ⟨session, .compact days⟩ = .ok (answer, db') →
        (Machines.run (perform toString) .empty calls).runs.get? r = some before → before.compactedAt = none →
          db'.runs.get? r = some run → run.compactedAt.isSome = true → StaysCompacted r before db' operations := by
  intro h
  obtain ⟨answer, hcompact⟩ := auditCompaction_accepted
  obtain ⟨before, hbefore, hfresh⟩ := auditStore_complete
  obtain ⟨run, hrun, hdone⟩ := compactedStore_compacted
  obtain ⟨⟨after, hafter, hcomplete, _⟩, _⟩ := h auditCalls (workerAt (31 * day)) 30 answer compactedStore 1 before run
    [auditOperation .finalize] hcompact hbefore hfresh hrun (by rw [hdone]; rfl) [] _ [] rfl
  have hblocked : (((auditOperation .finalize).program 1 compactedStore).2.runs.get? 1).map PipelineRun.state = some .blocked := by
    decide +kernel
  rw [show operate 1 compactedStore [] = compactedStore from rfl] at hafter
  rw [hafter, Option.map_some, hcomplete] at hblocked
  cases hblocked

end EdgarPlatform.Bookkeeping
