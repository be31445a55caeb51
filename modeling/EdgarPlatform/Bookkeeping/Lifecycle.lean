import EdgarPlatform.Bookkeeping.Completion

/-!
# Runs and their lifecycle

A run is started with its frozen submission and work, resumed, blocked, completed from checked counters and compacted long after. The calls a client of the store can make are collected here, each performed by its routine; a refused call leaves the tables as they were.
-/

namespace EdgarPlatform.Bookkeeping

open Records (Json)

/-- One frozen unit: stored as it is listed, with a checkpoint for its step. -/
def startEntry (r : Uuid) (db : Store) (entry : WorkEntry) : Except Refusal Store :=
  if entry.ordinal < 0 then .error ⟨"new row violates check constraint", "23514"⟩
  else if ((insertWork db r entry).work.get? (entry.id r)).any (sameWork entry) then
    .ok { insertWork db r entry with checkpoints := openStep db.checkpoints r entry.step }
  else .error (raised "Frozen worklist changed")

def newRun (submission : Json) (hash : String) (count : Nat) : PipelineRun :=
  ⟨submission, hash, count, .running, emptyObject, emptyObject, false, none, none, .empty⟩

def insertRun (db : Store) (r : Uuid) (submission : Json) (hash : String) (count : Nat) : Store :=
  if db.runs.contains r then db else { db with runs := db.runs.insert r (newRun submission hash count) }

def startWork (db : Store) (r : Uuid) (expected : Nat) (items : List WorkEntry) : Except Refusal Store := do
  let started ← items.foldlM (startEntry r) db
  if countWork started r (fun _ _ => true) ≠ expected then .error (raised "Work accounting mismatch") else .ok started

def startRun (db : Store) (r : Uuid) (submission : Json) (hash : String) (items : List WorkEntry) : Except Refusal Store :=
  if Control.validHash hash = false then .error ⟨"new row violates check constraint", "23514"⟩ else do
    let prior ← selectRun (insertRun db r submission hash items.length) r
    if prior.submission ≠ submission ∨ prior.submissionHash ≠ hash then .error (raised "Frozen submission changed")
    else if prior.compactedAt.isSome then .ok (insertRun db r submission hash items.length)
    else startWork (insertRun db r submission hash items.length) r prior.expectedCount items

/-- The checks a run may be completed from: each is absent, failed or passed. -/
structure RunChecks where
  journalDelivered : Option Bool
  manifestHash : Option Bool
  workAccounting : Option Bool
  deriving DecidableEq

def RunChecks.named (checks : RunChecks) : List (String × Bool) :=
  [("journal.delivered", checks.journalDelivered), ("manifest.hash", checks.manifestHash),
    ("work.accounting", checks.workAccounting)].filterMap fun entry => entry.2.map fun passed => (entry.1, passed)

def RunChecks.passing (checks : RunChecks) : Bool := checks.named ≠ [] && checks.named.all Prod.snd

def RunChecks.document (checks : RunChecks) : Json := .obj (checks.named.map fun entry => (entry.1, .bool entry.2))

/-- The counters a completion is prepared from. -/
structure Counters where
  expected : Nat
  actual : Nat
  verified : Nat
  pending : Nat
  unsealed : Nat
  deriving DecidableEq

def observeCounters (db : Store) (r : Uuid) (run : PipelineRun) : Counters where
  expected := run.expectedCount
  actual := countWork db r fun _ _ => true
  verified := countWork db r fun _ w => w.state = .verified
  pending := db.outbox.entries.countP fun entry => entry.2.unit.run = r && entry.2.deliveredAt = none
  unsealed := countWork db r fun _ w => w.generatedCount = none && marksExpansion w.unit

def Counters.summary (counters : Counters) : Json :=
  .obj [("expected", .num (toString counters.expected)), ("pending_deliveries", .num (toString counters.pending)),
    ("verified", .num (toString counters.verified))]

/-- Work is unaccounted for, unverified, undelivered or unsealed, or a check did not pass. -/
def Counters.incomplete (counters : Counters) (checks : RunChecks) : Bool :=
  counters.actual ≠ counters.expected || counters.verified ≠ counters.actual || counters.pending ≠ 0
    || counters.unsealed ≠ 0 || ¬ checks.passing

/-- A prepared completion as it is sent: the run, the counters observed, the checks and the state and summary prepared from them. -/
structure Completion where
  run : Uuid
  counters : Counters
  checks : RunChecks
  complete : Bool
  summary : Json
  deriving DecidableEq

def Completion.state (wire : Completion) : RunState := if wire.complete then .complete else .waiting

def recordedRun (wire : Completion) (now : Instant) (run : PipelineRun) : PipelineRun :=
  if run.state = wire.state ∧ run.checks = wire.checks.document ∧ run.summary = wire.summary then run
  else { run with checks := wire.checks.document, summary := wire.summary, state := wire.state,
                  completedAt := if wire.complete then some (run.completedAt.getD now) else none }

def recordRunChecks (session : Session) (db : Store) (wire : Completion) : Except Refusal Store :=
  match db.runs.get? wire.run with
  | none => .error (raised "unknown_control_run")
  | some run =>
      if run.compactedAt.isSome then .error (raised "compacted_control_run")
      else if wire.counters ≠ observeCounters db wire.run run then .error (raised "control_observations_changed")
      else if wire.complete = true ∧ wire.counters.incomplete wire.checks = true then
        .error (raised "unverified_control_completion")
      else if wire.complete = false ∧ wire.counters.incomplete wire.checks = false then .error (raised "invalid_control_state")
      else if wire.summary ≠ wire.counters.summary then .error (raised "invalid_control_summary")
      else .ok { db with runs := db.runs.insert wire.run (recordedRun wire session.clock run) }

/-- A prepared resumption: what of the run was observed. -/
structure Resumption where
  run : Uuid
  state : RunState
  checks : Json
  completedAt : Option Instant
  deriving DecidableEq

def resumedRun (run : PipelineRun) : PipelineRun := { run with state := .running, checks := emptyObject, completedAt := none }

def Resumption.matches (wire : Resumption) (run : PipelineRun) : Bool :=
  run.state = wire.state && run.checks = wire.checks && run.completedAt = wire.completedAt

def resumeRun (db : Store) (wire : Resumption) : Except Refusal Store :=
  match db.runs.get? wire.run with
  | none => .error (raised "unknown_control_run")
  | some run =>
      if run.compactedAt.isSome then .error (raised "compacted_control_run")
      else if wire.matches run = false ∧ resumedRun run ≠ run then .error (raised "control_observations_changed")
      else .ok { db with runs := db.runs.insert wire.run (resumedRun run) }

def blockedRun (run : PipelineRun) (message : String) : PipelineRun :=
  { run with state := .blocked, completedAt := none, checks := .obj [("blocked", .str message)] }

def blockRun (db : Store) (r : Uuid) (message : String) : Store :=
  match db.runs.get? r with
  | none => db
  | some run => { db with runs := db.runs.insert r (blockedRun run message) }

def deliveredEvent (e : OutboxEvent) (message : Option String) (now : Instant) : OutboxEvent :=
  { e with attempts := e.attempts + 1, error := message, deliveredAt := if message = none then some now else none }

def delivery (session : Session) (db : Store) (event : Uuid) (message : Option String) : Store :=
  match db.outbox.get? event with
  | none => db
  | some e =>
      if e.deliveredAt.isSome then db
      else { db with outbox := db.outbox.insert event (deliveredEvent e message session.clock) }

mutual
def runsNamed : Json → List String
  | .arr items => runsNamedItems items
  | .obj fields => runsNamedFields fields
  | _ => []

def runsNamedItems : List Json → List String
  | [] => []
  | item :: rest => runsNamed item ++ runsNamedItems rest

def runsNamedFields : List (String × Json) → List String
  | [] => []
  | (key, value) :: rest => (if key = "run" then (asText value).toList else []) ++ (runsNamed value ++ runsNamedFields rest)
end

/-- A run that is not complete has a unit whose input names the run. -/
def beingRead (runText : Uuid → String) (db : Store) (r : Uuid) : Bool :=
  db.work.entries.any fun entry =>
    (db.runs.get? entry.1.run).any (fun live => live.state ≠ .complete) && runText r ∈ ((fieldOf entry.2.unit "input").elim [] runsNamed)

def day : Int := 86400 * 1000000

def compactable (runText : Uuid → String) (session : Session) (db : Store) (days : Int) (r : Uuid) (run : PipelineRun) : Bool :=
  run.state = .complete && !run.pinned && run.completedAt.any (fun t => t < session.clock - days * day)
    && run.compactedAt = none && !(db.outbox.values.any fun e => e.unit.run = r && e.deliveredAt = none)
    && !beingRead runText db r

def workReceipts (db : Store) (r : Uuid) : Json :=
  .arr ((Sorting.sortByKey (fun entry : UnitId × WorkItem => toLex (entry.1.step, entry.2.ordinal))
    (db.work.entries.filter fun entry => entry.1.run = r)).map fun entry =>
      .obj [("step", .str entry.1.step), ("key", .str entry.1.key), ("receipt", entry.2.receipt.getD .null)])

def compactedRun (db : Store) (r : Uuid) (now : Instant) (run : PipelineRun) : PipelineRun :=
  { run with compactedAt := some now,
             summary := match run.summary with
               | .obj fields => .obj ((IndexMap.ofList fields).insert "receipts" (workReceipts db r)).entries
               | summary => summary }

def dropRows {κ α : Type} (m : IndexMap κ α) (drop : κ → α → Bool) : IndexMap κ α where
  entries := m.entries.filter fun entry => !drop entry.1 entry.2
  nodup := m.nodup.sublist (List.filter_sublist.map Prod.fst)

def compactOne (session : Session) (db : Store) (r : Uuid) (run : PipelineRun) : Store :=
  { db with runs := db.runs.insert r (compactedRun db r session.clock run)
            work := dropRows db.work fun u _ => u.run = r
            outbox := dropRows db.outbox fun _ e => e.unit.run = r && e.deliveredAt.isSome }

/-- Every run that is old enough is compacted; the candidates are found before the first one is. -/
def compact (runText : Uuid → String) (session : Session) (db : Store) (days : Int) : Except Refusal (Nat × Store) :=
  if days < 30 then .error (raised "Retention must be at least 30 days")
  else
    .ok ((db.runs.entries.filter fun entry => compactable runText session db days entry.1 entry.2).length,
      (db.runs.entries.filter fun entry => compactable runText session db days entry.1 entry.2).foldl
        (fun db entry => compactOne session db entry.1 entry.2) db)

inductive Call where
  | startRun (r : Uuid) (submission : Json) (hash : String) (items : List WorkEntry)
  | claim (u : UnitId) (a : Uuid) (seconds : Int) (prereqs : List String)
  | heartbeat (u : UnitId) (a : Uuid) (proof : List LeaseProof) (seconds : Int)
  | waitWork (u : UnitId) (message : String) (attempt : Option Uuid) (proof : List LeaseProof)
  | report (u : UnitId) (a : Uuid) (proof : List LeaseProof) (candidate : Json) (profile runtime : String)
  | verifyClaim (u : UnitId) (a : Uuid) (seconds : Int)
  | pinVerifier (u : UnitId) (runtime : String)
  | finish (u : UnitId) (a : Uuid) (proof : List LeaseProof) (receipt checks : Json) (event : Uuid)
  | finishResource (u : UnitId) (a : Uuid) (proof : List LeaseProof) (receipt checks : Json) (event : Uuid)
      (resource : String) (revision position : Int)
  | finishExpand (u : UnitId) (a : Uuid) (proof : List LeaseProof) (receipt checks : Json) (event : Uuid)
      (children : List WorkEntry) (childStep : String)
  | recordRunChecks (wire : Completion)
  | resumeRun (wire : Resumption)
  | blockRun (r : Uuid) (message : String)
  | delivery (event : Uuid) (message : Option String)
  | compact (days : Int)

inductive Answer where
  | done
  | proof (proof : Option (List LeaseProof))
  | revision (revision : Nat)
  | count (count : Nat)
  deriving DecidableEq

/-- A call as a session makes it. -/
structure Request where
  session : Session
  call : Call

def answered {α : Type} (answer : α → Answer) (result : Except Refusal (α × Store)) : Except Refusal (Answer × Store) :=
  result.map fun (value, db) => (answer value, db)

def silent (result : Except Refusal Store) : Except Refusal (Answer × Store) := result.map fun db => (.done, db)

/-- A call performed by its routine. The text of a run's id is how the database writes it. -/
def perform (runText : Uuid → String) (db : Store) (request : Request) : Except Refusal (Answer × Store) :=
  match request.call with
  | .startRun r submission hash items => silent (startRun db r submission hash items)
  | .claim u a seconds prereqs => answered .proof (claim request.session db u a seconds prereqs)
  | .heartbeat u a proof seconds => answered (fun held => .proof (some held)) (heartbeat request.session db u a proof seconds)
  | .waitWork u message attempt proof => silent (waitWork request.session db u message attempt proof)
  | .report u a proof candidate profile runtime => silent (report request.session db u a proof candidate profile runtime)
  | .verifyClaim u a seconds => answered .proof (verifyClaim request.session db u a seconds)
  | .pinVerifier u runtime => silent (pinVerifier request.session db u runtime)
  | .finish u a proof receipt checks event => silent (finish request.session db u a proof receipt checks event)
  | .finishResource u a proof receipt checks event resource revision position =>
      answered .revision (finishResource request.session db u a proof receipt checks event resource revision position)
  | .finishExpand u a proof receipt checks event children childStep =>
      silent (finishExpand request.session db u a proof receipt checks event children childStep)
  | .recordRunChecks wire => silent (recordRunChecks request.session db wire)
  | .resumeRun wire => silent (resumeRun db wire)
  | .blockRun r message => .ok (.done, blockRun db r message)
  | .delivery event message => .ok (.done, delivery request.session db event message)
  | .compact days => answered .count (compact runText request.session db days)

def sampleDigest (c : Char) : String := String.ofList (List.replicate 64 c)

def workerAt (now : Instant) : Session := ⟨"worker", fun _ duty => duty = .worker, now, now⟩

def verifierAt (now : Instant) : Session := ⟨"verifier", fun _ duty => duty = .verifier, now, now⟩

def sampleSubmission (steps : List String) : Json := .obj [("profiles", .obj (steps.map fun step => (step, .str "copy")))]

def sampleEntry (step key : String) (ordinal : Int) (cursor : Json) : WorkEntry :=
  ⟨step, key, ordinal, [key], .obj [("cursor", cursor)]⟩

def sampleCandidate : Json := .obj [("sha256", .str (sampleDigest 'c')), ("uri", .str "out")]

def sampleReceipt : Json := .obj [("evidence", .obj []), ("sha256", .str (sampleDigest 'c')), ("uri", .str "out")]

def sampleChecks : Json := .obj [("output.receipt", .bool true)]

def sampleStart (r : Uuid) (steps : List String) (items : List WorkEntry) : Request :=
  ⟨workerAt 0, .startRun r (sampleSubmission steps) (sampleDigest 'a') items⟩

def sampleClaim (u : UnitId) (a : Uuid) (prereqs : List String) (now : Instant) : Request :=
  ⟨workerAt now, .claim u a 2 prereqs⟩

def sampleProof (u : UnitId) (a : Uuid) (token : Nat) (now : Instant) : List LeaseProof :=
  [⟨u.key, token, u.run, a, leaseEnd now 2⟩]

def sampleReport (u : UnitId) (a : Uuid) (token : Nat) (now : Instant) : Request :=
  ⟨workerAt (now + 1), .report u a (sampleProof u a token now) sampleCandidate "copy" (sampleDigest 'b')⟩

def sampleFinish (u : UnitId) (a : Uuid) (token : Nat) (now : Instant) (event : Uuid) : Request :=
  ⟨verifierAt (now + 2), .finish u a (sampleProof u a token now) sampleReceipt sampleChecks event⟩

/-- A unit is claimed, reported and finished, within its lease. -/
def sampleWork (u : UnitId) (a : Uuid) (prereqs : List String) (now : Instant) (event : Uuid) : List Request :=
  [sampleClaim u a prereqs now, sampleReport u a 1 now, sampleFinish u a 1 now event]

end EdgarPlatform.Bookkeeping
