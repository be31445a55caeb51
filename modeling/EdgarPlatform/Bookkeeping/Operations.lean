import EdgarPlatform.Bookkeeping.Engine
import EdgarPlatform.Library.Programs

/-!
# Operations of the engine

Each operation of the engine on a run, over the store. All but a resumption of a compacted run and a status first reverify the run's frozen scope: the submission, its rules and inputs are read again from their artifacts, the worklist is frozen again, and every stored unit must be one of it or a child of a sealed expansion. What fails there blocks the run. What the operations do with one unit's evidence (the envelope a worker is handed, the receipt a resumption reverifies, the journal an event goes to) is left to the surroundings.
-/

namespace EdgarPlatform.Bookkeeping

open Records (Json)

/-- What an operation fails with: a refusal of its own, a missing or mistyped value, a refusal of the store, or any other exception, by its name. -/
inductive Fault where
  | blocked (message : String)
  | corrupt (name message : String)
  | refused (refusal : Refusal)
  | other (name : String)
  deriving DecidableEq

/-- The text a failure blocks a run with, where the engine takes it up. -/
def Fault.caught : Fault → Option String
  | .blocked message => some message
  | .corrupt _ message => some message
  | _ => none

def Fault.raised : Fault → Fault
  | .corrupt _ _ => .blocked "Corrupt frozen submission"
  | fault => fault

def Fault.name : Fault → String
  | .blocked _ => "Blocked"
  | .corrupt name _ => name
  | .refused _ => "DBAPIError"
  | .other name => name

abbrev Engine (α : Type) := Program Store Fault α

def blockedBy {α : Type} (result : Except String α) : Except Fault α := result.mapError .blocked

def ensure (condition : Bool) (message : String) : Except Fault Unit :=
  if condition then .ok () else .error (.blocked message)

/-- What the engine reads besides the store while it makes one operation. -/
structure Surroundings where
  runText : Uuid → String
  listText : ListText
  /-- The document an artifact reference names. -/
  document : Json → Except Fault Json
  /-- The artifact's bytes have the hash the reference names. -/
  verified : Json → Except Fault Unit
  digest : Json → String
  authority : Json → Json → Except Fault Unit
  configuration : Json → Json → Except Fault Config
  manifest : Json → Except Fault Manifest
  expansion : Json → Except Fault Expansion
  /-- A completed unit's evidence is reverified. -/
  evidence : UnitId → WorkItem → Engine Unit
  /-- A claimed unit's envelope is made. -/
  envelope : UnitId → List LeaseProof → Engine Unit
  /-- An event is appended to the journal, and read back. -/
  append : Uuid → OutboxEvent → Engine Unit

def transition (env : Surroundings) (session : Session) (call : Call) : Engine Answer := fun db =>
  match perform env.runText db ⟨session, call⟩ with
  | .ok (answer, db') => (.ok answer, db')
  | .error refusal => (.error (.refused refusal), db)

def changeJournal : String := "change-journal-v1"

def taskProtocol : Json := .num "1"

def isLegacy (submission : Json) : Bool :=
  fieldOf submission "journal" ≠ some (.str changeJournal) || fieldOf submission "protocol" ≠ some taskProtocol

def subscriptFail : Json → String
  | .arr _ => "list indices must be integers or slices, not str"
  | .str _ => "string indices must be integers, not 'str'"
  | .num lexeme => if lexeme.toList.any (· ∈ ['.', 'e', 'E']) then "'float' object is not subscriptable" else "'int' object is not subscriptable"
  | .bool _ => "'bool' object is not subscriptable"
  | _ => "'NoneType' object is not subscriptable"

def item (document : Json) (key : String) : Except Fault Json :=
  match document with
  | .obj fields => ((IndexMap.ofList fields).get? key).elim (.error (.corrupt "KeyError" ("'" ++ key ++ "'"))) .ok
  | value => .error (.corrupt "TypeError" (subscriptFail value))

/-- The submission names each step's operation as its worker profile. -/
def sameProfiles (config : Config) (profiles : Option Json) : Bool :=
  profiles.any fun profiles => exactFields profiles (config.steps.map StepConfig.name)
    && config.steps.all fun step => fieldOf profiles step.name = some (.str step.operation)

def WorkEntry.document (entry : WorkEntry) : Json :=
  .obj [("key", .str entry.key), ("ordinal", .num (toString entry.ordinal)), ("resources", .arr (entry.resources.map .str)),
    ("step", .str entry.step), ("unit", entry.unit)]

/-- The rules' acquisition section still authorizes the run's scope. -/
def checkAuthority (env : Surroundings) (run : PipelineRun) (exported body : Json) : Except Fault Unit :=
  if mentions body "acquisition" then do
    let scope ← item run.submission "scope"
    env.authority exported scope
  else .ok ()

def frozenConfig (env : Surroundings) (run : PipelineRun) : Except Fault Config := do
  ensure (env.digest run.submission = run.submissionHash) "Frozen submission hash mismatch"
  let rules ← item run.submission "rules"
  let exported ← env.document rules
  let body ← item exported "body"
  let hash ← item exported "digest"
  ensure (hash = .str (env.digest body)) "Rules document hash mismatch"
  let named ← ["kind", "name", "version"].mapM (item exported)
  let frozen ← ["kind", "name", "rule_version"].mapM (item run.submission)
  ensure (named = frozen) "Rules reference disagrees with submission"
  checkAuthority env run exported body
  let target ← item run.submission "target"
  let config ← env.configuration body target
  blockedBy (validate config)
  ensure (sameProfiles config (fieldOf run.submission "profiles")) "Frozen worker profiles differ from the Rules export"
  .ok config

theorem blockedBy_eq_ok {α : Type} {result : Except String α} {a : α} (h : blockedBy result = .ok a) : result = .ok a := by
  cases result with
  | error message => cases h
  | ok value =>
      cases h
      rfl

theorem frozenConfig_valid {env : Surroundings} {run : PipelineRun} {config : Config} (h : frozenConfig env run = .ok config) :
    validate config = .ok () := by
  rw [frozenConfig] at h
  obtain ⟨_, _, h⟩ := Except.bind_eq_ok.1 h
  obtain ⟨_, _, h⟩ := Except.bind_eq_ok.1 h
  obtain ⟨_, _, h⟩ := Except.bind_eq_ok.1 h
  obtain ⟨_, _, h⟩ := Except.bind_eq_ok.1 h
  obtain ⟨_, _, h⟩ := Except.bind_eq_ok.1 h
  obtain ⟨_, _, h⟩ := Except.bind_eq_ok.1 h
  obtain ⟨_, _, h⟩ := Except.bind_eq_ok.1 h
  obtain ⟨_, _, h⟩ := Except.bind_eq_ok.1 h
  obtain ⟨_, _, h⟩ := Except.bind_eq_ok.1 h
  obtain ⟨_, _, h⟩ := Except.bind_eq_ok.1 h
  obtain ⟨_, _, h⟩ := Except.bind_eq_ok.1 h
  obtain ⟨_, _, h⟩ := Except.bind_eq_ok.1 h
  obtain ⟨_, hvalid, h⟩ := Except.bind_eq_ok.1 h
  obtain ⟨_, _, h⟩ := Except.bind_eq_ok.1 h
  cases h
  exact blockedBy_eq_ok hvalid

def frozenUnits (env : Surroundings) (run : PipelineRun) : Except Fault (Config × List WorkEntry) := do
  let config ← frozenConfig env run
  let inputs ← item run.submission "inputs"
  let document ← env.document inputs
  let manifest ← env.manifest document
  let items ← blockedBy (worklist env.listText manifest config)
  let hash ← item run.submission "worklist_hash"
  ensure (hash = .str (env.digest (.arr (items.map WorkEntry.document)))) "Frozen work accounting changed"
  .ok (config, items)

def addChild (items : List WorkEntry) (child : WorkEntry) : Except Fault (List WorkEntry) := do
  ensure ((child.step, child.key) ∉ identitiesOf items) "Generated work repeats frozen or earlier work"
  .ok (items ++ [child])

/-- The children of a stored unit, where it is a verified expansion. -/
def addGenerated (env : Surroundings) (config : Config) (items : List WorkEntry) (row : UnitId × WorkItem) :
    Except Fault (List WorkEntry) :=
  match generatedStep row.2.unit with
  | none => .ok items
  | some childStep =>
      if row.2.state ≠ .verified then .ok items else do
        let count ← row.2.generatedCount.elim (.error (.blocked "Expansion completed without sealing generated scope")) .ok
        ensure (isObject row.2.receipt) "Verified expansion has no immutable receipt"
        let uri ← item (row.2.receipt.getD .null) "uri"
        let hash ← item (row.2.receipt.getD .null) "sha256"
        let document ← env.document (.obj [("sha256", hash), ("uri", uri)])
        let manifest ← env.expansion document
        let children ← blockedBy (generatedWorklist env.listText manifest config (parentOf row.1 row.2 childStep))
        let added ← children.foldlM addChild items
        ensure (manifest.children.length = count) "Sealed expansion count differs from immutable children"
        .ok added

def checkRow (expected : List WorkEntry) (row : UnitId × WorkItem) : Except Fault Unit :=
  ensure ((expected.find? fun entry => entry.step = row.1.step && entry.key = row.1.key).any fun entry => sameWork entry row.2)
    "Stored work differs from frozen or generated manifest"

/-- The stored units are those the submission froze and its sealed expansions added. -/
def frozenScope (env : Surroundings) (run : PipelineRun) (stored : List (UnitId × WorkItem)) :
    Except Fault (Config × List WorkEntry) := do
  let frozen ← frozenUnits env run
  let expected ← stored.foldlM (addGenerated env frozen.1) frozen.2
  ensure (expected.length = run.expectedCount && stored.length = expected.length) "Generated work accounting changed"
  stored.forM (checkRow expected)
  .ok (frozen.1, expected)

def workOf (db : Store) (r : Uuid) : List (UnitId × WorkItem) := db.work.entries.filter fun entry => entry.1.run = r

/-- A run's frozen scope. -/
structure Frozen where
  run : PipelineRun
  config : Config
  items : List WorkEntry

def blockOn {α : Type} (r : Uuid) (fault : Fault) (raised : Fault) : Engine α := fun db =>
  match fault.caught with
  | some message => (.error raised, blockRun db r message)
  | none => (.error fault, db)

/-- The run's frozen scope, reverified: what fails blocks the run, unless the run is unknown or belongs to the earlier protocol. -/
def frozen (env : Surroundings) (r : Uuid) : Engine Frozen := fun db =>
  match db.runs.get? r with
  | none => (.error (.blocked "Unknown run; legacy runs cannot be resumed"), db)
  | some run =>
      if isLegacy run.submission then
        (.error (.blocked "Legacy runs and deliveries must finish on their original stack"), db)
      else
        match frozenScope env run (workOf db r) with
        | .ok (config, items) => (.ok ⟨run, config, items⟩, db)
        | .error fault => blockOn r fault fault.raised db

/-- What a status shows of a run: its row, its units, their states, its checkpoints, leases and events, up to a limit each. -/
structure Status where
  run : PipelineRun
  items : List (UnitId × WorkItem)
  counts : List (WorkState × Nat)
  checkpoints : List ((Uuid × String) × Checkpoint)
  leases : List (String × Lease)
  pending : Nat
  deliveries : List (Uuid × OutboxEvent)
  deriving DecidableEq

def eventsOf (db : Store) (r : Uuid) : List (Uuid × OutboxEvent) := db.outbox.entries.filter fun entry => entry.2.unit.run = r

/-- Undelivered events first, then by the time of delivery and the time of the event. -/
def deliveryKey (entry : Uuid × OutboxEvent) : Bool ×ₗ (Instant ×ₗ Instant) :=
  toLex (entry.2.deliveredAt.isSome, toLex (entry.2.deliveredAt.getD 0, entry.2.createdAt))

def statusOf (db : Store) (r : Uuid) (limit : Nat) (step : Option String) (run : PipelineRun) : Status where
  run := run
  items := (Sorting.sortByKey (fun entry : UnitId × WorkItem => toLex (entry.1.step, entry.2.ordinal))
    ((workOf db r).filter fun entry => step.all fun name => entry.1.step = name)).take limit
  counts := ([.pending, .running, .reported, .waiting, .verified].map fun state =>
    (state, (workOf db r).countP fun entry => (step.all fun name => entry.1.step = name) && entry.2.state = state)).filter fun entry =>
      0 < entry.2
  checkpoints := db.checkpoints.entries.filter fun entry => entry.1.1 = r
  leases := (Sorting.sortByKey Prod.fst (db.leases.entries.filter fun entry => entry.2.run = some r)).take limit
  pending := (eventsOf db r).countP fun entry => entry.2.deliveredAt = none
  deliveries := (Sorting.sortByKey deliveryKey (eventsOf db r)).take limit

def withinThousand (limit : Nat) : Except Fault Unit := if 1 ≤ limit ∧ limit ≤ 1000 then .ok () else .error (.other "ValueError")

def status (r : Uuid) (limit : Nat) (step : Option String) : Engine Status := fun db =>
  match withinThousand limit, db.runs.get? r with
  | .error fault, _ => (.error fault, db)
  | .ok _, none => (.error (.blocked "Unknown run; legacy runs cannot be resumed"), db)
  | .ok _, some run => (.ok (statusOf db r limit step run), db)

def runChecksOf (config : Config) (expected : Nat) (counters : Counters) (manifestVerified : Bool) : RunChecks where
  journalDelivered := if "journal.delivered" ∈ config.checks then some (counters.pending = 0) else none
  manifestHash := if "manifest.hash" ∈ config.checks then some manifestVerified else none
  workAccounting := if "work.accounting" ∈ config.checks then some (counters.verified = expected) else none

/-- The checks of a run, with the counters observed: its inputs are verified again where a check asks for it. -/
def checksFrom (env : Surroundings) (frozen : Frozen) (counters : Counters) : Except Fault RunChecks :=
  if "manifest.hash" ∈ frozen.config.checks then do
    let inputs ← item frozen.run.submission "inputs"
    env.verified inputs
    .ok (runChecksOf frozen.config frozen.run.expectedCount counters true)
  else .ok (runChecksOf frozen.config frozen.run.expectedCount counters false)

def observations (r : Uuid) : Engine Counters := fun db =>
  match db.runs.get? r with
  | none => (.error (.blocked "Unknown control run"), db)
  | some run => (.ok (observeCounters db r run), db)

def check (env : Surroundings) (r : Uuid) : Engine RunChecks := do
  let scope ← frozen env r
  let counters ← observations r
  Program.given (checksFrom env scope counters)

/-- Every verified unit's evidence is reverified; what fails blocks the run. -/
def verifyCompleted (env : Surroundings) (r : Uuid) : Engine Unit := do
  let items ← Program.read fun db => Sorting.sortByKey (fun entry : UnitId × WorkItem => toLex (entry.1.step, entry.2.ordinal))
    ((workOf db r).filter fun entry => entry.2.state = .verified)
  Program.handle
    (do
      let _ ← frozen env r
      items.forM fun row => env.evidence row.1 row.2)
    fun fault => blockOn r fault (fault.caught.elim fault .blocked)

def preparedCompletion (r : Uuid) (counters : Counters) (checks : RunChecks) : Completion where
  run := r
  counters := counters
  checks := checks
  complete := !counters.incomplete checks
  summary := counters.summary

def finalizeTries (env : Surroundings) (session : Nat → Session) (r : Uuid) : Nat → Nat → Frozen → Engine Status
  | 0, _, _ => Program.fail (.blocked "Control changed during completion; retry finalization")
  | tries + 1, n, scope =>
      if scope.run.compactedAt.isSome then status r 100 none else do
        verifyCompleted env r
        let counters ← observations r
        let checks ← Program.given (checksFrom env scope counters)
        let wire := preparedCompletion r { counters with expected := scope.run.expectedCount } checks
        -- what changed since the counters were observed is observed again
        let recorded ← Program.handle (transition env (session n) (.recordRunChecks wire) >>= fun _ => pure true) fun fault =>
          if fault = .refused (raised "control_observations_changed") then pure false else Program.fail fault
        if recorded then status r 100 none else do
          let again ← frozen env r
          finalizeTries env session r tries (n + 1) again

/-- A run is completed from its counters and checks. A compacted run stays as it is. -/
def finalize (env : Surroundings) (session : Nat → Session) (r : Uuid) : Engine Status := do
  let scope ← frozen env r
  finalizeTries env session r scope.config.attempts.toNat 0 scope

def resume (env : Surroundings) (session : Nat → Session) (r : Uuid) : Engine Status := fun db =>
  match db.runs.get? r with
  | none => (.error (.blocked "Unknown control run"), db)
  | some run =>
      if run.compactedAt.isSome then (.error (.blocked "Compacted runs are audit-only; start a new run"), db)
      else
        (do
          let _ ← frozen env r
          verifyCompleted env r
          let _ ← transition env (session 0) (.resumeRun ⟨r, run.state, run.checks, run.completedAt⟩)
          status r 100 none : Engine Status) db

def contentionNote : String := "Lease or prerequisite contention; retry on resume"

def isContention : Fault → Bool
  | .refused refusal => refusal.code = "55P03"
  | _ => false

/-- A claim is made again while it meets contention; in the end the unit is left waiting. -/
def claimTries (env : Surroundings) (session : Nat → Session) (u : UnitId) (a : Uuid) (config : Config) (prereqs : List String) :
    Nat → Nat → Engine (Option (List LeaseProof))
  | 0, n =>
      Program.handle (transition env (session n) (.waitWork u contentionNote none []) >>= fun _ => pure none) fun fault =>
        if isContention fault then pure none else Program.fail fault
  | tries + 1, n =>
      Program.handle
        (do
          let answer ← transition env (session n) (.claim u a config.leaseSeconds prereqs)
          match answer with
          | .proof proof => pure proof
          | _ => pure none)
        fun fault => if isContention fault then claimTries env session u a config prereqs tries (n + 1) else Program.fail fault

def claimUnitOf (env : Surroundings) (session : Nat → Session) (u : UnitId) (a : Uuid) : Engine (Option (List LeaseProof)) := do
  let scope ← frozen env u.run
  match scope.config.steps.find? fun step => step.name = u.step with
  | none => Program.fail (.blocked "Unknown step")
  | some step => claimTries env session u a scope.config step.requires scope.config.attempts.toNat 0

def heartbeatOf (env : Surroundings) (session : Nat → Session) (u : UnitId) (a : Uuid) (proof : List LeaseProof) :
    Engine (List LeaseProof) := do
  let scope ← frozen env u.run
  let answer ← transition env (session 0) (.heartbeat u a proof scope.config.leaseSeconds)
  match answer with
  | .proof (some proof) => pure proof
  | _ => pure []

/-- The units of a step a claim looks over: those no live attempt holds, and none that a verifier waits for. -/
def availableKeys (db : Store) (r : Uuid) (step : String) (now : Instant) : List String :=
  ((Sorting.sortByKey (fun entry : UnitId × WorkItem => entry.2.ordinal) ((workOf db r).filter fun entry =>
    entry.1.step = step && entry.2.state ≠ .verified && entry.2.state ≠ .reported
      && !(entry.2.attempt.any fun a => anyLive db r a now))).map fun entry => entry.1.key).take 1000

/-- One unit is claimed for its envelope; the n-th claim runs at its own times, under an attempt of its own. -/
def takeTask (env : Surroundings) (session : Nat → Nat → Session) (attempt : Nat → Uuid) (r : Uuid) (limit : Nat) (step : String)
    (found : List UnitId) (key : String × Nat) : Engine (List UnitId) :=
  if limit ≤ found.length then pure found else do
    let claimed ← claimUnitOf env (session key.2) ⟨r, step, key.1⟩ (attempt key.2)
    match claimed with
    | none => pure found
    | some proof => do
        Program.handle (env.envelope ⟨r, step, key.1⟩ proof) fun fault => blockOn r fault (fault.caught.elim fault .blocked)
        pure (found ++ [⟨r, step, key.1⟩])

def stepTasks (env : Surroundings) (session : Nat → Nat → Session) (attempt : Nat → Uuid) (r : Uuid) (profile : String) (limit : Nat)
    (found : List UnitId) (step : StepConfig) : Engine (List UnitId) :=
  if step.operation ≠ profile ∨ limit ≤ found.length then pure found else do
    let keys ← Program.read fun db => availableKeys db r step.name (session 0 0).clock
    keys.zipIdx.foldlM (takeTask env session attempt r limit step.name) found

def tasks (env : Surroundings) (session : Nat → Nat → Session) (attempt : Nat → Uuid) (r : Uuid) (profile : String) (limit : Nat) :
    Engine (List UnitId) := do
  Program.given (withinThousand limit)
  let scope ← frozen env r
  scope.config.steps.foldlM (stepTasks env session attempt r profile limit) []

def pendingEvents (db : Store) (r : Uuid) (limit : Nat) : List (Uuid × OutboxEvent) :=
  (Sorting.sortByKey (fun entry : Uuid × OutboxEvent => toLex (entry.2.createdAt, entry.1))
    ((eventsOf db r).filter fun entry => entry.2.deliveredAt = none)).take limit

/-- One event is appended and acknowledged; a failure is noted and ends the delivery. -/
def deliverEvent (env : Surroundings) (session : Session) (count : Nat) (entry : Uuid × OutboxEvent) : Engine Nat :=
  Program.handle
    (do
      env.append entry.1 entry.2
      let _ ← transition env session (.delivery entry.1 none)
      pure (count + 1))
    fun fault => do
      let _ ← transition env session (.delivery entry.1 (some fault.name))
      Program.fail fault

def deliver (env : Surroundings) (session : Nat → Session) (r : Uuid) (limit : Nat) : Engine Nat := do
  Program.given (withinThousand limit)
  let _ ← frozen env r
  let events ← Program.read fun db => pendingEvents db r limit
  events.foldlM (deliverEvent env (session 0)) 0

end EdgarPlatform.Bookkeeping
