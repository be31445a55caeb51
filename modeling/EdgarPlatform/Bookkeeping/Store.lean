import EdgarPlatform.Control.Journal
import EdgarPlatform.Library.Machines

/-!
# The control store

The five control tables of the PostgreSQL store: runs, work items, leases, checkpoints and the journal outbox. A routine runs in one transaction: it returns its answer and the tables as it leaves them, or is refused and leaves them as they were. A session carries the login, its duties and the clocks the routine reads. A document is a stored JSON value in the one form the database keeps it in, so equal documents are equal values.
-/

namespace EdgarPlatform.Bookkeeping

open Records (Json)

abbrev Instant := Int

abbrev Uuid := Nat

inductive RunState where
  | running
  | waiting
  | blocked
  | complete
  deriving DecidableEq

inductive WorkState where
  | pending
  | running
  | reported
  | waiting
  | verified
  deriving DecidableEq

structure PipelineRun where
  submission : Json
  submissionHash : String
  expectedCount : Nat
  state : RunState
  checks : Json
  summary : Json
  pinned : Bool
  completedAt : Option Instant
  compactedAt : Option Instant
  runtimes : IndexMap String String
  deriving DecidableEq

/-- The identity of a unit of work. -/
structure UnitId where
  run : Uuid
  step : String
  key : String
  deriving DecidableEq

structure WorkItem where
  ordinal : Int
  resources : List String
  unit : Json
  state : WorkState
  attempt : Option Uuid
  attempts : Nat
  authorityUntil : Option Instant
  receipt : Option Json
  checks : Json
  error : Option String
  generatedCount : Option Nat
  candidate : Option Json
  reporter : Option String
  verifier : Option String
  deriving DecidableEq

/-- A lease on a resource. One that was never taken expired before every time. -/
structure Lease where
  token : Nat
  run : Option Uuid
  attempt : Option Uuid
  expiresAt : Option Instant
  heartbeatAt : Option Instant
  deriving DecidableEq

structure Checkpoint where
  ordinal : Int
  cursor : Option Json
  receipt : Option Json
  resource : Option String
  revision : Nat
  deriving DecidableEq

structure OutboxEvent where
  unit : UnitId
  payload : Json
  attempts : Nat
  error : Option String
  createdAt : Instant
  deliveredAt : Option Instant
  eventType : String
  deriving DecidableEq

/-- The tables. A checkpoint is held under its run and scope, an event under its id. -/
structure Store where
  runs : IndexMap Uuid PipelineRun
  work : IndexMap UnitId WorkItem
  leases : IndexMap String Lease
  checkpoints : IndexMap (Uuid × String) Checkpoint
  outbox : IndexMap Uuid OutboxEvent
  deriving DecidableEq

def Store.empty : Store := ⟨.empty, .empty, .empty, .empty, .empty⟩

inductive Duty where
  | worker
  | verifier
  deriving DecidableEq

/-- What a routine knows of its caller: the login, which profiles' duties the login is a member of, the clock while the routine runs and the clock at its commit. -/
structure Session where
  login : String
  issuer : String → Duty → Bool
  clock : Instant
  commitClock : Instant

/-- A refusal, with the state code the caller sees. -/
structure Refusal where
  message : String
  code : String
  deriving DecidableEq

def raised (message : String) : Refusal := ⟨message, "P0001"⟩

/-- A refusal the caller may retry: a lease or a prerequisite is not free. -/
def contended (message : String) : Refusal := ⟨message, "55P03"⟩

def noRow : Refusal := ⟨"query returned no rows", "P0002"⟩

def uniqueViolation : Refusal := ⟨"duplicate key value violates unique constraint", "23505"⟩

def fieldOf (document : Json) (key : String) : Option Json :=
  match document with
  | .obj fields => (IndexMap.ofList fields).get? key
  | _ => none

/-- A value as text: a string itself, no text for null, the document's text for the rest. -/
def asText : Json → Option String
  | .null => none
  | .str value => some value
  | value => some (Records.writeSortedJson value)

def textOf (document : Json) (key : String) : Option String := (fieldOf document key).bind asText

/-- Whether a text is a field of an object, an item of a list or the value itself. -/
def mentions (document : Json) (key : String) : Bool :=
  match document with
  | .obj fields => key ∈ fields.map Prod.fst
  | .arr items => .str key ∈ items
  | value => value = .str key

def isText : Option Json → Bool
  | some (.str _) => true
  | _ => false

def isObject : Option Json → Bool
  | some (.obj _) => true
  | _ => false

def emptyObject : Json := .obj []

def cursorOf (unit : Json) : Option Json := fieldOf unit "cursor"

/-- The step an expansion's children go to, from the frozen cursor. -/
def generatedStep (unit : Json) : Option String := (cursorOf unit).bind fun cursor => textOf cursor "generated_step"

/-- Whether the completion checks count the unit as an expansion. -/
def marksExpansion (unit : Json) : Bool := (cursorOf unit).any fun cursor => mentions cursor "generated_step"

def selectRun (db : Store) (r : Uuid) : Except Refusal PipelineRun := (db.runs.get? r).elim (.error noRow) .ok

def selectWork (db : Store) (u : UnitId) : Except Refusal WorkItem := (db.work.get? u).elim (.error noRow) .ok

def selectLease (db : Store) (resource : String) : Except Refusal Lease := (db.leases.get? resource).elim (.error noRow) .ok

theorem selectRun_eq_ok {db : Store} {r : Uuid} {run : PipelineRun} :
    selectRun db r = .ok run ↔ db.runs.get? r = some run := by
  rw [selectRun]
  cases db.runs.get? r <;> simp

theorem selectWork_eq_ok {db : Store} {u : UnitId} {w : WorkItem} :
    selectWork db u = .ok w ↔ db.work.get? u = some w := by
  rw [selectWork]
  cases db.work.get? u <;> simp

theorem selectLease_eq_ok {db : Store} {resource : String} {l : Lease} :
    selectLease db resource = .ok l ↔ db.leases.get? resource = some l := by
  rw [selectLease]
  cases db.leases.get? resource <;> simp

def countWork (db : Store) (r : Uuid) (cond : UnitId → WorkItem → Bool) : Nat :=
  db.work.entries.countP fun entry => entry.1.run = r && cond entry.1 entry.2

/-- Whether some work item of a step of a run meets a condition. -/
def anyWork (db : Store) (r : Uuid) (step : String) (cond : UnitId → WorkItem → Bool) : Bool :=
  db.work.entries.any fun entry => entry.1.run = r && entry.1.step = step && cond entry.1 entry.2

theorem anyWork_iff {db : Store} {r : Uuid} {step : String} {cond : UnitId → WorkItem → Bool} :
    anyWork db r step cond = true ↔ ∃ u w, db.work.get? u = some w ∧ u.run = r ∧ u.step = step ∧ cond u w = true := by
  rw [anyWork, List.any_eq_true]
  simp only [Bool.and_eq_true, decide_eq_true_eq, IndexMap.get?_eq_some_iff, Prod.exists, and_assoc]

def Lease.fresh : Lease := ⟨0, none, none, none, none⟩

def Lease.live (l : Lease) (now : Instant) : Bool := l.expiresAt.any fun expiry => now < expiry

def Lease.heldBy (l : Lease) (r a : Uuid) : Bool := l.run = some r && l.attempt = some a

/-- One entry of a lease proof. -/
structure LeaseProof where
  resource : String
  token : Nat
  run : Uuid
  attempt : Uuid
  expiresAt : Instant
  deriving DecidableEq

def leaseEnd (now seconds : Int) : Instant := now + seconds * 1000000

def expireLeases (leases : IndexMap String Lease) (r a : Uuid) (now : Instant) : IndexMap String Lease :=
  leases.mapValues fun l => if l.heldBy r a then { l with expiresAt := some now } else l

def stepProfile (submission : Json) (step : String) : Option String :=
  (fieldOf submission "profiles").bind fun profiles => textOf profiles step

def frozenProfile (db : Store) (r : Uuid) (step : String) : Option String :=
  (db.runs.get? r).bind fun run => stepProfile run.submission step

def isIssuer (session : Session) (profile : Option String) (duty : Duty) : Bool :=
  profile.any fun profile => session.issuer profile duty

/-- The login has one of the duties for the profile of the step. -/
def require (session : Session) (db : Store) (u : UnitId) (duties : List Duty) : Except Refusal Unit :=
  if duties.any (isIssuer session (frozenProfile db u.run u.step)) then .ok ()
  else .error (raised "This login has no role for the profile")

def isExecutable (run : PipelineRun) : Bool := run.state = .running || run.state = .waiting

def requireExecutable (db : Store) (r : Uuid) : Except Refusal Unit :=
  if (db.runs.get? r).any isExecutable then .ok () else .error (raised "Run is not executable")

def checkSeconds (seconds : Int) : Except Refusal Unit :=
  if seconds < 2 ∨ 86400 < seconds then .error (raised "Invalid lease duration") else .ok ()

def checkProof (session : Session) (db : Store) (u : UnitId) (a : Uuid) (w : WorkItem) (p : LeaseProof) :
    Except Refusal Unit :=
  if p.resource ∉ w.resources then .error (raised "Unexpected resource") else do
    let l ← selectLease db p.resource
    if ¬ (l.heldBy u.run a = true ∧ l.token = p.token ∧ l.live session.clock = true) then .error (raised "Stale lease")
    else .ok ()

def coversResources (w : WorkItem) (proof : List LeaseProof) : Bool :=
  proof.length = w.resources.length && (proof.map LeaseProof.resource).dedup.length = w.resources.length

/-- Live authority over a unit: the run is executable, the unit is worked on by the attempt and every resource of it is leased as the proof says. -/
def authority (session : Session) (db : Store) (u : UnitId) (a : Uuid) (proof : List LeaseProof) : Except Refusal Unit := do
  requireExecutable db u.run
  let w ← selectWork db u
  if ¬ ((w.state = .running ∨ w.state = .reported) ∧ w.attempt = some a) then .error (raised "Stale attempt")
  else if coversResources w proof = false then .error (raised "Incomplete lease proof")
  else (Sorting.sortByKey LeaseProof.resource proof).forM (checkProof session db u a w)

/-! ### Claims, reports and verification claims

The routines that hand a unit to an attempt and take its candidate back. A claim leases every resource of the unit under a new token. A worker reports its candidate under live authority. A verifier then holds the same attempt's leases, renewed while they are live and taken again under a new token once they lapsed.
-/

open Records (Json)

def namesCandidate (candidate receipt : Option Json) : Bool :=
  candidate.any fun candidate =>
    receipt.bind (textOf · "uri") = textOf candidate "uri" && receipt.bind (textOf · "sha256") = textOf candidate "sha256"

/-- The trigger on a unit's state: only the reported candidate is verified, by a verifier other than its reporter, and a unit that starts running holds no candidate. -/
def reportedCandidate (session : Session) (db : Store) (u : UnitId) (old new : WorkItem) : Except Refusal WorkItem :=
  if new.state = .verified ∧ old.state ≠ .verified then
    if ¬ (old.state = .reported ∧ namesCandidate old.candidate new.receipt = true) then
      .error (raised "Completion must be the reported candidate")
    else if isIssuer session (frozenProfile db u.run u.step) .verifier = false ∨ old.reporter = some session.login then
      .error (raised "Completion needs a verifier of this profile other than its reporter")
    else .ok { new with verifier := some session.login }
  else if new.state = .running ∧ old.state ≠ .running then .ok { new with candidate := none, reporter := none }
  else .ok new

/-- The tables with a unit's row written, as the trigger lets it be. -/
def updateWork (session : Session) (db : Store) (u : UnitId) (old new : WorkItem) : Except Refusal Store := do
  let kept ← reportedCandidate session db u old new
  .ok { db with work := db.work.insert u kept }

def grantLease (token : Nat) (r a : Uuid) (now seconds : Int) : Lease :=
  ⟨token, some r, some a, some (leaseEnd now seconds), some now⟩

/-- The token a claim takes a lease under: the lease must have lapsed. -/
def claimToken (now : Instant) (l : Option Lease) : Except Refusal Nat :=
  if (l.getD .fresh).live now then .error (contended "Lease contention") else .ok ((l.getD .fresh).token + 1)

/-- The token a verifier holds a lease under: the same token while the attempt's lease is live, the next one once it lapsed. -/
def verifyToken (now : Instant) (a : Uuid) (l : Option Lease) : Except Refusal Nat :=
  match l with
  | none => .error noRow
  | some l =>
      if l.attempt ≠ some a ∧ l.live now = true then .error (contended "Lease contention")
      else .ok (if l.attempt = some a ∧ l.live now = true then l.token else l.token + 1)

def takeLease (grant : Option Lease → Except Refusal Nat) (r a : Uuid) (now seconds : Int)
    (taken : IndexMap String Lease × List LeaseProof) (resource : String) :
    Except Refusal (IndexMap String Lease × List LeaseProof) := do
  let token ← grant (taken.1.get? resource)
  .ok (taken.1.insert resource (grantLease token r a now seconds),
    taken.2 ++ [⟨resource, token, r, a, leaseEnd now seconds⟩])

/-- The leases of a unit's resources taken one after another in the order of the resources, with the proof of them. -/
def takeLeases (grant : Option Lease → Except Refusal Nat) (r a : Uuid) (now seconds : Int)
    (leases : IndexMap String Lease) (resources : List String) :
    Except Refusal (IndexMap String Lease × List LeaseProof) :=
  (Sorting.sortByKey id resources).foldlM (takeLease grant r a now seconds) (leases, [])

def requirePrerequisites (db : Store) (r : Uuid) (prereqs : List String) : Except Refusal Unit :=
  if prereqs.any fun step => anyWork db r step fun _ w => w.state ≠ .verified then
    .error (contended "Prerequisite incomplete")
  else .ok ()

def startedWork (w : WorkItem) (a : Uuid) : WorkItem :=
  { w with state := .running, attempt := some a, attempts := w.attempts + 1, error := none }

def claimUnit (session : Session) (db : Store) (u : UnitId) (a : Uuid) (seconds : Int) (prereqs : List String) :
    Except Refusal (Option (List LeaseProof) × Store) := do
  checkSeconds seconds
  requireExecutable db u.run
  let w ← selectWork db u
  if w.state = .verified then .ok (none, db) else do
    requirePrerequisites db u.run prereqs
    if w.resources = [] then .error (raised "Missing resources") else do
      let taken ← takeLeases (claimToken session.clock) u.run a session.clock seconds db.leases w.resources
      let started ← updateWork session { db with leases := taken.1 } u w (startedWork w a)
      .ok (some taken.2, started)

def claim (session : Session) (db : Store) (u : UnitId) (a : Uuid) (seconds : Int) (prereqs : List String) :
    Except Refusal (Option (List LeaseProof) × Store) := do
  require session db u [.worker]
  claimUnit session db u a seconds prereqs

def renewLeases (leases : IndexMap String Lease) (r a : Uuid) (now seconds : Int) : IndexMap String Lease :=
  leases.mapValues fun l =>
    if l.heldBy r a then { l with expiresAt := some (leaseEnd now seconds), heartbeatAt := some now } else l

/-- The proof of every lease of an attempt, in the order of the resources. -/
def heldProofs (leases : IndexMap String Lease) (r a : Uuid) : List LeaseProof :=
  Sorting.sortByKey LeaseProof.resource (leases.entries.filterMap fun entry =>
    if entry.2.heldBy r a then entry.2.expiresAt.map fun expiry => ⟨entry.1, entry.2.token, r, a, expiry⟩ else none)

def renewUnit (session : Session) (db : Store) (u : UnitId) (a : Uuid) (proof : List LeaseProof) (seconds : Int) :
    Except Refusal (List LeaseProof × Store) := do
  checkSeconds seconds
  authority session db u a proof
  .ok (heldProofs (renewLeases db.leases u.run a session.clock seconds) u.run a,
    { db with leases := renewLeases db.leases u.run a session.clock seconds })

def heartbeat (session : Session) (db : Store) (u : UnitId) (a : Uuid) (proof : List LeaseProof) (seconds : Int) :
    Except Refusal (List LeaseProof × Store) := do
  require session db u [.worker, .verifier]
  renewUnit session db u a proof seconds

def anyLive (db : Store) (r a : Uuid) (now : Instant) : Bool :=
  db.leases.entries.any fun entry => entry.2.heldBy r a && entry.2.live now

def waitingWork (w : WorkItem) (message : String) : WorkItem := { w with state := .waiting, error := some message }

def noteWaiting (session : Session) (db : Store) (u : UnitId) (message : String) : Except Refusal Store :=
  match db.work.get? u with
  | none => .ok db
  | some w => if w.state = .verified then .ok db else updateWork session db u w (waitingWork w message)

/-- Without an attempt the note is a courtesy: it does not rewrite the unit of an owner with a live lease. -/
def releaseUnit (session : Session) (db : Store) (u : UnitId) (message : String) (attempt : Option Uuid)
    (proof : List LeaseProof) : Except Refusal Store :=
  match attempt with
  | some a => do
      authority session db u a proof
      noteWaiting session { db with leases := expireLeases db.leases u.run a session.clock } u message
  | none =>
      if ((db.work.get? u).bind WorkItem.attempt).any fun a => anyLive db u.run a session.clock then .ok db
      else noteWaiting session db u message

def waitWork (session : Session) (db : Store) (u : UnitId) (message : String) (attempt : Option Uuid)
    (proof : List LeaseProof) : Except Refusal Store := do
  require session db u [.worker, .verifier]
  releaseUnit session db u message attempt proof

def isCandidate : Json → Bool
  | .obj fields =>
      (IndexMap.ofList fields).size = 2 && isText (fieldOf (.obj fields) "uri") && textOf (.obj fields) "uri" ≠ some ""
        && (textOf (.obj fields) "sha256").any Control.validHash
  | _ => false

def pinRuntime (db : Store) (r : Uuid) (slot runtime : String) (changed : String) : Except Refusal Store := do
  let run ← selectRun db r
  match run.runtimes.get? slot with
  | none => .ok { db with runs := db.runs.insert r { run with runtimes := run.runtimes.insert slot runtime } }
  | some pinned => if pinned ≠ runtime then .error (raised changed) else .ok db

def reportedWork (w : WorkItem) (candidate : Json) (login : String) : WorkItem :=
  { w with state := .reported, candidate := some candidate, error := none, reporter := some login }

def report (session : Session) (db : Store) (u : UnitId) (a : Uuid) (proof : List LeaseProof) (candidate : Json)
    (profile runtime : String) : Except Refusal Store :=
  if ¬ (isCandidate candidate = true ∧ Control.validHash runtime = true) then
    .error (raised "A report names a candidate URI and hash, and its runtime")
  else if frozenProfile db u.run u.step ≠ some profile then
    .error (raised "A report names the profile the run froze for its step")
  else do
    require session db u [.worker]
    authority session db u a proof
    let w ← selectWork db u
    if w.state = .reported then
      if w.candidate ≠ some candidate ∨ w.reporter ≠ some session.login then
        .error (raised "Conflicting candidate for this attempt")
      else .ok db
    else do
      let pinned ← pinRuntime db u.run profile runtime "Pinned worker runtime changed; start a new run"
      updateWork session pinned u w (reportedWork w candidate session.login)

def verifyClaim (session : Session) (db : Store) (u : UnitId) (a : Uuid) (seconds : Int) :
    Except Refusal (Option (List LeaseProof) × Store) := do
  checkSeconds seconds
  requireExecutable db u.run
  require session db u [.verifier]
  let w ← selectWork db u
  if ¬ (w.state = .reported ∧ w.attempt = some a) then .ok (none, db)
  else if w.reporter = some session.login then .error (raised "This login may not verify its own report")
  else do
    let taken ← takeLeases (verifyToken session.clock a) u.run a session.clock seconds db.leases w.resources
    .ok (some taken.2, { db with leases := taken.1 })

def pinVerifier (session : Session) (db : Store) (u : UnitId) (runtime : String) : Except Refusal Store :=
  if Control.validHash runtime = false then .error (raised "A verifier names its runtime digest") else do
    require session db u [.verifier]
    pinRuntime db u.run ("verify:" ++ (frozenProfile db u.run u.step).getD "") runtime
      "Pinned verifier runtime changed; start a new run"

end EdgarPlatform.Bookkeeping
