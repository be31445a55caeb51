import EdgarPlatform.Bookkeeping.Store

/-!
# Completing work

A verifier completes the reported candidate: the unit becomes verified, its event joins the outbox, the attempt's leases end and the step's checkpoint moves up to the unit before the lowest unfinished one, all in one transaction. Two further routines complete a unit together with the shared checkpoint of a resource, or together with the children an expansion generated.
-/

namespace EdgarPlatform.Bookkeeping

open Records (Json)

def validReceipt (receipt : Json) : Bool :=
  isObject (some receipt) && isText (fieldOf receipt "uri") && textOf receipt "uri" ≠ some ""
    && isText (fieldOf receipt "sha256") && isObject (fieldOf receipt "evidence")
    && (textOf receipt "sha256").any Control.validHash

def allPassed : Json → Bool
  | .obj fields => fields ≠ [] && (IndexMap.ofList fields).values.all fun value => value = .bool true
  | _ => false

def eventPayload (u : UnitId) (event : Uuid) (receipt checks : Json) : Json :=
  .obj [("version", .num "1"), ("event_id", .num (toString event)), ("run_id", .num (toString u.run)),
    ("step", .str u.step), ("unit_key", .str u.key), ("receipt", receipt), ("checks", checks)]

def verifiedEvent : String := "work.verified"

def earliestEnd (leases : IndexMap String Lease) (r a : Uuid) : Option Instant :=
  ((leases.values.filter fun l => l.heldBy r a).filterMap Lease.expiresAt).min?

def verifiedWork (w : WorkItem) (receipt checks : Json) (deadline : Option Instant) : WorkItem :=
  { w with state := .verified, receipt := some receipt, checks := checks, error := none, authorityUntil := deadline }

/-- The event of a unit: one of its type that is already there stays, an id that is taken is refused. -/
def recordEvent (outbox : IndexMap Uuid OutboxEvent) (u : UnitId) (event : Uuid) (payload : Json) (now : Instant) :
    Except Refusal (IndexMap Uuid OutboxEvent) :=
  if outbox.values.any fun e => e.unit = u && e.eventType = verifiedEvent then .ok outbox
  else if outbox.contains event then .error uniqueViolation
  else .ok (outbox.insert event ⟨u, payload, 0, none, now, none, verifiedEvent⟩)

def ordinalsOf (db : Store) (r : Uuid) (step : String) (cond : WorkItem → Bool) : List Int :=
  db.work.entries.filterMap fun entry =>
    if entry.1.run = r ∧ entry.1.step = step ∧ cond entry.2 = true then some entry.2.ordinal else none

/-- The ordinal before the lowest unfinished unit of a step, or the highest one where every unit is finished. -/
def lastOrdinal (db : Store) (r : Uuid) (step : String) : Option Int :=
  ((ordinalsOf db r step fun w => w.state ≠ .verified).min?.map (· - 1)).or (ordinalsOf db r step fun _ => true).max?

def itemAt (db : Store) (r : Uuid) (step : String) (ordinal : Int) : Option WorkItem :=
  (db.work.entries.find? fun entry => entry.1.run = r && entry.1.step = step && entry.2.ordinal = ordinal).map Prod.snd

/-- The checkpoint a completion leaves: it moves to a higher ordinal, with the cursor and receipt of the unit there. -/
def movedCheckpoint (db : Store) (r : Uuid) (step : String) (last : Int) (c : Checkpoint) : Checkpoint :=
  if c.ordinal < last then
    { c with ordinal := last, cursor := (itemAt db r step last).bind fun w => cursorOf w.unit,
             receipt := (itemAt db r step last).bind WorkItem.receipt }
  else c

def advanceCheckpoint (db : Store) (r : Uuid) (step : String) : Store :=
  match lastOrdinal db r step, db.checkpoints.get? (r, step) with
  | some last, some c => { db with checkpoints := db.checkpoints.insert (r, step) (movedCheckpoint db r step last c) }
  | _, _ => db

def checkCommit (session : Session) (deadline : Option Instant) : Except Refusal Unit :=
  if deadline.any fun t => session.commitClock < t then .ok ()
  else .error (raised "Completion authority expired before commit")

def completeUnit (session : Session) (db : Store) (u : UnitId) (w : WorkItem) (a : Uuid) (receipt checks : Json)
    (event : Uuid) : Except Refusal Store := do
  let written ← updateWork session db u w (verifiedWork w receipt checks (earliestEnd db.leases u.run a))
  let outbox ← recordEvent written.outbox u event (eventPayload u event receipt checks) session.clock
  checkCommit session (earliestEnd db.leases u.run a)
  .ok (advanceCheckpoint
    { written with outbox := outbox, leases := expireLeases written.leases u.run a session.clock } u.run u.step)

def finish (session : Session) (db : Store) (u : UnitId) (a : Uuid) (proof : List LeaseProof) (receipt checks : Json)
    (event : Uuid) : Except Refusal Store := do
  let w ← selectWork db u
  if w.state = .verified then
    if w.receipt ≠ some receipt ∨ w.checks ≠ checks then .error (raised "Completion evidence changed") else .ok db
  else do
    authority session db u a proof
    if ¬ (validReceipt receipt = true ∧ allPassed checks = true) then .error (raised "Unverified completion")
    else completeUnit session db u w a receipt checks event

/-- The checkpoint of a resource, with the run and scope it is held under. -/
def resourceCheckpoint (db : Store) (resource : String) : Option ((Uuid × String) × Checkpoint) :=
  db.checkpoints.entries.find? fun entry => entry.2.resource = some resource

def resourceScope (resource : String) : String := "resource:" ++ resource

/-- A resource's first checkpoint: nothing done, revision zero. A run and scope that are taken are refused. -/
def openCheckpoint (db : Store) (r : Uuid) (resource : String) : Except Refusal Store :=
  if (resourceCheckpoint db resource).isSome then .ok db
  else if db.checkpoints.contains (r, resourceScope resource) then .error uniqueViolation
  else .ok { db with checkpoints := db.checkpoints.insert (r, resourceScope resource) ⟨-1, none, none, some resource, 0⟩ }

def selectResource (db : Store) (resource : String) : Except Refusal ((Uuid × String) × Checkpoint) :=
  (resourceCheckpoint db resource).elim (.error noRow) .ok

def advancedCheckpoint (c : Checkpoint) (position : Int) (cursor : Option Json) (receipt : Json) : Checkpoint :=
  { c with ordinal := position + 1, cursor := cursor, receipt := some receipt, revision := c.revision + 1 }

def moveCheckpoint (db : Store) (place : Uuid × String) (r : Uuid) (c : Checkpoint) : Store :=
  { db with checkpoints := (db.checkpoints.erase place).insert (r, place.2) c }

/-- The resource's checkpoint moved to a run and written, unless its scope is taken there. -/
def writeResource (db : Store) (r : Uuid) (resource : String) (position : Int) (cursor : Option Json) (receipt : Json) :
    Except Refusal (Nat × Store) := do
  let held ← selectResource db resource
  if held.1.1 ≠ r ∧ db.checkpoints.contains (r, held.1.2) = true then .error uniqueViolation
  else .ok (held.2.revision + 1, moveCheckpoint db held.1 r (advancedCheckpoint held.2 position cursor receipt))

/-- The repeated completion of a verified unit: the checkpoint must still name it. -/
def repeatResource (db : Store) (r : Uuid) (resource : String) (position : Int) (receipt : Json) : Except Refusal Nat := do
  let held ← selectResource db resource
  if held.1.1 ≠ r ∨ held.2.receipt ≠ some receipt ∨ held.2.ordinal ≠ position + 1 then
    .error (raised "Resource checkpoint no longer names this completion")
  else .ok held.2.revision

def checkResource (db : Store) (resource : String) (revision : Nat) (position : Int) : Except Refusal Unit := do
  let held ← selectResource db resource
  if held.2.revision ≠ revision ∨ held.2.ordinal ≠ position then
    .error ⟨"Resource checkpoint comparison failed", "40001"⟩
  else .ok ()

/-- The first completion of a unit with the checkpoint of a resource. -/
def advanceResource (session : Session) (db : Store) (u : UnitId) (w : WorkItem) (a : Uuid) (proof : List LeaseProof)
    (receipt checks : Json) (event : Uuid) (resource : String) (revision : Nat) (position : Int) :
    Except Refusal (Nat × Store) := do
  authority session db u a proof
  if resource ∉ w.resources then .error (raised "Checkpoint requires matching resource lease")
  else if anyWork db u.run u.step fun _ other => other.ordinal < w.ordinal && other.state ≠ .verified then
    .error (raised "Resource checkpoint cannot skip a work hole")
  else do
    let opened ← openCheckpoint db u.run resource
    checkResource opened resource revision position
    let finished ← finish session opened u a proof receipt checks event
    writeResource finished u.run resource position (cursorOf w.unit) receipt

def finishResource (session : Session) (db : Store) (u : UnitId) (a : Uuid) (proof : List LeaseProof)
    (receipt checks : Json) (event : Uuid) (resource : String) (revision position : Int) : Except Refusal (Nat × Store) := do
  let w ← selectWork db u
  if resource = "" ∨ revision < 0 ∨ position < -1 then .error (raised "Invalid resource checkpoint comparison")
  else if w.state = .verified then do
    let same ← finish session db u a proof receipt checks event
    let held ← repeatResource same u.run resource position receipt
    .ok (held, same)
  else advanceResource session db u w a proof receipt checks event resource revision.toNat position

/-- A unit of work as a caller lists it. -/
structure WorkEntry where
  step : String
  key : String
  ordinal : Int
  resources : List String
  unit : Json
  deriving DecidableEq

def WorkEntry.id (entry : WorkEntry) (r : Uuid) : UnitId := ⟨r, entry.step, entry.key⟩

def WorkEntry.pending (entry : WorkEntry) : WorkItem :=
  ⟨entry.ordinal, entry.resources, entry.unit, .pending, none, 0, none, none, emptyObject, none, none, none, none, none⟩

/-- The row of a listed unit, unless its identity or its ordinal is taken. -/
def insertWork (db : Store) (r : Uuid) (entry : WorkEntry) : Store :=
  if db.work.contains (entry.id r) || anyWork db r entry.step fun _ w => w.ordinal = entry.ordinal then db
  else { db with work := db.work.insert (entry.id r) entry.pending }

def sameWork (entry : WorkEntry) (w : WorkItem) : Bool :=
  w.ordinal = entry.ordinal && w.resources = entry.resources && w.unit = entry.unit

def wellFormedChild (childStep : String) (child : WorkEntry) : Bool :=
  child.step = childStep && child.key ≠ "" && child.resources ≠ [] && isObject (some child.unit)

/-- One generated child: it is new unless its parent is verified already, and stored as it is listed. -/
def insertChild (r : Uuid) (childStep : String) (sealed : Bool) (db : Store) (child : WorkEntry) : Except Refusal Store :=
  if wellFormedChild childStep child = false then .error (raised "Malformed generated child")
  else if child.ordinal < 0 ∨ (anyWork db r childStep fun u w => w.ordinal = child.ordinal && u.key ≠ child.key) = true then
    .error (raised "Generated ordinal conflicts")
  else if sealed = false ∧ db.work.contains (child.id r) = true then
    .error (raised "Generated child already belongs to another expansion")
  else if ((insertWork db r child).work.get? (child.id r)).any (sameWork child) then .ok (insertWork db r child)
  else .error (raised "Generated child changed")

def openStep (checkpoints : IndexMap (Uuid × String) Checkpoint) (r : Uuid) (step : String) :
    IndexMap (Uuid × String) Checkpoint :=
  if checkpoints.contains (r, step) then checkpoints else checkpoints.insert (r, step) ⟨-1, none, none, none, 0⟩

def sealWork (w : WorkItem) (count : Nat) : WorkItem := { w with generatedCount := some count }

def expectMore (run : PipelineRun) (count : Nat) : PipelineRun := { run with expectedCount := run.expectedCount + count }

/-- The parent's count of children, the run's count of work and the children's checkpoint, after the parent completed. -/
def sealExpansion (db : Store) (u : UnitId) (childStep : String) (count : Nat) : Except Refusal Store := do
  let w ← selectWork db u
  let run ← selectRun db u.run
  .ok { db with
    work := db.work.insert u (sealWork w count)
    runs := db.runs.insert u.run (expectMore run count)
    checkpoints := openStep db.checkpoints u.run childStep }

/-- The authority of a parent that is not verified, or the unchanged evidence of one that is. -/
def checkParent (session : Session) (db : Store) (u : UnitId) (parent : WorkItem) (a : Uuid) (proof : List LeaseProof)
    (receipt checks : Json) : Except Refusal Unit :=
  if parent.state ≠ .verified then authority session db u a proof
  else if parent.generatedCount = none ∨ parent.receipt ≠ some receipt ∨ parent.checks ≠ checks then
    .error (raised "Expansion completion evidence changed")
  else .ok ()

def finishExpand (session : Session) (db : Store) (u : UnitId) (a : Uuid) (proof : List LeaseProof) (receipt checks : Json)
    (event : Uuid) (children : List WorkEntry) (childStep : String) : Except Refusal Store :=
  if 128 < children.length ∨ childStep = "" ∨ childStep = u.step then .error (raised "Invalid bounded expansion")
  else if ¬ (children.map WorkEntry.key).Nodup then .error (raised "Repeated generated child key")
  else do
    let parent ← selectWork db u
    if generatedStep parent.unit ≠ some childStep then .error (raised "Expansion differs from frozen parent") else do
      checkParent session db u parent a proof receipt checks
      let added ← children.foldlM (insertChild u.run childStep (parent.state = .verified)) db
      if parent.state = .verified then .ok added else do
        let finished ← finish session added u a proof receipt checks event
        sealExpansion finished u childStep children.length

end EdgarPlatform.Bookkeeping
