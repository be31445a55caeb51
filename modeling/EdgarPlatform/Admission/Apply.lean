import EdgarPlatform.Admission.Store

/-!
# Admitting a prepared batch

One routine admits a batch whole or refuses it: it checks the request against the lease, the generation, the checkpoint, the pins, the proposal and every row it would write over, then writes the batch, the objects it changes, evidence, lookups, the checkpoint, the outbox and the proposal, and checks the lease once more. A batch that is already admitted is answered as it was. A preview makes the same checks and writes, but for the lease, and takes them all back.
-/

namespace EdgarPlatform.Admission

structure ApplyWire where
  intent : Option Bytes
  owner : Option Bytes
  observer : Option Bytes
  fence : Option Nat
  expectedGeneration : Option Nat
  proposalKey : Option Key := none
  proposalBody : Option Bytes := none
  authority : Authority := .absent

/-- A request as it is read. -/
structure Request where
  text : Bytes
  intent : Intent
  version : String
  scope : Bytes
  run : Bytes
  batch : Bytes
  pins : Bytes
  payload : Bytes
  assessment : Bytes
  owner : Option Key
  fence : Nat
  expectedGeneration : Nat
  expectedCheckpoint : Nat
  checkpoint : Nat

variable (env : Env) (protocol : Nat) (moment : Moment)

def Request.batchKey (request : Request) : Key := env.sha256 request.batch

def Request.scopeKey (request : Request) : Key := env.sha256 request.scope

def Request.runKey (request : Request) : Key := env.sha256 request.run

def versions : List String := if 6 ≤ protocol then ["1", "2", "3", "4", "5", "6"] else ["1", "2", "3", "4", "5"]

/-- The scope is leased to the owner under the fence at a time. -/
def leaseHeld (scopeKey : Key) (owner : Option Key) (fence : Nat) (time : Int) (s : State) : Bool :=
  (s.leases.get? scopeKey).any fun lease => some lease.owner = owner ∧ lease.fence = fence ∧ time < lease.expires

def readRequest (checksLease : Bool) (wire : ApplyWire) (s : State) : Except String Request := do
  let text ← need wire.intent "unsupported_request_version"
  let intent := env.intent text
  let version ← need intent.version "unsupported_request_version"
  refuse (version ∉ versions protocol) "unsupported_request_version"
  let fence ← positive wire.fence
  let expectedGeneration ← need wire.expectedGeneration "invalid_counter"
  let expectedCheckpoint ← need intent.expectedCheckpoint "invalid_counter"
  let checkpoint ← positive intent.checkpoint
  refuse (version = "4" ∧ intent.publishInputs ≠ some true) "invalid_input_publication"
  refuse (isPrepared protocol (some version) = true ∧ intent.publishInputs = none) "invalid_input_publication"
  let scope ← need intent.scope "missing_request_identity"
  let run ← need (if isPrepared protocol (some version) then wire.observer else intent.run) "missing_request_identity"
  let batch ← need intent.batch "missing_request_identity"
  let owner := wire.owner.map env.sha256
  refuse (checksLease = true ∧ leaseHeld (env.sha256 scope) owner fence moment.began s = false) "stale_scope_lease"
  let pins ← need intent.pins "missing_prepared_evidence"
  let payload ← need intent.payload "missing_prepared_evidence"
  let assessment ← need intent.assessment "missing_prepared_evidence"
  .ok { text, intent, version, scope, run, batch, pins, payload, assessment, owner, fence, expectedGeneration,
        expectedCheckpoint, checkpoint }

def frozenPins (request : Request) (s : State) : Bool :=
  (s.runs.get? (request.runKey env)).any fun run => run.run ≠ request.run ∨ run.pins ≠ request.pins

def beginRun (request : Request) (s : State) : State :=
  if s.runs.contains (request.runKey env) then s
  else { s with runs := s.runs.insert (request.runKey env) ⟨request.run, request.pins⟩ }

/-- The proposal a batch was admitted by. A subquery for it fails where there are several. -/
def appliedProposal (batchKey : Key) (s : State) : Except String Key :=
  match (s.proposals.entries.filter fun entry => entry.2.batchKey = batchKey ∧ entry.2.state = .applied).map Prod.fst with
  | [] => .error "proposal_required"
  | [key] => .ok key
  | _ => .error "cardinality_violation"

def repeatBatch (wire : ApplyWire) (request : Request) (batch : Batch) (s : State) : Except String State := do
  refuse (batch.requestHash ≠ env.sha256 request.text ∨ batch.batch ≠ request.batch) "batch_content_collision"
  authorityFinish env moment wire.authority s
  if isPrepared protocol (some request.version) = true then do
    approvedCommandPins env moment (some request.pins) request.intent
    refuse (frozenPins env request s = true) "frozen_pins_changed"
    let s := beginRun env request s
    let proposal ← appliedProposal (request.batchKey env) s
    .ok (proposalEvent env moment proposal request.run .duplicate (some (request.batchKey env)) s)
  else .ok s

def Consumer.key (consumer : Consumer) : Option Key := consumer.consumer.map env.sha256

/-- Nobody to tell, one named twice, nothing to tell one, or a payload with one end only. -/
def consumersRefused (request : Request) : Bool :=
  request.intent.consumers = [] ∨ ¬(request.intent.consumers.map (Consumer.key env)).Nodup ∨
    request.version ∈ ["2", "3", "4", "5", "6"] ∧ (request.intent.consumers.any fun consumer => consumer.payload.isNone) ∨
    request.intent.consumers.any fun consumer => consumer.before.isSome ≠ consumer.behind.isSome

/-- The proposal the batch is admitted by: one recorded here, or one recorded before. -/
def chooseProposal (wire : ApplyWire) (request : Request) (s : State) : Except String (Key × State) :=
  match wire.proposalBody with
  | some body => recordProposalLines env protocol moment ⟨some body, some true, some request.text, some request.batch, some request.run⟩ s
  | none => (need wire.proposalKey "proposal_required").map fun key => (key, s)

/-- A proposal the batch can be admitted by: ready, of this intent, and prepared on this generation. -/
def checkProposal (request : Request) (key : Key) (s : State) : Except String Unit := do
  let row ← need (s.proposals.get? key) "proposal_not_ready"
  refuse (row.batchKey ≠ request.batchKey env ∨ row.state ≠ .ready ∨ row.ready = false) "proposal_not_ready"
  refuse (row.intentHash ≠ some (env.sha256 request.text) ∨ row.intent ≠ some request.text) "assessed_effects_changed"
  refuse (row.observed ≠ s.generation) "stale_generation"

def position (scopeKey : Key) (s : State) : Nat := (s.checkpoints.get? scopeKey).getD 0

def checkFresh (wire : ApplyWire) (request : Request) (s : State) : Except String (Key × State) := do
  refuse (s.generation ≠ request.expectedGeneration) "stale_generation"
  refuse (position (request.scopeKey env) s ≠ request.expectedCheckpoint ∨ request.checkpoint ≤ position (request.scopeKey env) s)
    "stale_checkpoint"
  refuse (frozenPins env request s = true) "frozen_pins_changed"
  refuse (consumersRefused env request = true) "invalid_consumers"
  refuse (6 ≤ protocol ∧ request.version ≠ "6") "unsupported_request_version"
  refuse (isPrepared protocol (some request.version) = false) "proposal_required"
  approvedCommandPins env moment (some request.pins) request.intent
  refuse (wire.proposalKey.isSome ∧ wire.proposalBody.isSome) "invalid_proposal"
  let (key, next) ← chooseProposal env protocol moment wire request s
  checkProposal env request key next
  .ok (key, next)

/-- An object with all it needs to be written. -/
structure Object where
  type : Bytes
  id : Bytes
  body : Bytes
  deriving DecidableEq

def Object.key (object : Object) : Key × Key := (env.sha256 object.type, env.sha256 object.id)

def Row.keys (row : Row) : Option Key × Option Key := (row.type.map env.sha256, row.id.map env.sha256)

def Row.key (row : Row) : Option (Key × Key) :=
  match row.type, row.id with
  | some type, some id => some (env.sha256 type, env.sha256 id)
  | _, _ => none

def Row.object (row : Row) : Option Object :=
  match row.type, row.id, row.body with
  | some type, some id, some body => some ⟨type, id, body⟩
  | _, _, _ => none

def stale (held : Option Version) (row : Row) : Bool := some (held.elim 0 Version.version) ≠ row.expected

def collides (held : Option Version) (type id : Bytes) : Bool := held.any fun version => version.type ≠ type ∨ version.id ≠ id

def readObject (s : State) (row : Row) : Except String Object := do
  let object ← need row.object "stale_object_version"
  refuse (stale (s.current.get? (object.key env)) row = true) "stale_object_version"
  .ok object

def heldEvidence (s : State) (row : Row) : Option Evidence := (row.key env).bind s.evidence.get?

def heldLookup (s : State) (row : Row) : Option Version := (row.key env).bind s.lookup.get?

def checkIndexes (request : Request) (s : State) : Except String Unit := do
  let rows := request.intent.indexes
  refuse (request.version ∉ ["3", "4", "5", "6"] ∧ rows ≠ []) "unsupported_index_changes"
  refuse (rows.any fun row => row.expected = none ∨ row.type = none ∨ row.id = none) "invalid_index_version"
  refuse (¬(rows.map (Row.keys env)).Nodup) "duplicate_index_key"
  refuse (rows.any fun row => stale (heldLookup env s row) row) "stale_index_version"
  refuse (rows.any fun row => collides (heldLookup env s row) (row.type.getD []) (row.id.getD [])) "index_digest_collision"

def checkRows (request : Request) (s : State) : Except String (List Object) := do
  let rows := request.intent.objects
  refuse (rows.any fun row => row.expected = none) "invalid_object_version"
  refuse (¬(rows.map (Row.keys env)).Nodup) "duplicate_object_key"
  refuse (¬(request.intent.evidence.map (Row.keys env)).Nodup) "duplicate_evidence_key"
  let objects ← rows.mapM (readObject env s)
  refuse (objects.any fun object => collides (s.current.get? (object.key env)) object.type object.id) "object_digest_collision"
  refuse (request.intent.evidence.any fun row => (heldEvidence env s row).any fun held =>
    some held.type ≠ row.type ∨ some held.id ≠ row.id ∨ row.body.any fun body => held.body ≠ body) "immutable_evidence_collision"
  checkIndexes env request s
  .ok objects

def isChanged (s : State) (object : Object) : Bool :=
  ¬(s.current.get? (object.key env)).any fun held => held.bodyHash = env.sha256 object.body ∧ held.body = object.body

/-- Inputs are published by every version that does not say, and where it is said that they are. -/
def countsInputs (request : Request) : Bool :=
  request.version ∉ ["3", "4", "5", "6"] ∨ request.version ∈ ["4", "5", "6"] ∧ request.intent.publishInputs = some true

def newEvidence (request : Request) (s : State) : List Row :=
  request.intent.evidence.filter fun row => (heldEvidence env s row).isNone

/-- The batch changes an object, or brings evidence that counts. -/
def isChange (request : Request) (objects : List Object) (s : State) : Bool :=
  objects.any (isChanged env s) ∨ countsInputs request ∧ newEvidence env request s ≠ []

def newVersion (request : Request) (s : State) (object : Object) : Version where
  typeKey := env.sha256 object.type
  idKey := env.sha256 object.id
  generation := s.generation + 1
  type := object.type
  id := object.id
  body := object.body
  bodyHash := env.sha256 object.body
  batchKey := request.batchKey env
  version := (s.current.get? (object.key env)).elim 0 Version.version + 1

def newVersions (request : Request) (objects : List Object) (s : State) : List Version :=
  (objects.filter (isChanged env s)).map (newVersion env request s)

/-- A current row is updated from the new version, or is the new version where there was none. -/
def writeCurrent (current : IndexMap (Key × Key) Version) (row : Version) : IndexMap (Key × Key) Version :=
  current.insert row.key <|
    match current.get? row.key with
    | some held => { row with type := held.type, id := held.id }
    | none => row

def evidenceRow (request : Request) (row : Row) : Except String ((Key × Key) × Evidence) := do
  let object ← need row.object "not_null_violation"
  .ok (object.key env, ⟨object.type, object.id, object.body, env.sha256 object.body, request.batchKey env⟩)

/-- A lookup is deleted, written over, or written for the first time. -/
def writeLookup (request : Request) (generation : Nat) (lookup : IndexMap (Key × Key) Version) (row : Row) :
    IndexMap (Key × Key) Version :=
  match row.key env with
  | none => lookup
  | some key =>
      match row.body, lookup.get? key with
      | none, _ => lookup.erase key
      | some body, some held =>
          if held.bodyHash = env.sha256 body ∧ held.body = body then lookup
          else lookup.insert key
            { held with body, bodyHash := env.sha256 body, batchKey := request.batchKey env, version := held.version + 1, generation }
      | some body, none =>
          lookup.insert key ⟨key.1, key.2, generation, row.type.getD [], row.id.getD [], body, env.sha256 body,
            request.batchKey env, 1⟩

/-- What a consumer is told: the payload written for it, with the run quoted between its two ends where it has them. -/
def Consumer.told (request : Request) (consumer : Consumer) : Option Bytes :=
  match consumer.before, consumer.behind with
  | some before, some behind => some (before ++ env.quote request.run ++ behind)
  | some _, none => none
  | none, _ => consumer.payload

def publicationRow (request : Request) (consumer : Consumer) : Except String ((Key × Key) × Publication) := do
  let name ← need consumer.consumer "not_null_violation"
  let payload ← need (consumer.told env request) "not_null_violation"
  .ok ((request.batchKey env, env.sha256 name), { consumer := name, payload, payloadHash := env.sha256 payload })

def batchRow (request : Request) (owner : Key) (changed : Bool) (s : State) : Batch where
  batch := request.batch
  requestHash := env.sha256 request.text
  runKey := request.runKey env
  scopeKey := request.scopeKey env
  leaseOwner := owner
  leaseFence := request.fence
  generation := s.generation + 1
  position := request.checkpoint
  intent := request.text
  assessment := request.assessment
  changed := changed

def losers (batchKey proposal : Key) (s : State) : List Key :=
  (s.proposals.entries.filter fun entry => entry.2.batchKey = batchKey ∧ entry.2.state = .ready ∧ entry.1 ≠ proposal).map Prod.fst

/-- The proposal is applied, and every other ready proposal of the batch is superseded. -/
def settleRow (batchKey proposal key : Key) (row : Proposal) : Proposal :=
  if key = proposal then { row with state := .applied }
  else if row.batchKey = batchKey ∧ row.state = .ready then supersede row
  else row

def settleProposals (batchKey proposal : Key) (proposals : IndexMap Key Proposal) : IndexMap Key Proposal where
  entries := proposals.entries.map fun entry => (entry.1, settleRow batchKey proposal entry.1 entry.2)
  nodup := by
    rw [List.map_map]
    exact proposals.nodup

def applyProposal (request : Request) (proposal : Key) (s : State) : Except String State := do
  let s := proposalEvent env moment proposal request.run .applied (some (request.batchKey env)) s
  let lost := losers (request.batchKey env) proposal s
  refuse (lost.any fun key => s.events.contains (key, request.runKey env, .superseded)) "unique_violation"
  .ok { s with
        events := s.events.extend (lost.map fun key =>
          ((key, request.runKey env, .superseded), ⟨request.run, some (request.batchKey env), moment.began⟩))
        proposals := settleProposals (request.batchKey env) proposal s.proposals }

def admitBatch (request : Request) (proposal : Key) (objects : List Object) (s : State) : Except String State := do
  let changed := isChange env request objects s
  let written := newVersions env request objects s
  let owner ← need request.owner "not_null_violation"
  let evidence ← (newEvidence env request s).mapM (evidenceRow env request)
  let publications ← (if changed = true then request.intent.consumers.mapM (publicationRow env request) else .ok [])
  applyProposal env moment request proposal
    { beginRun env request s with
      generation := s.generation + 1
      batches := s.batches.insert (request.batchKey env) (batchRow env request owner changed s)
      history := s.history ++ written
      current := written.foldl writeCurrent s.current
      evidence := s.evidence.extend evidence
      lookup := request.intent.indexes.foldl (writeLookup env request (s.generation + 1)) s.lookup
      checkpoints := s.checkpoints.insert (request.scopeKey env) request.checkpoint
      outbox := s.outbox.extend publications }

structure Answer where
  generation : Nat
  duplicate : Bool
  changed : Bool
  checkpoint : Nat
  deriving DecidableEq

def Batch.answer (batch : Batch) (duplicate : Bool) : Answer := ⟨batch.generation, duplicate, batch.changed, batch.position⟩

def applyBatch (checksLease : Bool) (wire : ApplyWire) (s : State) : Except String (Answer × State) := do
  let request ← readRequest env protocol moment checksLease wire s
  let s ← authorityStart env moment wire.authority s
  match s.batches.get? (request.batchKey env) with
  | some batch => do
      let next ← repeatBatch env protocol moment wire request batch s
      .ok (batch.answer true, next)
  | none => do
      let (proposal, s) ← checkFresh env protocol moment wire request s
      let objects ← checkRows env request s
      let next ← admitBatch env moment request proposal objects s
      refuse (checksLease = true ∧ leaseHeld (request.scopeKey env) request.owner request.fence moment.ended next = false)
        "scope_lease_expired_before_save"
      authorityFinish env moment wire.authority next
      .ok (⟨next.generation, false, isChange env request objects s, request.checkpoint⟩, next)

def apply (wire : ApplyWire) (s : State) : Except String (Answer × State) := applyBatch env protocol moment true wire s

/-- The same checks and writes, but for the lease, all taken back. -/
def preview (wire : ApplyWire) (s : State) : Except String (Answer × State) :=
  (applyBatch env protocol moment false wire s).map fun result => (result.1, s)

/-! ### Telling the consumers

A worker claims a publication for a while, delivers it, and acknowledges what the consumer verified, or releases the claim. Every claim comes under the publication's next fence. From protocol 6 on a publication is only claimed once every earlier publication of its consumer is verified.

A destination answers each call under the lock of its gate, so a run of the store is a list of calls one after another.
-/

variable (env : Env) (protocol : Nat) (moment : Moment)

structure ClaimOutboxWire where
  batch : Option Bytes
  consumer : Option Bytes
  owner : Option Bytes
  seconds : Option Nat
  context : Option Bytes
  authority : Authority := .absent

/-- What acknowledges or releases a claim. -/
structure OutboxWire where
  batch : Option Bytes
  consumer : Option Bytes
  owner : Option Bytes
  fence : Option Nat
  receipt : Option Key := none
  authority : Authority := .absent

def publicationKey (batch consumer : Option Bytes) : Option (Key × Key) :=
  match batch, consumer with
  | some batch, some consumer => some (env.sha256 batch, env.sha256 consumer)
  | _, _ => none

def readPublication (batch consumer : Option Bytes) (s : State) : Except String ((Key × Key) × Publication) := do
  let key ← need (publicationKey env batch consumer) "unknown_publication"
  let row ← need (s.outbox.get? key) "unknown_publication"
  .ok (key, row)

def generationOf (s : State) (batchKey : Key) : Option Nat := (s.batches.get? batchKey).map Batch.generation

def earlierPending (s : State) (key : Key × Key) : Bool :=
  s.outbox.entries.any fun entry => entry.1.2 = key.2 ∧ entry.2.verified = false ∧
    (generationOf s entry.1.1).any fun generation => (generationOf s key.1).any fun own => generation < own

def Publication.leasedToOther (row : Publication) (owner : Option Key) (time : Int) : Bool :=
  (row.owner.any fun held => owner.any fun own => held ≠ own) ∧ row.expires.any fun expires => time < expires

def retainContext (key : Key × Key) (context : Option Bytes) (s : State) : Except String State := do
  let body ← need context "invalid_publication_context"
  refuse (body = []) "invalid_publication_context"
  .ok (if s.contexts.contains key then s else { s with contexts := s.contexts.insert key body })

def claimOutbox (wire : ClaimOutboxWire) (s : State) : Except String (Publication × State) := do
  let s ← authorityStart env moment (authorityFrom protocol wire.authority) s
  let (key, row) ← readPublication env wire.batch wire.consumer s
  let seconds ← leaseSeconds wire.seconds
  if row.verified = true then do
    authorityFinish env moment (authorityFrom protocol wire.authority) s
    .ok (row, s)
  else do
    refuse (6 ≤ protocol ∧ earlierPending s key = true) "earlier_publication_pending"
    refuse (row.leasedToOther (wire.owner.map env.sha256) moment.began = true) "publication_already_leased"
    let s ← (if 6 ≤ protocol then retainContext key wire.context s else .ok s)
    let claimed := { row with
      owner := wire.owner.map env.sha256
      fence := row.fence + 1
      expires := some (leaseEnd moment seconds) }
    let next := { s with outbox := s.outbox.insert key claimed }
    authorityFinish env moment (authorityFrom protocol wire.authority) next
    .ok (claimed, next)

def ackOutbox (wire : OutboxWire) (s : State) : Except String (Unit × State) := do
  let s ← authorityStart env moment (authorityFrom protocol wire.authority) s
  let (key, row) ← readPublication env wire.batch wire.consumer s
  let fence ← positive wire.fence
  refuse (¬(row.owner.isSome ∧ row.owner = wire.owner.map env.sha256 ∧ row.fence = fence ∧ some row.payloadHash = wire.receipt))
    "stale_or_invalid_publication_receipt"
  if row.verified = true then do
    authorityFinish env moment (authorityFrom protocol wire.authority) s
    .ok ((), s)
  else do
    refuse (row.expires.any fun expires => expires ≤ moment.began) "publication_lease_expired"
    let next := { s with outbox := s.outbox.insert key { row with verified := true } }
    authorityFinish env moment (authorityFrom protocol wire.authority) next
    .ok ((), next)

def releaseOutbox (wire : OutboxWire) (s : State) : Except String (Unit × State) := do
  let s ← authorityStart env moment (authorityFrom protocol wire.authority) s
  let (key, row) ← readPublication env wire.batch wire.consumer s
  let fence ← positive wire.fence
  refuse (¬(row.owner.isSome ∧ row.owner = wire.owner.map env.sha256 ∧ row.fence = fence ∧ row.verified = false ∧
    row.expires.any fun expires => moment.began < expires)) "stale_or_invalid_publication_receipt"
  let next := { s with outbox := s.outbox.insert key { row with owner := none, expires := none } }
  authorityFinish env moment (authorityFrom protocol wire.authority) next
  .ok ((), next)

inductive Call where
  | claim (moment : Moment) (wire : ClaimWire)
  | apply (moment : Moment) (wire : ApplyWire)
  | preview (moment : Moment) (wire : ApplyWire)
  | recordProposal (moment : Moment) (wire : RecordWire)
  | supersedeProposal (moment : Moment) (wire : SupersedeWire)
  | claimOutbox (moment : Moment) (wire : ClaimOutboxWire)
  | ackOutbox (moment : Moment) (wire : OutboxWire)
  | releaseOutbox (moment : Moment) (wire : OutboxWire)

inductive Reply where
  | leased (lease : Leased)
  | admitted (answer : Answer)
  | previewed (answer : Answer)
  | proposed (proposal : Key)
  | superseded (generation : Nat)
  | publication (row : Publication)
  | acknowledged
  | released

def replying {α : Type} (reply : α → Reply) (result : Except String (α × State)) : Except String (Reply × State) :=
  result.map fun answered => (reply answered.1, answered.2)

def perform (s : State) : Call → Except String (Reply × State)
  | .claim moment wire => replying .leased (claim env protocol moment wire s)
  | .apply moment wire => replying .admitted (apply env protocol moment wire s)
  | .preview moment wire => replying .previewed (preview env protocol moment wire s)
  | .recordProposal moment wire => replying .proposed (recordProposal env protocol moment wire s)
  | .supersedeProposal moment wire => replying .superseded (supersedeProposal env protocol moment wire s)
  | .claimOutbox moment wire => replying .publication (claimOutbox env protocol moment wire s)
  | .ackOutbox moment wire => replying (fun _ => .acknowledged) (ackOutbox env protocol moment wire s)
  | .releaseOutbox moment wire => replying (fun _ => .released) (releaseOutbox env protocol moment wire s)

def store (calls : List Call) : State := Machines.run (perform env protocol) {} calls

end EdgarPlatform.Admission
