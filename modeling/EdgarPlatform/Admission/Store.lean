import EdgarPlatform.Library.IndexMap
import EdgarPlatform.Library.Machines

/-!
# The store prepared batches are admitted to

What a destination keeps: the gate with its generation, the leases of scopes, the batches it admitted and how far each scope has come, the objects with every version they had, evidence and lookups, the proposals a batch was prepared as, and an outbox of what each consumer is to be told. Bodies are bytes. A routine reads the columns of a request that are there, so what a request leaves out, or does not write as the routine reads it, is `none`.
-/

namespace EdgarPlatform.Admission

abbrev Bytes := List UInt8

abbrev Key := String

/-- An object, or a lookup, as a request writes it. -/
structure Row where
  type : Option Bytes
  id : Option Bytes
  body : Option Bytes
  expected : Option Nat := none
  deriving DecidableEq

structure Consumer where
  consumer : Option Bytes
  payload : Option Bytes
  before : Option Bytes := none
  behind : Option Bytes := none
  deriving DecidableEq

/-- What an intent writes. -/
structure Intent where
  version : Option String := none
  scope : Option Bytes := none
  run : Option Bytes := none
  batch : Option Bytes := none
  pins : Option Bytes := none
  requiredPins : Option Bytes := none
  payload : Option Bytes := none
  assessment : Option Bytes := none
  expectedCheckpoint : Option Nat := none
  checkpoint : Option Nat := none
  publishInputs : Option Bool := none
  objects : List Row := []
  evidence : List Row := []
  indexes : List Row := []
  consumers : List Consumer := []

/-- A right to write that another destination granted. -/
structure Proof where
  resource : Bytes
  run : Bytes
  attempt : Bytes
  token : Nat
  expires : Int
  deriving DecidableEq

/-- The rights a request shows: none at all, something that is not a list of rights, or a list. -/
inductive Authority where
  | absent
  | malformed
  | proofs (rows : List Proof)

/-- What is calculated with: digests, the intent a text writes, a text quoted for JSON, and the pins an object of pins names with their values. -/
structure Env where
  sha256 : Bytes → Key
  intent : Bytes → Intent
  quote : Bytes → Bytes
  pins : Bytes → Option (List (Bytes × Option Bytes))

/-- What a call reads besides the store: the time as it begins to check and as it ends, and the pins that are approved. -/
structure Moment where
  began : Int
  ended : Int
  approved : Bytes → Bytes → Bool

structure Lease where
  scope : Bytes
  owner : Key
  fence : Nat
  expires : Int
  deriving DecidableEq

structure Run where
  run : Bytes
  pins : Bytes
  deriving DecidableEq

structure Batch where
  batch : Bytes
  requestHash : Key
  runKey : Key
  scopeKey : Key
  leaseOwner : Key
  leaseFence : Nat
  generation : Nat
  position : Nat
  intent : Bytes
  assessment : Bytes
  changed : Bool
  deriving DecidableEq

/-- An object as a batch left it. -/
structure Version where
  typeKey : Key
  idKey : Key
  generation : Nat
  type : Bytes
  id : Bytes
  body : Bytes
  bodyHash : Key
  batchKey : Key
  version : Nat
  deriving DecidableEq

def Version.key (row : Version) : Key × Key := (row.typeKey, row.idKey)

structure Evidence where
  type : Bytes
  id : Bytes
  body : Bytes
  bodyHash : Key
  batchKey : Key
  deriving DecidableEq

inductive ProposalState where
  | ready
  | rejected
  | applied
  | superseded
  deriving DecidableEq

structure Proposal where
  batchKey : Key
  body : Bytes
  intent : Option Bytes
  intentHash : Option Key
  observed : Nat
  ready : Bool
  state : ProposalState
  deriving DecidableEq

inductive Event where
  | ready
  | rejected
  | observed
  | applied
  | superseded
  | duplicate
  deriving DecidableEq

structure Occurrence where
  observer : Bytes
  batchKey : Option Key
  occurred : Int
  deriving DecidableEq

/-- What a consumer is to be told of a batch, who last claimed to tell it, and whether that was verified. -/
structure Publication where
  consumer : Bytes
  payload : Bytes
  payloadHash : Key
  fence : Nat := 0
  owner : Option Key := none
  expires : Option Int := none
  verified : Bool := false
  deriving DecidableEq

structure State where
  generation : Nat := 0
  leases : IndexMap Key Lease := .empty
  authority : IndexMap Key Proof := .empty
  runs : IndexMap Key Run := .empty
  batches : IndexMap Key Batch := .empty
  checkpoints : IndexMap Key Nat := .empty
  history : List Version := []
  current : IndexMap (Key × Key) Version := .empty
  evidence : IndexMap (Key × Key) Evidence := .empty
  lookup : IndexMap (Key × Key) Version := .empty
  proposals : IndexMap Key Proposal := .empty
  events : IndexMap (Key × Key × Event) Occurrence := .empty
  outbox : IndexMap (Key × Key) Publication := .empty
  contexts : IndexMap (Key × Key) Bytes := .empty

def refuse (condition : Prop) [Decidable condition] (code : String) : Except String Unit :=
  if condition then .error code else .ok ()

@[simp] theorem refuse_eq_ok {condition : Prop} [Decidable condition] {code : String} {u : Unit} :
    refuse condition code = .ok u ↔ ¬condition := by
  rw [refuse]
  split_ifs with h <;> simp [h]

def need {α : Type} (value : Option α) (code : String) : Except String α := value.elim (.error code) .ok

@[simp] theorem need_eq_ok {α : Type} {value : Option α} {code : String} {a : α} :
    need value code = .ok a ↔ value = some a := by
  cases value <;> simp [need]

def positive (value : Option Nat) : Except String Nat := do
  let number ← need value "invalid_counter"
  refuse (number = 0) "invalid_counter"
  .ok number

theorem positive_eq_ok {value : Option Nat} {number : Nat} : positive value = .ok number ↔ value = some number ∧ 0 < number := by
  rw [positive, Except.bind_eq_ok]
  constructor
  · rintro ⟨held, hheld, h⟩
    obtain ⟨_, hzero, h⟩ := Except.bind_eq_ok.1 h
    cases h
    exact ⟨need_eq_ok.1 hheld, Nat.pos_of_ne_zero (refuse_eq_ok.1 hzero)⟩
  · rintro ⟨hheld, hpos⟩
    exact ⟨number, need_eq_ok.2 hheld, Except.bind_eq_ok.2 ⟨(), refuse_eq_ok.2 hpos.ne', rfl⟩⟩

def Proof.key (env : Env) (proof : Proof) : Key := env.sha256 proof.resource

def shown (env : Env) (moment : Moment) : Authority → Except String (List Proof)
  | .absent => .ok []
  | .malformed => .error "invalid_destination_authority"
  | .proofs rows => do
      refuse (rows = []) "invalid_destination_authority"
      refuse (rows.any fun row => row.token = 0 ∨ row.expires ≤ 0 ∨ row.resource = [] ∨ row.run = [] ∨ row.attempt = [])
        "invalid_destination_authority"
      refuse (¬(rows.map (·.key env)).Nodup) "invalid_destination_authority"
      refuse (rows.any fun row => row.expires ≤ moment.began) "expired_destination_authority"
      .ok rows

def Proof.Stale (proof held : Proof) : Prop :=
  held.resource ≠ proof.resource ∨ proof.token < held.token ∨
    held.token = proof.token ∧ (held.run ≠ proof.run ∨ held.attempt ≠ proof.attempt)

instance (proof held : Proof) : Decidable (proof.Stale held) := by unfold Proof.Stale; infer_instance

def authorityStart (env : Env) (moment : Moment) (authority : Authority) (s : State) : Except String State := do
  let rows ← shown env moment authority
  refuse (rows.any fun row => (s.authority.get? (row.key env)).any fun held => row.Stale held) "stale_destination_authority"
  .ok { s with authority := s.authority.extend (rows.map fun row => (row.key env, row)) }

def authorityFinish (env : Env) (moment : Moment) (authority : Authority) (s : State) : Except String Unit :=
  match authority with
  | .proofs rows =>
      refuse (rows.any fun row => ¬((s.authority.get? (row.key env)).any fun held => held = row ∧ moment.ended < held.expires))
        "destination_authority_expired_before_save"
  | _ => .ok ()

theorem authorityStart_eq_ok {env : Env} {moment : Moment} {authority : Authority} {s next : State}
    (h : authorityStart env moment authority s = .ok next) : ∃ held, next = { s with authority := held } := by
  obtain ⟨rows, _, h⟩ := Except.bind_eq_ok.1 h
  obtain ⟨_, _, h⟩ := Except.bind_eq_ok.1 h
  exact ⟨_, (Except.ok.inj h).symm⟩

/-! ### Leases and proposals

A worker leases the scope it admits batches to, under a fence that grows with each lease. What it prepared is recorded as a proposal: a body with the intent it was prepared as, once for each body, which is then applied, superseded or rejected.
-/

structure ClaimWire where
  scope : Option Bytes
  owner : Option Bytes
  seconds : Option Nat
  authority : Authority := .absent

/-- A lease of a number of seconds, from a time in microseconds. -/
def leaseEnd (moment : Moment) (seconds : Nat) : Int := moment.began + seconds * 1000000

def leaseSeconds (value : Option Nat) : Except String Nat := do
  let seconds ← positive value
  refuse (3600 < seconds) "invalid_lease_duration"
  .ok seconds

structure Leased where
  fence : Nat
  expires : Int
  generation : Nat
  deriving DecidableEq

/-- A routine that checks destination authority from protocol 6 on. -/
def authorityFrom (protocol : Nat) (authority : Authority) : Authority := if 6 ≤ protocol then authority else .absent

def claim (env : Env) (protocol : Nat) (moment : Moment) (wire : ClaimWire) (s : State) : Except String (Leased × State) := do
  let s ← authorityStart env moment (authorityFrom protocol wire.authority) s
  let scope ← need wire.scope "invalid_scope"
  let owner ← need (wire.owner.map env.sha256) "invalid_scope"
  let seconds ← leaseSeconds wire.seconds
  let held := s.leases.get? (env.sha256 scope)
  refuse (held.any fun lease => lease.scope ≠ scope) "scope_digest_collision"
  refuse (held.any fun lease => lease.owner ≠ owner ∧ moment.began < lease.expires) "scope_already_leased"
  let fence := (held.elim 0 Lease.fence) + 1
  let next := { s with leases := s.leases.insert (env.sha256 scope) ⟨scope, owner, fence, leaseEnd moment seconds⟩ }
  authorityFinish env moment (authorityFrom protocol wire.authority) next
  .ok (⟨fence, leaseEnd moment seconds, s.generation⟩, next)

def isPrepared (protocol : Nat) (version : Option String) : Bool :=
  version = some "5" ∨ 6 ≤ protocol ∧ version = some "6"

def pinsApproved (env : Env) (moment : Moment) (allowEmpty : Bool) (raw : Option Bytes) : Bool :=
  match raw.bind env.pins with
  | none => false
  | some pins => (allowEmpty ∨ pins ≠ []) ∧ pins.all fun pin => pin.2.any fun value => moment.approved pin.1 value

def approvedCommandPins (env : Env) (moment : Moment) (pins : Option Bytes) (intent : Intent) : Except String Unit := do
  refuse (pinsApproved env moment false pins = false) "unregistered_frozen_pins"
  refuse (pinsApproved env moment true intent.requiredPins = false) "unregistered_frozen_pins"

/-- An event of a proposal is kept once for each observer of it. -/
def proposalEvent (env : Env) (moment : Moment) (proposal : Key) (observer : Bytes) (event : Event) (batch : Option Key)
    (s : State) : State :=
  if s.events.contains (proposal, env.sha256 observer, event) then s
  else { s with events := s.events.insert (proposal, env.sha256 observer, event) ⟨observer, batch, moment.began⟩ }

/-- What is recorded: a body, whether it is ready, the intent it was prepared as, its batch and who observed it. -/
structure Recording where
  body : Option Bytes
  ready : Option Bool
  intent : Option Bytes
  batch : Option Bytes
  run : Option Bytes

def intentOf (env : Env) (intent : Option Bytes) : Intent := intent.elim {} env.intent

def Recording.row (env : Env) (generation : Nat) (body batch : Bytes) (ready : Bool) (intent : Option Bytes) : Proposal where
  batchKey := env.sha256 batch
  body := body
  intent := if ready then intent else none
  intentHash := if ready then intent.map env.sha256 else none
  observed := generation
  ready := ready
  state := if ready then .ready else .rejected

def Proposal.Same (kept row : Proposal) : Prop :=
  kept.body = row.body ∧ kept.batchKey = row.batchKey ∧ kept.intentHash.getD "" = row.intentHash.getD "" ∧
    kept.intent = row.intent ∧ kept.ready = row.ready

instance (kept row : Proposal) : Decidable (kept.Same row) := by unfold Proposal.Same; infer_instance

/-- Records a proposal without changing the business generation. -/
def recordProposalLines (env : Env) (protocol : Nat) (moment : Moment) (recording : Recording) (s : State) :
    Except String (Key × State) := do
  let body ← need recording.body "invalid_proposal"
  let ready ← need recording.ready "invalid_proposal"
  let batch ← need recording.batch "invalid_proposal"
  let run ← need recording.run "invalid_proposal"
  refuse (body = [] ∨ run = []) "invalid_proposal"
  let intent := intentOf env recording.intent
  refuse (ready ∧ (isPrepared protocol intent.version = false ∨ intent.batch ≠ some batch)) "invalid_proposal_intent"
  (if ready = true then approvedCommandPins env moment intent.pins intent else .ok () : Except String Unit)
  let row := Recording.row env s.generation body batch ready recording.intent
  refuse ((s.proposals.get? (env.sha256 body)).any fun kept => ¬kept.Same row) "proposal_content_collision"
  let next := if s.proposals.contains (env.sha256 body) then s
    else { s with proposals := s.proposals.insert (env.sha256 body) row }
  .ok (env.sha256 body, proposalEvent env moment (env.sha256 body) run .observed none
    (proposalEvent env moment (env.sha256 body) run (if ready then .ready else .rejected) none next))

structure RecordWire where
  batch : Option Bytes
  observer : Option Bytes
  intent : Option Bytes
  body : Option Bytes
  /-- The outcome, where it is one of the two. -/
  ready : Option Bool
  expectedGeneration : Option Nat
  authority : Authority := .absent

def recordProposal (env : Env) (protocol : Nat) (moment : Moment) (wire : RecordWire) (s : State) :
    Except String (Key × State) := do
  let s ← authorityStart env moment (authorityFrom protocol wire.authority) s
  let expected ← need wire.expectedGeneration "invalid_counter"
  refuse (wire.ready = some true ∧ s.generation ≠ expected) "stale_generation"
  let (key, next) ← recordProposalLines env protocol moment ⟨wire.body, wire.ready, wire.intent, wire.batch, wire.observer⟩ s
  authorityFinish env moment (authorityFrom protocol wire.authority) next
  .ok (key, next)

structure SupersedeWire where
  proposal : Key
  observer : Option Bytes
  authority : Authority := .absent

def supersede (row : Proposal) : Proposal := { row with state := .superseded }

def supersedeProposal (env : Env) (protocol : Nat) (moment : Moment) (wire : SupersedeWire) (s : State) :
    Except String (Nat × State) := do
  let s ← authorityStart env moment (authorityFrom protocol wire.authority) s
  let run ← need wire.observer "invalid_proposal"
  let row ← need (s.proposals.get? wire.proposal) "invalid_proposal"
  refuse (run = []) "invalid_proposal"
  let next := if row.state = .ready then
      { proposalEvent env moment wire.proposal run .superseded none s with
        proposals := s.proposals.insert wire.proposal (supersede row) }
    else s
  authorityFinish env moment (authorityFrom protocol wire.authority) next
  .ok (s.generation, next)

end EdgarPlatform.Admission
