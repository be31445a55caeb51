import EdgarPlatform.Admission.Apply

/-!
# What a call changes

Most calls leave what is admitted and what is published as it was. An accepted apply of a new batch adds the batch, its versions, its checkpoint and its publications, and applies one proposal. The calls on the outbox each write over one publication.
-/

namespace EdgarPlatform.Admission

/-- What was admitted. -/
structure Ledger where
  generation : Nat
  batches : IndexMap Key Batch
  checkpoints : IndexMap Key Nat
  history : List Version
  current : IndexMap (Key × Key) Version

def State.ledger (s : State) : Ledger := ⟨s.generation, s.batches, s.checkpoints, s.history, s.current⟩

/-- The batch and the intent of a proposal, where it is applied. -/
def State.applied (s : State) (key : Key) : Option (Key × Option Bytes) :=
  (s.proposals.get? key).bind fun row => if row.state = .applied then some (row.batchKey, row.intent) else none

/-- Nothing that is admitted, published or applied changes. -/
structure Quiet (s next : State) : Prop where
  ledger : next.ledger = s.ledger
  outbox : next.outbox = s.outbox
  applied : next.applied = s.applied

theorem Quiet.refl (s : State) : Quiet s s := ⟨rfl, rfl, rfl⟩

theorem Quiet.trans {s t u : State} (h : Quiet s t) (h' : Quiet t u) : Quiet s u :=
  ⟨h'.ledger.trans h.ledger, h'.outbox.trans h.outbox, h'.applied.trans h.applied⟩

theorem Quiet.of_same {s next : State} (hledger : next.ledger = s.ledger) (houtbox : next.outbox = s.outbox)
    (hproposals : next.proposals = s.proposals) : Quiet s next := by
  refine ⟨hledger, houtbox, ?_⟩
  funext key
  rw [State.applied, State.applied, hproposals]

variable {env : Env} {protocol : Nat} {moment : Moment} {s next : State}

theorem authorityStart_quiet {authority : Authority} (h : authorityStart env moment authority s = .ok next) : Quiet s next := by
  obtain ⟨held, rfl⟩ := authorityStart_eq_ok h
  exact .of_same rfl rfl rfl

theorem proposalEvent_quiet (proposal : Key) (observer : Bytes) (event : Event) (batch : Option Key) (s : State) :
    Quiet s (proposalEvent env moment proposal observer event batch s) := by
  rw [proposalEvent]
  split_ifs
  · exact .refl s
  · exact .of_same rfl rfl rfl

theorem beginRun_quiet (request : Request) (s : State) : Quiet s (beginRun env request s) := by
  rw [beginRun]
  split_ifs
  · exact .refl s
  · exact .of_same rfl rfl rfl

theorem applied_insert (s : State) (key other : Key) (row : Proposal) :
    State.applied { s with proposals := s.proposals.insert key row } other =
      if other = key then (if row.state = .applied then some (row.batchKey, row.intent) else none) else s.applied other := by
  rw [State.applied, State.applied, IndexMap.get?_insert]
  split_ifs <;> simp [*]

theorem recordProposalLines_quiet {recording : Recording} {key : Key}
    (h : recordProposalLines env protocol moment recording s = .ok (key, next)) : Quiet s next := by
  rw [recordProposalLines] at h
  obtain ⟨body, _, h⟩ := Except.bind_eq_ok.1 h
  obtain ⟨ready, _, h⟩ := Except.bind_eq_ok.1 h
  obtain ⟨batch, _, h⟩ := Except.bind_eq_ok.1 h
  obtain ⟨run, _, h⟩ := Except.bind_eq_ok.1 h
  obtain ⟨_, _, h⟩ := Except.bind_eq_ok.1 h
  obtain ⟨_, _, h⟩ := Except.bind_eq_ok.1 h
  obtain ⟨_, _, h⟩ := Except.bind_eq_ok.1 h
  obtain ⟨_, _, h⟩ := Except.bind_eq_ok.1 h
  obtain ⟨rfl, rfl⟩ := Prod.mk.inj (Except.ok.inj h)
  refine .trans (.trans ?_ (proposalEvent_quiet _ _ _ _ _)) (proposalEvent_quiet _ _ _ _ _)
  by_cases hheld : s.proposals.contains (env.sha256 body) = true
  · rw [if_pos hheld]
    exact .refl s
  · rw [if_neg hheld]
    refine ⟨rfl, rfl, ?_⟩
    funext other
    rw [applied_insert]
    split_ifs with hother happlied
    · -- A recorded proposal is ready or rejected.
      simp only [Recording.row] at happlied
      cases ready <;> simp at happlied
    · rw [hother, State.applied]
      rw [IndexMap.contains, Option.not_isSome_iff_eq_none] at hheld
      rw [hheld]
      rfl
    · rfl

theorem recordProposal_quiet {wire : RecordWire} {key : Key} (h : recordProposal env protocol moment wire s = .ok (key, next)) :
    Quiet s next := by
  obtain ⟨mid, hmid, h⟩ := Except.bind_eq_ok.1 h
  obtain ⟨_, _, h⟩ := Except.bind_eq_ok.1 h
  obtain ⟨_, _, h⟩ := Except.bind_eq_ok.1 h
  obtain ⟨⟨recorded, last⟩, hrecorded, h⟩ := Except.bind_eq_ok.1 h
  obtain ⟨_, _, h⟩ := Except.bind_eq_ok.1 h
  obtain ⟨rfl, rfl⟩ := Prod.mk.inj (Except.ok.inj h)
  exact (authorityStart_quiet hmid).trans (recordProposalLines_quiet hrecorded)

theorem supersedeProposal_quiet {wire : SupersedeWire} {generation : Nat}
    (h : supersedeProposal env protocol moment wire s = .ok (generation, next)) : Quiet s next := by
  obtain ⟨mid, hmid, h⟩ := Except.bind_eq_ok.1 h
  obtain ⟨run, _, h⟩ := Except.bind_eq_ok.1 h
  obtain ⟨row, hrow, h⟩ := Except.bind_eq_ok.1 h
  obtain ⟨_, _, h⟩ := Except.bind_eq_ok.1 h
  obtain ⟨_, _, h⟩ := Except.bind_eq_ok.1 h
  obtain ⟨_, rfl⟩ := Prod.mk.inj (Except.ok.inj h)
  refine (authorityStart_quiet hmid).trans ?_
  by_cases hready : row.state = .ready
  · rw [if_pos hready]
    have hevent : Quiet mid (proposalEvent env moment wire.proposal run .superseded none mid) := proposalEvent_quiet _ _ _ _ mid
    refine ⟨hevent.ledger, hevent.outbox, ?_⟩
    funext other
    have hinsert := applied_insert mid wire.proposal other (supersede row)
    rw [State.applied] at hinsert ⊢
    rw [hinsert]
    by_cases hother : other = wire.proposal
    · rw [if_pos hother, hother, State.applied, need_eq_ok.1 hrow]
      simp [supersede, hready]
    · rw [if_neg hother]
  · rw [if_neg hready]
    exact .refl mid

theorem claim_quiet {wire : ClaimWire} {leased : Leased} (h : claim env protocol moment wire s = .ok (leased, next)) :
    Quiet s next := by
  obtain ⟨mid, hmid, h⟩ := Except.bind_eq_ok.1 h
  obtain ⟨_, _, h⟩ := Except.bind_eq_ok.1 h
  obtain ⟨_, _, h⟩ := Except.bind_eq_ok.1 h
  obtain ⟨_, _, h⟩ := Except.bind_eq_ok.1 h
  obtain ⟨_, _, h⟩ := Except.bind_eq_ok.1 h
  obtain ⟨_, _, h⟩ := Except.bind_eq_ok.1 h
  obtain ⟨_, _, h⟩ := Except.bind_eq_ok.1 h
  obtain ⟨_, rfl⟩ := Prod.mk.inj (Except.ok.inj h)
  exact (authorityStart_quiet hmid).trans (.of_same rfl rfl rfl)

variable {request : Request} {wire : ApplyWire}

theorem repeatBatch_quiet {batch : Batch}
    (h : repeatBatch env protocol moment wire request batch s = .ok next) : Quiet s next := by
  rw [repeatBatch] at h
  obtain ⟨_, _, h⟩ := Except.bind_eq_ok.1 h
  obtain ⟨_, _, h⟩ := Except.bind_eq_ok.1 h
  by_cases hprepared : isPrepared protocol (some request.version) = true
  · rw [if_pos hprepared] at h
    obtain ⟨_, _, h⟩ := Except.bind_eq_ok.1 h
    obtain ⟨_, _, h⟩ := Except.bind_eq_ok.1 h
    obtain ⟨proposal, _, h⟩ := Except.bind_eq_ok.1 h
    rw [← Except.ok.inj h]
    exact (beginRun_quiet request s).trans (proposalEvent_quiet _ _ _ _ _)
  · rw [if_neg hprepared] at h
    rw [← Except.ok.inj h]
    exact .refl s

/-- One publication is written over, and nothing else that matters. -/
structure Writes (s next : State) (key : Key × Key) (row written : Publication) : Prop where
  held : s.outbox.get? key = some row
  outbox : next.outbox = s.outbox.insert key written
  ledger : next.ledger = s.ledger
  applied : next.applied = s.applied

def Publication.claimed (row : Publication) (owner : Option Key) (expires : Int) : Publication :=
  { row with owner := owner, fence := row.fence + 1, expires := some expires }

def Publication.acknowledged (row : Publication) : Publication := { row with verified := true }

def Publication.released (row : Publication) : Publication := { row with owner := none, expires := none }

theorem readPublication_eq_ok {batch consumer : Option Bytes} {key : Key × Key} {row : Publication}
    (h : readPublication env batch consumer s = .ok (key, row)) :
    publicationKey env batch consumer = some key ∧ s.outbox.get? key = some row := by
  obtain ⟨read, hread, h⟩ := Except.bind_eq_ok.1 h
  obtain ⟨held, hheld, h⟩ := Except.bind_eq_ok.1 h
  obtain ⟨rfl, rfl⟩ := Prod.mk.inj (Except.ok.inj h)
  exact ⟨need_eq_ok.1 hread, need_eq_ok.1 hheld⟩

theorem retainContext_eq_ok {key : Key × Key} {context : Option Bytes} (h : retainContext key context s = .ok next) :
    ∃ contexts, next = { s with contexts := contexts } := by
  obtain ⟨body, _, h⟩ := Except.bind_eq_ok.1 h
  obtain ⟨_, _, h⟩ := Except.bind_eq_ok.1 h
  by_cases hheld : s.contexts.contains key = true
  · rw [if_pos hheld] at h
    exact ⟨s.contexts, (Except.ok.inj h).symm⟩
  · rw [if_neg hheld] at h
    exact ⟨_, (Except.ok.inj h).symm⟩

theorem claimOutbox_cases {wire : ClaimOutboxWire} {answer : Publication}
    (h : claimOutbox env protocol moment wire s = .ok (answer, next)) :
    (Quiet s next ∧ answer.verified = true) ∨ ∃ key row expires, publicationKey env wire.batch wire.consumer = some key ∧
      Writes s next key row (row.claimed (wire.owner.map env.sha256) expires) ∧
      answer = row.claimed (wire.owner.map env.sha256) expires ∧ row.verified = false ∧
      (6 ≤ protocol → earlierPending s key = false) := by
  obtain ⟨mid, hmid, h⟩ := Except.bind_eq_ok.1 h
  obtain ⟨held, rfl⟩ := authorityStart_eq_ok hmid
  obtain ⟨⟨key, row⟩, hread, h⟩ := Except.bind_eq_ok.1 h
  obtain ⟨hkey, hrow⟩ := readPublication_eq_ok hread
  obtain ⟨seconds, _, h⟩ := Except.bind_eq_ok.1 h
  by_cases hverified : row.verified = true
  · left
    dsimp only at h
    rw [if_pos hverified] at h
    obtain ⟨_, _, h⟩ := Except.bind_eq_ok.1 h
    obtain ⟨rfl, rfl⟩ := Prod.mk.inj (Except.ok.inj h)
    exact ⟨.of_same rfl rfl rfl, hverified⟩
  · right
    dsimp only at h
    rw [if_neg hverified] at h
    obtain ⟨_, hpending, h⟩ := Except.bind_eq_ok.1 h
    obtain ⟨_, _, h⟩ := Except.bind_eq_ok.1 h
    obtain ⟨last, hlast, h⟩ := Except.bind_eq_ok.1 h
    obtain ⟨_, _, h⟩ := Except.bind_eq_ok.1 h
    obtain ⟨rfl, rfl⟩ := Prod.mk.inj (Except.ok.inj h)
    have hcontexts : ∃ contexts, last = { { s with authority := held } with contexts := contexts } := by
      by_cases hprotocol : 6 ≤ protocol
      · rw [if_pos hprotocol] at hlast
        exact retainContext_eq_ok hlast
      · rw [if_neg hprotocol] at hlast
        exact ⟨s.contexts, (Except.ok.inj hlast).symm⟩
    obtain ⟨contexts, rfl⟩ := hcontexts
    refine ⟨key, row, leaseEnd moment seconds, hkey, ⟨hrow, rfl, rfl, rfl⟩, rfl, by simpa using hverified, fun hprotocol => ?_⟩
    have hno := refuse_eq_ok.1 hpending
    by_contra hyes
    exact hno ⟨hprotocol, Bool.of_not_eq_false hyes⟩

/-- The worker that holds the latest claim of a publication, named by its fence. -/
def Holds (env : Env) (wire : OutboxWire) (row : Publication) : Prop :=
  row.owner.isSome ∧ row.owner = wire.owner.map env.sha256 ∧ wire.fence = some row.fence

theorem ackOutbox_cases {wire : OutboxWire} {u : Unit} (h : ackOutbox env protocol moment wire s = .ok (u, next)) :
    ∃ key row, publicationKey env wire.batch wire.consumer = some key ∧ s.outbox.get? key = some row ∧ Holds env wire row ∧
      wire.receipt = some row.payloadHash ∧
      (Quiet s next ∧ row.verified = true ∨
        Writes s next key row row.acknowledged ∧ row.verified = false ∧ ∀ expires, row.expires = some expires → moment.began < expires) := by
  obtain ⟨mid, hmid, h⟩ := Except.bind_eq_ok.1 h
  obtain ⟨held, rfl⟩ := authorityStart_eq_ok hmid
  obtain ⟨⟨key, row⟩, hread, h⟩ := Except.bind_eq_ok.1 h
  obtain ⟨hkey, hrow⟩ := readPublication_eq_ok hread
  obtain ⟨fence, hfence, h⟩ := Except.bind_eq_ok.1 h
  obtain ⟨_, hholds, h⟩ := Except.bind_eq_ok.1 h
  obtain ⟨howner, hsame, hown, hreceipt⟩ := not_not.1 (refuse_eq_ok.1 hholds)
  refine ⟨key, row, hkey, hrow, ⟨howner, hsame, hown ▸ (positive_eq_ok.1 hfence).1⟩, hreceipt.symm, ?_⟩
  by_cases hverified : row.verified = true
  · left
    dsimp only at h
    rw [if_pos hverified] at h
    obtain ⟨_, _, h⟩ := Except.bind_eq_ok.1 h
    obtain ⟨_, rfl⟩ := Prod.mk.inj (Except.ok.inj h)
    exact ⟨.of_same rfl rfl rfl, hverified⟩
  · right
    dsimp only at h
    rw [if_neg hverified] at h
    obtain ⟨_, hlapsed, h⟩ := Except.bind_eq_ok.1 h
    obtain ⟨_, _, h⟩ := Except.bind_eq_ok.1 h
    obtain ⟨_, rfl⟩ := Prod.mk.inj (Except.ok.inj h)
    refine ⟨⟨hrow, rfl, rfl, rfl⟩, by simpa using hverified, fun expires hexpires => ?_⟩
    have hno := refuse_eq_ok.1 hlapsed
    rw [hexpires] at hno
    simpa using hno

theorem releaseOutbox_cases {wire : OutboxWire} {u : Unit} (h : releaseOutbox env protocol moment wire s = .ok (u, next)) :
    ∃ key row, publicationKey env wire.batch wire.consumer = some key ∧ Holds env wire row ∧ row.verified = false ∧
      Writes s next key row row.released := by
  obtain ⟨mid, hmid, h⟩ := Except.bind_eq_ok.1 h
  obtain ⟨held, rfl⟩ := authorityStart_eq_ok hmid
  obtain ⟨⟨key, row⟩, hread, h⟩ := Except.bind_eq_ok.1 h
  obtain ⟨hkey, hrow⟩ := readPublication_eq_ok hread
  obtain ⟨fence, hfence, h⟩ := Except.bind_eq_ok.1 h
  obtain ⟨_, hholds, h⟩ := Except.bind_eq_ok.1 h
  obtain ⟨howner, hsame, hown, hverified, _⟩ := not_not.1 (refuse_eq_ok.1 hholds)
  obtain ⟨_, _, h⟩ := Except.bind_eq_ok.1 h
  obtain ⟨_, rfl⟩ := Prod.mk.inj (Except.ok.inj h)
  exact ⟨key, row, hkey, ⟨howner, hsame, hown ▸ (positive_eq_ok.1 hfence).1⟩, hverified, ⟨hrow, rfl, rfl, rfl⟩⟩

/-- What an admitted batch adds. -/
structure Admits (env : Env) (request : Request) (objects : List Object) (proposal : Key) (s next : State) : Prop where
  text : env.intent request.text = request.intent
  batch : request.intent.batch = some request.batch
  fresh : s.batches.get? (request.batchKey env) = none
  position : position (request.scopeKey env) s < request.checkpoint
  consumers : (request.intent.consumers.map (Consumer.key env)).Nodup
  keys : (objects.map (Object.key env)).Nodup
  unmixed : ∀ object ∈ objects, ∀ held, s.current.get? (object.key env) = some held → held.type = object.type ∧ held.id = object.id
  generation : next.generation = s.generation + 1
  batches : ∃ owner, next.batches =
    s.batches.insert (request.batchKey env) (batchRow env request owner (isChange env request objects s) s)
  checkpoints : next.checkpoints = s.checkpoints.insert (request.scopeKey env) request.checkpoint
  history : next.history = s.history ++ newVersions env request objects s
  current : next.current = (newVersions env request objects s).foldl writeCurrent s.current
  outbox : ∃ publications, (if isChange env request objects s = true then request.intent.consumers.mapM (publicationRow env request)
      else .ok []) = .ok publications ∧ next.outbox = s.outbox.extend publications
  proposed : s.applied proposal = none
  applied : ∀ key, next.applied key = if key = proposal then some (request.batchKey env, some request.text) else s.applied key

theorem lookupEntry_map_key {κ α β : Type} [DecidableEq κ] (f : κ → α → β) (key : κ) (entries : List (κ × α)) :
    IndexMap.lookupEntry key (entries.map fun entry => (entry.1, f entry.1 entry.2)) =
      (IndexMap.lookupEntry key entries).map (f key) := by
  induction entries with
  | nil => rfl
  | cons entry rest ih =>
      rw [List.map_cons, IndexMap.lookupEntry, IndexMap.lookupEntry, ih]
      by_cases h : entry.1 = key
      · rw [if_pos h, if_pos h, ← h]
        rfl
      · rw [if_neg h, if_neg h]

theorem get?_settleProposals (batchKey proposal key : Key) (proposals : IndexMap Key Proposal) :
    (settleProposals batchKey proposal proposals).get? key = (proposals.get? key).map (settleRow batchKey proposal key) :=
  lookupEntry_map_key (settleRow batchKey proposal) key proposals.entries

theorem applyProposal_eq_ok {proposal : Key} (h : applyProposal env moment request proposal s = .ok next) :
    next.ledger = s.ledger ∧ next.outbox = s.outbox ∧
      next.proposals = settleProposals (request.batchKey env) proposal s.proposals := by
  obtain ⟨_, _, h⟩ := Except.bind_eq_ok.1 h
  have hevent : ∀ s : State, (proposalEvent env moment proposal request.run .applied (some (request.batchKey env)) s).proposals =
      s.proposals := by
    intro s
    rw [proposalEvent]
    split_ifs <;> rfl
  have hquiet : Quiet s (proposalEvent env moment proposal request.run .applied (some (request.batchKey env)) s) :=
    proposalEvent_quiet _ _ _ _ s
  rw [← Except.ok.inj h]
  exact ⟨hquiet.ledger, hquiet.outbox, by rw [hevent]⟩

theorem applied_settle {batchKey proposal : Key} {row : Proposal} (hrow : s.proposals.get? proposal = some row)
    (hproposals : next.proposals = settleProposals batchKey proposal s.proposals) (key : Key) :
    next.applied key = if key = proposal then some (row.batchKey, row.intent) else s.applied key := by
  rw [State.applied, hproposals, get?_settleProposals]
  by_cases hkey : key = proposal
  · rw [if_pos hkey, hkey, hrow]
    simp [settleRow]
  · rw [if_neg hkey, State.applied]
    cases hheld : s.proposals.get? key with
    | none => rfl
    | some held =>
        rw [Option.map_some, Option.bind_some, Option.bind_some, settleRow, if_neg hkey]
        by_cases hlost : held.batchKey = batchKey ∧ held.state = .ready
        · rw [if_pos hlost]
          simp [supersede, hlost.2]
        · rw [if_neg hlost]

theorem readRequest_eq_ok {checksLease : Bool}
    (h : readRequest env protocol moment checksLease wire s = .ok request) :
    wire.intent = some request.text ∧ env.intent request.text = request.intent ∧ request.intent.batch = some request.batch := by
  rw [readRequest] at h
  obtain ⟨text, htext, h⟩ := Except.bind_eq_ok.1 h
  obtain ⟨version, _, h⟩ := Except.bind_eq_ok.1 h
  obtain ⟨_, _, h⟩ := Except.bind_eq_ok.1 h
  obtain ⟨fence, _, h⟩ := Except.bind_eq_ok.1 h
  obtain ⟨expectedGeneration, _, h⟩ := Except.bind_eq_ok.1 h
  obtain ⟨expectedCheckpoint, _, h⟩ := Except.bind_eq_ok.1 h
  obtain ⟨checkpoint, _, h⟩ := Except.bind_eq_ok.1 h
  obtain ⟨_, _, h⟩ := Except.bind_eq_ok.1 h
  obtain ⟨_, _, h⟩ := Except.bind_eq_ok.1 h
  obtain ⟨scope, _, h⟩ := Except.bind_eq_ok.1 h
  obtain ⟨run, _, h⟩ := Except.bind_eq_ok.1 h
  obtain ⟨batch, hbatch, h⟩ := Except.bind_eq_ok.1 h
  obtain ⟨_, _, h⟩ := Except.bind_eq_ok.1 h
  obtain ⟨pins, _, h⟩ := Except.bind_eq_ok.1 h
  obtain ⟨payload, _, h⟩ := Except.bind_eq_ok.1 h
  obtain ⟨assessment, _, h⟩ := Except.bind_eq_ok.1 h
  rw [← Except.ok.inj h]
  exact ⟨need_eq_ok.1 htext, rfl, need_eq_ok.1 hbatch⟩

theorem chooseProposal_quiet {key : Key}
    (h : chooseProposal env protocol moment wire request s = .ok (key, next)) : Quiet s next := by
  rw [chooseProposal] at h
  cases hbody : wire.proposalBody with
  | some body =>
      rw [hbody] at h
      exact recordProposalLines_quiet h
  | none =>
      rw [hbody] at h
      cases hkey : wire.proposalKey with
      | none =>
          rw [hkey] at h
          cases h
      | some held =>
          rw [hkey] at h
          obtain ⟨_, rfl⟩ := Prod.mk.inj (Except.ok.inj h)
          exact .refl s

theorem checkFresh_eq_ok {key : Key}
    (h : checkFresh env protocol moment wire request s = .ok (key, next)) :
    Quiet s next ∧ position (request.scopeKey env) s < request.checkpoint ∧
      (request.intent.consumers.map (Consumer.key env)).Nodup ∧
      ∃ row, next.proposals.get? key = some row ∧ row.batchKey = request.batchKey env ∧ row.state = .ready ∧
        row.intent = some request.text := by
  rw [checkFresh] at h
  obtain ⟨_, _, h⟩ := Except.bind_eq_ok.1 h
  obtain ⟨_, hposition, h⟩ := Except.bind_eq_ok.1 h
  obtain ⟨_, _, h⟩ := Except.bind_eq_ok.1 h
  obtain ⟨_, hconsumers, h⟩ := Except.bind_eq_ok.1 h
  obtain ⟨_, _, h⟩ := Except.bind_eq_ok.1 h
  obtain ⟨_, _, h⟩ := Except.bind_eq_ok.1 h
  obtain ⟨_, _, h⟩ := Except.bind_eq_ok.1 h
  obtain ⟨_, _, h⟩ := Except.bind_eq_ok.1 h
  obtain ⟨⟨chosen, mid⟩, hchosen, h⟩ := Except.bind_eq_ok.1 h
  obtain ⟨_, hcheck, h⟩ := Except.bind_eq_ok.1 h
  obtain ⟨rfl, rfl⟩ := Prod.mk.inj (Except.ok.inj h)
  obtain ⟨row, hrow, hcheck⟩ := Except.bind_eq_ok.1 hcheck
  obtain ⟨_, hready, hcheck⟩ := Except.bind_eq_ok.1 hcheck
  obtain ⟨_, hintent, _⟩ := Except.bind_eq_ok.1 hcheck
  have hposition := refuse_eq_ok.1 hposition
  have hconsumers := refuse_eq_ok.1 hconsumers
  have hready := refuse_eq_ok.1 hready
  have hintent := refuse_eq_ok.1 hintent
  simp only [not_or, not_not] at hready hintent
  refine ⟨chooseProposal_quiet hchosen, ?_, ?_, row, need_eq_ok.1 hrow, hready.1, hready.2.1, hintent.2⟩
  · omega
  · by_contra hmany
    exact hconsumers (by simp [consumersRefused, hmany])

theorem checkRows_eq_ok {objects : List Object} (h : checkRows env request s = .ok objects) :
    (objects.map (Object.key env)).Nodup ∧
      ∀ object ∈ objects, ∀ held, s.current.get? (object.key env) = some held → held.type = object.type ∧ held.id = object.id := by
  obtain ⟨_, _, h⟩ := Except.bind_eq_ok.1 h
  obtain ⟨_, hkeys, h⟩ := Except.bind_eq_ok.1 h
  obtain ⟨_, _, h⟩ := Except.bind_eq_ok.1 h
  obtain ⟨read, hread, h⟩ := Except.bind_eq_ok.1 h
  obtain ⟨_, hcollides, h⟩ := Except.bind_eq_ok.1 h
  obtain ⟨_, _, h⟩ := Except.bind_eq_ok.1 h
  obtain ⟨_, _, h⟩ := Except.bind_eq_ok.1 h
  cases h
  have hcollides := refuse_eq_ok.1 hcollides
  have hkeys := not_not.1 (refuse_eq_ok.1 hkeys)
  constructor
  · have hsame : request.intent.objects.map (Row.keys env) =
        (objects.map (Object.key env)).map fun key => (some key.1, some key.2) := by
      rw [List.map_map]
      refine (Runs.mapM_map_congr (fun object : Object => (some (object.key env).1, some (object.key env).2)) (Row.keys env) ?_
        hread).symm
      intro row object hobject
      obtain ⟨complete, hcomplete, hobject⟩ := Except.bind_eq_ok.1 hobject
      obtain ⟨_, _, hobject⟩ := Except.bind_eq_ok.1 hobject
      cases hobject
      have hcomplete := need_eq_ok.1 hcomplete
      rw [Row.object] at hcomplete
      rw [Row.keys]
      cases htype : row.type <;> cases hid : row.id <;> cases hbody : row.body <;> rw [htype, hid, hbody] at hcomplete <;>
        cases hcomplete
      rfl
    rw [hsame] at hkeys
    exact hkeys.of_map _
  · intro object hobject held hheld
    by_contra hdiffers
    refine hcollides (List.any_eq_true.2 ⟨object, hobject, ?_⟩)
    rw [hheld, collides, Option.any_some]
    simp only [decide_eq_true_eq]
    by_contra hsame
    rw [not_or, not_not, not_not] at hsame
    exact hdiffers hsame

theorem admit_eq_ok {proposal : Key} {objects : List Object}
    (h : admitBatch env moment request proposal objects s = .ok next) :
    (∃ owner publications, (if isChange env request objects s = true then request.intent.consumers.mapM (publicationRow env request)
        else .ok []) = .ok publications ∧
      next.ledger = ⟨s.generation + 1, s.batches.insert (request.batchKey env) (batchRow env request owner (isChange env request objects s) s),
        s.checkpoints.insert (request.scopeKey env) request.checkpoint, s.history ++ newVersions env request objects s,
        (newVersions env request objects s).foldl writeCurrent s.current⟩ ∧
      next.outbox = s.outbox.extend publications) ∧
      next.proposals = settleProposals (request.batchKey env) proposal s.proposals := by
  rw [admitBatch] at h
  obtain ⟨owner, _, h⟩ := Except.bind_eq_ok.1 h
  obtain ⟨evidence, _, h⟩ := Except.bind_eq_ok.1 h
  obtain ⟨publications, hpublications, h⟩ := Except.bind_eq_ok.1 h
  obtain ⟨hledger, houtbox, hproposals⟩ := applyProposal_eq_ok h
  have hrun : (beginRun env request s).proposals = s.proposals := by
    rw [beginRun]
    split_ifs <;> rfl
  exact ⟨⟨owner, publications, hpublications, hledger, houtbox⟩, hproposals.trans (by rw [hrun])⟩

/-- An accepted apply answers for a batch that is held and leaves what is admitted, or admits the batch. -/
theorem applyBatch_cases {checksLease : Bool} {answer : Answer}
    (h : applyBatch env protocol moment checksLease wire s = .ok (answer, next)) :
    ∃ request, wire.intent = some request.text ∧ env.intent request.text = request.intent ∧
      request.intent.batch = some request.batch ∧
      ((∃ batch, s.batches.get? (request.batchKey env) = some batch ∧ answer = batch.answer true ∧ Quiet s next) ∨
        ∃ mid objects proposal, Quiet s mid ∧ Admits env request objects proposal mid next ∧
          answer = ⟨mid.generation + 1, false, isChange env request objects mid, request.checkpoint⟩) := by
  rw [applyBatch] at h
  obtain ⟨request, hrequest, h⟩ := Except.bind_eq_ok.1 h
  obtain ⟨htext, hintent, hbatch⟩ := readRequest_eq_ok hrequest
  obtain ⟨start, hstart, h⟩ := Except.bind_eq_ok.1 h
  have hquiet := authorityStart_quiet hstart
  have hbatches : start.batches = s.batches := congrArg Ledger.batches hquiet.ledger
  refine ⟨request, htext, hintent, hbatch, ?_⟩
  cases hheld : start.batches.get? (request.batchKey env) with
  | some batch =>
      left
      rw [hheld] at h
      obtain ⟨last, hlast, h⟩ := Except.bind_eq_ok.1 h
      obtain ⟨rfl, rfl⟩ := Prod.mk.inj (Except.ok.inj h)
      exact ⟨batch, hbatches ▸ hheld, rfl, hquiet.trans (repeatBatch_quiet hlast)⟩
  | none =>
      right
      rw [hheld] at h
      obtain ⟨⟨proposal, mid⟩, hfresh, h⟩ := Except.bind_eq_ok.1 h
      obtain ⟨hmid, hposition, hconsumers, row, hrow, hrowBatch, hready, hrowIntent⟩ := checkFresh_eq_ok hfresh
      obtain ⟨objects, hobjects, h⟩ := Except.bind_eq_ok.1 h
      obtain ⟨hkeys, hunmixed⟩ := checkRows_eq_ok hobjects
      obtain ⟨last, hlast, h⟩ := Except.bind_eq_ok.1 h
      obtain ⟨_, _, h⟩ := Except.bind_eq_ok.1 h
      obtain ⟨_, _, h⟩ := Except.bind_eq_ok.1 h
      obtain ⟨rfl, rfl⟩ := Prod.mk.inj (Except.ok.inj h)
      obtain ⟨⟨owner, publications, hpublications, hledger, houtbox⟩, hproposals⟩ := admit_eq_ok hlast
      have hgeneration : last.generation = mid.generation + 1 := congrArg Ledger.generation hledger
      refine ⟨mid, objects, proposal, hquiet.trans hmid, ⟨hintent, hbatch, ?_, ?_, hconsumers, hkeys, hunmixed, hgeneration,
        ⟨owner, congrArg Ledger.batches hledger⟩, congrArg Ledger.checkpoints hledger, congrArg Ledger.history hledger,
        congrArg Ledger.current hledger, ⟨publications, hpublications, houtbox⟩, ?_, ?_⟩, by rw [hgeneration]⟩
      · rw [show mid.batches = start.batches from congrArg Ledger.batches hmid.ledger]
        exact hheld
      · rw [position, show mid.checkpoints = start.checkpoints from congrArg Ledger.checkpoints hmid.ledger]
        exact hposition
      · rw [State.applied, hrow]
        simp [hready]
      · intro key
        rw [applied_settle hrow hproposals, hrowBatch, hrowIntent]

theorem preview_quiet {answer : Answer} (h : preview env protocol moment wire s = .ok (answer, next)) :
    Quiet s next := by
  rw [preview] at h
  cases hresult : applyBatch env protocol moment false wire s with
  | error e =>
      rw [hresult] at h
      cases h
  | ok result =>
      rw [hresult] at h
      cases h
      exact .refl s

theorem replying_eq_ok {α : Type} {reply : α → Reply} {result : Except String (α × State)} {answer : Reply}
    (h : replying reply result = .ok (answer, next)) : ∃ a, result = .ok (a, next) ∧ answer = reply a := by
  cases result with
  | error e => cases h
  | ok answered =>
      cases h
      exact ⟨answered.1, rfl, rfl⟩

/-- One publication is of an earlier batch than another of the same consumer. -/
def Before (s : State) (other key : Key × Key) : Prop :=
  other.2 = key.2 ∧ ∃ generation own, generationOf s other.1 = some generation ∧ generationOf s key.1 = some own ∧ generation < own

def Cleared (s : State) (key : Key × Key) : Prop :=
  ∀ other row, s.outbox.get? other = some row → Before s other key → row.verified = true

theorem cleared_of_not_pending {key : Key × Key} (h : earlierPending s key = false) : Cleared s key := by
  rintro other row hrow ⟨hconsumer, generation, own, hgeneration, hown, hlt⟩
  by_contra hunverified
  rw [earlierPending, List.any_eq_false] at h
  refine h (other, row) (IndexMap.get?_eq_some_iff.1 hrow) ?_
  simp [hconsumer, hunverified, hgeneration, hown, hlt]

/-- A claim that was granted. -/
structure Grant where
  key : Key × Key
  owner : Option Key
  fence : Nat
  expires : Int
  deriving DecidableEq

def granted (env : Env) (protocol : Nat) (s : State) : Call → Option Grant
  | .claimOutbox moment wire =>
      match publicationKey env wire.batch wire.consumer, claimOutbox env protocol moment wire s with
      | some key, .ok (row, _) =>
          if row.verified = true then none else row.expires.map fun expires => ⟨key, row.owner, row.fence, expires⟩
      | _, _ => none
  | _ => none

/-- What an accepted call does to the publications. -/
inductive Publishes (env : Env) (protocol : Nat) (s next : State) (call : Call) : Prop where
  | quiet (hquiet : Quiet s next) (hnone : granted env protocol s call = none)
  | claims (key : Key × Key) (row : Publication) (owner : Option Key) (expires : Int)
      (hgranted : granted env protocol s call = some ⟨key, owner, row.fence + 1, expires⟩)
      (hwrites : Writes s next key row (row.claimed owner expires)) (hunverified : row.verified = false)
      (hcleared : 6 ≤ protocol → Cleared s key)
  | acknowledges (moment : Moment) (wire : OutboxWire) (key : Key × Key) (row : Publication) (hcall : call = .ackOutbox moment wire)
      (hkey : publicationKey env wire.batch wire.consumer = some key) (hholds : Holds env wire row)
      (hreceipt : wire.receipt = some row.payloadHash) (hwrites : Writes s next key row row.acknowledged)
      (hlive : ∀ expires, row.expires = some expires → moment.began < expires)
  | releases (moment : Moment) (wire : OutboxWire) (key : Key × Key) (row : Publication) (hcall : call = .releaseOutbox moment wire)
      (hkey : publicationKey env wire.batch wire.consumer = some key) (hholds : Holds env wire row)
      (hunverified : row.verified = false) (hwrites : Writes s next key row row.released)
  | admits (mid : State) (request : Request) (objects : List Object) (proposal : Key) (hmid : Quiet s mid)
      (hadmits : Admits env request objects proposal mid next) (hnone : granted env protocol s call = none)

theorem perform_publishes {call : Call} {reply : Reply} (h : perform env protocol s call = .ok (reply, next)) :
    Publishes env protocol s next call := by
  cases call with
  | claimOutbox moment wire =>
      obtain ⟨answer, h, _⟩ := replying_eq_ok h
      obtain ⟨hquiet, hverified⟩ | ⟨key, row, expires, hkey, hwrites, rfl, hunverified, hpending⟩ := claimOutbox_cases h
      · refine .quiet hquiet ?_
        rw [granted, h]
        cases publicationKey env wire.batch wire.consumer with
        | none => rfl
        | some key => exact if_pos hverified
      · refine .claims key row (wire.owner.map env.sha256) expires ?_ hwrites hunverified fun hprotocol =>
          cleared_of_not_pending (hpending hprotocol)
        have hno : ¬(row.claimed (wire.owner.map env.sha256) expires).verified = true := by
          show ¬row.verified = true
          rw [hunverified]
          decide
        rw [granted, hkey, h]
        exact if_neg hno
  | ackOutbox moment wire =>
      have h : replying (fun _ => .acknowledged) (ackOutbox env protocol moment wire s) = .ok (reply, next) := h
      obtain ⟨_, h, _⟩ := replying_eq_ok h
      obtain ⟨key, row, hkey, _, hholds, hreceipt, ⟨hquiet, _⟩ | ⟨hwrites, _, hlive⟩⟩ := ackOutbox_cases h
      · exact .quiet hquiet rfl
      · exact .acknowledges moment wire key row rfl hkey hholds hreceipt hwrites hlive
  | releaseOutbox moment wire =>
      have h : replying (fun _ => .released) (releaseOutbox env protocol moment wire s) = .ok (reply, next) := h
      obtain ⟨_, h, _⟩ := replying_eq_ok h
      obtain ⟨key, row, hkey, hholds, hunverified, hwrites⟩ := releaseOutbox_cases h
      exact .releases moment wire key row rfl hkey hholds hunverified hwrites
  | apply moment wire =>
      obtain ⟨answer, h, _⟩ := replying_eq_ok h
      obtain ⟨request, _, _, _, ⟨_, _, _, hquiet⟩ | ⟨mid, objects, proposal, hmid, hadmits, _⟩⟩ := applyBatch_cases h
      · exact .quiet hquiet rfl
      · exact .admits mid request objects proposal hmid hadmits rfl
  | claim moment wire =>
      obtain ⟨leased, h, _⟩ := replying_eq_ok h
      exact .quiet (claim_quiet h) rfl
  | preview moment wire =>
      obtain ⟨answer, h, _⟩ := replying_eq_ok h
      exact .quiet (preview_quiet h) rfl
  | recordProposal moment wire =>
      obtain ⟨key, h, _⟩ := replying_eq_ok h
      exact .quiet (recordProposal_quiet h) rfl
  | supersedeProposal moment wire =>
      obtain ⟨generation, h, _⟩ := replying_eq_ok h
      exact .quiet (supersedeProposal_quiet h) rfl

/-- An accepted call leaves what is admitted and published, writes over one publication, or admits a batch. -/
theorem perform_cases {call : Call} {reply : Reply} (h : perform env protocol s call = .ok (reply, next)) :
    Quiet s next ∨ (∃ key row written, Writes s next key row written) ∨
      ∃ mid request objects proposal, Quiet s mid ∧ Admits env request objects proposal mid next := by
  cases perform_publishes h with
  | quiet hquiet => exact .inl hquiet
  | claims key row _ _ _ hwrites => exact .inr (.inl ⟨key, row, _, hwrites⟩)
  | acknowledges _ _ key row _ _ _ _ hwrites => exact .inr (.inl ⟨key, row, _, hwrites⟩)
  | releases _ _ key row _ _ _ _ hwrites => exact .inr (.inl ⟨key, row, _, hwrites⟩)
  | admits mid request objects proposal hmid hadmits => exact .inr (.inr ⟨mid, request, objects, proposal, hmid, hadmits⟩)

end EdgarPlatform.Admission
