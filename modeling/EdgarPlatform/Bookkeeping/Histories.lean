import EdgarPlatform.Bookkeeping.Engine

/-!
# What later calls cannot take back

Calls come in any order and from anyone. A unit stays what it was listed as, what is verified stays as it was verified, and an event stays what it was recorded as and, once delivered, as it was delivered. Only the compaction of a run takes its units and its events away. No unit is verified by the login that reported it.
-/

namespace EdgarPlatform.Bookkeeping

open Records (Json)

variable {runText : Uuid → String} {db db' later : Store} {request : Request} {answer : Answer}

def IsCompacted (db : Store) (r : Uuid) : Prop := ∃ count t, ledgerOf db r = some (count, some t)

theorem Effect.keeps_compacted (h : Effect db request answer db') {r : Uuid} (hr : IsCompacted db r) : IsCompacted db' r := by
  obtain ⟨count, t, hr⟩ := hr
  obtain ⟨count', hr'⟩ := h.stays_compacted hr
  exact ⟨count', t, hr'⟩

theorem Compacts.compacted_of_mem {dropped : List Uuid} (h : Compacts dropped db db') {r : Uuid} (hr : r ∈ dropped) :
    IsCompacted db' r := by
  obtain ⟨run, summary, t, _, _, _, _, hget⟩ := h.compacted r hr
  exact ⟨run.expectedCount, t, by rw [ledgerOf, hget]; rfl⟩

section Lasting

variable {κ α : Type} [DecidableEq κ]

/-- Every row of a table is there later on, as what may become of it, or its run is compacted. -/
structure Lasting (table : Store → IndexMap κ α) (runOf : κ → α → Uuid) (becomes : α → α → Prop) (db later : Store) : Prop where
  rows : ∀ key x, (table db).get? key = some x →
    (∃ y, (table later).get? key = some y ∧ becomes x y) ∨ IsCompacted later (runOf key x)
  compacted : ∀ r, IsCompacted db r → IsCompacted later r

variable {table : Store → IndexMap κ α} {runOf : κ → α → Uuid} {becomes : α → α → Prop}

theorem Lasting.trans (htrans : ∀ x y z, becomes x y → becomes y z → becomes x z)
    (hrun : ∀ key x y, becomes x y → runOf key y = runOf key x) {mid : Store} (h : Lasting table runOf becomes db mid)
    (h' : Lasting table runOf becomes mid later) : Lasting table runOf becomes db later := by
  refine ⟨fun key x hx => ?_, fun r hr => h'.compacted r (h.compacted r hr)⟩
  obtain ⟨y, hy, hxy⟩ | hgone := h.rows key x hx
  · obtain ⟨z, hz, hyz⟩ | hgone := h'.rows key y hy
    · exact .inl ⟨z, hz, htrans x y z hxy hyz⟩
    · exact .inr (hrun key x y hxy ▸ hgone)
  · exact .inr (h'.compacted _ hgone)

/-- What one call does to the rows of a table, a run does. -/
theorem run_lasting (hrefl : ∀ x, becomes x x) (htrans : ∀ x y z, becomes x y → becomes y z → becomes x z)
    (hrun : ∀ key x y, becomes x y → runOf key y = runOf key x)
    (hstep : ∀ db request answer db', Effect db request answer db' → ∀ key x, (table db).get? key = some x →
      (∃ y, (table db').get? key = some y ∧ becomes x y) ∨ IsCompacted db' (runOf key x))
    (db : Store) (calls : List Request) :
    Lasting table runOf becomes db (Machines.run (perform runText) db calls) := by
  have hnone : ∀ s, Lasting table runOf becomes s s :=
    fun s => ⟨fun key x hx => .inl ⟨x, hx, hrefl x⟩, fun r hr => hr⟩
  have hcall : ∀ s request answer next, True → True → perform runText s request = .ok (answer, next) →
      Lasting table runOf becomes s next := by
    intro s request answer next _ _ hok
    have heffect := perform_effect hok
    exact ⟨hstep s request answer next heffect, fun r hr => heffect.keeps_compacted hr⟩
  exact Machines.run_relates hnone (fun _ _ _ => Lasting.trans htrans hrun) (fun _ _ _ _ _ _ _ => trivial) hcall trivial
    (Machines.meets_true db calls)

end Lasting

variable {u : UnitId} {w w' : WorkItem}

/-- What may become of a unit: its work stays, it is attempted more often, and once verified it does not change. -/
structure WorkItem.Becomes (w later : WorkItem) : Prop where
  unit : later.unit = w.unit
  ordinal : later.ordinal = w.ordinal
  resources : later.resources = w.resources
  attempts : w.attempts ≤ later.attempts
  verified : w.state = .verified → later = w

theorem Moved.becomes (h : Moved db request u w w') : w.Becomes w' := by
  refine ⟨h.unit_same, h.ordinal_same, ?_, ?_, h.verified_same⟩
  · cases h with
    | claimed => rw [claimedWork]; split_ifs <;> rfl
    | _ => rfl
  · cases h with
    | claimed => rw [claimedWork]; split_ifs <;> exact Nat.le_succ _
    | _ => exact Nat.le_refl _

/-- Whatever is called, a unit stays what it was listed as and a verified one as it was verified, until its run is compacted. -/
theorem units_last (runText : Uuid → String) (db : Store) (calls : List Request) :
    Lasting Store.work (fun u _ => u.run) WorkItem.Becomes db (Machines.run (perform runText) db calls) := by
  refine run_lasting (fun w => ⟨rfl, rfl, rfl, Nat.le_refl _, fun _ => rfl⟩) ?_ (fun _ _ _ _ => rfl) ?_ db calls
  · intro x y z hxy hyz
    refine ⟨hyz.unit.trans hxy.unit, hyz.ordinal.trans hxy.ordinal, hyz.resources.trans hxy.resources,
      hxy.attempts.trans hyz.attempts, fun hverified => ?_⟩
    have hsame := hxy.verified hverified
    rw [← hsame] at hverified
    exact (hyz.verified hverified).trans hsame
  · intro db request answer db' heffect u w hw
    cases hlater : db'.work.get? u with
    | none => exact .inr (heffect.drops_compacted hw hlater)
    | some w' =>
        obtain ⟨x, hx, hmoved⟩ | ⟨hnone, _⟩ := heffect.moves hw
        · cases hlater.symm.trans hx
          exact .inl ⟨w', rfl, hmoved.becomes⟩
        · rw [hlater] at hnone
          cases hnone

/-- What may become of an event: what it tells stays, its delivery is tried more often, and once delivered it does not change. -/
structure OutboxEvent.Becomes (e later : OutboxEvent) : Prop where
  unit : later.unit = e.unit
  payload : later.payload = e.payload
  eventType : later.eventType = e.eventType
  createdAt : later.createdAt = e.createdAt
  attempts : e.attempts ≤ later.attempts
  delivered : e.deliveredAt.isSome = true → later = e

theorem OutboxEvent.Becomes.refl (e : OutboxEvent) : e.Becomes e := ⟨rfl, rfl, rfl, rfl, Nat.le_refl _, fun _ => rfl⟩

theorem recordEvent_keeps {outbox outbox' : IndexMap Uuid OutboxEvent} {id key : Uuid} {payload : Json} {now : Instant}
    {e : OutboxEvent} (h : recordEvent outbox u id payload now = .ok outbox') (he : outbox.get? key = some e) :
    outbox'.get? key = some e := by
  rw [recordEvent] at h
  split_ifs at h with hheld htaken
  · cases h
    exact he
  · cases h
    rw [IndexMap.get?_insert_of_ne, he]
    rintro rfl
    exact htaken (by rw [IndexMap.contains, he]; rfl)

theorem Effect.event_becomes (h : Effect db request answer db') {key : Uuid} {e : OutboxEvent} (he : db.outbox.get? key = some e) :
    (∃ later, db'.outbox.get? key = some later ∧ e.Becomes later) ∨ IsCompacted db' e.unit.run := by
  have hsame : db'.outbox = db.outbox → (∃ later, db'.outbox.get? key = some later ∧ e.Becomes later) ∨ IsCompacted db' e.unit.run :=
    fun heq => .inl ⟨e, by rw [heq, he], .refl e⟩
  cases h with
  | unchanged => exact hsame rfl
  | started call found uncompacted inserted accounted => exact hsame (by rw [(startEntries_adds inserted).outbox, insertRun_eq])
  | claimed => exact hsame rfl
  | renewed => exact hsame rfl
  | waited call found unverified cause => cases cause <;> exact hsame rfl
  | reported call authorized named running pins => exact hsame (by rw [pins.1])
  | verifying => exact hsame rfl
  | pinned pins => exact hsame (by rw [pins.1])
  | completed call authorized completed => exact .inl ⟨e, recordEvent_keeps completed.outbox he, .refl e⟩
  | advanced call authorized range leased opens agrees completed written =>
      rw [openCheckpoint_eq opens] at completed
      rw [writeResource_eq written]
      exact .inl ⟨e, recordEvent_keeps completed.outbox he, .refl e⟩
  | repeated call found verified sealed evidence inserted => exact hsame (insertChildren_adds inserted).outbox
  | expanded call other keys generated authorized expanded =>
      rw [expanded.outbox]
      rw [← (insertChildren_adds expanded.inserted).outbox] at he
      exact .inl ⟨e, recordEvent_keeps expanded.completed.outbox he, .refl e⟩
  | recorded => exact hsame rfl
  | resumed => exact hsame rfl
  | blocked => exact hsame rfl
  | @delivered event message call =>
      left
      rw [delivery]
      cases hheld : db.outbox.get? event with
      | none => exact ⟨e, he, .refl e⟩
      | some held =>
          dsimp only
          split_ifs with hdelivered
          · exact ⟨e, he, .refl e⟩
          · dsimp only
            rw [IndexMap.get?_insert]
            split_ifs with hkey
            · cases (hkey ▸ hheld).symm.trans he
              exact ⟨_, rfl, rfl, rfl, rfl, rfl, Nat.le_succ _, fun hyes => absurd hyes hdelivered⟩
            · exact ⟨e, he, .refl e⟩
  | @compacted _ _ dropped _ call compacts =>
      by_cases hgone : e.unit.run ∈ dropped ∧ e.deliveredAt.isSome = true
      · exact .inr (compacts.compacted_of_mem hgone.1)
      · exact .inl ⟨e, (compacts.outbox key e).2 ⟨he, hgone⟩, .refl e⟩

/-- Whatever is called, a recorded event keeps what it tells and a delivered one its delivery, until its run is compacted. -/
theorem events_last (runText : Uuid → String) (db : Store) (calls : List Request) :
    Lasting Store.outbox (fun _ e => e.unit.run) OutboxEvent.Becomes db (Machines.run (perform runText) db calls) := by
  refine run_lasting .refl ?_ (fun _ x y hxy => by rw [hxy.unit]) (fun _ _ _ _ heffect _ _ => heffect.event_becomes) db calls
  intro x y z hxy hyz
  refine ⟨hyz.unit.trans hxy.unit, hyz.payload.trans hxy.payload, hyz.eventType.trans hxy.eventType,
    hyz.createdAt.trans hxy.createdAt, hxy.attempts.trans hyz.attempts, fun hdelivered => ?_⟩
  have hsame := hxy.delivered hdelivered
  rw [← hsame] at hdelivered
  exact (hyz.delivered hdelivered).trans hsame

variable {session : Session} {a event : Uuid} {proof : List LeaseProof} {receipt checks : Json}

theorem finish_apart (hw : db.work.get? u = some w) (hopen : w.state ≠ .verified)
    (h : finish session db u a proof receipt checks event = .ok db') : w.reporter ≠ some session.login ∧ allPassed checks = true := by
  obtain ⟨x, hx, h⟩ := Except.bind_eq_ok.1 h
  cases hw.symm.trans (selectWork_eq_ok.1 hx)
  rw [if_neg hopen] at h
  obtain ⟨_, _, h⟩ := Except.bind_eq_ok.1 h
  rw [Except.ite_error_eq_ok, not_not] at h
  obtain ⟨written, hwritten, _⟩ := Except.bind_eq_ok.1 h.2
  exact ⟨(updateWork_verified hopen hwritten).2.2.1, h.1.2⟩

/-- A call that completes a unit is made by another login than its reporter's, with every check passed. -/
theorem perform_apart (hw : db.work.get? u = some w) (hopen : w.state ≠ .verified)
    (h : perform runText db request = .ok (answer, db'))
    (hcall : Completes u a receipt checks request.call ∨
      ∃ proof event children childStep, request.call = .finishExpand u a proof receipt checks event children childStep) :
    w.reporter ≠ some request.session.login ∧ allPassed checks = true := by
  obtain hcall | ⟨proof, event, children, childStep, hcall⟩ := hcall
  · generalize hrequest : request.call = call at hcall
    cases hcall with
    | finish proof event =>
        simp only [perform, hrequest] at h
        exact finish_apart hw hopen (silent_eq_ok h).1
    | finishResource proof event resource revision position =>
        simp only [perform, hrequest] at h
        obtain ⟨next, h, _⟩ := answered_eq_ok h
        obtain ⟨x, hx, h⟩ := Except.bind_eq_ok.1 h
        cases hw.symm.trans (selectWork_eq_ok.1 hx)
        rw [Except.ite_error_eq_ok, if_neg hopen] at h
        obtain ⟨_, _, h⟩ := Except.bind_eq_ok.1 h.2
        rw [Except.ite_error_eq_ok, Except.ite_error_eq_ok] at h
        obtain ⟨opened, hopened, h⟩ := Except.bind_eq_ok.1 h.2.2
        obtain ⟨_, _, h⟩ := Except.bind_eq_ok.1 h
        obtain ⟨finished, hfinished, _⟩ := Except.bind_eq_ok.1 h
        rw [openCheckpoint_eq hopened] at hfinished
        exact finish_apart (by exact hw) hopen hfinished
  · simp only [perform, hcall] at h
    have h := (silent_eq_ok h).1
    rw [finishExpand, Except.ite_error_eq_ok, Except.ite_error_eq_ok] at h
    obtain ⟨x, hx, h⟩ := Except.bind_eq_ok.1 h.2.2
    cases hw.symm.trans (selectWork_eq_ok.1 hx)
    rw [Except.ite_error_eq_ok] at h
    obtain ⟨_, _, h⟩ := Except.bind_eq_ok.1 h.2
    obtain ⟨added, hadded, h⟩ := Except.bind_eq_ok.1 h
    rw [if_neg hopen] at h
    obtain ⟨finished, hfinished, _⟩ := Except.bind_eq_ok.1 h
    exact finish_apart ((insertChildren_adds hadded).kept u w hw) hopen hfinished

/-- What a unit shows of its verification: a receipt of what was reported, every check passed, and a verifier other than the reporter. -/
structure WorkItem.Vouched (w : WorkItem) : Prop where
  reporter : w.state = .reported ∨ w.state = .verified → w.reporter.isSome = true
  verifier : w.state = .verified → w.verifier.isSome = true ∧ w.verifier ≠ w.reporter
  receipt : w.state = .verified → w.receipt.any validReceipt = true ∧ namesCandidate w.candidate w.receipt = true
  checks : w.state = .verified → allPassed w.checks = true

theorem vouched_of_open (h : w.state ≠ .reported ∧ w.state ≠ .verified) : w.Vouched :=
  ⟨fun hstate => (hstate.elim h.1 h.2).elim, fun hstate => (h.2 hstate).elim, fun hstate => (h.2 hstate).elim,
    fun hstate => (h.2 hstate).elim⟩

theorem vouched_step (hv : w.Vouched) (hw : db.work.get? u = some w) (hmoved : Moved db request u w w')
    (h : perform runText db request = .ok (answer, db')) : w'.Vouched := by
  cases hmoved with
  | same => exact hv
  | @claimed a => exact vouched_of_open (by rw [claimedWork_state]; simp)
  | waited => exact vouched_of_open (by simp [waitingWork])
  | reported => refine ⟨fun _ => rfl, ?_, ?_, ?_⟩ <;> simp [reportedWork]
  | completed call reported attempt names valid =>
      obtain ⟨hapart, hpassed⟩ := perform_apart hw (by simp [reported]) h (.inl call)
      exact ⟨fun _ => hv.reporter (.inl reported), fun _ => ⟨rfl, hapart.symm⟩, fun _ => ⟨valid, names⟩, fun _ => hpassed⟩
  | sealed call reported attempt names valid =>
      obtain ⟨hapart, hpassed⟩ := perform_apart hw (by simp [reported]) h (.inr ⟨_, _, _, _, call⟩)
      exact ⟨fun _ => hv.reporter (.inl reported), fun _ => ⟨rfl, hapart.symm⟩, fun _ => ⟨valid, names⟩, fun _ => hpassed⟩

def AllVouched (db : Store) : Prop := ∀ u w, db.work.get? u = some w → w.Vouched

/-- Whoever calls what, every verified unit was reported by one login and verified by another, on a valid receipt of what was reported. -/
theorem units_vouched (runText : Uuid → String) (calls : List Request) :
    AllVouched (Machines.run (perform runText) .empty calls) := by
  have hstep : ∀ db request answer db', AllVouched db → True → perform runText db request = .ok (answer, db') → AllVouched db' := by
    intro db request answer db' hdb _ hok u w' hw'
    cases hw : db.work.get? u with
    | none =>
        obtain ⟨_, _, entry, _, _, rfl⟩ := (perform_effect hok).new hw hw'
        exact vouched_of_open (by simp [WorkEntry.pending])
    | some w =>
        obtain ⟨x, hx, hmoved⟩ | ⟨hnone, _⟩ := (perform_effect hok).moves hw
        · cases hw'.symm.trans hx
          exact vouched_step (hdb u w hw) hw hmoved hok
        · rw [hw'] at hnone
          cases hnone
  have hstart : AllVouched .empty := by
    intro u w hw
    cases hw
  exact Machines.run_keeps hstep hstart (Machines.meets_true _ calls)

end EdgarPlatform.Bookkeeping
