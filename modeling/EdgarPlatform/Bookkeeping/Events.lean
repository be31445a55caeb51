import EdgarPlatform.Bookkeeping.Moves

/-!
# One event for each verified unit

The completion of a unit records its event in the transaction that verifies it. A verified unit is never completed again, so the outbox holds one event for each verified unit and no others, until a compaction drops the units of a run together with its delivered events.
-/

namespace EdgarPlatform.Bookkeeping

open Records (Json)

def IsVerified (work : IndexMap UnitId WorkItem) (u : UnitId) : Prop := ∃ w, work.get? u = some w ∧ w.state = .verified

/-- An outbox with one event for each unit of a kind, and no others. -/
structure OneEventEach (units : UnitId → Prop) (outbox : IndexMap Uuid OutboxEvent) : Prop where
  about : ∀ e event, outbox.get? e = some event → event.eventType = verifiedEvent ∧ units event.unit
  single : ∀ e e' event event', outbox.get? e = some event → outbox.get? e' = some event' → event.unit = event'.unit → e = e'
  each : ∀ u, units u → ∃ e event, outbox.get? e = some event ∧ event.unit = u

variable {units units' : UnitId → Prop} {outbox outbox' : IndexMap Uuid OutboxEvent}

theorem OneEventEach.congr (h : OneEventEach units outbox) (hunits : ∀ u, units' u ↔ units u) : OneEventEach units' outbox :=
  ⟨fun e event he => ⟨(h.about e event he).1, (hunits _).2 (h.about e event he).2⟩, h.single,
    fun u hu => h.each u ((hunits u).1 hu)⟩

theorem OneEventEach.record {u : UnitId} {event : Uuid} {payload : Json} {now : Instant} (h : OneEventEach units outbox)
    (hu : ¬ units u) (hrecord : recordEvent outbox u event payload now = .ok outbox') :
    OneEventEach (fun v => units v ∨ v = u) outbox' := by
  have hnone : ∀ e held, outbox.get? e = some held → held.unit ≠ u := fun e held he heq => hu (heq ▸ (h.about e held he).2)
  rw [recordEvent, if_neg, Except.ite_error_eq_ok] at hrecord
  · obtain ⟨hfree, hrecord⟩ := hrecord
    cases hrecord
    have hnew : outbox.get? event = none := Option.not_isSome_iff_eq_none.1 hfree
    have hget : ∀ e, e ≠ event → (outbox.insert event ⟨u, payload, 0, none, now, none, verifiedEvent⟩).get? e = outbox.get? e :=
      fun e he => IndexMap.get?_insert_of_ne _ _ he
    refine ⟨fun e held he => ?_, fun e e' held held' he he' hsame => ?_, fun v hv => ?_⟩
    · rw [IndexMap.get?_insert] at he
      split_ifs at he
      · cases he
        exact ⟨rfl, .inr rfl⟩
      · exact ⟨(h.about e held he).1, .inl (h.about e held he).2⟩
    · rw [IndexMap.get?_insert] at he he'
      split_ifs at he he' with hevent hevent' hevent'
      · exact hevent.trans hevent'.symm
      · cases he
        exact absurd hsame.symm (hnone e' held' he')
      · cases he'
        exact absurd hsame (hnone e held he)
      · exact h.single e e' held held' he he' hsame
    · obtain hv | rfl := hv
      · obtain ⟨e, held, he, hunit⟩ := h.each v hv
        refine ⟨e, held, ?_, hunit⟩
        rw [hget e (by rintro rfl; rw [hnew] at he; cases he), he]
      · exact ⟨event, _, IndexMap.get?_insert_self .., rfl⟩
  · rw [List.any_eq_true]
    rintro ⟨held, hmem, hheld⟩
    obtain ⟨e, he⟩ := IndexMap.mem_values_iff.1 hmem
    simp only [Bool.and_eq_true, decide_eq_true_eq] at hheld
    exact hnone e held he hheld.1

theorem OneEventEach.deliver {session : Session} {db : Store} {event : Uuid} {message : Option String}
    (h : OneEventEach units db.outbox) : OneEventEach units (delivery session db event message).outbox := by
  rw [delivery]
  split
  · exact h
  · rename_i held hheld
    split_ifs
    · exact h
    · have hcases : ∀ e held', (db.outbox.insert event (deliveredEvent held message session.clock)).get? e = some held' →
          ∃ old, db.outbox.get? e = some old ∧ old.unit = held'.unit ∧ old.eventType = held'.eventType := by
        intro e held' he
        rw [IndexMap.get?_insert] at he
        split_ifs at he with hevent
        · cases he
          exact ⟨held, hevent ▸ hheld, rfl, rfl⟩
        · exact ⟨held', he, rfl, rfl⟩
      refine ⟨fun e held' he => ?_, fun e e' one other he he' hsame => ?_, fun v hv => ?_⟩
      · obtain ⟨old, hold, hunit, htype⟩ := hcases e held' he
        rw [← hunit, ← htype]
        exact h.about e old hold
      · obtain ⟨old, hold, hunit, _⟩ := hcases e one he
        obtain ⟨old', hold', hunit', _⟩ := hcases e' other he'
        exact h.single e e' old old' hold hold' (hunit.trans (hsame.trans hunit'.symm))
      · obtain ⟨e, old, hold, hunit⟩ := h.each v hv
        show ∃ e' held', (db.outbox.insert event _).get? e' = some held' ∧ held'.unit = v
        by_cases hevent : e = event
        · subst hevent
          cases hheld.symm.trans hold
          exact ⟨e, _, IndexMap.get?_insert_self .., hunit⟩
        · exact ⟨e, old, (IndexMap.get?_insert_of_ne _ _ hevent).trans hold, hunit⟩

variable {work work' : IndexMap UnitId WorkItem} {u : UnitId} {w w' : WorkItem}

theorem isVerified_insert (hw : work.get? u = some w) (hopen : w.state ≠ .verified) (hopen' : w'.state ≠ .verified) (v : UnitId) :
    IsVerified (work.insert u w') v ↔ IsVerified work v := by
  rw [IsVerified, IndexMap.get?_insert]
  split_ifs with hv
  · rw [IsVerified, hv, hw]
    simp [hopen, hopen']
  · exact Iff.rfl

theorem isVerified_complete (hdone : w'.state = .verified) (v : UnitId) :
    IsVerified (work.insert u w') v ↔ IsVerified work v ∨ v = u := by
  rw [IsVerified, IndexMap.get?_insert]
  split_ifs with hv
  · simp [hv, hdone]
  · simp [hv, IsVerified]

theorem isVerified_adds {db db' : Store} {r : Uuid} {entries : List WorkEntry} (h : Adds r entries db db') (v : UnitId) :
    IsVerified db'.work v ↔ IsVerified db.work v := by
  refine ⟨fun ⟨w, hw, hverified⟩ => ?_, fun ⟨w, hw, hverified⟩ => ⟨w, h.kept v w hw, hverified⟩⟩
  obtain hold | ⟨entry, _, _, rfl⟩ := h.added v w hw
  · exact ⟨w, hold, hverified⟩
  · cases hverified

variable {runText : Uuid → String} {db db' : Store} {request : Request} {answer : Answer}

theorem claimedWork_state (w : WorkItem) (a : Uuid) : (claimedWork w a).state = .running := by
  rw [claimedWork]
  split_ifs <;> rfl

theorem Completed.events {session : Session} {a : Uuid} {receipt checks : Json} {event : Uuid}
    (h : Completed session db u w a receipt checks event db') (hevents : OneEventEach (IsVerified db.work) db.outbox) :
    OneEventEach (IsVerified db'.work) db'.outbox := by
  refine (hevents.record ?_ h.outbox).congr fun v => ?_
  · rintro ⟨w', hw', hverified⟩
    cases h.found.symm.trans hw'
    rw [h.reported] at hverified
    cases hverified
  · rw [h.work]
    exact isVerified_complete rfl v

theorem Effect.events (h : Effect db request answer db') (hevents : OneEventEach (IsVerified db.work) db.outbox) :
    OneEventEach (IsVerified db'.work) db'.outbox := by
  cases h with
  | unchanged => exact hevents
  | started call found uncompacted inserted accounted =>
      have hadds := startEntries_adds inserted
      rw [hadds.outbox]
      rw [insertRun_eq] at hadds ⊢
      exact hevents.congr fun v => (isVerified_adds hadds v :)
  | claimed call claimed =>
      exact hevents.congr (isVerified_insert claimed.found claimed.unverified (by rw [claimedWork_state]; simp))
  | renewed => exact hevents
  | waited call found unverified cause =>
      cases cause <;> exact hevents.congr (isVerified_insert found unverified (by simp [waitingWork]))
  | reported call authorized named running pins =>
      rw [pins.1]
      exact hevents.congr (isVerified_insert authorized.found (by simp [running]) (by simp [reportedWork]))
  | verifying => exact hevents
  | pinned pins =>
      rw [pins.1]
      exact hevents
  | completed call authorized completed => exact completed.events hevents
  | advanced call authorized range leased opens agrees completed written =>
      rw [openCheckpoint_eq opens] at completed
      rw [writeResource_eq written]
      exact completed.events hevents
  | repeated call found verified sealed evidence inserted =>
      have hadds := insertChildren_adds inserted
      rw [hadds.outbox]
      exact hevents.congr (isVerified_adds hadds)
  | expanded call other keys generated authorized expanded =>
      have hadds := insertChildren_adds expanded.inserted
      have hadded : OneEventEach (IsVerified _) _ := hevents.congr (isVerified_adds hadds)
      rw [← hadds.outbox] at hadded
      rw [expanded.outbox, expanded.work]
      refine (expanded.completed.events hadded).congr fun v => ?_
      rw [isVerified_complete (by rfl), expanded.completed.work, isVerified_complete (by rfl)]
      tauto
  | recorded => exact hevents
  | resumed => exact hevents
  | blocked => exact hevents
  | delivered => exact hevents.deliver
  | compacted call compacts =>
      refine ⟨fun e event he => ?_, fun e e' event event' he he' => ?_, fun v hv => ?_⟩
      · obtain ⟨he, hkept⟩ := (compacts.outbox e event).1 he
        obtain ⟨htype, w, hw, hverified⟩ := hevents.about e event he
        refine ⟨htype, w, ?_, hverified⟩
        rw [compacts.work, if_neg, hw]
        intro hmem
        obtain ⟨_, _, _, _, _, _, hdelivered, _⟩ := compacts.compacted event.unit.run hmem
        exact hkept ⟨hmem, hdelivered e event he rfl⟩
      · exact hevents.single e e' event event' ((compacts.outbox e event).1 he).1 ((compacts.outbox e' event').1 he').1
      · obtain ⟨w, hw, hverified⟩ := hv
        rw [compacts.work] at hw
        split_ifs at hw with hmem
        obtain ⟨e, event, he, hunit⟩ := hevents.each v ⟨w, hw, hverified⟩
        exact ⟨e, event, (compacts.outbox e event).2 ⟨he, fun hboth => hmem (hunit ▸ hboth.1)⟩, hunit⟩

end EdgarPlatform.Bookkeeping
