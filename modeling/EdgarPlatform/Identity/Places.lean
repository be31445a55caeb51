import EdgarPlatform.Identity.Partition

/-!
# The place each record has

A record is bound to an entity, quarantined, or neither. A bind that stands took effect in no period in which the record was quarantined, and in none in which a bind of it to another entity had stood before it was revoked.
-/

namespace EdgarPlatform.Identities

def Live (decisions : List Decision) (clock : Int) (d : Decision) : Prop :=
  InEffect decisions clock d ∧ ¬ Undone decisions clock d.id

instance (decisions : List Decision) (clock : Int) (d : Decision) : Decidable (Live decisions clock d) :=
  inferInstanceAs (Decidable (_ ∧ _))

/-- The time lies in a quarantine period of the record: it starts with the quarantine, and ends with its revocation when there is one. -/
def HeldAt (decisions : List Decision) (clock : Int) (subject : String) (time : Int) : Prop :=
  ∃ q, InEffect decisions clock q ∧ q.op = .quarantine ∧ q.subject = some subject ∧ q.time ≤ time ∧
    (¬ Undone decisions clock q.id ∨ ∃ r, InEffect decisions clock r ∧ Undoes r q.id ∧ time < r.time)

def StoodAt (decisions : List Decision) (clock : Int) (b : Decision) (time : Int) : Prop :=
  b.time ≤ time ∧ ∃ r, InEffect decisions clock r ∧ Undoes r b.id ∧ time < r.time

def BindsElsewhere (decisions : List Decision) (clock : Int) (b : Decision) (subject entity : String) : Prop :=
  InEffect decisions clock b ∧ b.op = .bind ∧ b.subject = some subject ∧ b.entity ≠ some entity

instance (decisions : List Decision) (clock : Int) (b : Decision) (time : Int) :
    Decidable (StoodAt decisions clock b time) :=
  decidable_of_iff (b.time ≤ time ∧ ∃ r ∈ decisions, r.time ≤ clock ∧ Undoes r b.id ∧ time < r.time)
    (by simp [StoodAt, InEffect, and_assoc])

instance (decisions : List Decision) (clock : Int) (b : Decision) (subject entity : String) :
    Decidable (BindsElsewhere decisions clock b subject entity) :=
  inferInstanceAs (Decidable (_ ∧ _))

def Sole (decisions : List Decision) (clock : Int) (b : Decision) : Prop :=
  ∀ d, InEffect decisions clock d → d.id = b.id → d = b

/-- The places given so far, and why each bind was let through. -/
structure Progress.Places (reading : Reading) (read : List (Nat × Decision)) (p : Progress) : Prop where
  listed : ∀ s e, p.state.bindings.get? s = some e → e ∈ reading.ids.keys
  quarantined : ∀ s e, p.state.quarantined.get? s = some e → ∃ entry ∈ read, entry.2.op = .quarantine ∧
    entry.2.subject = some s ∧ entry.2.id ∉ reading.reversals.revoked
  apart : ∀ s, p.state.bindings.get? s = none ∨ p.state.quarantined.get? s = none
  binds : ∀ entry ∈ read, entry.2.op = .bind → entry.2.id ∉ reading.reversals.revoked →
    ∃ s e, entry.2.subject = some s ∧ entry.2.entity = some e ∧ p.state.bindings.get? s = some e ∧
      noWindow reading entry.2 s e ∧ noPeriod reading entry.2 s

theorem Progress.Places.start (reading : Reading) : Progress.Places reading [] (.start reading.ids) := by
  constructor <;> simp [Progress.start, State.empty]

variable {reading : Reading} {read : List (Nat × Decision)} {entry : Nat × Decision}

theorem Progress.Places.frame {p p' : Progress}
    (h : Progress.Places reading read p)
    (hbindings : p'.state.bindings = p.state.bindings) (hquarantined : p'.state.quarantined = p.state.quarantined)
    (hbind : entry.2.op = .bind → entry.2.id ∈ reading.reversals.revoked) :
    Progress.Places reading (read ++ [entry]) p' where
  listed := by rw [hbindings]; exact h.listed
  quarantined := fun s e hs => by
    rw [hquarantined] at hs
    obtain ⟨other, hother, hq⟩ := h.quarantined s e hs
    exact ⟨other, by simp [hother], hq⟩
  apart := by rw [hbindings, hquarantined]; exact h.apart
  binds := fun other hother hop hlive => by
    rw [hbindings]
    rcases List.mem_append.1 hother with hfront | hlast
    · exact h.binds other hfront hop hlive
    · obtain rfl : other = entry := by simpa using hlast
      exact absurd (hbind hop) hlive

theorem inPeriod_of_quarantine {q d : Decision} {subject : String}
    (hrevokedAt : reading.reversals.revokedAt.get? q.id = none)
    (hheld : (q.time, reading.reversals.revokedAt.get? q.id) ∈ (reading.held.get? subject).getD [])
    (htime : q.time ≤ d.time) : ¬ noPeriod reading d subject := fun h => by
  have := h _ hheld
  simp [inPeriod, hrevokedAt, htime] at this

variable {p : Progress} {subject entity : String}

theorem Progress.Places.bindTo
    (h : Progress.Places reading read p)
    (hentity : entity ∈ reading.ids.keys) (hsubject : entry.2.subject = some subject)
    (hnamed : entry.2.entity = some entity)
    (hbound : ∀ other, p.state.bindings.get? subject = some other → other = entity)
    (hwindow : noWindow reading entry.2 subject entity) (hperiod : noPeriod reading entry.2 subject)
    (hquarantined : p.state.quarantined.get? subject = none) :
    Progress.Places reading (read ++ [entry]) (p.bindTo subject entity) where
  listed := fun s e hs => by
    simp only [Progress.bindTo, IndexMap.get?_insert] at hs
    split_ifs at hs
    · cases hs
      exact hentity
    · exact h.listed s e hs
  quarantined := fun s e hs => by
    obtain ⟨other, hother, hq⟩ := h.quarantined s e hs
    exact ⟨other, by simp [hother], hq⟩
  apart := fun s => by
    simp only [Progress.bindTo, IndexMap.get?_insert]
    split_ifs with hs
    · exact .inr (hs ▸ hquarantined)
    · exact h.apart s
  binds := fun other hother hop hlive => by
    rcases List.mem_append.1 hother with hfront | hlast
    · obtain ⟨s, e, hs, he, hget, hrest⟩ := h.binds other hfront hop hlive
      refine ⟨s, e, hs, he, ?_, hrest⟩
      simp only [Progress.bindTo, IndexMap.get?_insert]
      split_ifs with heq
      · rw [hbound e (heq ▸ hget)]
      · exact hget
    · obtain rfl : other = entry := by simpa using hlast
      exact ⟨subject, entity, hsubject, hnamed, by simp [Progress.bindTo], hwindow, hperiod⟩

theorem Progress.Places.quarantine
    (h : Progress.Places reading read p)
    (hop : entry.2.op = .quarantine) (hsubject : entry.2.subject = some subject)
    (hlive : entry.2.id ∉ reading.reversals.revoked) (hunbound : p.state.bindings.get? subject = none) :
    Progress.Places reading (read ++ [entry]) (p.quarantine subject entity) where
  listed := h.listed
  quarantined := fun s e hs => by
    simp only [Progress.quarantine, IndexMap.get?_insert] at hs
    split_ifs at hs with heq
    · exact ⟨entry, by simp, hop, heq ▸ hsubject, hlive⟩
    · obtain ⟨other, hother, hq⟩ := h.quarantined s e hs
      exact ⟨other, by simp [hother], hq⟩
  apart := fun s => by
    simp only [Progress.quarantine, IndexMap.get?_insert]
    split_ifs with hs
    · exact .inl (hs ▸ hunbound)
    · exact h.apart s
  binds := fun other hother hop' hlive' => by
    rcases List.mem_append.1 hother with hfront | hlast
    · exact h.binds other hfront hop' hlive'
    · obtain rfl : other = entry := by simpa using hlast
      rw [hop] at hop'
      cases hop'

/-- One step keeps the places, given that each quarantine read before it is noted and was not later. -/
theorem Progress.Places.step {reading : Reading} {read : List (Nat × Decision)} {p p' : Progress}
    {entry : Nat × Decision} (h : Progress.Places reading read p) (hof : Progress.Of reading read p)
    (hheld : ∀ q ∈ read, q.2.op = .quarantine → q.2.id ∉ reading.reversals.revoked → ∀ subject,
      q.2.subject = some subject → ¬ noPeriod reading entry.2 subject)
    (hstep : applyDecision reading p entry = .ok p') : Progress.Places reading (read ++ [entry]) p' := by
  unfold applyDecision at hstep
  split at hstep
  next hop =>
    obtain ⟨subject, entity, r, hs, he, hr, ⟨hrevoked, rfl⟩ | ⟨hlive, hwindow, hbound, hperiod, _, rfl⟩⟩ :=
      applyBind_eq_ok.1 hstep
    · exact h.frame rfl rfl fun _ => hrevoked
    · refine h.bindTo (hof.root_iff.1 hr).1 hs he hbound hwindow hperiod ?_
      refine Option.eq_none_iff_forall_ne_some.2 fun e hquarantined => ?_
      obtain ⟨q, hq, hqop, hqsubject, hqlive⟩ := h.quarantined subject e hquarantined
      exact hheld q hq hqop hqlive subject hqsubject hperiod
  next hop =>
    rcases applyMerge_eq_ok.1 hstep with ⟨_, _, rfl⟩ | ⟨_, _, _, _, _, _, rfl⟩ | ⟨_, _, _, _, _, _, _, _, _, _, rfl⟩
    all_goals exact h.frame rfl rfl (by simp [hop])
  next hop =>
    rcases applyExclude_eq_ok.1 hstep with ⟨_, rfl⟩ | ⟨_, _, _, _, _, rfl⟩
    all_goals exact h.frame rfl rfl (by simp [hop])
  next hop =>
    rcases applyOverride_eq_ok hstep with rfl | rfl
    all_goals exact h.frame rfl rfl (by simp [hop])
  next hop =>
    obtain ⟨subject, entity, r, hs, _, _, _, _, hunbound, _, ⟨_, rfl⟩ | ⟨hlive, rfl⟩⟩ := applyQuarantine_eq_ok.1 hstep
    · exact h.frame rfl rfl (by simp [hop])
    · exact h.quarantine hop hs hlive hunbound
  next hop =>
    obtain ⟨source, rfl⟩ := applyRetirement_eq_ok hstep
    exact h.frame rfl rfl (by simp [hop])
  next hop =>
    cases hstep
    exact h.frame rfl rfl (by simp [hop])
  next hop =>
    cases hstep
    exact h.frame rfl rfl (by simp [hop])
  next => cases hstep

theorem Reversals.Of.revokedAt_eq_none {ordered read : List (Nat × Decision)} {r : Reversals}
    (h : Reversals.Of ordered read r) {id : String} (hid : id ∉ r.revoked) : r.revokedAt.get? id = none := by
  refine Option.eq_none_iff_forall_ne_some.2 fun time htime => ?_
  obtain ⟨entry, hentry, hundo, _⟩ := h.revokedAt_some id time htime
  exact hid ((h.revoked_iff id).2 ⟨entry, hentry, hundo⟩)

variable {identities : List Identity} {decisions : List Decision} {clock : Int} {state : State}

theorem Passes.places {reversals : Reversals} {held : Held}
    (h : Passes identities decisions clock reversals held p) :
    Progress.Places (readingOf identities decisions clock reversals held) (inOrder decisions clock) p := by
  refine (Runs.run_invariant (fun front mid =>
    Progress.Of (readingOf identities decisions clock reversals held) front mid ∧
      Progress.Places (readingOf identities decisions clock reversals held) front mid) h.read
    ⟨start_of _, .start _⟩ ?_).2
  rintro front entry back mid next hsplit ⟨hof, hplaces⟩ hstep
  refine ⟨hof.step hstep, hplaces.step hof ?_ hstep⟩
  intro q hq hop hlive subject hsubject
  have hmem : q ∈ inOrder decisions clock := by simp [hsplit, hq]
  obtain ⟨s, hs, hheld⟩ := (readHolds_of h.hold).2 q hmem hop
  cases hs.symm.trans hsubject
  exact inPeriod_of_quarantine ((readReversals_of h.undo).revokedAt_eq_none hlive) hheld (time_le_of_front hsplit hq)

theorem not_heldAt {reversals : Reversals} {held : Held}
    (hpasses : Passes identities decisions clock reversals held p) {d : Decision} {subject : String}
    (h : noPeriod (readingOf identities decisions clock reversals held) d subject) :
    ¬ HeldAt decisions clock subject d.time := by
  rintro ⟨q, hq, hop, hsubject, htime, hend⟩
  obtain ⟨index, hindex⟩ := exists_mem_inOrder hq
  obtain ⟨s, hs, hheld⟩ := (readHolds_of hpasses.hold).2 _ hindex hop
  cases hs.symm.trans hsubject
  have hno := h _ hheld
  have hreversals := readReversals_of hpasses.undo
  rcases hend with hlive | ⟨r, hr, hundo, hbefore⟩
  · rw [← mem_revoked_iff hpasses.undo] at hlive
    simp [inPeriod, htime, hreversals.revokedAt_eq_none hlive] at hno
  · obtain ⟨rindex, hrindex⟩ := exists_mem_inOrder hr
    obtain ⟨time, hget, hle⟩ := hreversals.revokedAt_le _ hrindex _ hundo
    simp only [inPeriod, htime, hget, Option.all_some, decide_eq_false_iff_not] at hno
    exact hno ⟨trivial, decide_eq_true (hbefore.trans_le hle)⟩

theorem not_stoodAt {reversals : Reversals} {held : Held}
    (hpasses : Passes identities decisions clock reversals held p) {d b : Decision}
    (h : noWindow (readingOf identities decisions clock reversals held) d subject entity)
    (hb : BindsElsewhere decisions clock b subject entity) (hsole : Sole decisions clock b) :
    ¬ StoodAt decisions clock b d.time := by
  rintro ⟨htime, r, hr, hundo, hbefore⟩
  obtain ⟨_, hop, hsubject, hentity⟩ := hb
  obtain ⟨index, hindex⟩ := exists_mem_inOrder hr
  have hreversals := readReversals_of hpasses.undo
  obtain ⟨target, hget, _, _⟩ := hreversals.target _ hindex _ hundo
  obtain ⟨hid, position, hposition⟩ := byId_get? hget
  obtain rfl : target = b := hsole target (inEffect_of_mem hposition) hid
  obtain ⟨s, e, hs, he, hmem⟩ := hreversals.window _ hindex _ hundo _ hget hop
  cases hs.symm.trans hsubject
  exact hentity (he.trans (congrArg some (h _ hmem (by simp [inWindow, htime, hbefore]))))

/-- **One place for each record.** An accepted replay leaves no record both bound and quarantined, binds to listed identities only, binds each record where every live bind of it says, and lets a bind stand neither in a quarantine period of its record nor in the revoked period of a bind elsewhere whose id no other decision in effect has. -/
theorem replay_places (identities : List Identity) (decisions : List Decision) (clock : Int) (state : State)
    (h : replay identities decisions clock = .ok state) :
    (∀ s, ¬ (s ∈ state.bindings.keys ∧ s ∈ state.quarantined.keys)) ∧
    (∀ s e, state.bindings.get? s = some e → e ∈ identities.map (·.id)) ∧
    ∀ d, Live decisions clock d → d.op = .bind →
      ∃ s e, d.subject = some s ∧ d.entity = some e ∧ state.bindings.get? s = some e ∧
        ¬ HeldAt decisions clock s d.time ∧
        ∀ b, BindsElsewhere decisions clock b s e → Sole decisions clock b → ¬ StoodAt decisions clock b d.time := by
  obtain ⟨reversals, held, p, hpasses, hfinish⟩ := replay_eq_ok.1 h
  have hplaces := hpasses.places
  have hstate := (finish_eq_ok hfinish).1
  have hbindings : state.bindings = p.state.bindings := by rw [hstate]
  have hquarantined : state.quarantined = p.state.quarantined := by rw [hstate]
  refine ⟨?_, ?_, ?_⟩
  · rintro s ⟨hs, hs'⟩
    rw [hbindings] at hs
    rw [hquarantined] at hs'
    rcases hplaces.apart s with hnone | hnone
    · exact IndexMap.get?_eq_none_iff.1 hnone hs
    · exact IndexMap.get?_eq_none_iff.1 hnone hs'
  · intro s e hs
    rw [hbindings] at hs
    exact mem_idsOf_keys.1 (hplaces.listed s e hs)
  · rintro d ⟨hd, hlive⟩ hop
    obtain ⟨index, hindex⟩ := exists_mem_inOrder hd
    rw [← mem_revoked_iff hpasses.undo] at hlive
    obtain ⟨s, e, hs, he, hget, hwindow, hperiod⟩ := hplaces.binds _ hindex hop hlive
    exact ⟨s, e, hs, he, by rw [hbindings]; exact hget, not_heldAt hpasses hperiod,
      fun b hb hsole => not_stoodAt hpasses hwindow hb hsole⟩

/-- A record bound, unbound, quarantined, released and bound to another entity. -/
def correctedDecisions : List Decision :=
  [{ Decision.bare "b1" 1 .bind with subject := some "s", entity := some "a", evidence := true },
   { Decision.bare "u1" 2 .revoke with target := some "b1", subject := some "s", entity := some "a" },
   { Decision.bare "q1" 2 .quarantine with subject := some "s", entity := some "a", entityPresent := true },
   { Decision.bare "u2" 4 .revoke with target := some "q1" },
   { Decision.bare "y" 4 .bind with subject := some "s", entity := some "b", evidence := true }]

def correctedState : State :=
  { State.empty with
    canonical := .ofList [("a", "a"), ("b", "b"), ("c", "c"), ("d", "d")]
    bindings := .ofList [("s", "b")] }

theorem replay_places_corrected :
    replay splitIdentities correctedDecisions 10 = .ok correctedState ∧
      ¬ ("s" ∈ correctedState.bindings.keys ∧ "s" ∈ correctedState.quarantined.keys) := by
  have h : replay splitIdentities correctedDecisions 10 = .ok correctedState := by decide +kernel
  exact ⟨h, (replay_places splitIdentities correctedDecisions 10 correctedState h).1 "s"⟩

/-- Two binds of one record share an id; the revocation names the later, and the record's third bind stands. -/
def sharedBinds : List Decision :=
  [{ Decision.bare "x" 1 .bind with subject := some "s", entity := some "a", evidence := true },
   { Decision.bare "x" 2 .bind with subject := some "s", entity := some "b", evidence := true },
   { Decision.bare "r" 5 .revoke with target := some "x", subject := some "s", entity := some "b" }]

def laterBind : Decision :=
  { Decision.bare "y" 3 .bind with subject := some "s", entity := some "b", evidence := true }

/-- The period of the earlier bind is not noted, so the third bind stands inside it. -/
theorem stands_in_revoked_period :
    (replay splitIdentities (laterBind :: sharedBinds) 10).isOk = true ∧
      Live (laterBind :: sharedBinds) 10 laterBind ∧ laterBind.op = .bind ∧
      ∃ b ∈ sharedBinds, BindsElsewhere (laterBind :: sharedBinds) 10 b "s" "b" ∧
        StoodAt (laterBind :: sharedBinds) 10 b laterBind.time := by
  decide +kernel

end EdgarPlatform.Identities
