import EdgarPlatform.Bookkeeping.Holdings

/-!
# Fencing across control and destinations

A destination keeps the last proof it admitted for each resource, in its own database. It admits a proof that has not expired there and that its row advances to. The control store and its destinations take steps in any order, and a destination sees only proofs the store once returned. Control grants a resource to one attempt at a time under tokens that grow with each new holder, so what a destination admitted for one attempt shuts out everything issued before to another.
-/

namespace EdgarPlatform.Bookkeeping

open Records (Json)

/-- The last proof a destination admitted for a resource. -/
structure GuardRow where
  token : Nat
  run : Uuid
  attempt : Uuid
  expiresAt : Instant
  deriving DecidableEq

abbrev Destination := IndexMap String GuardRow

def LeaseProof.row (p : LeaseProof) : GuardRow := ⟨p.token, p.run, p.attempt, p.expiresAt⟩

/-- A row is ahead of a proof, or names another holder of the same token. -/
def GuardRow.fences (prior : GuardRow) (p : LeaseProof) : Bool :=
  p.token < prior.token || (prior.token = p.token && (prior.attempt ≠ p.attempt || prior.run ≠ p.run))

/-- One entry of a proof: the resource's row is the entry's own where there was none. -/
def admitEntry (now : Instant) (rows : Destination) (p : LeaseProof) : Except Refusal Destination :=
  if p.expiresAt ≤ now ∨ p.token < 1 then .error (raised "Expired destination authority")
  else if ((rows.get? p.resource).getD p.row).fences p = true then .error (raised "Stale destination fence")
  else .ok (rows.insert p.resource p.row)

def authorize (now : Instant) (rows : Destination) (proof : List LeaseProof) : Except Refusal Destination :=
  if proof = [] then .error (raised "Lease proof required")
  else (Sorting.sortByKey LeaseProof.resource proof).foldlM (admitEntry now) rows

/-- A destination's transaction: the proof is admitted, and has not expired when the transaction commits. -/
def admitWrite (now commitClock : Instant) (rows : Destination) (proof : List LeaseProof) : Except Refusal Destination := do
  let admitted ← authorize now rows proof
  if proof.any fun p => p.expiresAt ≤ commitClock then .error (raised "Destination lease expired before commit")
  else .ok admitted

def GuardRow.holding (row : GuardRow) : Holding (Uuid × Uuid) := ⟨row.token, some (row.run, row.attempt)⟩

def admittedAt (rows : Destination) (resource : String) : Holding (Uuid × Uuid) :=
  (rows.get? resource).elim .free GuardRow.holding

theorem holding_row (p : LeaseProof) : p.row.holding = p.grant.holding := rfl

theorem le_of_not_fences {prior : GuardRow} {p : LeaseProof} (h : prior.fences p = false) : prior.holding ≤ p.grant.holding := by
  simp only [GuardRow.fences, Bool.or_eq_false_iff, Bool.and_eq_false_imp, decide_eq_false_iff_not, not_lt,
    decide_eq_true_eq, not_not] at h
  obtain ⟨hle, hsame⟩ := h
  obtain hlt | heq := Nat.lt_or_eq_of_le hle
  · exact .inl hlt
  · refine .inr ?_
    obtain ⟨hattempt, hrun⟩ := hsame heq
    rw [← holding_row, GuardRow.holding, GuardRow.holding, LeaseProof.row, heq, hattempt, hrun]

theorem admittedAt_insert (rows : Destination) (x y : String) (row : GuardRow) :
    admittedAt (rows.insert x row) y = if y = x then row.holding else admittedAt rows y := by
  rw [admittedAt, IndexMap.get?_insert]
  split_ifs <;> rfl

theorem admitEntry_eq_ok {now : Instant} {rows rows' : Destination} {p : LeaseProof} (h : admitEntry now rows p = .ok rows') :
    admittedAt rows ≤ admittedAt rows' ∧ admittedAt rows p.resource ≤ p.grant.holding ∧
      p.grant.holding ≤ admittedAt rows' p.resource := by
  rw [admitEntry, Except.ite_error_eq_ok, Except.ite_error_eq_ok, not_or, Bool.not_eq_true] at h
  obtain ⟨⟨_, htoken⟩, hfence, h⟩ := h
  cases h
  have hadmits : admittedAt rows p.resource ≤ p.grant.holding := by
    rw [admittedAt]
    cases hrow : rows.get? p.resource with
    | none => exact Holding.free_le (by show 0 < p.token; omega)
    | some row =>
        rw [hrow] at hfence
        exact le_of_not_fences hfence
  refine ⟨fun y => ?_, hadmits, ?_⟩
  · rw [admittedAt_insert]
    split_ifs with hy
    · rw [hy]
      exact hadmits
    · exact le_rfl
  · rw [admittedAt_insert, if_pos rfl]
    exact le_rfl

variable {proof : List LeaseProof}

theorem admitWrite_eq_ok {now commitClock : Instant} {rows rows' : Destination}
    (h : admitWrite now commitClock rows proof = .ok rows') :
    admittedAt rows ≤ admittedAt rows' ∧ ∀ p ∈ proof, p.grant.Given (admittedAt rows) (admittedAt rows') := by
  obtain ⟨admitted, hadmitted, h⟩ := Except.bind_eq_ok.1 h
  rw [Except.ite_error_eq_ok] at h
  cases h.2
  rw [authorize, Except.ite_error_eq_ok] at hadmitted
  have hfold := Runs.run_invariant
    (fun front mid => admittedAt rows ≤ admittedAt mid ∧ ∀ p ∈ front, p.grant.Given (admittedAt rows) (admittedAt mid))
    hadmitted.2 ⟨le_rfl, by simp⟩ ?_
  · exact ⟨hfold.1, fun p hp => hfold.2 p (Sorting.mem_sortByKey.2 hp)⟩
  · intro front p back mid next _ ⟨hle, hgiven⟩ hnext
    obtain ⟨hstep, hbefore, hafter⟩ := admitEntry_eq_ok hnext
    refine ⟨hle.trans hstep, fun q hq => ?_⟩
    obtain hq | hq := List.mem_append.1 hq
    · exact ⟨(hgiven q hq).1, (hgiven q hq).2.trans (hstep _)⟩
    · rw [List.mem_singleton.1 hq]
      exact ⟨(hle p.resource).trans hbefore, hafter⟩

/-- The control store, its destinations, the proofs it returned so far and the run each attempt claimed for. -/
structure System where
  control : Store
  destinations : IndexMap String Destination
  issued : List (List LeaseProof)
  owner : Uuid → Option Uuid

def System.empty : System := ⟨.empty, .empty, [], fun _ => none⟩

inductive Step where
  | control (request : Request)
  | authorize (destination : String) (now commitClock : Instant) (proof : List LeaseProof)

/-- A destination's rows. One that never admitted anything has none. -/
def System.rows (s : System) (destination : String) : Destination := (s.destinations.get? destination).getD .empty

def System.answered (s : System) (request : Request) (answer : Answer) (db : Store) : System where
  control := db
  destinations := s.destinations
  issued := s.issued ++ answer.issues.toList
  owner := claimedFor s.owner request.call answer

def System.admitted (s : System) (destination : String) (rows : Destination) : System :=
  { s with destinations := s.destinations.insert destination rows }

def takeStep (runText : Uuid → String) (s : System) : Step → Except Refusal (Answer × System)
  | .control request => do
      let result ← perform runText s.control request
      .ok (result.1, s.answered request result.1 result.2)
  | .authorize destination now commitClock proof => do
      let rows ← admitWrite now commitClock (s.rows destination) proof
      .ok (.done, s.admitted destination rows)

/-- Claims are made for new attempts, and destinations are shown proofs that control returned. -/
def WellMade (s : System) : Step → Prop
  | .control request => NewAttempt s.owner request.call = true
  | .authorize _ _ _ proof => proof ∈ s.issued

instance (s : System) : (step : Step) → Decidable (WellMade s step)
  | .control request => inferInstanceAs (Decidable (NewAttempt s.owner request.call = true))
  | .authorize _ _ _ proof => inferInstanceAs (Decidable (proof ∈ s.issued))

/-- Attempts belong to runs, and the proofs returned are in the order of the holdings. -/
structure Safe (s : System) : Prop where
  owned : Owned s.owner s.control
  logged : Fences.Logged (s.issued.map (List.map LeaseProof.grant)) (holdingAt s.control.leases)

/-- Holdings in control and rows in destinations only advance. -/
structure Onward (s t : System) : Prop where
  held : holdingAt s.control.leases ≤ holdingAt t.control.leases
  admitted : ∀ destination, admittedAt (s.rows destination) ≤ admittedAt (t.rows destination)

theorem Onward.refl (s : System) : Onward s s := ⟨le_rfl, fun _ => le_rfl⟩

theorem Onward.trans {s t u : System} (h : Onward s t) (h' : Onward t u) : Onward s u :=
  ⟨h.held.trans h'.held, fun destination => (h.admitted destination).trans (h'.admitted destination)⟩

theorem safe_empty : Safe .empty := by
  refine ⟨⟨?_, ?_⟩, Fences.logged_nil _⟩
  · intro u w a hw
    cases hw
  · intro x l a hl
    cases hl

variable {runText : Uuid → String} {s t : System} {answer : Answer}

theorem takeStep_control {request : Request} (h : takeStep runText s (.control request) = .ok (answer, t)) :
    ∃ db, perform runText s.control request = .ok (answer, db) ∧ t = s.answered request answer db := by
  obtain ⟨result, hresult, h⟩ := Except.bind_eq_ok.1 h
  cases h
  exact ⟨result.2, hresult, rfl⟩

theorem takeStep_authorize {destination : String} {now commitClock : Instant}
    (h : takeStep runText s (.authorize destination now commitClock proof) = .ok (answer, t)) :
    ∃ rows, admitWrite now commitClock (s.rows destination) proof = .ok rows ∧ t = s.admitted destination rows := by
  obtain ⟨rows, hrows, h⟩ := Except.bind_eq_ok.1 h
  cases h
  exact ⟨rows, hrows, rfl⟩

theorem rows_admitted (s : System) (destination other : String) (rows : Destination) :
    (s.admitted destination rows).rows other = if other = destination then rows else s.rows other := by
  show ((s.destinations.insert destination rows).get? other).getD IndexMap.empty = _
  rw [IndexMap.get?_insert]
  split_ifs <;> rfl

theorem step_onward {step : Step} (hsafe : Safe s) (hmade : WellMade s step) (h : takeStep runText s step = .ok (answer, t)) :
    Onward s t := by
  cases step with
  | control request =>
      obtain ⟨db, hperform, rfl⟩ := takeStep_control h
      exact ⟨((perform_effect hperform).advances_holdings hsafe.owned hmade).held, fun _ => le_rfl⟩
  | authorize destination now commitClock proof =>
      obtain ⟨rows, hadmit, rfl⟩ := takeStep_authorize h
      refine ⟨le_rfl, fun other => ?_⟩
      rw [rows_admitted]
      split_ifs with hother
      · rw [hother]
        exact (admitWrite_eq_ok hadmit).1
      · exact le_rfl

theorem step_safe {step : Step} (hsafe : Safe s) (hmade : WellMade s step) (h : takeStep runText s step = .ok (answer, t)) :
    Safe t := by
  cases step with
  | control request =>
      obtain ⟨db, hperform, rfl⟩ := takeStep_control h
      have heffect := perform_effect hperform
      obtain ⟨hle, hgiven⟩ := heffect.advances_holdings hsafe.owned hmade
      refine ⟨heffect.keeps_owned hsafe.owned hmade, ?_⟩
      show Fences.Logged ((s.issued ++ answer.issues.toList).map _) (holdingAt db.leases)
      cases hissues : answer.issues with
      | none =>
          rw [Option.toList_none, List.append_nil]
          exact hsafe.logged.advance hle
      | some proof =>
          rw [Option.toList_some, List.map_append]
          refine hsafe.logged.issue hle fun g hg => ?_
          obtain ⟨p, hp, rfl⟩ := List.mem_map.1 hg
          exact hgiven proof hissues p hp
  | authorize destination now commitClock proof =>
      obtain ⟨rows, _, rfl⟩ := takeStep_authorize h
      exact ⟨hsafe.owned, hsafe.logged⟩

theorem run_safe {steps : List Step} (hmade : Machines.Meets (takeStep runText) WellMade s steps) (hsafe : Safe s) :
    Safe (Machines.run (takeStep runText) s steps) :=
  Machines.run_keeps (fun _ _ _ _ hsafe hmade h => step_safe hsafe hmade h) hsafe hmade

theorem run_onward {steps : List Step} (hmade : Machines.Meets (takeStep runText) WellMade s steps) (hsafe : Safe s) :
    Onward s (Machines.run (takeStep runText) s steps) :=
  Machines.run_relates Onward.refl (fun _ _ _ => Onward.trans) (fun _ _ _ _ hsafe hmade h => step_safe hsafe hmade h)
    (fun _ _ _ _ hsafe hmade h => step_onward hsafe hmade h) hsafe hmade

theorem Authorized.holds {session : Session} {db : Store} {u : UnitId} {a : Uuid} {w : WorkItem}
    (h : Authorized session db u a proof w) {x : String} (hx : x ∈ w.resources) :
    (holdingAt db.leases x).holder = some (u.run, a) := by
  have hcovers := h.covers
  rw [coversResources, Bool.and_eq_true, decide_eq_true_eq, decide_eq_true_eq] at hcovers
  obtain ⟨hlength, hdistinct⟩ := hcovers
  have hself : (proof.map LeaseProof.resource).dedup = proof.map LeaseProof.resource :=
    (List.dedup_sublist _).eq_of_length (by rw [hdistinct, List.length_map, hlength])
  have hnodup : (proof.map LeaseProof.resource).Nodup := hself ▸ List.nodup_dedup _
  have hsubset : proof.map LeaseProof.resource ⊆ w.resources := by
    intro y hy
    obtain ⟨p, hp, rfl⟩ := List.mem_map.1 hy
    exact (h.held p hp).1
  have hperm : (proof.map LeaseProof.resource).Perm w.resources :=
    (List.subperm_of_subset hnodup hsubset).perm_of_length_le (by rw [List.length_map, hlength])
  obtain ⟨p, hp, rfl⟩ := List.mem_map.1 (hperm.mem_iff.2 hx)
  obtain ⟨l, hl, hheld, _⟩ := (h.held p hp).2
  rw [holdingAt, hl]
  exact congrArg Holding.holder (holding_of_heldBy hheld)

/-- At most one run and attempt pass the authority check for a resource, whenever they are checked. -/
def OneHolder (db : Store) : Prop :=
  ∀ session session' u u' a a' proof proof' w w' x, authority session db u a proof = .ok () →
    authority session' db u' a' proof' = .ok () → db.work.get? u = some w → db.work.get? u' = some w' →
    x ∈ w.resources → x ∈ w'.resources → (u.run, a) = (u'.run, a')

theorem oneHolder (db : Store) : OneHolder db := by
  intro session session' u u' a a' proof proof' w w' x h h' hw hw' hx hx'
  obtain ⟨v, hauthorized⟩ := authority_eq_ok h
  obtain ⟨v', hauthorized'⟩ := authority_eq_ok h'
  cases hauthorized.found.symm.trans hw
  cases hauthorized'.found.symm.trans hw'
  exact Option.some.inj ((hauthorized.holds hx).symm.trans (hauthorized'.holds hx'))

/-- No token decreases, and a new holder comes with a larger one. -/
def TokensGrow (db db' : Store) : Prop :=
  ∀ x, (holdingAt db.leases x).token ≤ (holdingAt db'.leases x).token ∧
    ((holdingAt db.leases x).holder ≠ (holdingAt db'.leases x).holder →
      (holdingAt db.leases x).token < (holdingAt db'.leases x).token)

/-- A destination refuses every proof of another attempt for a resource of the one it admitted, if it was issued earlier. -/
def ShutsOut (runText : Uuid → String) (s : System) (destination : String) (proof : List LeaseProof) : Prop :=
  ∀ (i j : Nat) (other : List LeaseProof) (p p' : LeaseProof) (now commitClock : Instant), s.issued[i]? = some proof →
    s.issued[j]? = some other → j < i → p ∈ proof → p' ∈ other → p'.resource = p.resource → p'.attempt ≠ p.attempt →
    ∃ refusal, takeStep runText s (.authorize destination now commitClock other) = .error refusal

theorem shutsOut_of_admitted {destination : String} (hsafe : Safe s)
    (hadmitted : ∀ p ∈ proof, p.grant.holding ≤ admittedAt (s.rows destination) p.resource) :
    ShutsOut runText s destination proof := by
  intro i j other p p' now commitClock hi hj hearlier hp hp' hresource hattempt
  obtain ⟨⟨answer, t⟩, hok⟩ | herror := Except.eq_ok_or_error (takeStep runText s (.authorize destination now commitClock other))
  · obtain ⟨rows, hadmit, _⟩ := takeStep_authorize hok
    have hadmits := ((admitWrite_eq_ok hadmit).2 p' hp').1
    have hlog : ∀ {k : Nat} {grants : List LeaseProof}, s.issued[k]? = some grants →
        (s.issued.map (List.map LeaseProof.grant))[k]? = some (grants.map LeaseProof.grant) := by
      intro k grants hk
      rw [List.getElem?_map, hk]
      rfl
    have hother : p'.grant.holder ≠ p.grant.holder := fun h => hattempt (congrArg Prod.snd h)
    refine absurd ?_ (hsafe.logged.refused (hlog hi) (hlog hj) hearlier (List.mem_map_of_mem hp) (List.mem_map_of_mem hp')
      hresource hother (hadmitted p hp))
    rw [← hresource]
    exact hadmits
  · exact herror

/-- Over every interleaving of control calls and destination checks, one attempt at a time has authority over a resource, its token grows with each new holder, and a destination that admitted a proof never again admits one issued earlier to another attempt. -/
theorem leases_fence (runText : Uuid → String) (front back : List Step)
    (hmade : Machines.Meets (takeStep runText) WellMade .empty (front ++ back)) :
    OneHolder (Machines.run (takeStep runText) .empty front).control ∧
      TokensGrow (Machines.run (takeStep runText) .empty front).control
        (Machines.run (takeStep runText) .empty (front ++ back)).control ∧
      ∀ destination now commitClock proof rest result, back = .authorize destination now commitClock proof :: rest →
        takeStep runText (Machines.run (takeStep runText) .empty front) (.authorize destination now commitClock proof)
          = .ok result →
        ShutsOut runText (Machines.run (takeStep runText) .empty (front ++ back)) destination proof := by
  obtain ⟨hfront, hback⟩ := Machines.meets_append.1 hmade
  have hsafe := run_safe hfront safe_empty
  rw [Machines.run_append]
  refine ⟨oneHolder _, fun x => ?_, ?_⟩
  · have hle := (run_onward hback hsafe).held x
    exact ⟨Holding.token_le hle, Holding.lt_of_holder_ne hle⟩
  · intro destination now commitClock proof rest ⟨answer, next⟩ hsplit hadmits
    subst hsplit
    rw [Machines.run_cons, Machines.after_of_ok hadmits]
    obtain ⟨hmade, hrest⟩ := hback
    rw [Machines.after_of_ok hadmits] at hrest
    have hnext := step_safe hsafe hmade hadmits
    refine shutsOut_of_admitted (run_safe hrest hnext) fun p hp => ?_
    obtain ⟨rows, hadmit, rfl⟩ := takeStep_authorize hadmits
    have hrow := ((admitWrite_eq_ok hadmit).2 p hp).2
    refine le_trans ?_ ((run_onward hrest hnext).admitted destination p.resource)
    rw [rows_admitted, if_pos rfl]
    exact hrow

/-- An attempt claims a unit; once its lease lapsed another attempt does. -/
def takeoverSteps : List Step :=
  [.control (sampleStart 1 ["copy"] [sampleEntry "copy" "a" 0 .null]), .control (sampleClaim ⟨1, "copy", "a"⟩ 11 [] 0),
    .control (sampleClaim ⟨1, "copy", "a"⟩ 12 [] 3000000)]

/-- The destination is shown the new attempt's proof, and then the old one's. -/
def lateSteps : List Step :=
  [.authorize "gold" 1 1 (sampleProof ⟨1, "copy", "a"⟩ 12 2 3000000), .authorize "gold" 1 1 (sampleProof ⟨1, "copy", "a"⟩ 11 1 0)]

/-- A destination that admitted the attempt that took a unit over refuses the one it was taken from, whose proof has not expired there. -/
theorem leases_fence_takeover :
    ShutsOut toString (Machines.run (takeStep toString) .empty (takeoverSteps ++ lateSteps)) "gold"
      (sampleProof ⟨1, "copy", "a"⟩ 12 2 3000000) :=
  (leases_fence toString takeoverSteps lateSteps (by decide +kernel)).2.2 "gold" 1 1 _ _ _ rfl rfl

end EdgarPlatform.Bookkeeping
