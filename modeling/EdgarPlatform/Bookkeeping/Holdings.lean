import EdgarPlatform.Bookkeeping.Moves
import EdgarPlatform.Library.Fences

/-!
# Who holds a resource

A lease row names the run and attempt that hold a resource and the token they hold it under. A claim takes a resource under the next token, and a verifier keeps the token only while the same attempt's lease is live. So the holdings only advance, as long as one attempt belongs to one run: an attempt's rows and leases all name the run it was claimed for.
-/

namespace EdgarPlatform.Bookkeeping

open Records (Json)

def Lease.holding (l : Lease) : Holding (Uuid × Uuid) := ⟨l.token, Option.map₂ Prod.mk l.run l.attempt⟩

/-- The holding of a resource; one that was never leased is free. -/
def holdingAt (leases : IndexMap String Lease) (resource : String) : Holding (Uuid × Uuid) :=
  (leases.get? resource).elim .free Lease.holding

def LeaseProof.grant (p : LeaseProof) : Fences.Grant String (Uuid × Uuid) := ⟨p.resource, p.token, (p.run, p.attempt)⟩

/-- Every lease that carries an attempt names the attempt's run. -/
def LeasesOwned (owner : Uuid → Option Uuid) (leases : IndexMap String Lease) : Prop :=
  ∀ x l a, leases.get? x = some l → l.attempt = some a → ∃ r, l.run = some r ∧ owner a = some r

/-- Every unit and every lease that carries an attempt names the attempt's run. -/
structure Owned (owner : Uuid → Option Uuid) (db : Store) : Prop where
  work : ∀ u w a, db.work.get? u = some w → w.attempt = some a → owner a = some u.run
  leases : LeasesOwned owner db.leases

def OneRun (r a : Uuid) (l : Option Lease) : Prop := ∀ held, l = some held → held.attempt = some a → held.run = some r

/-- A way to grant tokens that only advances: what it grants to an attempt follows what was held. -/
def Advances (grant : Option Lease → Except Refusal Nat) (r a : Uuid) : Prop :=
  ∀ l token, OneRun r a l → grant l = .ok token → l.elim .free Lease.holding ≤ ⟨token, some (r, a)⟩

theorem claimToken_advances (now : Instant) (r a : Uuid) : Advances (claimToken now) r a := by
  intro l token _ htoken
  rw [claimToken, Except.ite_error_eq_ok, Except.ok.injEq] at htoken
  refine .inl ?_
  rw [← htoken.2]
  cases l with
  | none => exact Nat.zero_lt_one
  | some l => exact Nat.lt_succ_self l.token

theorem verifyToken_advances (now : Instant) (r a : Uuid) : Advances (verifyToken now a) r a := by
  intro l token hrun htoken
  cases l with
  | none => cases htoken
  | some l =>
      rw [verifyToken, Except.ite_error_eq_ok, Except.ok.injEq] at htoken
      rw [← htoken.2]
      by_cases hlive : l.attempt = some a ∧ l.live now = true
      · rw [if_pos hlive]
        refine .inr ?_
        simp [Lease.holding, hlive.1, hrun l rfl hlive.1]
      · rw [if_neg hlive]
        exact .inl (Nat.lt_succ_self l.token)

theorem holdingAt_insert (leases : IndexMap String Lease) (x y : String) (l : Lease) :
    holdingAt (leases.insert x l) y = if y = x then l.holding else holdingAt leases y := by
  rw [holdingAt, IndexMap.get?_insert]
  split_ifs <;> rfl

variable {grant : Option Lease → Except Refusal Nat}

variable {r a : Uuid} {resources : List String} {proof : List LeaseProof}

/-- Leases taken with tokens that advance: holdings advance, and each proof is given between what was held and what is. -/
theorem takeLeases_given {now seconds : Int}
    {leases leases' : IndexMap String Lease}
    (hgrant : Advances grant r a) (hrun : ∀ x, OneRun r a (leases.get? x))
    (h : takeLeases grant r a now seconds leases resources = .ok (leases', proof)) :
    holdingAt leases ≤ holdingAt leases' ∧ ∀ p ∈ proof, p.grant.Given (holdingAt leases) (holdingAt leases') := by
  have hfold := Runs.run_invariant
    (fun _ (taken : IndexMap String Lease × List LeaseProof) => (∀ x, OneRun r a (taken.1.get? x)) ∧
      holdingAt leases ≤ holdingAt taken.1 ∧ ∀ p ∈ taken.2, p.grant.Given (holdingAt leases) (holdingAt taken.1))
    h ⟨hrun, le_rfl, by simp⟩ ?_
  · exact hfold.2
  · intro front x back mid next _ ⟨hmid, hle, hgiven⟩ hnext
    obtain ⟨token, htoken, hnext⟩ := Except.bind_eq_ok.1 hnext
    cases hnext
    have hx : holdingAt mid.1 x ≤ ⟨token, some (r, a)⟩ := hgrant _ token (hmid x) htoken
    have hnext : holdingAt mid.1 ≤ holdingAt (mid.1.insert x (grantLease token r a now seconds)) := by
      intro y
      rw [holdingAt_insert]
      split_ifs with hy
      · rw [hy]
        exact hx
      · exact le_rfl
    refine ⟨fun y => ?_, hle.trans hnext, fun p hp => ?_⟩
    · rw [IndexMap.get?_insert]
      split_ifs
      · intro held hheld _
        cases hheld
        rfl
      · exact hmid y
    · obtain hp | hp := List.mem_append.1 hp
      · exact ⟨(hgiven p hp).1, (hgiven p hp).2.trans (hnext _)⟩
      · rw [List.mem_singleton.1 hp]
        refine ⟨(hle x).trans hx, ?_⟩
        show _ ≤ holdingAt (mid.1.insert x _) x
        rw [holdingAt_insert, if_pos rfl]
        exact le_rfl

variable {leases : IndexMap String Lease}

theorem holding_mapValues {f : Lease → Lease} (hf : ∀ l, (f l).holding = l.holding) :
    holdingAt (leases.mapValues f) = holdingAt leases := by
  funext x
  rw [holdingAt, holdingAt, IndexMap.get?_mapValues]
  cases leases.get? x with
  | none => rfl
  | some l => exact hf l

theorem holdingAt_renewLeases (leases : IndexMap String Lease) (r a : Uuid) (now seconds : Int) :
    holdingAt (renewLeases leases r a now seconds) = holdingAt leases := by
  refine holding_mapValues fun l => ?_
  split_ifs <;> rfl

theorem holdingAt_expireLeases (leases : IndexMap String Lease) (r a : Uuid) (now : Instant) :
    holdingAt (expireLeases leases r a now) = holdingAt leases := by
  refine holding_mapValues fun l => ?_
  split_ifs <;> rfl

theorem holding_of_heldBy {l : Lease} (h : l.heldBy r a = true) : l.holding = ⟨l.token, some (r, a)⟩ := by
  rw [Lease.heldBy, Bool.and_eq_true, decide_eq_true_eq, decide_eq_true_eq] at h
  rw [Lease.holding, h.1, h.2]
  rfl

theorem heldProofs_given {p : LeaseProof} (hp : p ∈ heldProofs leases r a) :
    p.grant.holding = holdingAt leases p.grant.resource := by
  rw [heldProofs, Sorting.mem_sortByKey, List.mem_filterMap] at hp
  obtain ⟨entry, hentry, hp⟩ := hp
  split_ifs at hp with hheld
  obtain ⟨expiry, _, rfl⟩ := Option.map_eq_some_iff.1 hp
  show _ = holdingAt leases entry.1
  rw [holdingAt, IndexMap.get?_eq_some_iff.2 hentry]
  exact (holding_of_heldBy hheld).symm

variable {runText : Uuid → String} {db db' : Store} {request : Request} {answer : Answer} {owner : Uuid → Option Uuid}

def Answer.issues : Answer → Option (List LeaseProof)
  | .proof held => held
  | _ => none

/-- Over a call, holdings advance and what it issues is given. -/
structure Advanced (db : Store) (answer : Answer) (db' : Store) : Prop where
  held : holdingAt db.leases ≤ holdingAt db'.leases
  given : ∀ proof, answer.issues = some proof → ∀ p ∈ proof, p.grant.Given (holdingAt db.leases) (holdingAt db'.leases)

theorem advanced_of_eq (h : holdingAt db'.leases = holdingAt db.leases) (hanswer : answer.issues = none) :
    Advanced db answer db' := by
  refine ⟨h ▸ le_rfl, fun proof hproof => ?_⟩
  rw [hanswer] at hproof
  cases hproof

theorem advanced_of_taken {now seconds : Int}
    (hgrant : Advances grant r a)
    (hrun : ∀ x, OneRun r a (db.leases.get? x))
    (h : takeLeases grant r a now seconds db.leases resources = .ok (db'.leases, proof)) :
    Advanced db (.proof (some proof)) db' := by
  obtain ⟨hle, hgiven⟩ := takeLeases_given hgrant hrun h
  refine ⟨hle, fun issued hissued => ?_⟩
  cases hissued
  exact hgiven

def Call.claimant : Call → Option (Uuid × Uuid)
  | .claim u a _ _ => some (a, u.run)
  | _ => none

def NewAttempt (owner : Uuid → Option Uuid) (call : Call) : Bool := call.claimant.all fun claim => (owner claim.1).isNone

theorem Owned.oneRun (h : Owned owner db) (ha : owner a = none ∨ owner a = some r) (x : String) :
    OneRun r a (db.leases.get? x) := by
  intro l hl hattempt
  obtain ⟨r', hrun, howner⟩ := h.leases x l a hl hattempt
  obtain ha | ha := ha <;> rw [ha] at howner <;> cases howner
  exact hrun

theorem Effect.advances_holdings (h : Effect db request answer db') (howned : Owned owner db)
    (hnew : NewAttempt owner request.call = true) : Advanced db answer db' := by
  cases h with
  | unchanged noProof =>
      refine advanced_of_eq rfl ?_
      cases answer with
      | proof held =>
          cases held with
          | none => rfl
          | some held => exact absurd rfl (noProof held)
      | _ => rfl
  | started call found uncompacted inserted accounted =>
      refine advanced_of_eq ?_ rfl
      rw [(startEntries_adds inserted).leases, insertRun_eq]
  | @claimed u a seconds prereqs w leases proof call claimed =>
      have hfree : owner a = none := by simpa [NewAttempt, call, Call.claimant] using hnew
      exact advanced_of_taken (claimToken_advances _ u.run a) (howned.oneRun (.inl hfree)) claimed.taken
  | renewed call authorized =>
      refine ⟨(holdingAt_renewLeases ..).symm.le, fun proof hproof p hp => ?_⟩
      cases hproof
      have hp := heldProofs_given hp
      refine ⟨?_, hp.le⟩
      rw [hp, holdingAt_renewLeases]
  | waited call found unverified cause =>
      refine advanced_of_eq ?_ rfl
      cases cause with
      | given authorized => exact holdingAt_expireLeases ..
      | noted lapsed => rfl
  | reported call authorized named running pins =>
      refine advanced_of_eq ?_ rfl
      rw [pins.1]
  | @verifying u a seconds w leases proof call found reported attempt taken =>
      exact advanced_of_taken (verifyToken_advances _ u.run a) (howned.oneRun (.inr (howned.work u w a found attempt))) taken
  | pinned pins =>
      refine advanced_of_eq ?_ rfl
      rw [pins.1]
  | completed call authorized completed =>
      refine advanced_of_eq ?_ rfl
      rw [completed.leases, holdingAt_expireLeases]
  | advanced call authorized range leased opens agrees completed written =>
      refine advanced_of_eq ?_ rfl
      rw [writeResource_eq written, completed.leases, holdingAt_expireLeases, openCheckpoint_eq opens]
  | repeated call found verified sealed evidence inserted =>
      refine advanced_of_eq ?_ rfl
      rw [(insertChildren_adds inserted).leases]
  | expanded call other keys generated authorized expanded =>
      refine advanced_of_eq ?_ rfl
      rw [expanded.leases, holdingAt_expireLeases]
  | recorded => exact advanced_of_eq rfl rfl
  | resumed => exact advanced_of_eq rfl rfl
  | blocked => exact advanced_of_eq rfl rfl
  | delivered => exact advanced_of_eq rfl rfl
  | compacted call compacts =>
      refine advanced_of_eq ?_ rfl
      rw [compacts.leases]

/-- The attempts' runs after a call: a claim that took its unit claimed for its attempt. -/
def claimedFor (owner : Uuid → Option Uuid) (call : Call) (answer : Answer) : Uuid → Option Uuid :=
  match call.claimant with
  | some (a, r) => if answer.issues.isSome then Function.update owner a (some r) else owner
  | none => owner

theorem claimedFor_keeps (hnew : NewAttempt owner request.call = true) {a r : Uuid} (ha : owner a = some r) :
    claimedFor owner request.call answer a = some r := by
  rw [claimedFor]
  cases hclaim : request.call.claimant with
  | none => exact ha
  | some claim =>
      have hfree : owner claim.1 = none := by simpa [NewAttempt, hclaim] using hnew
      have hne : a ≠ claim.1 := by
        rintro rfl
        rw [hfree] at ha
        cases ha
      show (if answer.issues.isSome = true then Function.update owner claim.1 (some claim.2) else owner) a = some r
      split_ifs
      · rw [Function.update_of_ne hne, ha]
      · exact ha

theorem claimedFor_claim {u : UnitId} {a : Uuid} {seconds : Int} {prereqs : List String}
    {held : List LeaseProof} (hcall : request.call = .claim u a seconds prereqs) (hissues : answer.issues = some held) :
    claimedFor owner request.call answer a = some u.run := by
  simp [claimedFor, hcall, hissues, Call.claimant]

theorem LeasesOwned.mono {owner' : Uuid → Option Uuid} (h : LeasesOwned owner leases)
    (hkeeps : ∀ a r, owner a = some r → owner' a = some r) : LeasesOwned owner' leases := by
  intro x l a hl ha
  obtain ⟨r, hrun, howner⟩ := h x l a hl ha
  exact ⟨r, hrun, hkeeps a r howner⟩

theorem LeasesOwned.mapValues {f : Lease → Lease} (h : LeasesOwned owner leases)
    (hf : ∀ l, (f l).run = l.run ∧ (f l).attempt = l.attempt) : LeasesOwned owner (leases.mapValues f) := by
  intro x l a hl ha
  rw [IndexMap.get?_mapValues] at hl
  obtain ⟨old, hold, rfl⟩ := Option.map_eq_some_iff.1 hl
  rw [(hf old).2] at ha
  rw [(hf old).1]
  exact h x old a hold ha

theorem LeasesOwned.renew (h : LeasesOwned owner leases) (r a : Uuid) (now seconds : Int) :
    LeasesOwned owner (renewLeases leases r a now seconds) := by
  refine h.mapValues fun l => ?_
  split_ifs <;> exact ⟨rfl, rfl⟩

theorem LeasesOwned.expire (h : LeasesOwned owner leases) (r a : Uuid) (now : Instant) :
    LeasesOwned owner (expireLeases leases r a now) := by
  refine h.mapValues fun l => ?_
  split_ifs <;> exact ⟨rfl, rfl⟩

theorem LeasesOwned.taken {now seconds : Int}
    {leases leases' : IndexMap String Lease}
    (h : LeasesOwned owner leases) (ha : owner a = some r)
    (htaken : takeLeases grant r a now seconds leases resources = .ok (leases', proof)) : LeasesOwned owner leases' := by
  obtain ⟨hkept, hgranted⟩ := takeLeases_invariant htaken
  intro x l b hl hb
  by_cases hx : x ∈ resources
  · obtain ⟨token, htoken⟩ := hgranted x hx
    cases hl.symm.trans htoken
    cases hb
    exact ⟨r, rfl, ha⟩
  · rw [hkept x hx] at hl
    exact h x l b hl hb

theorem Effect.claim_issues (h : Effect db request answer db') {u : UnitId} {a : Uuid} {seconds : Int}
    {prereqs : List String} (hclaim : request.call = .claim u a seconds prereqs) :
    db'.work = db.work ∨ ∃ held, answer.issues = some held := by
  cases h
  case unchanged => exact .inl rfl
  case claimed => exact .inr ⟨_, rfl⟩
  case pinned pins => exact .inl (by rw [pins.1])
  all_goals simp_all

theorem Effect.attempt_cases (h : Effect db request answer db') {u : UnitId} {x : WorkItem} {a : Uuid}
    (hx : db'.work.get? u = some x) (ha : x.attempt = some a) :
    (∃ w, db.work.get? u = some w ∧ w.attempt = some a) ∨
      ∃ seconds prereqs held, request.call = .claim u a seconds prereqs ∧ answer.issues = some held := by
  cases hw : db.work.get? u with
  | none =>
      obtain ⟨_, _, entry, _, _, rfl⟩ := h.new hw hx
      cases ha
  | some w =>
      obtain ⟨w', hw', hmoved⟩ | ⟨hnone, _⟩ := h.moves hw
      · cases hw'.symm.trans hx
        cases hmoved with
        | same => exact .inl ⟨x, rfl, ha⟩
        | @claimed b seconds prereqs _ _ call claimed =>
            obtain hsame | ⟨held, hheld⟩ := h.claim_issues call
            · rw [hsame, hw] at hx
              rw [← Option.some.inj hx] at ha
              exact .inl ⟨w, rfl, ha⟩
            · have hb : b = a := by
                rw [claimedWork] at ha
                split_ifs at ha <;> exact Option.some.inj ha
              subst hb
              exact .inr ⟨seconds, prereqs, held, call, hheld⟩
        | waited => exact .inl ⟨w, rfl, ha⟩
        | reported => exact .inl ⟨w, rfl, ha⟩
        | completed => exact .inl ⟨w, rfl, ha⟩
        | sealed => exact .inl ⟨w, rfl, ha⟩
      · rw [hnone] at hx
        cases hx

theorem Effect.keeps_owned (h : Effect db request answer db') (howned : Owned owner db)
    (hnew : NewAttempt owner request.call = true) : Owned (claimedFor owner request.call answer) db' := by
  have hkeeps : ∀ a r, owner a = some r → claimedFor owner request.call answer a = some r :=
    fun a r => claimedFor_keeps hnew
  refine ⟨fun u x a hx ha => ?_, ?_⟩
  · obtain ⟨w, hw, hold⟩ | ⟨seconds, prereqs, held, hcall, hheld⟩ := h.attempt_cases hx ha
    · exact hkeeps a u.run (howned.work u w a hw hold)
    · exact claimedFor_claim hcall hheld
  · have hleases := howned.leases.mono hkeeps
    cases h with
    | unchanged => exact hleases
    | started call found uncompacted inserted accounted =>
        rw [(startEntries_adds inserted).leases, insertRun_eq]
        exact hleases
    | claimed call claimed => exact hleases.taken (claimedFor_claim call rfl) claimed.taken
    | renewed => exact hleases.renew _ _ _ _
    | waited call found unverified cause =>
        cases cause with
        | given authorized => exact hleases.expire _ _ _
        | noted lapsed => exact hleases
    | reported call authorized named running pins =>
        rw [pins.1]
        exact hleases
    | @verifying u a seconds w leases proof call found reported attempt taken =>
        exact hleases.taken (hkeeps a u.run (howned.work u w a found attempt)) taken
    | pinned pins =>
        rw [pins.1]
        exact hleases
    | completed call authorized completed =>
        rw [completed.leases]
        exact hleases.expire _ _ _
    | advanced call authorized range leased opens agrees completed written =>
        rw [writeResource_eq written]
        show LeasesOwned _ _
        rw [completed.leases, openCheckpoint_eq opens]
        exact hleases.expire _ _ _
    | repeated call found verified sealed evidence inserted =>
        rw [(insertChildren_adds inserted).leases]
        exact hleases
    | expanded call other keys generated authorized expanded =>
        rw [expanded.leases]
        exact hleases.expire _ _ _
    | recorded => exact hleases
    | resumed => exact hleases
    | blocked => exact hleases
    | delivered => exact hleases
    | compacted call compacts =>
        rw [compacts.leases]
        exact hleases

end EdgarPlatform.Bookkeeping
