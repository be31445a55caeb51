import EdgarPlatform.Bookkeeping.Moves

/-!
# Reported candidates

A reported unit belongs to verifiers: it should leave the reported state only by being verified with its candidate, or by the reporting attempt giving it up under live authority. The store keeps this but for two calls. A claim takes a reported unit whose leases lapsed, as it takes one that is running, and clears the candidate; and a note without an attempt sets such a unit waiting. In a run without these two, no candidate is lost.
-/

namespace EdgarPlatform.Bookkeeping

open Records (Json)

/-- Over a call, every reported unit stays reported with its candidate, is verified with it, or is given up by the reporting attempt under live authority. -/
def KeepsCandidates (db : Store) (request : Request) (db' : Store) : Prop :=
  ∀ u w, db.work.get? u = some w → w.state = .reported →
    (∃ w', db'.work.get? u = some w' ∧
      ((w'.state = .reported ∧ w'.candidate = w.candidate ∧ w'.attempt = w.attempt ∧ w'.reporter = w.reporter) ∨
        (w'.state = .verified ∧ namesCandidate w.candidate w'.receipt = true))) ∨
    ∃ message a proof, request.call = .waitWork u message (some a) proof ∧ w.attempt = some a ∧
      authority request.session db u a proof = .ok ()

def allLapsed (db : Store) (w : WorkItem) (now : Instant) : Bool :=
  w.resources.all fun x => !((db.leases.get? x).getD .fresh).live now

/-- A claim of the unit would be taken: nothing but its state could refuse it. -/
def Claimable (session : Session) (db : Store) (u : UnitId) (seconds : Int) (prereqs : List String) (w : WorkItem) : Prop :=
  checkSeconds seconds = .ok () ∧ require session db u [.worker] = .ok () ∧ requireExecutable db u.run = .ok () ∧
    requirePrerequisites db u.run prereqs = .ok () ∧ w.resources ≠ [] ∧ w.resources.Nodup ∧
    allLapsed db w session.clock = true

/-- A call is not one of the two that lose a candidate: a claim of a reported unit that nothing refuses, or a note without an attempt on a reported unit whose attempt holds no live lease. -/
def SparesReported (db : Store) (request : Request) : Prop :=
  match request.call with
  | .claim u _ seconds prereqs =>
      ∀ w, db.work.get? u = some w → w.state = .reported → ¬ Claimable request.session db u seconds prereqs w
  | .waitWork u _ none _ =>
      ∀ w, db.work.get? u = some w → w.state = .reported →
        ∃ a, w.attempt = some a ∧ anyLive db u.run a request.session.clock = true
  | .compact _ => False
  | _ => True

theorem claimable_of_claimed {session : Session} {db : Store} {u : UnitId} {a : Uuid} {seconds : Int}
    {prereqs : List String} {w : WorkItem} {leases : IndexMap String Lease} {proof : List LeaseProof}
    (h : Claimed session db u a seconds prereqs w leases proof) : Claimable session db u seconds prereqs w := by
  have hseconds := checkSeconds_eq_ok h.duration
  obtain ⟨hnodup, hlapsed⟩ := takeLeases_claim (by omega) h.taken
  refine ⟨h.duration, h.required, h.executable, h.prerequisites, h.resources, hnodup, ?_⟩
  rw [allLapsed, List.all_eq_true]
  intro x hx
  rw [hlapsed x hx]
  rfl

variable {runText : Uuid → String} {db db' : Store} {request : Request} {answer : Answer}

theorem keepsCandidates_refl (db : Store) (request : Request) : KeepsCandidates db request db := by
  intro u w hw hreported
  exact .inl ⟨w, hw, .inl ⟨hreported, rfl, rfl, rfl⟩⟩

theorem Effect.keepsCandidates (h : Effect db request answer db') (hspares : SparesReported db request) :
    KeepsCandidates db request db' := by
  intro u w hw hreported
  obtain ⟨w', hw', hmoved⟩ | ⟨_, days, hcompact⟩ := h.moves hw
  · cases hmoved with
    | same => exact .inl ⟨w, hw', .inl ⟨hreported, rfl, rfl, rfl⟩⟩
    | claimed call claimed =>
        rw [SparesReported, call] at hspares
        exact absurd (claimable_of_claimed claimed) (hspares w hw hreported)
    | @waited message attempt proof _ call unverified cause =>
        cases cause with
        | @given a proof authorized => exact .inr ⟨message, a, proof, call, authorized.attempt, authorized.accepted⟩
        | noted lapsed =>
            rw [SparesReported, call] at hspares
            obtain ⟨a, ha, hlive⟩ := hspares w hw hreported
            rw [lapsed a ha] at hlive
            cases hlive
    | reported call authorized running =>
        rw [running] at hreported
        cases hreported
    | completed call _ _ names => exact .inl ⟨_, hw', .inr ⟨rfl, names⟩⟩
    | sealed call _ _ names => exact .inl ⟨_, hw', .inr ⟨rfl, names⟩⟩
  · rw [SparesReported, hcompact] at hspares
    exact hspares.elim

/-- In a run whose calls all spare reported units, no call loses a candidate. -/
theorem reported_kept (runText : Uuid → String) (front back : List Request) (request : Request)
    (hspares : Machines.Meets (perform runText) SparesReported .empty (front ++ request :: back)) :
    KeepsCandidates (Machines.run (perform runText) .empty front) request
      (Machines.run (perform runText) .empty (front ++ [request])) := by
  have hrequest := (Machines.meets_append.1 hspares).2.1
  rw [Machines.run_append]
  show KeepsCandidates _ _ (Machines.after _ _ request)
  obtain heq | ⟨answer, hok⟩ := Machines.after_cases (perform runText)
    (Machines.run (perform runText) .empty front) request
  · rw [heq]
    exact keepsCandidates_refl _ _
  · exact (perform_effect hok).keepsCandidates hrequest

def reportedCalls : List Request :=
  [sampleStart 1 ["copy"] [sampleEntry "copy" "a" 0 .null], sampleClaim ⟨1, "copy", "a"⟩ 11 [] 0,
    sampleReport ⟨1, "copy", "a"⟩ 11 1 0]

/-- A verifier takes the lapsed lease of a reported unit again, and the unit keeps its candidate. -/
theorem reported_kept_reclaimed :
    KeepsCandidates (Machines.run (perform toString) .empty reportedCalls)
      ⟨verifierAt 3000000, .verifyClaim ⟨1, "copy", "a"⟩ 11 2⟩
      (Machines.run (perform toString) .empty (reportedCalls ++ [⟨verifierAt 3000000, .verifyClaim ⟨1, "copy", "a"⟩ 11 2⟩])) := by
  refine reported_kept toString reportedCalls [] _ ⟨trivial, ?_, trivial, trivial, trivial⟩
  intro w hw hreported
  have hstate : ((Machines.after (perform toString) .empty (sampleStart 1 ["copy"] [sampleEntry "copy" "a" 0 .null])).work.get?
      ⟨1, "copy", "a"⟩).map WorkItem.state = some .pending := by
    decide +kernel
  rw [hw, Option.map_some, hreported] at hstate
  cases hstate

/-- Once its lease lapsed, another attempt's claim takes a reported unit and its candidate is gone. -/
theorem claim_takes_reported :
    ¬ ∀ (front : List Request) (request : Request), KeepsCandidates (Machines.run (perform toString) .empty front) request
      (Machines.run (perform toString) .empty (front ++ [request])) := by
  intro h
  have hbefore : ((Machines.run (perform toString) .empty reportedCalls).work.get? ⟨1, "copy", "a"⟩).map WorkItem.state
      = some .reported := by
    decide +kernel
  have hafter : ((Machines.run (perform toString) .empty
      (reportedCalls ++ [sampleClaim ⟨1, "copy", "a"⟩ 12 [] 3000000])).work.get? ⟨1, "copy", "a"⟩).map WorkItem.state
      = some .running := by
    decide +kernel
  obtain ⟨w, hw, hreported⟩ := Option.map_eq_some_iff.1 hbefore
  obtain ⟨w', hw', hkept⟩ | ⟨message, a, proof, hcall, _⟩ := h reportedCalls _ _ w hw hreported
  · rw [hw', Option.map_some, Option.some.injEq] at hafter
    simp [hafter] at hkept
  · cases hcall

end EdgarPlatform.Bookkeeping
