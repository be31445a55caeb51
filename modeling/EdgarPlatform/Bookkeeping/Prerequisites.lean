import EdgarPlatform.Bookkeeping.Engine

/-!
# Work and what it rests on

A claim tests the units its prerequisites have when it is made. A step can gain units later: an unfinished unit expands into it, or into a step it requires, whose new units may expand into it in turn. A prerequisite that has units is closed, as those were claimed after the steps it requires were finished. One that has none passes the test all the same, and a unit that rests on it starts before its work is there. Where no claim is made so, started work rests on verified work, in every state a run reaches.
-/

namespace EdgarPlatform.Bookkeeping

open Records (Json)

def WorkState.started : WorkState → Bool
  | .running => true
  | .reported => true
  | .verified => true
  | _ => false

/-- A step of a run can gain units. -/
inductive Open (platform : Platform) (db : Store) (r : Uuid) : String → Prop
  | direct {step : StepConfig} {u : UnitId} {w : WorkItem} (configured : step ∈ (platform.config r).steps)
      (found : db.work.get? u = some w) (run : u.run = r) (requires : u.step ∈ step.requires) (unverified : w.state ≠ .verified)
      (expands : generatedStep w.unit = some step.name) : Open platform db r step.name
  | through {step : StepConfig} {before : String} (configured : step ∈ (platform.config r).steps)
      (requires : before ∈ step.requires) (opens : Open platform db r before) : Open platform db r step.name

def HasUnits (db : Store) (r : Uuid) (step : String) : Prop := ∃ u w, db.work.get? u = some w ∧ u.run = r ∧ u.step = step

/-- A claim that takes its unit comes when each prerequisite has units or can gain none. -/
def AwaitsUnits (platform : Platform) (db : Store) (request : Request) : Prop :=
  match request.call with
  | .claim u a seconds prereqs => ∀ w leases proof, Claimed request.session db u a seconds prereqs w leases proof →
      ∀ y ∈ prereqs, HasUnits db u.run y ∨ ¬ Open platform db u.run y
  | _ => True

/-- Where a unit was started, every unit of every step its step requires is verified. -/
def RestsOnVerified (platform : Platform) (db : Store) : Prop :=
  ∀ u w, db.work.get? u = some w → w.state.started = true →
    ∀ step ∈ (platform.config u.run).steps, step.name = u.step → ∀ y ∈ step.requires,
      ∀ v x, db.work.get? v = some x → v.run = u.run → v.step = y → x.state = .verified

variable {runText : Uuid → String} {platform : Platform} {db db' : Store} {request : Request} {answer : Answer}

/-- A step of a run is finished for good: its units are verified, and it gains no others. -/
structure Settled (platform : Platform) (db : Store) (r : Uuid) (y : String) : Prop where
  verified : ∀ v x, db.work.get? v = some x → v.run = r → v.step = y → x.state = .verified
  closed : ¬ Open platform db r y

/-- Where a unit was started, every step its step requires is finished for good. -/
structure Rests (platform : Platform) (db : Store) : Prop where
  kept : Kept platform db
  settled : ∀ u w, db.work.get? u = some w → w.state.started = true →
    ∀ step ∈ (platform.config u.run).steps, step.name = u.step → ∀ y ∈ step.requires, Settled platform db u.run y

theorem rests_empty (platform : Platform) : Rests platform .empty := by
  refine ⟨kept_empty platform, ?_⟩
  intro u w hw
  cases hw

theorem Rests.closed_of_started (h : Rests platform db) {v : UnitId} {x : WorkItem} (hx : db.work.get? v = some x)
    (hstarted : x.state.started = true) : ¬ Open platform db v.run v.step := by
  intro hopen
  generalize hstep : v.step = y at hopen
  cases hopen with
  | direct configured found run requires unverified expands =>
      exact unverified ((h.settled v x hx hstarted _ configured hstep.symm _ requires).verified _ _ found run rfl)
  | through configured requires opens => exact (h.settled v x hx hstarted _ configured hstep.symm _ requires).closed opens

theorem Open.before (hkept : Kept platform db) (hmakes : platform.Makes db request)
    (hresult : perform runText db request = .ok (answer, db')) {r : Uuid} {y : String}
    (hrun : ∃ u w, db.work.get? u = some w ∧ u.run = r) (h : Open platform db' r y) : Open platform db r y := by
  induction h with
  | @direct step u w' configured found run requires unverified expands =>
      cases hw : db.work.get? u with
      | some w =>
          obtain ⟨w'', hw'', hmoved⟩ | ⟨hnone, _⟩ := (perform_effect hresult).moves hw
          · cases found.symm.trans hw''
            refine .direct configured hw run requires (fun hverified => ?_) (hmoved.unit_same ▸ expands)
            exact unverified (hmoved.verified_same hverified ▸ hverified)
          · rw [found] at hnone
            cases hnone
      | none =>
          obtain ⟨_, _, hgains⟩ := hkept.gains hmakes hresult hw found
          cases hgains with
          | started first =>
              obtain ⟨v, x, hx, hv⟩ := hrun
              exact absurd (hv.trans run.symm) (first v x hx)
          | generated call parent completable runs step listed unit row ordinal chosen =>
              obtain ⟨selected, hselected, hname, hparent⟩ := chosen
              rw [run] at runs hselected
              refine .through configured requires ?_
              rw [← hname] at step ⊢
              exact .direct hselected parent runs hparent completable.unverified step
  | through configured requires _ ih => exact .through configured requires ih

theorem Settled.step {r : Uuid} {y : String} (h : Settled platform db r y) (hkept : Kept platform db)
    (hmakes : platform.Makes db request) (hresult : perform runText db request = .ok (answer, db'))
    (hrun : ∃ u w, db.work.get? u = some w ∧ u.run = r) : Settled platform db' r y := by
  refine ⟨fun v x' hx' hv hy => ?_, fun hopen => h.closed (hopen.before hkept hmakes hresult hrun)⟩
  cases hx : db.work.get? v with
  | some x =>
      have hverified := h.verified v x hx hv hy
      obtain ⟨x'', hx'', hmoved⟩ | ⟨hnone, _⟩ := (perform_effect hresult).moves hx
      · cases hx'.symm.trans hx''
        rw [hmoved.verified_same hverified]
        exact hverified
      · rw [hx'] at hnone
        cases hnone
  | none =>
      obtain ⟨_, _, hgains⟩ := hkept.gains hmakes hresult hx hx'
      cases hgains with
      | started first =>
          obtain ⟨u, w, hw, hu⟩ := hrun
          exact absurd (hu.trans hv.symm) (first u w hw)
      | generated call parent completable runs step listed unit row ordinal chosen =>
          obtain ⟨selected, hselected, hname, hparent⟩ := chosen
          rw [hv] at runs hselected
          refine absurd ?_ h.closed
          rw [← hy, ← hname]
          exact .direct hselected parent runs hparent completable.unverified (step.trans (congrArg some hname.symm))

theorem Rests.claimed (h : Rests platform db) (hawaits : AwaitsUnits platform db request) {u : UnitId} {a : Uuid}
    {seconds : Int} {prereqs : List String} {w : WorkItem} {leases : IndexMap String Lease} {proof : List LeaseProof}
    (hcall : request.call = .claim u a seconds prereqs)
    (hclaimed : Claimed request.session db u a seconds prereqs w leases proof) {y : String} (hy : y ∈ prereqs) :
    Settled platform db u.run y := by
  have hverified := requirePrerequisites_eq_ok hclaimed.prerequisites y hy
  refine ⟨hverified, ?_⟩
  rw [AwaitsUnits, hcall] at hawaits
  obtain ⟨v, x, hx, hv, hstep⟩ | hclosed := hawaits w leases proof hclaimed y hy
  · rw [← hv, ← hstep]
    refine h.closed_of_started hx ?_
    rw [hverified v x hx hv hstep]
    rfl
  · exact hclosed

theorem Rests.step (hvalid : platform.Validated) (h : Rests platform db) (hmakes : platform.Makes db request)
    (hawaits : AwaitsUnits platform db request) (hresult : perform runText db request = .ok (answer, db')) :
    Rests platform db' := by
  refine ⟨h.kept.step hmakes hresult, fun u w' hw' hstarted step hstep hname y hy => ?_⟩
  cases hw : db.work.get? u with
  | none =>
      rw [(h.kept.gains hmakes hresult hw hw').1] at hstarted
      cases hstarted
  | some w =>
      suffices hsettled : Settled platform db u.run y from hsettled.step h.kept hmakes hresult ⟨u, w, hw, rfl⟩
      by_cases hbefore : w.state.started = true
      · exact h.settled u w hw hbefore step hstep hname y hy
      · obtain ⟨w'', hw'', hmoved⟩ | ⟨hnone, _⟩ := (perform_effect hresult).moves hw
        · cases hw'.symm.trans hw''
          cases hmoved with
          | same => exact absurd hstarted hbefore
          | claimed call claimed =>
              rw [Platform.Makes, call] at hmakes
              obtain ⟨other, hother, hsame, hrequires⟩ := hmakes
              cases step_eq_of_name (hvalid u.run) hstep hother (hname.trans hsame.symm)
              exact h.claimed hawaits call claimed (hrequires ▸ hy)
          | waited => cases hstarted
          | reported call authorized running =>
              rw [running] at hbefore
              exact absurd rfl hbefore
          | completed call reported =>
              rw [reported] at hbefore
              exact absurd rfl hbefore
          | sealed call reported =>
              rw [reported] at hbefore
              exact absurd rfl hbefore
        · rw [hw'] at hnone
          cases hnone

/-- In every run of the engine whose claims come after the units they await, started work rests on verified work. -/
theorem starts_after_prerequisites (runText : Uuid → String) (platform : Platform) (hvalid : platform.Validated)
    (calls : List Request) (hcalls : Machines.Meets (perform runText)
      (fun db request => platform.Makes db request ∧ AwaitsUnits platform db request) .empty calls) :
    RestsOnVerified platform (Machines.run (perform runText) .empty calls) := by
  have hrests : Rests platform (Machines.run (perform runText) .empty calls) :=
    Machines.run_keeps (fun _ _ _ _ h hcond hresult => h.step hvalid hcond.1 hcond.2 hresult) (rests_empty platform) hcalls
  intro u w hw hstarted step hstep hname y hy
  exact (hrests.settled u w hw hstarted step hstep hname y hy).verified

/-- A step that expands into the next one, which a third rests on. -/
def chainSteps : List StepConfig := [sampleStep "list" [], sampleStep "copy" ["list"], sampleStep "load" ["copy"]]

def chainExpansion : Expansion := ⟨⟨"list", "p", "copy", some (.num "0")⟩, [sampleUnit "c" .null]⟩

def chainStart : Request :=
  sampleStart 1 ["list", "copy", "load"]
    [sampleWorkEntry "list" "p" 0 (sampleExpands "copy" "0"), sampleWorkEntry "load" "d" 0 .null]

/-- The parent is worked on and expands into one unit of the middle step. -/
def chainExpand : List Request :=
  [sampleClaim ⟨1, "list", "p"⟩ 11 [] 0, sampleReport ⟨1, "list", "p"⟩ 11 1 0, sampleExpand [sampleWorkEntry "copy" "c" 0 .null]]

theorem chainStart_makes : (samplePlatform chainSteps chainExpansion).Makes .empty chainStart :=
  sampleStart_makes [("list", [sampleUnit "p" (sampleExpands "copy" "0")]), ("copy", []), ("load", [sampleUnit "d" .null])] _
    (by decide +kernel)

theorem chainClaim_makes (db : Store) (u : UnitId) (a : Uuid) (now : Instant) (step : StepConfig) (hstep : step ∈ chainSteps)
    (hname : step.name = u.step) : (samplePlatform chainSteps chainExpansion).Makes db (sampleClaim u a step.requires now) :=
  ⟨step, hstep, hname, rfl⟩

theorem chainSteps_valid : (samplePlatform chainSteps chainExpansion).Validated := fun _ => by
  show validate (sampleConfig chainSteps) = .ok ()
  decide +kernel

/-- The child is claimed after its parent is finished. -/
theorem starts_after_prerequisites_child :
    RestsOnVerified (samplePlatform chainSteps chainExpansion)
      (Machines.run (perform toString) .empty (chainStart :: chainExpand ++ [sampleClaim ⟨1, "copy", "c"⟩ 12 ["list"] 5])) := by
  refine starts_after_prerequisites toString _ chainSteps_valid _ (Machines.meets_append.2 ⟨⟨⟨chainStart_makes, trivial⟩, ⟨?_, ?_⟩,
    ⟨trivial, trivial⟩, ⟨sampleExpand_makes "0" (by decide +kernel) (by decide +kernel), trivial⟩, trivial⟩, ⟨?_, ?_⟩, trivial⟩)
  · exact chainClaim_makes _ ⟨1, "list", "p"⟩ 11 0 (sampleStep "list" []) (by decide) rfl
  · intro _ _ _ _ y hy
    cases hy
  · exact chainClaim_makes _ ⟨1, "copy", "c"⟩ 12 5 (sampleStep "copy" ["list"]) (by decide) rfl
  · intro _ _ _ _ y hy
    have hunit : ((Machines.run (perform toString) .empty (chainStart :: chainExpand)).work.get? ⟨1, "list", "p"⟩).isSome = true := by
      decide +kernel
    obtain ⟨x, hx⟩ := Option.isSome_iff_exists.1 hunit
    exact .inl ⟨_, x, hx, rfl, (List.mem_singleton.1 hy).symm⟩

/-- A unit is claimed while the step it rests on has no units yet, and the step gains one afterwards. -/
theorem claim_before_expansion :
    ¬ ∀ (platform : Platform), platform.Validated → ∀ calls : List Request,
      Machines.Meets (perform toString) platform.Makes .empty calls →
        RestsOnVerified platform (Machines.run (perform toString) .empty calls) := by
  intro h
  have hrests := h (samplePlatform chainSteps chainExpansion) chainSteps_valid
    (chainStart :: sampleClaim ⟨1, "load", "d"⟩ 12 ["copy"] 0 :: chainExpand) ?_
  · have hearly : ((Machines.run (perform toString) .empty
        (chainStart :: sampleClaim ⟨1, "load", "d"⟩ 12 ["copy"] 0 :: chainExpand)).work.get? ⟨1, "load", "d"⟩).map
          (fun w => w.state) = some .running := by
      decide +kernel
    have hlate : ((Machines.run (perform toString) .empty
        (chainStart :: sampleClaim ⟨1, "load", "d"⟩ 12 ["copy"] 0 :: chainExpand)).work.get? ⟨1, "copy", "c"⟩).map
          (fun w => w.state) = some .pending := by
      decide +kernel
    obtain ⟨w, hw, hrunning⟩ := Option.map_eq_some_iff.1 hearly
    obtain ⟨x, hx, hpending⟩ := Option.map_eq_some_iff.1 hlate
    have hverified := hrests _ w hw (by rw [hrunning]; rfl) (sampleStep "load" ["copy"]) (by decide) rfl "copy" (by decide) _ x hx
      rfl rfl
    rw [hpending] at hverified
    cases hverified
  · refine ⟨chainStart_makes, chainClaim_makes _ ⟨1, "load", "d"⟩ 12 0 (sampleStep "load" ["copy"]) (by decide) rfl,
      chainClaim_makes _ ⟨1, "list", "p"⟩ 11 0 (sampleStep "list" []) (by decide) rfl, trivial, ?_, trivial⟩
    exact sampleExpand_makes "0" (by decide +kernel) (by decide +kernel)

end EdgarPlatform.Bookkeeping
