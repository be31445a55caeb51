import EdgarPlatform.Bookkeeping.Accounting
import EdgarPlatform.Bookkeeping.Resources

/-!
# Calls as the engine makes them

The engine starts a run with its frozen worklist, claims a unit with the steps its own step requires, and completes a unit by the kind its frozen cursor names: an expansion with the children its receipt's manifest freezes into. Of such calls none breaks the accounts: an expansion's children are determined by its receipt, so a repeat lists the stored ones.
-/

namespace EdgarPlatform.Bookkeeping

open Records (Json)

/-- What the engine reads besides the store: the configuration each run froze, and the expansion manifest a receipt names. -/
structure Platform where
  listText : ListText
  config : Uuid → Config
  expansions : Json → Option Expansion

def Platform.Validated (platform : Platform) : Prop := ∀ r, validate (platform.config r) = .ok ()

def parentOf (u : UnitId) (w : WorkItem) (childStep : String) : ParentRef :=
  ⟨u.step, u.key, childStep, (cursorOf w.unit).bind fun cursor => fieldOf cursor "ordinal_base"⟩

/-- The children of an expansion, frozen from the manifest its receipt names. -/
def Platform.children (platform : Platform) (u : UnitId) (w : WorkItem) (childStep : String) (receipt : Json) :
    Except String (List WorkEntry) :=
  (platform.expansions receipt).elim (.error "The artifact is not readable") fun manifest =>
    generatedWorklist platform.listText manifest (platform.config u.run) (parentOf u w childStep)

def Platform.Makes (platform : Platform) (db : Store) (request : Request) : Prop :=
  match request.call with
  | .startRun r _ _ items => ∃ manifest, worklist platform.listText manifest (platform.config r) = .ok items
  | .claim u _ _ prereqs => ∃ step ∈ (platform.config u.run).steps, step.name = u.step ∧ step.requires = prereqs
  | .finish u _ _ _ _ _ => ∀ w, db.work.get? u = some w → generatedStep w.unit = none
  | .finishResource u _ _ _ _ _ _ _ _ => ∀ w, db.work.get? u = some w → generatedStep w.unit = none
  | .finishExpand u _ _ receipt _ _ children childStep =>
      ∀ w, db.work.get? u = some w → generatedStep w.unit = some childStep ∧ platform.children u w childStep receipt = .ok children
  | _ => True

theorem blockUnless_eq_ok {condition : Bool} {message : String} {done : Unit} :
    blockUnless condition message = .ok done ↔ condition = true := by
  rw [blockUnless]
  split_ifs with h <;> simp [h]

theorem validateStep_eq_ok {seen names : List String} {step : StepConfig} (h : validateStep seen step = .ok names) :
    isIdentifier step.name = true ∧ step.name ∉ seen ∧ (∀ y ∈ step.requires, y ∈ seen) ∧ names = seen ++ [step.name] := by
  rw [validateStep] at h
  obtain ⟨_, hname, h⟩ := Except.bind_eq_ok.1 h
  obtain ⟨_, _, h⟩ := Except.bind_eq_ok.1 h
  obtain ⟨_, hrequires, h⟩ := Except.bind_eq_ok.1 h
  obtain ⟨_, _, h⟩ := Except.bind_eq_ok.1 h
  obtain ⟨_, _, h⟩ := Except.bind_eq_ok.1 h
  obtain ⟨_, _, h⟩ := Except.bind_eq_ok.1 h
  obtain ⟨_, _, h⟩ := Except.bind_eq_ok.1 h
  obtain ⟨_, _, h⟩ := Except.bind_eq_ok.1 h
  obtain ⟨_, _, h⟩ := Except.bind_eq_ok.1 h
  cases h
  simp only [blockUnless_eq_ok, Bool.and_eq_true, decide_eq_true_eq, List.all_eq_true] at hname hrequires
  exact ⟨hname.1, hname.2, hrequires.2, rfl⟩

variable {config : Config}

theorem validate_steps (h : validate config = .ok ()) :
    (∀ step ∈ config.steps, isIdentifier step.name = true) ∧ (config.steps.map StepConfig.name).Nodup := by
  rw [validate] at h
  obtain ⟨_, _, h⟩ := Except.bind_eq_ok.1 h
  obtain ⟨_, _, h⟩ := Except.bind_eq_ok.1 h
  obtain ⟨_, _, h⟩ := Except.bind_eq_ok.1 h
  obtain ⟨_, _, h⟩ := Except.bind_eq_ok.1 h
  obtain ⟨_, _, h⟩ := Except.bind_eq_ok.1 h
  obtain ⟨_, _, h⟩ := Except.bind_eq_ok.1 h
  obtain ⟨names, hnames, _⟩ := Except.bind_eq_ok.1 h
  have hfold := Runs.run_invariant
    (fun (front : List StepConfig) (seen : List String) => seen = front.map StepConfig.name ∧
      (∀ step ∈ front, isIdentifier step.name = true) ∧ (front.map StepConfig.name).Nodup) hnames ⟨rfl, by simp, by simp⟩ ?_
  · exact hfold.2
  · intro front step back seen next _ ⟨hseen, hidentifiers, hnodup⟩ hnext
    obtain ⟨hname, hnew, _, rfl⟩ := validateStep_eq_ok hnext
    refine ⟨by rw [hseen, List.map_append, List.map_singleton], fun other hother => ?_, ?_⟩
    · obtain hother | hother := List.mem_append.1 hother
      · exact hidentifiers other hother
      · rw [List.mem_singleton.1 hother]
        exact hname
    · rw [List.map_append, List.map_singleton]
      refine List.Nodup.append hnodup (List.nodup_singleton _) ?_
      simpa [hseen] using hnew

theorem step_eq_of_name (h : validate config = .ok ()) {step other : StepConfig} (hstep : step ∈ config.steps)
    (hother : other ∈ config.steps) (hname : step.name = other.name) : step = other :=
  List.inj_on_of_nodup_map (validate_steps h).2 hstep hother hname

variable {items : List WorkEntry}

theorem freezeUnit_step {listText : ListText} {planned : Bool} {step : StepConfig} {unit : Json}
    {ordinal : Nat} {item : WorkEntry} (h : freezeUnit listText planned step items unit ordinal = .ok item) :
    item.step = step.name ∧ item.ordinal = ordinal := by
  rw [freezeUnit] at h
  obtain ⟨_, _, h⟩ := Except.bind_eq_ok.1 h
  obtain ⟨_, _, h⟩ := Except.bind_eq_ok.1 h
  obtain ⟨_, _, h⟩ := Except.bind_eq_ok.1 h
  obtain ⟨_, _, h⟩ := Except.bind_eq_ok.1 h
  obtain ⟨key, _, h⟩ := Except.bind_eq_ok.1 h
  obtain ⟨leases, _, h⟩ := Except.bind_eq_ok.1 h
  obtain ⟨_, _, h⟩ := Except.bind_eq_ok.1 h
  obtain ⟨_, _, h⟩ := Except.bind_eq_ok.1 h
  cases h
  exact ⟨rfl, rfl⟩

theorem worklist_steps {listText : ListText} {manifest : Manifest}
    (h : worklist listText manifest config = .ok items) :
    ∀ item ∈ items, item.step ∈ config.steps.map StepConfig.name ∧ 0 ≤ item.ordinal := by
  rw [worklist] at h
  obtain ⟨_, _, h⟩ := Except.bind_eq_ok.1 h
  obtain ⟨_, _, h⟩ := Except.bind_eq_ok.1 h
  refine Runs.run_invariant (fun (front : List StepConfig) (items : List WorkEntry) => ∀ item ∈ items,
    item.step ∈ front.map StepConfig.name ∧ 0 ≤ item.ordinal) h (by simp) ?_
  intro front step back mid next _ hmid hnext
  refine Runs.run_invariant (fun _ (items : List WorkEntry) => ∀ item ∈ items,
    item.step ∈ (front ++ [step]).map StepConfig.name ∧ 0 ≤ item.ordinal) hnext ?_ ?_
  · intro item hitem
    obtain ⟨hstep, hordinal⟩ := hmid item hitem
    refine ⟨?_, hordinal⟩
    rw [List.map_append]
    exact List.mem_append_left _ hstep
  · intro _ unit _ before after _ hbefore hafter
    obtain ⟨item, hitem, hafter⟩ := Except.bind_eq_ok.1 hafter
    cases hafter
    intro other hother
    obtain hother | hother := List.mem_append.1 hother
    · exact hbefore other hother
    · obtain ⟨hstep, hordinal⟩ := freezeUnit_step hitem
      rw [List.mem_singleton.1 hother, hstep, hordinal]
      exact ⟨by simp, Int.natCast_nonneg _⟩

theorem generatedWorklist_step {listText : ListText} {manifest : Expansion} {parent : ParentRef}
    (h : generatedWorklist listText manifest config parent = .ok items) :
    (∃ selected ∈ config.steps, selected.name = parent.generatedStep ∧ parent.step ∈ selected.requires) ∧
      ∀ item ∈ items, item.step = parent.generatedStep := by
  rw [generatedWorklist] at h
  obtain ⟨_, _, h⟩ := Except.bind_eq_ok.1 h
  obtain ⟨selected, hselected, h⟩ := Except.bind_eq_ok.1 h
  obtain ⟨base, hbase, h⟩ := Except.bind_eq_ok.1 h
  obtain ⟨_, hparent, h⟩ := Except.bind_eq_ok.1 h
  obtain ⟨frozen, hfrozen, h⟩ := Except.bind_eq_ok.1 h
  cases h
  rw [blockUnless_eq_ok, Bool.and_eq_true, decide_eq_true_eq] at hparent
  cases hfind : config.steps.find? fun step => step.name = parent.generatedStep with
  | none => simp [hfind] at hselected
  | some found =>
      rw [hfind] at hselected
      cases hselected
      have hname : selected.name = parent.generatedStep := by simpa using List.find?_some hfind
      refine ⟨⟨selected, List.mem_of_find?_eq_some hfind, hname, hparent.1⟩, fun item hitem => ?_⟩
      obtain ⟨child, hchild, rfl⟩ := List.mem_map.1 hitem
      have hstep := (worklist_steps hfrozen child hchild).1
      simpa [childConfig, hname, placeFrom] using hstep

variable {runText : Uuid → String} {db db' : Store} {request : Request} {answer : Answer}

theorem insertWork_units (db : Store) (r : Uuid) (entry : WorkEntry) :
    (insertWork db r entry).work = db.work ∨ unitsOf (insertWork db r entry) r = unitsOf db r + 1 := by
  rw [insertWork]
  split_ifs with htaken
  · exact .inl rfl
  · rw [Bool.or_eq_true, not_or, IndexMap.contains, Option.not_isSome_iff_eq_none] at htaken
    refine .inr ?_
    show (db.work.insert (entry.id r) entry.pending).count (fun u _ => u.run = r) = _
    rw [IndexMap.count_insert_new htaken.1]
    simp [unitsOf, WorkEntry.id]

theorem startEntries_units {r : Uuid} (h : items.foldlM (startEntry r) db = .ok db') :
    unitsOf db r ≤ unitsOf db' r ∧ (unitsOf db' r = unitsOf db r → db'.work = db.work) := by
  refine Runs.run_invariant (fun _ mid => unitsOf db r ≤ unitsOf mid r ∧ (unitsOf mid r = unitsOf db r → mid.work = db.work)) h
    ⟨le_refl _, fun _ => rfl⟩ ?_
  intro front entry back mid next _ ⟨hle, hsame⟩ hnext
  have hwork := (startEntry_eq_ok hnext).2.2
  have hunits : unitsOf next r = unitsOf (insertWork mid r entry) r := by rw [unitsOf, hwork, unitsOf]
  obtain heq | hmore := insertWork_units mid r entry
  · have hmid : unitsOf next r = unitsOf mid r := by rw [hunits, unitsOf, heq, unitsOf]
    refine ⟨hmid ▸ hle, fun hcount => ?_⟩
    rw [hwork, heq]
    exact hsame (hmid ▸ hcount)
  · refine ⟨by omega, fun hcount => ?_⟩
    omega

theorem Counted.started_again {r : Uuid} {submission : Json} {hash : String} {run : PipelineRun}
    (h : Counted db) (hheld : db.runs.contains r = true)
    (hfound : (insertRun db r submission hash items.length).runs.get? r = some run) (hfresh : run.compactedAt = none)
    (hitems : items.foldlM (startEntry r) (insertRun db r submission hash items.length) = .ok db')
    (hcount : countWork db' r (fun _ _ => true) = run.expectedCount) : db'.work = db.work := by
  have hsame : insertRun db r submission hash items.length = db := by rw [insertRun, if_pos hheld]
  rw [hsame] at hfound hitems
  apply (startEntries_units hitems).2
  rw [← countWork_all, hcount]
  exact (h.units r run.expectedCount (by rw [ledgerOf, hfound, Option.map_some, hfresh])).symm

/-- The store the engine leaves: the accounts hold, units are of configured steps, and a sealed expansion's children are those of its receipt. -/
structure Kept (platform : Platform) (db : Store) : Prop where
  counted : Counted db
  configured : ∀ u w, db.work.get? u = some w → u.step ∈ (platform.config u.run).steps.map StepConfig.name
  generated : ∀ u w receipt childStep children, db.work.get? u = some w → w.state = .verified → w.generatedCount ≠ none →
    w.receipt = some receipt → generatedStep w.unit = some childStep → platform.children u w childStep receipt = .ok children →
    ∀ child ∈ children, db.work.contains (child.id u.run) = true

theorem kept_empty (platform : Platform) : Kept platform .empty := by
  refine ⟨counted_empty, ?_, ?_⟩
  · intro u w hw
    cases hw
  · intro u w _ _ _ hw
    cases hw

variable {platform : Platform}

theorem Kept.accountable (h : Kept platform db) (hmakes : platform.Makes db request) : Accountable db request := by
  rw [Platform.Makes] at hmakes
  rw [Accountable]
  cases hcall : request.call with
  | finish u a proof receipt checks event =>
      rw [hcall] at hmakes
      exact fun w hw _ => hmakes w hw
  | finishResource u a proof receipt checks event resource revision position =>
      rw [hcall] at hmakes
      exact fun w hw _ => hmakes w hw
  | finishExpand u a proof receipt checks event children childStep =>
      rw [hcall] at hmakes
      rintro w hw ⟨hverified, hsealed, hreceipt, _⟩
      obtain ⟨hgenerated, hchildren⟩ := hmakes w hw
      exact h.generated u w receipt childStep children hw hverified hsealed hreceipt hgenerated hchildren
  | _ => trivial

/-- How the engine adds a unit: its run starts, or an unfinished parent of a step that its own step requires expands into it. -/
inductive Gains (platform : Platform) (db : Store) (request : Request) (v : UnitId) (x : WorkItem) : Prop
  | started (first : ∀ u w, db.work.get? u = some w → u.run ≠ v.run) (ordinal : 0 ≤ x.ordinal)
  | generated {u : UnitId} {parent : WorkItem} {a : Uuid} {proof : List LeaseProof} {receipt checks : Json} {event : Uuid}
      {children : List WorkEntry} {entry : WorkEntry}
      (call : request.call = .finishExpand u a proof receipt checks event children v.step) (found : db.work.get? u = some parent)
      (completable : Completable request.session db u a proof receipt checks parent) (run : u.run = v.run)
      (step : generatedStep parent.unit = some v.step) (listed : entry ∈ children) (unit : v = entry.id v.run)
      (row : x = entry.pending) (ordinal : 0 ≤ x.ordinal)
      (requires : ∃ selected ∈ (platform.config v.run).steps, selected.name = v.step ∧ u.step ∈ selected.requires)

variable {u : UnitId} {w w' : WorkItem}

theorem Moved.unit_same (h : Moved db request u w w') : w'.unit = w.unit := by
  cases h with
  | claimed => rw [claimedWork]; split_ifs <;> rfl
  | _ => rfl

theorem Moved.ordinal_same (h : Moved db request u w w') : w'.ordinal = w.ordinal := by
  cases h with
  | claimed => rw [claimedWork]; split_ifs <;> rfl
  | _ => rfl

theorem Moved.verified_same (h : Moved db request u w w') (hverified : w.state = .verified) :
    w' = w := by
  cases h with
  | same => rfl
  | claimed call claimed => exact absurd hverified claimed.unverified
  | waited call unverified cause => exact absurd hverified unverified
  | reported call authorized running =>
      rw [running] at hverified
      cases hverified
  | completed call reported =>
      rw [reported] at hverified
      cases hverified
  | sealed call reported =>
      rw [reported] at hverified
      cases hverified

variable {children : List WorkEntry}

variable {childStep : String}

theorem Platform.children_step {w : WorkItem} {receipt : Json}
    (h : platform.children u w childStep receipt = .ok children) :
    (∃ selected ∈ (platform.config u.run).steps, selected.name = childStep ∧ u.step ∈ selected.requires) ∧
      ∀ child ∈ children, child.step = childStep := by
  rw [Platform.children] at h
  cases hmanifest : platform.expansions receipt with
  | none =>
      rw [hmanifest] at h
      cases h
  | some manifest =>
      rw [hmanifest] at h
      exact generatedWorklist_step h

theorem insertChildren_ordinals {r : Uuid} {sealed : Bool}
    (h : children.foldlM (insertChild r childStep sealed) db = .ok db') : ∀ child ∈ children, 0 ≤ child.ordinal := by
  intro child hchild
  obtain ⟨front, back, rfl⟩ := List.append_of_mem hchild
  obtain ⟨mid, next, _, hnext, _⟩ := Runs.run_split h
  exact (insertChild_eq_ok hnext).2.2.1

/-- A unit the engine's call adds is pending work of a configured step, and the run gains it in one of the two ways. -/
theorem Kept.gains (h : Kept platform db) (hmakes : platform.Makes db request)
    (hresult : perform runText db request = .ok (answer, db')) {v : UnitId} {x : WorkItem} (hnone : db.work.get? v = none)
    (hx : db'.work.get? v = some x) :
    x.state = .pending ∧ v.step ∈ (platform.config v.run).steps.map StepConfig.name ∧ Gains platform db request v x := by
  obtain ⟨entries, hlists, entry, hentry, hv, rfl⟩ := (perform_effect hresult).new hnone hx
  refine ⟨rfl, ?_⟩
  rw [Platform.Makes] at hmakes
  generalize hcall : request.call = call at hlists
  cases hlists with
  | started submission hash =>
      rw [hcall] at hmakes
      obtain ⟨manifest, hmanifest⟩ := hmakes
      simp only [perform, hcall] at hresult
      obtain ⟨run, hfound, _, _, ⟨hcompacted, heq⟩ | ⟨hfresh, hitems, hcount⟩⟩ := startRun_eq_ok (silent_eq_ok hresult).1
      · rw [heq, insertRun_eq, hnone] at hx
        cases hx
      · obtain ⟨hstep, hordinal⟩ := worklist_steps hmanifest entry hentry
        refine ⟨by rwa [hv], .started (fun u w hw hu => ?_) hordinal⟩
        obtain ⟨count, hlive⟩ := h.counted.live u w hw
        obtain ⟨held, hheld, _⟩ := Option.map_eq_some_iff.1 hlive
        have hcontains : db.runs.contains v.run = true := by rw [IndexMap.contains, ← hu, hheld, Option.isSome_some]
        rw [h.counted.started_again hcontains hfound hfresh hitems hcount, hnone] at hx
        cases hx
  | expanded u hrun a proof receipt checks event _ childStep =>
      rw [hcall] at hmakes
      simp only [perform, hcall] at hresult
      obtain ⟨_, _, parent, hparent, hgenerated, ⟨hverified, hsealed, hreceipt, _, hinserted⟩ |
        ⟨hauthorized, added, finished, run, hexpanded⟩⟩ := finishExpand_eq_ok (silent_eq_ok hresult).1
      · have hstored := h.generated u parent receipt childStep entries hparent hverified hsealed hreceipt hgenerated
          (hmakes parent hparent).2
        rw [insertChildren_stored hstored hinserted, hnone] at hx
        cases hx
      · obtain ⟨⟨selected, hselected, hname, hrequires⟩, hsteps⟩ := Platform.children_step (hmakes parent hparent).2
        have hstep : childStep = v.step := by rw [hv, ← hsteps entry hentry, WorkEntry.id]
        have hdone := hexpanded.completed
        rw [hrun] at hselected
        rw [hstep] at hname hcall hgenerated
        refine ⟨List.mem_map.2 ⟨selected, hselected, hname⟩, ?_⟩
        exact .generated hcall hparent ⟨hauthorized.accepted, hdone.reported, hdone.names, hdone.valid, hdone.passed⟩ hrun hgenerated
          hentry hv rfl (insertChildren_ordinals hexpanded.inserted entry hentry) ⟨selected, hselected, hname, hrequires⟩

theorem Effect.keeps_stored (h : Effect db request answer db') (hcounted : Counted db') {u v : UnitId} {w : WorkItem}
    (hu : db'.work.get? u = some w) (hrun : v.run = u.run) (hv : db.work.contains v = true) : db'.work.contains v = true := by
  obtain ⟨x, hx⟩ := Option.isSome_iff_exists.1 hv
  rw [IndexMap.contains, Option.isSome_iff_ne_none]
  intro hnone
  obtain ⟨count, t, hcompacted⟩ := h.drops_compacted hx hnone
  obtain ⟨live, hlive⟩ := hcounted.live u w hu
  rw [hrun, hlive] at hcompacted
  cases hcompacted

theorem insertChildren_contains {r : Uuid} {sealed : Bool}
    (h : children.foldlM (insertChild r childStep sealed) db = .ok db') :
    ∀ child ∈ children, db'.work.contains (child.id r) = true := by
  refine Runs.run_invariant (fun front mid => ∀ child ∈ front, mid.work.contains (child.id r) = true) h (by simp) ?_
  intro front child back mid next _ hmid hnext other hother
  obtain ⟨rfl, _, _, _, _, x, hx, _⟩ := insertChild_eq_ok hnext
  obtain hother | hother := List.mem_append.1 hother
  · obtain ⟨y, hy⟩ := Option.isSome_iff_exists.1 (hmid other hother)
    rw [IndexMap.contains, (insertWork_adds mid r child).kept _ y hy, Option.isSome_some]
  · rw [List.mem_singleton.1 hother, IndexMap.contains, hx, Option.isSome_some]

theorem expanded_contains {w : WorkItem} {a : Uuid} {proof : List LeaseProof} {receipt checks : Json} {event : Uuid}
    (hw : db.work.get? u = some w) (hopen : w.state ≠ .verified)
    (hcall : request.call = .finishExpand u a proof receipt checks event children childStep)
    (hresult : perform runText db request = .ok (answer, db')) :
    ∀ child ∈ children, db'.work.contains (child.id u.run) = true := by
  simp only [perform, hcall] at hresult
  obtain ⟨_, _, parent, hparent, _, ⟨hverified, _⟩ | ⟨_, added, finished, run, hexpanded⟩⟩ :=
    finishExpand_eq_ok (silent_eq_ok hresult).1
  · cases hw.symm.trans hparent
    exact absurd hverified hopen
  · intro child hchild
    have hadded := insertChildren_contains hexpanded.inserted child hchild
    rw [IndexMap.contains] at hadded ⊢
    rw [hexpanded.work, hexpanded.completed.work, IndexMap.get?_insert, IndexMap.get?_insert]
    split_ifs
    · rfl
    · exact hadded

theorem Kept.step (h : Kept platform db) (hmakes : platform.Makes db request)
    (hresult : perform runText db request = .ok (answer, db')) : Kept platform db' := by
  have heffect := perform_effect hresult
  have hcounted := heffect.counted h.counted (h.accountable hmakes)
  refine ⟨hcounted, fun u w' hw' => ?_, fun u w' receipt childStep children hw' hverified hsealed hreceipt hgenerated hchildren => ?_⟩
  · cases hw : db.work.get? u with
    | none => exact (h.gains hmakes hresult hw hw').2.1
    | some w => exact h.configured u w hw
  · cases hw : db.work.get? u with
    | none =>
        have hpending := (h.gains hmakes hresult hw hw').1
        rw [hverified] at hpending
        cases hpending
    | some w =>
        obtain ⟨w'', hw'', hmoved⟩ | ⟨hnone, _⟩ := heffect.moves hw
        · cases hw'.symm.trans hw''
          cases hmoved with
          | same =>
              intro child hchild
              exact heffect.keeps_stored hcounted hw' rfl
                (h.generated u w' receipt childStep children hw hverified hsealed hreceipt hgenerated hchildren child hchild)
          | claimed =>
              rw [claimedWork_state] at hverified
              cases hverified
          | waited => cases hverified
          | reported => cases hverified
          | completed call =>
              rw [Platform.Makes] at hmakes
              have hplain : generatedStep w.unit = none := by
                generalize request.call = made at hmakes call
                cases call <;> exact hmakes w hw
              exact absurd (hgenerated.symm.trans hplain) (by simp)
          | @sealed a proof given checks event listed listedStep _ call reported attempt names valid generated =>
              cases hreceipt
              cases (generated.symm.trans hgenerated)
              rw [Platform.Makes, call] at hmakes
              cases (hmakes w hw).2.symm.trans hchildren
              refine expanded_contains hw ?_ call hresult
              rw [reported]
              simp
        · rw [hnone] at hw'
          cases hw'

def sampleReference : Json := .obj [("sha256", .str (sampleDigest 'd')), ("uri", .str "in")]

def sampleUnit (key : String) (cursor : Json) : Json :=
  .obj [("cursor", cursor), ("input", sampleReference), ("keys", .obj [("id", .str key)]), ("output", .str "out")]

/-- The cursor of a unit that expands into a step, at places from a base. -/
def sampleExpands (childStep base : String) : Json := .obj [("generated_step", .str childStep), ("ordinal_base", .num base)]

def sampleWorkEntry (step key : String) (ordinal : Int) (cursor : Json) : WorkEntry :=
  ⟨step, key, ordinal, [key], sampleUnit key cursor⟩

def sampleStep (name : String) (requires : List String) : StepConfig :=
  ⟨name, "copy", requires, [.field "id"], [[.field "id"]], ["output.receipt"]⟩

def sampleConfig (steps : List StepConfig) : Config := ⟨steps, 2, 1, 1, 1, 1, true, ["work.accounting"]⟩

def sampleManifest (stages : List (String × List Json)) : Manifest := .steps none (IndexMap.ofList stages)

/-- Every run has the configuration, and every receipt names the one expansion. -/
def samplePlatform (steps : List StepConfig) (expansion : Expansion) : Platform :=
  ⟨fun _ => "", fun _ => sampleConfig steps, fun _ => some expansion⟩

theorem sampleStart_makes {steps : List StepConfig} {expansion : Expansion}
    (stages : List (String × List Json)) (names : List String)
    (h : worklist (fun _ => "") (sampleManifest stages) (sampleConfig steps) = .ok items) :
    (samplePlatform steps expansion).Makes .empty (sampleStart 1 names items) := ⟨_, h⟩

theorem sampleExpand_makes {steps : List StepConfig} {expansion : Expansion} (base : String)
    (hunit : (db.work.get? ⟨1, "list", "p"⟩).map WorkItem.unit = some (sampleUnit "p" (sampleExpands "copy" base)))
    (h : generatedWorklist (fun _ => "") expansion (sampleConfig steps) ⟨"list", "p", "copy", some (.num base)⟩ = .ok children) :
    (samplePlatform steps expansion).Makes db (sampleExpand children) := by
  intro w hw
  rw [hw, Option.map_some, Option.some.injEq] at hunit
  have hcursor : cursorOf w.unit = some (sampleExpands "copy" base) := by rw [hunit]; rfl
  refine ⟨by rw [generatedStep, hcursor]; rfl, ?_⟩
  rw [Platform.children, parentOf, hcursor]
  exact h

end EdgarPlatform.Bookkeeping
