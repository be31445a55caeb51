import EdgarPlatform.Bookkeeping.Configuration
import EdgarPlatform.Bookkeeping.Moves

/-!
# Resource checkpoints

A resource has one checkpoint for all runs. A completion that names the resource compares the revision and position it expects with the row, and writes the next ones with its own cursor and receipt, in the transaction that verifies its unit. The completions of a resource over a run are logged in the order they were accepted: they expect the revisions from zero up, one each, and the row is that of the last. Steps are named by identifiers, so no step's own checkpoint is ever a resource's.
-/

namespace EdgarPlatform.Bookkeeping

open Records (Json)

def Call.listed : Call → List WorkEntry
  | .startRun _ _ _ items => items
  | .finishExpand _ _ _ _ _ _ children _ => children
  | _ => []

variable {r : Uuid} {entries : List WorkEntry}

theorem listed_of_lists {call : Call} (h : Lists r entries call) : call.listed = entries := by
  cases h <;> rfl

def NamesSteps (request : Request) : Prop := ∀ entry ∈ request.call.listed, isIdentifier entry.step = true

instance (request : Request) : Decidable (NamesSteps request) :=
  inferInstanceAs (Decidable (∀ entry ∈ request.call.listed, _))

theorem resourceScope_inj {x y : String} (h : resourceScope x = resourceScope y) : x = y := by
  have htext := congrArg String.toList h
  rw [resourceScope, resourceScope, String.toList_append, String.toList_append] at htext
  exact String.toList_injective (List.append_cancel_left htext)

theorem ne_resourceScope {step : String} (h : isIdentifier step = true) (x : String) : step ≠ resourceScope x := by
  rintro rfl
  rw [isIdentifier, Bool.and_eq_true, List.all_eq_true] at h
  have hcolon := h.2 ':' (by simp [resourceScope])
  revert hcolon
  decide

def progress (db : Store) (x : String) : Option Checkpoint := (resourceCheckpoint db x).map Prod.snd

/-- Each resource has one row, under its scope, and its position is one below its revision; no unit's step is a resource's scope. -/
structure ResourceRows (db : Store) : Prop where
  scope : ∀ p c x, db.checkpoints.get? p = some c → c.resource = some x → p.2 = resourceScope x
  position : ∀ p c, db.checkpoints.get? p = some c → c.resource ≠ none → c.ordinal = c.revision - 1
  single : ∀ p p' c c', db.checkpoints.get? p = some c → db.checkpoints.get? p' = some c' → c.resource ≠ none →
    c.resource = c'.resource → p = p'
  steps : ∀ u w, db.work.get? u = some w → isIdentifier u.step = true

theorem resourceRows_empty : ResourceRows .empty := by
  refine ⟨?_, ?_, ?_, ?_⟩
  · intro p c x hc
    cases hc
  · intro p c hc
    cases hc
  · intro p p' c c' hc
    cases hc
  · intro u w hw
    cases hw

variable {c : Checkpoint}

theorem resourceCheckpoint_eq {db : Store} {x : String} {p : Uuid × String}
    (h : resourceCheckpoint db x = some (p, c)) : db.checkpoints.get? p = some c ∧ c.resource = some x := by
  rw [resourceCheckpoint] at h
  exact ⟨IndexMap.get?_eq_some_iff.2 (List.mem_of_find?_eq_some h), by simpa using List.find?_some h⟩

theorem resourceCheckpoint_none {db : Store} {x : String} (h : resourceCheckpoint db x = none) {p : Uuid × String}
    (hc : db.checkpoints.get? p = some c) : c.resource ≠ some x := by
  rw [resourceCheckpoint, List.find?_eq_none] at h
  simpa using h (p, c) (IndexMap.get?_eq_some_iff.1 hc)

theorem progress_eq_some {db : Store} (hrows : ResourceRows db) {x : String} :
    progress db x = some c ↔ ∃ p, db.checkpoints.get? p = some c ∧ c.resource = some x := by
  rw [progress, Option.map_eq_some_iff]
  refine ⟨fun ⟨entry, hentry, hc⟩ => ⟨entry.1, hc ▸ resourceCheckpoint_eq hentry⟩, fun ⟨p, hc, hx⟩ => ?_⟩
  cases hfound : resourceCheckpoint db x with
  | none => exact absurd hx (resourceCheckpoint_none hfound hc)
  | some entry =>
      obtain ⟨hget, hresource⟩ := resourceCheckpoint_eq hfound
      have hp := hrows.single p entry.1 c entry.2 hc hget (by simp [hx]) (hx.trans hresource.symm)
      rw [← hp, hc] at hget
      exact ⟨entry, rfl, (Option.some.inj hget).symm⟩

def SameResources (db db' : Store) : Prop :=
  ∀ p c, c.resource ≠ none → (db'.checkpoints.get? p = some c ↔ db.checkpoints.get? p = some c)

theorem SameResources.refl (db : Store) : SameResources db db := fun _ _ _ => Iff.rfl

theorem SameResources.trans {db mid db' : Store} (h : SameResources db mid) (h' : SameResources mid db') :
    SameResources db db' := fun p c hc => (h' p c hc).trans (h p c hc)

theorem ResourceRows.same {db db' : Store} (hrows : ResourceRows db) (h : SameResources db db')
    (hsteps : ∀ u w, db'.work.get? u = some w → isIdentifier u.step = true) : ResourceRows db' := by
  refine ⟨?_, ?_, ?_, hsteps⟩
  · intro p c x hc hx
    exact hrows.scope p c x ((h p c (by simp [hx])).1 hc) hx
  · intro p c hc hx
    exact hrows.position p c ((h p c hx).1 hc) hx
  · intro p p' c c' hc hc' hx hsame
    exact hrows.single p p' c c' ((h p c hx).1 hc) ((h p' c' (hsame ▸ hx)).1 hc') hx hsame

theorem progress_same {db db' : Store} (hrows : ResourceRows db) (hrows' : ResourceRows db') (h : SameResources db db')
    (x : String) : progress db' x = progress db x := by
  refine Option.ext fun c => ?_
  rw [progress_eq_some hrows', progress_eq_some hrows]
  refine exists_congr fun p => and_congr_left fun hx => h p c ?_
  simp [hx]

theorem ResourceRows.write {db db' : Store} {x : String} (hrows : ResourceRows db) (place : Uuid × String)
    (hscope : place.2 = resourceScope x) (hresource : c.resource = some x) (hposition : c.ordinal = c.revision - 1)
    (hget : db'.checkpoints.get? place = some c)
    (hother : ∀ p d y, p ≠ place → d.resource = some y →
      (db'.checkpoints.get? p = some d ↔ db.checkpoints.get? p = some d ∧ y ≠ x))
    (hsteps : ∀ u w, db'.work.get? u = some w → isIdentifier u.step = true) :
    ResourceRows db' ∧ progress db' x = some c ∧ ∀ y, y ≠ x → progress db' y = progress db y := by
  have hrow : ∀ p d y, db'.checkpoints.get? p = some d → d.resource = some y →
      (p = place ∧ d = c) ∨ (db.checkpoints.get? p = some d ∧ y ≠ x) := by
    intro p d y hd hy
    by_cases hp : p = place
    · subst hp
      cases hget.symm.trans hd
      exact .inl ⟨rfl, rfl⟩
    · exact .inr ((hother p d y hp hy).1 hd)
  have hrows' : ResourceRows db' := by
    refine ⟨?_, ?_, ?_, hsteps⟩
    · intro p d y hd hy
      obtain ⟨rfl, rfl⟩ | ⟨hold, _⟩ := hrow p d y hd hy
      · cases hresource.symm.trans hy
        exact hscope
      · exact hrows.scope p d y hold hy
    · intro p d hd hnone
      obtain ⟨y, hy⟩ := Option.ne_none_iff_exists'.1 hnone
      obtain ⟨rfl, rfl⟩ | ⟨hold, _⟩ := hrow p d y hd hy
      · exact hposition
      · exact hrows.position p d hold hnone
    · intro p p' d d' hd hd' hnone hsame
      obtain ⟨y, hy⟩ := Option.ne_none_iff_exists'.1 hnone
      obtain ⟨rfl, rfl⟩ | ⟨hold, hne⟩ := hrow p d y hd hy <;>
        obtain ⟨rfl, rfl⟩ | ⟨hold', hne'⟩ := hrow p' d' y hd' (hsame ▸ hy)
      · rfl
      · exact absurd (Option.some.inj (hy.symm.trans hresource)) hne'
      · exact absurd (Option.some.inj (hy.symm.trans (hsame.trans hresource))) hne
      · exact hrows.single p p' d d' hold hold' hnone hsame
  refine ⟨hrows', (progress_eq_some hrows').2 ⟨place, hget, hresource⟩, fun y hne => Option.ext fun d => ?_⟩
  rw [progress_eq_some hrows', progress_eq_some hrows]
  refine exists_congr fun p => and_congr_left fun hy => ?_
  by_cases hp : p = place
  · subst hp
    constructor
    · intro hd
      cases hget.symm.trans hd
      exact absurd (Option.some.inj (hy.symm.trans hresource)) hne
    · intro hd
      exact absurd (resourceScope_inj ((hrows.scope p d y hd hy).symm.trans hscope)) hne
  · rw [hother p d y hp hy]
    exact and_iff_left hne

variable {db db' : Store} {x : String}

theorem openCheckpoint_rows (hrows : ResourceRows db) (h : openCheckpoint db r x = .ok db') :
    ResourceRows db' ∧ progress db' x = some ((progress db x).getD ⟨-1, none, none, some x, 0⟩) ∧
      ∀ y, y ≠ x → progress db' y = progress db y := by
  rw [openCheckpoint] at h
  by_cases hsome : (resourceCheckpoint db x).isSome = true
  · rw [if_pos hsome] at h
    cases h
    refine ⟨hrows, ?_, fun _ _ => rfl⟩
    obtain ⟨entry, hentry⟩ := Option.isSome_iff_exists.1 hsome
    rw [progress, hentry]
    rfl
  · rw [if_neg hsome, Except.ite_error_eq_ok] at h
    obtain ⟨hfree, h⟩ := h
    cases h
    have hnone : resourceCheckpoint db x = none := Option.not_isSome_iff_eq_none.1 hsome
    have hprogress : progress db x = none := by rw [progress, hnone]; rfl
    rw [hprogress]
    refine hrows.write (r, resourceScope x) rfl rfl rfl (IndexMap.get?_insert_self ..) ?_ hrows.steps
    intro p d y hp hy
    show (db.checkpoints.insert _ _).get? p = _ ↔ _
    rw [IndexMap.get?_insert_of_ne _ _ hp]
    refine ⟨fun hd => ⟨hd, ?_⟩, fun hd => hd.1⟩
    rintro rfl
    exact resourceCheckpoint_none hnone hd hy

theorem writeResource_rows {position : Int} {cursor : Option Json} {receipt : Json} {next : Nat}
    (hrows : ResourceRows db) (hheld : progress db x = some c) (hposition : c.ordinal = position)
    (h : writeResource db r x position cursor receipt = .ok (next, db')) :
    next = c.revision + 1 ∧ ResourceRows db' ∧ progress db' x = some (advancedCheckpoint c position cursor receipt) ∧
      ∀ y, y ≠ x → progress db' y = progress db y := by
  rw [writeResource] at h
  obtain ⟨held, hselect, h⟩ := Except.bind_eq_ok.1 h
  rw [Except.ite_error_eq_ok] at h
  obtain ⟨hfree, h⟩ := h
  cases h
  have hfound : resourceCheckpoint db x = some held := by
    rw [selectResource] at hselect
    cases hrow : resourceCheckpoint db x with
    | none => simp [hrow] at hselect
    | some row => simpa [hrow] using hselect
  have hc : held.2 = c := by
    rw [progress, hfound] at hheld
    exact Option.some.inj hheld
  obtain ⟨hget, hresource⟩ := resourceCheckpoint_eq hfound
  have hscope := hrows.scope _ _ _ hget hresource
  have hbefore := hrows.position _ _ hget (by simp [hresource])
  rw [hc] at hget hresource hbefore
  refine ⟨by rw [hc], ?_⟩
  rw [hc]
  refine hrows.write (r, held.1.2) hscope hresource ?_ (IndexMap.get?_insert_self ..) ?_ hrows.steps
  · show position + 1 = ((c.revision + 1 : Nat) : Int) - 1
    omega
  · intro p d y hp hy
    show ((db.checkpoints.erase held.1).insert _ _).get? p = _ ↔ _
    rw [IndexMap.get?_insert_of_ne _ _ hp, IndexMap.get?_erase]
    split_ifs with hplace
    · refine iff_of_false (by simp) ?_
      rintro ⟨hd, hne⟩
      rw [hplace, hget] at hd
      cases hd
      exact absurd (Option.some.inj (hy.symm.trans hresource)) hne
    · refine ⟨fun hd => ⟨hd, ?_⟩, fun hd => hd.1⟩
      rintro rfl
      exact hplace (hrows.single p held.1 d c hd hget (by simp [hy]) (hy.trans hresource.symm))

theorem sameResources_insert {m : IndexMap (Uuid × String) Checkpoint} {place : Uuid × String}
    (hnew : c.resource = none) (hold : ∀ d, m.get? place = some d → d.resource = none) (p : Uuid × String) (d : Checkpoint)
    (hd : d.resource ≠ none) : (m.insert place c).get? p = some d ↔ m.get? p = some d := by
  rw [IndexMap.get?_insert]
  split_ifs with hp
  · subst hp
    constructor
    · intro h
      cases h
      exact absurd hnew hd
    · intro h
      exact absurd (hold d h) hd
  · exact Iff.rfl

theorem openStep_same (checkpoints : IndexMap (Uuid × String) Checkpoint) (r : Uuid) (step : String) (p : Uuid × String)
    (d : Checkpoint) (hd : d.resource ≠ none) : (openStep checkpoints r step).get? p = some d ↔ checkpoints.get? p = some d := by
  refine ⟨fun h => ?_, openStep_kept⟩
  obtain h | ⟨rfl, _⟩ := openStep_cases h
  · exact h
  · exact absurd rfl hd

theorem movedCheckpoint_resource (db : Store) (r : Uuid) (step : String) (last : Int) (c : Checkpoint) :
    (movedCheckpoint db r step last c).resource = c.resource := by
  rw [movedCheckpoint]
  split_ifs <;> rfl

theorem advanceCheckpoint_same {step : String} (hrows : ResourceRows db) (hstep : isIdentifier step = true) :
    SameResources db (advanceCheckpoint db r step) := by
  intro p d hd
  rw [advanceCheckpoint]
  split
  · rename_i last c _ hc
    have hnone : c.resource = none := by
      by_contra hsome
      obtain ⟨y, hy⟩ := Option.ne_none_iff_exists'.1 hsome
      exact ne_resourceScope hstep y (hrows.scope _ _ _ hc hy)
    refine sameResources_insert ?_ ?_ p d hd
    · rw [movedCheckpoint_resource, hnone]
    · intro e he
      rw [hc] at he
      cases he
      exact hnone
  · exact Iff.rfl

theorem adds_same (h : Adds r entries db db') : SameResources db db' := by
  intro p d hd
  refine ⟨fun hget => ?_, h.checkpointsKept p d⟩
  obtain hold | ⟨rfl, _⟩ := h.checkpointsAdded p d hget
  · exact hold
  · exact absurd rfl hd

theorem adds_steps (h : Adds r entries db db')
    (hsteps : ∀ u w, db.work.get? u = some w → isIdentifier u.step = true)
    (hentries : ∀ entry ∈ entries, isIdentifier entry.step = true) :
    ∀ u w, db'.work.get? u = some w → isIdentifier u.step = true := by
  intro u w hw
  obtain hold | ⟨entry, hentry, rfl, _⟩ := h.added u w hw
  · exact hsteps u w hold
  · exact hentries entry hentry

variable {receipt checks : Json}

variable {u : UnitId} {event : Uuid}

theorem completed_same {session : Session} {w : WorkItem} {a : Uuid}
    (hrows : ResourceRows db) (h : Completed session db u w a receipt checks event db') : SameResources db db' := by
  have hwritten : ResourceRows { db with work := db'.work } := by
    refine ⟨hrows.scope, hrows.position, hrows.single, fun v y hy => ?_⟩
    rw [h.work, IndexMap.get?_insert] at hy
    split_ifs at hy with hv
    · rw [hv]
      exact hrows.steps u w h.found
    · exact hrows.steps v y hy
  intro p d hd
  rw [h.checkpoints]
  exact advanceCheckpoint_same hwritten (hrows.steps u w h.found) p d hd

theorem ResourceRows.completed {session : Session} {u : UnitId} {w : WorkItem} {a : Uuid} {receipt checks : Json} {event : Uuid}
    (hrows : ResourceRows db) (h : Completed session db u w a receipt checks event db') : ResourceRows db' := by
  refine hrows.same (completed_same hrows h) fun v y hy => ?_
  rw [h.work, IndexMap.get?_insert] at hy
  split_ifs at hy with hv
  · rw [hv]
    exact hrows.steps u w h.found
  · exact hrows.steps v y hy

variable {runText : Uuid → String} {request : Request} {answer : Answer}

def Call.resource : Call → Option String
  | .finishResource _ _ _ _ _ _ resource _ _ => some resource
  | _ => none

theorem Effect.steps_named (h : Effect db request answer db') (hnames : NamesSteps request)
    (hsteps : ∀ u w, db.work.get? u = some w → isIdentifier u.step = true) :
    ∀ u w, db'.work.get? u = some w → isIdentifier u.step = true := by
  intro u w' hw'
  cases hw : db.work.get? u with
  | some w => exact hsteps u w hw
  | none =>
      obtain ⟨entries, hlists, entry, hentry, hu, _⟩ := h.new hw hw'
      rw [hu]
      exact hnames entry (listed_of_lists hlists ▸ hentry)

theorem Effect.resources_same (h : Effect db request answer db') (hrows : ResourceRows db) (hnames : NamesSteps request)
    (hother : request.call.resource = none) : SameResources db db' := by
  cases h with
  | unchanged => exact .refl db
  | started call found uncompacted inserted accounted =>
      have hsame := adds_same (startEntries_adds inserted)
      rw [insertRun_eq] at hsame
      exact hsame
  | claimed => exact .refl db
  | renewed => exact .refl db
  | waited call found unverified cause => cases cause <;> exact .refl db
  | reported call authorized named running pins =>
      rw [pins.1]
      exact .refl db
  | verifying => exact .refl db
  | pinned pins =>
      rw [pins.1]
      exact .refl db
  | completed call authorized completed => exact completed_same hrows completed
  | advanced call authorized range leased opens agrees completed written =>
      rw [call] at hother
      cases hother
  | repeated call found verified sealed evidence inserted => exact adds_same (insertChildren_adds inserted)
  | @expanded u a proof receipt checks event children childStep _ added _ _ _ call other keys generated authorized expanded =>
      have hadds := insertChildren_adds expanded.inserted
      have hlisted : request.call.listed = children := by rw [call]; rfl
      have hadded : ResourceRows added := hrows.same (adds_same hadds) (adds_steps hadds hrows.steps (hlisted ▸ hnames))
      refine (adds_same hadds).trans ((completed_same hadded expanded.completed).trans fun p d hd => ?_)
      rw [expanded.checkpoints]
      exact openStep_same _ _ _ p d hd
  | recorded => exact .refl db
  | resumed => exact .refl db
  | blocked => exact .refl db
  | delivered => exact .refl db
  | compacted call compacts =>
      intro p d _
      rw [compacts.checkpoints]

variable {proof : List LeaseProof}

/-- The first completion of a unit with a resource: the row is the one it expects, and the next one is its own. -/
theorem advanceResource_rows {session : Session} {w : WorkItem} {a : Uuid}
    {revision : Nat} {position : Int} {next : Nat} (hrows : ResourceRows db)
    (hfound : db.work.get? u = some w) (hopen : w.state ≠ .verified)
    (h : advanceResource session db u w a proof receipt checks event x revision position = .ok (next, db')) :
    ∃ c, (progress db x).getD ⟨-1, none, none, some x, 0⟩ = c ∧ c.revision = revision ∧ c.ordinal = position ∧
      ResourceRows db' ∧ progress db' x = some (advancedCheckpoint c position (cursorOf w.unit) receipt) ∧
      ∀ y, y ≠ x → progress db' y = progress db y := by
  obtain ⟨_, _, opened, finished, hopens, hagrees, _, hcompleted, hwritten⟩ := advanceResource_eq_ok hfound hopen h
  obtain ⟨hopened, hrow, hothers⟩ := openCheckpoint_rows hrows hopens
  have hsame := completed_same hopened hcompleted
  have hfinished := hopened.completed hcompleted
  obtain ⟨held, hselect, hagrees⟩ := Except.bind_eq_ok.1 hagrees
  rw [Except.ite_error_eq_ok, not_or, not_not, not_not] at hagrees
  obtain ⟨⟨hrevision, hposition⟩, _⟩ := hagrees
  have hheld : progress opened x = some held.2 := by
    rw [selectResource] at hselect
    rw [progress]
    cases hfirst : resourceCheckpoint opened x with
    | none => simp [hfirst] at hselect
    | some entry =>
        rw [hfirst] at hselect
        cases hselect
        rfl
  have hc : held.2 = (progress db x).getD ⟨-1, none, none, some x, 0⟩ := Option.some.inj (hheld.symm.trans hrow)
  have hbefore : progress finished x = some held.2 := by rw [progress_same hopened hfinished hsame, hheld]
  obtain ⟨_, hrows', hrow', hothers'⟩ := writeResource_rows hfinished hbefore hposition hwritten
  refine ⟨held.2, hc.symm, hrevision, hposition, hrows', hrow', fun y hne => ?_⟩
  rw [hothers' y hne, progress_same hopened hfinished hsame, hothers y hne]

theorem ResourceRows.step (hrows : ResourceRows db) (hnames : NamesSteps request)
    (hresult : perform runText db request = .ok (answer, db')) : ResourceRows db' := by
  have heffect := perform_effect hresult
  cases hcall : request.call.resource with
  | none => exact hrows.same (heffect.resources_same hrows hnames hcall) (heffect.steps_named hnames hrows.steps)
  | some resource =>
      cases hfinish : request.call with
      | finishResource u a proof receipt checks event resource revision position =>
          simp only [perform, hfinish] at hresult
          obtain ⟨next, hdone, _⟩ := answered_eq_ok hresult
          obtain ⟨w, hfound, _, _, ⟨_, rfl, _⟩ | ⟨hopen, hadvance⟩⟩ := finishResource_eq_ok hdone
          · exact hrows
          · obtain ⟨_, _, _, _, hrows', _⟩ := advanceResource_rows hrows hfound hopen hadvance
            exact hrows'
      | _ => simp [hfinish, Call.resource] at hcall

/-- A completion that advanced a resource: what it expected, and what it left. -/
structure Advance where
  revision : Int
  position : Int
  cursor : Option Json
  receipt : Json

/-- The completions logged so far expected the revisions from zero up, and the row is that of the last. -/
structure Recorded (x : String) (done : List Advance) (db : Store) : Prop where
  rows : ResourceRows db
  revisions : done.map Advance.revision = (List.range done.length).map Nat.cast
  positions : ∀ d ∈ done, d.position = d.revision - 1
  row : progress db x = done.getLast?.map fun d => ⟨d.position + 1, d.cursor, some d.receipt, some x, done.length⟩

variable {done : List Advance}

theorem Recorded.keep (h : Recorded x done db) (hrows : ResourceRows db')
    (hrow : progress db' x = progress db x) : Recorded x done db' := ⟨hrows, h.revisions, h.positions, hrow.trans h.row⟩

theorem Recorded.next {done : List Advance} (h : Recorded x done db) :
    ((progress db x).getD ⟨-1, none, none, some x, 0⟩).revision = done.length ∧
      ((progress db x).getD ⟨-1, none, none, some x, 0⟩).ordinal = (done.length : Int) - 1 ∧
      ((progress db x).getD ⟨-1, none, none, some x, 0⟩).resource = some x := by
  cases hrow : progress db x with
  | none =>
      have hnil : done = [] := List.getLast?_eq_none_iff.1 (Option.map_eq_none_iff.1 (h.row.symm.trans hrow))
      rw [hnil]
      exact ⟨rfl, rfl, rfl⟩
  | some c =>
      obtain ⟨p, hget, hresource⟩ := (progress_eq_some h.rows).1 hrow
      obtain ⟨d, _, hc⟩ := Option.map_eq_some_iff.1 (h.row.symm.trans hrow)
      have hrevision : c.revision = done.length := by rw [← hc]
      have hposition := h.rows.position p c hget (by simp [hresource])
      rw [hrevision] at hposition
      exact ⟨hrevision, hposition, hresource⟩

theorem Recorded.advance (h : Recorded x done db) {d : Advance}
    (hrows : ResourceRows db') (hc : (progress db x).getD ⟨-1, none, none, some x, 0⟩ = c) (hrevision : (c.revision : Int) = d.revision)
    (hposition : c.ordinal = d.position) (hrow : progress db' x = some (advancedCheckpoint c d.position d.cursor d.receipt)) :
    Recorded x (done ++ [d]) db' := by
  obtain ⟨hlength, hordinal, hresource⟩ := h.next
  rw [hc] at hlength hordinal hresource
  refine ⟨hrows, ?_, ?_, ?_⟩
  · rw [List.length_append, List.length_singleton, List.range_succ, List.map_append, List.map_append, h.revisions,
      List.map_singleton, List.map_singleton, ← hrevision, hlength]
  · intro e he
    obtain he | he := List.mem_append.1 he
    · exact h.positions e he
    · rw [List.mem_singleton.1 he]
      omega
  · rw [hrow, List.getLast?_concat, Option.map_some, advancedCheckpoint, hresource, hlength, List.length_append,
      List.length_singleton]

variable {revision position : Int}

end EdgarPlatform.Bookkeeping
