import EdgarPlatform.Bookkeeping.Engine

/-!
# What a step's checkpoint names

A completion moves its step's checkpoint up to the place before the lowest unfinished unit, or to the highest unit where every unit is finished. Below that place every unit is verified. The place holds a unit as long as the units leave no gap there: an expansion places its children from a base, and a completion that stops in a gap leaves a checkpoint without a cursor or a receipt. An expansion that adds children below the checkpoint of their step breaks the prefix itself. Where neither is done, each step's checkpoint names a verified prefix and its last unit, and never moves back.
-/

namespace EdgarPlatform.Bookkeeping

open Records (Json)

def StepRow (db : Store) (r : Uuid) (step : String) (u : UnitId) (w : WorkItem) : Prop :=
  db.work.get? u = some w ∧ u.run = r ∧ u.step = step

/-- A checkpoint's ordinal closes a prefix of verified units, and its cursor and receipt are those of the last of them. -/
structure NamesPrefix (db : Store) (r : Uuid) (step : String) (c : Checkpoint) : Prop where
  verified : ∀ u w, StepRow db r step u w → w.ordinal ≤ c.ordinal → w.state = .verified
  last : 0 ≤ c.ordinal → ∃ u w, StepRow db r step u w ∧ w.state = .verified ∧ w.ordinal ≤ c.ordinal ∧
    (∀ v x, StepRow db r step v x → x.ordinal ≤ c.ordinal → v = u ∨ x.ordinal < w.ordinal) ∧
    c.cursor = cursorOf w.unit ∧ c.receipt = w.receipt

/-- A row keeps its place, and all a checkpoint reads of it once it is verified. -/
structure Follows (w w' : WorkItem) : Prop where
  ordinal : w'.ordinal = w.ordinal
  verified : w.state = .verified → w'.state = .verified ∧ w'.unit = w.unit ∧ w'.receipt = w.receipt

theorem Follows.refl (w : WorkItem) : Follows w w := ⟨rfl, fun h => ⟨h, rfl, rfl⟩⟩

variable {runText : Uuid → String} {platform : Platform} {db db' : Store} {request : Request} {answer : Answer}
variable {r : Uuid} {step : String} {c c' : Checkpoint}

variable {u : UnitId}

theorem Moved.follows {w w' : WorkItem} (h : Moved db request u w w') : Follows w w' := by
  refine ⟨h.ordinal_same, fun hverified => ?_⟩
  rw [h.verified_same hverified]
  exact ⟨hverified, rfl, rfl⟩

theorem NamesPrefix.keep (h : NamesPrefix db r step c)
    (hkept : ∀ u w, StepRow db r step u w → ∃ w', StepRow db' r step u w' ∧ Follows w w')
    (hnew : ∀ u w', StepRow db' r step u w' → db.work.get? u = none → c.ordinal < w'.ordinal) : NamesPrefix db' r step c := by
  have hback : ∀ u w', StepRow db' r step u w' → w'.ordinal ≤ c.ordinal → ∃ w, StepRow db r step u w ∧ Follows w w' := by
    intro u w' hw' hle
    cases hw : db.work.get? u with
    | none =>
        have hlt := hnew u w' hw' hw
        omega
    | some w =>
        obtain ⟨w'', hw'', hfollows⟩ := hkept u w ⟨hw, hw'.2⟩
        cases hw'.1.symm.trans hw''.1
        exact ⟨w, ⟨hw, hw'.2⟩, hfollows⟩
  refine ⟨fun u w' hw' hle => ?_, fun hnonneg => ?_⟩
  · obtain ⟨w, hw, hfollows⟩ := hback u w' hw' hle
    exact (hfollows.verified (h.verified u w hw (hfollows.ordinal ▸ hle))).1
  · obtain ⟨u, w, hw, hverified, hle, hgreatest, hcursor, hreceipt⟩ := h.last hnonneg
    obtain ⟨w', hw', hfollows⟩ := hkept u w hw
    obtain ⟨hverified', hunit, hreceipt'⟩ := hfollows.verified hverified
    refine ⟨u, w', hw', hverified', hfollows.ordinal ▸ hle, fun v x' hx' hxle => ?_, by rw [hcursor, hunit], by rw [hreceipt, hreceipt']⟩
    obtain ⟨x, hx, hfollowsx⟩ := hback v x' hx' hxle
    rw [hfollowsx.ordinal] at hxle ⊢
    rw [hfollows.ordinal]
    exact hgreatest v x hx hxle

theorem mem_ordinalsOf {cond : WorkItem → Bool} {ordinal : Int} :
    ordinal ∈ ordinalsOf db r step cond ↔ ∃ u w, StepRow db r step u w ∧ cond w = true ∧ w.ordinal = ordinal := by
  rw [ordinalsOf, List.mem_filterMap]
  constructor
  · rintro ⟨entry, hentry, hsome⟩
    split_ifs at hsome with hcond
    exact ⟨entry.1, entry.2, ⟨IndexMap.get?_eq_some_iff.2 hentry, hcond.1, hcond.2.1⟩, hcond.2.2, Option.some.inj hsome⟩
  · rintro ⟨u, w, ⟨hw, hr, hstep⟩, hcond, hordinal⟩
    exact ⟨(u, w), IndexMap.get?_eq_some_iff.1 hw, by rw [if_pos ⟨hr, hstep, hcond⟩, hordinal]⟩

/-- A completion stops before the lowest unfinished unit, or at the highest unit where none is unfinished. -/
theorem lastOrdinal_eq_some {last : Int} (h : lastOrdinal db r step = some last) :
    (∃ u w, StepRow db r step u w ∧ w.state ≠ .verified ∧ w.ordinal = last + 1 ∧
        ∀ v x, StepRow db r step v x → x.state ≠ .verified → last + 1 ≤ x.ordinal) ∨
      ((∀ v x, StepRow db r step v x → x.state = .verified) ∧ ∃ u w, StepRow db r step u w ∧ w.ordinal = last) := by
  rw [lastOrdinal, Option.or_eq_some_iff] at h
  obtain hlow | ⟨hnone, hhigh⟩ := h
  · obtain ⟨low, hmin, hlast⟩ := Option.map_eq_some_iff.1 hlow
    obtain ⟨hmem, hle⟩ := List.min?_eq_some_iff.1 hmin
    obtain ⟨u, w, hw, hopen, hordinal⟩ := mem_ordinalsOf.1 hmem
    refine .inl ⟨u, w, hw, by simpa using hopen, by omega, fun v x hx hunfinished => ?_⟩
    have := hle x.ordinal (mem_ordinalsOf.2 ⟨v, x, hx, by simpa using hunfinished, rfl⟩)
    omega
  · rw [Option.map_eq_none_iff, List.min?_eq_none_iff] at hnone
    obtain ⟨u, w, hw, _, hordinal⟩ := mem_ordinalsOf.1 (List.max?_eq_some_iff.1 hhigh).1
    refine .inr ⟨fun v x hx => ?_, u, w, hw, hordinal⟩
    by_contra hopen
    have hmem : x.ordinal ∈ ordinalsOf db r step fun w => w.state ≠ .verified :=
      mem_ordinalsOf.2 ⟨v, x, hx, by simpa using hopen, rfl⟩
    rw [hnone] at hmem
    cases hmem

variable {w : WorkItem}

theorem verified_of_lastOrdinal {last : Int} (h : lastOrdinal db r step = some last)
    (hw : StepRow db r step u w) (hle : w.ordinal ≤ last) : w.state = .verified := by
  obtain ⟨_, _, _, _, _, hlow⟩ | ⟨hall, _⟩ := lastOrdinal_eq_some h
  · by_contra hopen
    have := hlow u w hw hopen
    omega
  · exact hall u w hw

theorem itemAt_eq_some {ordinal : Int} (h : itemAt db r step ordinal = some w) :
    ∃ u, StepRow db r step u w ∧ w.ordinal = ordinal := by
  obtain ⟨entry, hentry, rfl⟩ := Option.map_eq_some_iff.1 h
  have hfound := List.find?_some hentry
  simp only [Bool.and_eq_true, decide_eq_true_eq] at hfound
  exact ⟨entry.1, ⟨IndexMap.get?_eq_some_iff.2 (List.mem_of_find?_eq_some hentry), hfound.1.1, hfound.1.2⟩, hfound.2⟩

theorem itemAt_isSome (hw : StepRow db r step u w) : ∃ x, itemAt db r step w.ordinal = some x := by
  have hsome : (db.work.entries.find? fun entry => entry.1.run = r && entry.1.step = step && entry.2.ordinal = w.ordinal).isSome = true := by
    rw [List.find?_isSome]
    exact ⟨(u, w), IndexMap.get?_eq_some_iff.1 hw.1, by simp [hw.2.1, hw.2.2]⟩
  obtain ⟨entry, hentry⟩ := Option.isSome_iff_exists.1 hsome
  exact ⟨entry.2, by rw [itemAt, hentry, Option.map_some]⟩

/-- No two units of a step have one place, and places are not negative. -/
structure Placed (db : Store) : Prop where
  apart : ∀ r step u v w x, StepRow db r step u w → StepRow db r step v x → w.ordinal = x.ordinal → u = v
  ordinal : ∀ u w, db.work.get? u = some w → 0 ≤ w.ordinal

theorem namesPrefix_moved {last : Int} (hplaced : ∀ u v w x, StepRow db r step u w → StepRow db r step v x → w.ordinal = x.ordinal → u = v)
    (hlast : lastOrdinal db r step = some last) (hlt : c.ordinal < last) (hw : StepRow db r step u w)
    (hat : w.ordinal = last) : NamesPrefix db r step (movedCheckpoint db r step last c) := by
  rw [movedCheckpoint, if_pos hlt]
  refine ⟨fun v x hx hle => verified_of_lastOrdinal hlast hx hle, fun _ => ?_⟩
  obtain ⟨x, hx⟩ := itemAt_isSome hw
  rw [hat] at hx
  obtain ⟨v, hv, hplace⟩ := itemAt_eq_some hx
  cases hplaced u v w x hw hv (hat.trans hplace.symm)
  cases hw.1.symm.trans hv.1
  refine ⟨u, w, hw, verified_of_lastOrdinal hlast hw hat.le, hat.le, fun y z hz hle => ?_, by rw [hx]; rfl, by rw [hx]; rfl⟩
  by_cases heq : z.ordinal = w.ordinal
  · exact .inl (hplaced y u z w hz hw heq)
  · refine .inr ?_
    have hle : z.ordinal ≤ last := hle
    omega

theorem placed_empty : Placed .empty := by
  refine ⟨?_, ?_⟩
  · intro r step u v w x hw
    cases hw.1
  · intro u w hw
    cases hw

theorem Placed.of_rows (h : Placed db) (hrows : ∀ u w', db'.work.get? u = some w' → ∃ w, db.work.get? u = some w ∧ w'.ordinal = w.ordinal) :
    Placed db' := by
  refine ⟨fun r step u v w' x' hw' hx' hsame => ?_, fun u w' hw' => ?_⟩
  · obtain ⟨w, hw, hordinal⟩ := hrows u w' hw'.1
    obtain ⟨x, hx, hordinalx⟩ := hrows v x' hx'.1
    rw [hordinal, hordinalx] at hsame
    exact h.apart r step u v w x ⟨hw, hw'.2⟩ ⟨hx, hx'.2⟩ hsame
  · obtain ⟨w, hw, hordinal⟩ := hrows u w' hw'
    rw [hordinal]
    exact h.ordinal u w hw

theorem Placed.congr (h : Placed db) (hwork : db'.work = db.work) : Placed db' :=
  h.of_rows fun _ w' hw' => ⟨w', hwork ▸ hw', rfl⟩

theorem Placed.insertWork (h : Placed db) {entry : WorkEntry} (hordinal : 0 ≤ entry.ordinal) : Placed (insertWork db r entry) := by
  rw [Bookkeeping.insertWork]
  split_ifs with htaken
  · exact h
  · rw [Bool.or_eq_true, not_or] at htaken
    have hfree : ∀ v x, StepRow db r entry.step v x → x.ordinal ≠ entry.ordinal := by
      intro v x hx heq
      refine htaken.2 (anyWork_iff.2 ⟨v, x, hx.1, hx.2.1, hx.2.2, ?_⟩)
      simp [heq]
    have hrow : ∀ u w, (db.work.insert (entry.id r) entry.pending).get? u = some w →
        (u = entry.id r ∧ w = entry.pending) ∨ db.work.get? u = some w := by
      intro u w hw
      rw [IndexMap.get?_insert] at hw
      split_ifs at hw with hu
      · exact .inl ⟨hu, (Option.some.inj hw).symm⟩
      · exact .inr hw
    refine ⟨fun q step u v w x hw hx hsame => ?_, fun u w hw => ?_⟩
    · obtain ⟨rfl, rfl⟩ | hw' := hrow u w hw.1
      · obtain ⟨rfl, rfl⟩ | hx' := hrow v x hx.1
        · rfl
        · refine absurd hsame.symm (hfree v x ⟨hx', ?_, ?_⟩)
          · rw [hx.2.1, ← hw.2.1, WorkEntry.id]
          · rw [hx.2.2, ← hw.2.2, WorkEntry.id]
      · obtain ⟨rfl, rfl⟩ | hx' := hrow v x hx.1
        · refine absurd hsame (hfree u w ⟨hw', ?_, ?_⟩)
          · rw [hw.2.1, ← hx.2.1, WorkEntry.id]
          · rw [hw.2.2, ← hx.2.2, WorkEntry.id]
        · exact h.apart q step u v w x ⟨hw', hw.2⟩ ⟨hx', hx.2⟩ hsame
    · obtain ⟨rfl, rfl⟩ | hw' := hrow u w hw
      · exact hordinal
      · exact h.ordinal u w hw'

theorem Placed.startEntries (h : Placed db) {items : List WorkEntry} (hitems : items.foldlM (startEntry r) db = .ok db') :
    Placed db' := by
  refine Runs.run_invariant (fun _ mid => Placed mid) hitems h ?_
  intro front entry back mid next _ hmid hnext
  obtain ⟨hordinal, _, hwork⟩ := startEntry_eq_ok hnext
  exact (hmid.insertWork hordinal).congr hwork

variable {childStep : String} {children : List WorkEntry}

theorem Placed.insertChildren (h : Placed db) {sealed : Bool}
    (hchildren : children.foldlM (insertChild r childStep sealed) db = .ok db') : Placed db' := by
  refine Runs.run_invariant (fun _ mid => Placed mid) hchildren h ?_
  intro front child back mid next _ hmid hnext
  obtain ⟨rfl, _, hordinal, _⟩ := insertChild_eq_ok hnext
  exact hmid.insertWork hordinal

theorem Placed.keep (h : Placed db) (hresult : perform runText db request = .ok (answer, db')) : Placed db' := by
  have heffect := perform_effect hresult
  by_cases hold : ∀ u w', db'.work.get? u = some w' → ∃ w, db.work.get? u = some w
  · refine h.of_rows fun u w' hw' => ?_
    obtain ⟨w, hw⟩ := hold u w' hw'
    obtain ⟨w'', hw'', hmoved⟩ | ⟨hnone, _⟩ := heffect.moves hw
    · cases hw'.symm.trans hw''
      exact ⟨w, hw, hmoved.ordinal_same⟩
    · rw [hw'] at hnone
      cases hnone
  · push Not at hold
    obtain ⟨u, w', hw', hnew⟩ := hold
    obtain ⟨entries, hlists, _⟩ := heffect.new (Option.eq_none_iff_forall_ne_some.2 hnew) hw'
    generalize hcall : request.call = call at hlists
    cases hlists with
    | started submission hash =>
        simp only [perform, hcall] at hresult
        obtain ⟨_, _, _, _, ⟨_, rfl⟩ | ⟨_, hitems, _⟩⟩ := startRun_eq_ok (silent_eq_ok hresult).1
        · exact h.congr (by rw [insertRun_eq])
        · exact (h.congr (by rw [insertRun_eq])).startEntries hitems
    | expanded v hrun a proof receipt checks event _ childStep =>
        simp only [perform, hcall] at hresult
        obtain ⟨_, _, parent, hparent, _, ⟨_, _, _, _, hinserted⟩ | ⟨_, added, finished, run, hexpanded⟩⟩ :=
          finishExpand_eq_ok (silent_eq_ok hresult).1
        · exact h.insertChildren hinserted
        · have hadded := h.insertChildren hexpanded.inserted
          have hfound := (insertChildren_adds hexpanded.inserted).kept v parent hparent
          refine hadded.of_rows fun y z hz => ?_
          rw [hexpanded.work, hexpanded.completed.work, IndexMap.get?_insert, IndexMap.get?_insert] at hz
          split_ifs at hz with hy
          · cases hz
            exact ⟨parent, hy ▸ hfound, rfl⟩
          · exact ⟨z, hz, rfl⟩

def arrived (db : Store) (r : Uuid) (step : String) (c : Checkpoint) : Checkpoint :=
  (lastOrdinal db r step).elim c fun last => movedCheckpoint db r step last c

theorem advanceCheckpoint_get? (db : Store) (r : Uuid) (step : String) (place : Uuid × String) :
    (advanceCheckpoint db r step).checkpoints.get? place
      = (db.checkpoints.get? place).map fun c => if place = (r, step) then arrived db r step c else c := by
  rw [advanceCheckpoint]
  split
  · rename_i last c hlast hc
    show (db.checkpoints.insert (r, step) _).get? place = _
    rw [IndexMap.get?_insert]
    split_ifs with hplace
    · rw [hplace, hc, Option.map_some, arrived, hlast, Option.elim_some]
    · rw [Option.map_id']
  · rename_i hnone
    by_cases hplace : place = (r, step)
    · cases hc : db.checkpoints.get? place with
      | none => rfl
      | some c =>
          cases hlast : lastOrdinal db r step with
          | none => rw [Option.map_some, if_pos hplace, arrived, hlast, Option.elim_none]
          | some last => exact absurd (hplace ▸ hc) (hnone last c hlast)
    · simp only [if_neg hplace, Option.map_id']

variable {receipt checks : Json}

variable {event : Uuid} {session : Session}

theorem Completed.checkpoint {a : Uuid}
    (h : Completed session db u w a receipt checks event db') (place : Uuid × String) :
    db'.checkpoints.get? place
      = (db.checkpoints.get? place).map fun c => if place = (u.run, u.step) then arrived db' u.run u.step c else c := by
  rw [h.checkpoints]
  exact advanceCheckpoint_get? { db with work := db'.work } u.run u.step place

theorem insertChildren_checkpoints {sealed : Bool}
    (h : children.foldlM (insertChild r childStep sealed) db = .ok db') : db'.checkpoints = db.checkpoints := by
  refine Runs.run_keeps Store.checkpoints h fun child _ mid next hnext => ?_
  rw [(insertChild_eq_ok hnext).1, Bookkeeping.insertWork]
  split_ifs <;> rfl

theorem insertChildren_steps {sealed : Bool}
    (h : children.foldlM (insertChild r childStep sealed) db = .ok db') : ∀ child ∈ children, child.step = childStep := by
  intro child hchild
  obtain ⟨front, back, rfl⟩ := List.append_of_mem hchild
  obtain ⟨mid, next, _, hnext, _⟩ := Runs.run_split h
  exact (insertChild_eq_ok hnext).2.1

theorem openCheckpoint_step {q : Uuid} {resource : String} (hstep : isIdentifier step = true)
    (h : openCheckpoint db q resource = .ok db') : db'.checkpoints.get? (r, step) = db.checkpoints.get? (r, step) := by
  rw [openCheckpoint] at h
  split_ifs at h
  · cases h
    rfl
  · cases h
    refine IndexMap.get?_insert_of_ne _ _ fun heq => ?_
    exact ne_resourceScope hstep resource (Prod.mk.inj heq).2

theorem writeResource_step {q : Uuid} {resource : String} {position : Int} {cursor : Option Json} {receipt : Json} {next : Nat}
    (hrows : ResourceRows db) (hstep : isIdentifier step = true)
    (h : writeResource db q resource position cursor receipt = .ok (next, db')) :
    db'.checkpoints.get? (r, step) = db.checkpoints.get? (r, step) := by
  rw [writeResource] at h
  obtain ⟨held, hselect, h⟩ := Except.bind_eq_ok.1 h
  rw [Except.ite_error_eq_ok] at h
  cases h.2
  have hfound : resourceCheckpoint db resource = some held := by
    rw [selectResource] at hselect
    cases hrow : resourceCheckpoint db resource with
    | none => simp [hrow] at hselect
    | some row => simpa [hrow] using hselect
  obtain ⟨hget, hresource⟩ := resourceCheckpoint_eq hfound
  have hscope := hrows.scope _ _ _ hget hresource
  show ((db.checkpoints.erase held.1).insert (q, held.1.2) _).get? (r, step) = _
  rw [IndexMap.get?_insert_of_ne, IndexMap.get?_erase, if_neg]
  · intro heq
    rw [← heq] at hscope
    exact ne_resourceScope hstep resource hscope
  · intro heq
    rw [← (Prod.mk.inj heq).2] at hscope
    exact ne_resourceScope hstep resource hscope

/-- A completion as a call makes it. -/
structure Finish where
  unit : UnitId
  attempt : Uuid
  proof : List LeaseProof
  receipt : Json
  checks : Json

def Call.finishes : Call → Option Finish
  | .finish u a proof receipt checks _ => some ⟨u, a, proof, receipt, checks⟩
  | .finishResource u a proof receipt checks _ _ _ _ => some ⟨u, a, proof, receipt, checks⟩
  | .finishExpand u a proof receipt checks _ _ _ => some ⟨u, a, proof, receipt, checks⟩
  | _ => none

def Finish.Taken (session : Session) (db : Store) (f : Finish) (w : WorkItem) : Prop :=
  db.work.get? f.unit = some w ∧ Completable session db f.unit f.attempt f.proof f.receipt f.checks w

/-- The work a completion has written when it moves the checkpoint: of the step's units only the completed one changed since the call was made, and only its row changes after. -/
structure Written (db : Store) (u : UnitId) (w : WorkItem) (written db' : Store) : Prop where
  row : ∃ x x', written.work.get? u = some x ∧ x.ordinal = w.ordinal ∧ x.state = .verified ∧ db'.work.get? u = some x' ∧ Follows x x'
  others : ∀ v, v ≠ u → v.run = u.run → v.step = u.step → written.work.get? v = db.work.get? v
  same : ∀ v, v ≠ u → db'.work.get? v = written.work.get? v

/-- What an accepted call does to the checkpoint of a step. -/
inductive Passes (db : Store) (request : Request) (r : Uuid) (step : String) (db' : Store) : Prop
  | same (kept : db'.checkpoints.get? (r, step) = db.checkpoints.get? (r, step))
  | opened (absent : db.checkpoints.get? (r, step) = none) (fresh : db'.checkpoints.get? (r, step) = some ⟨-1, none, none, none, 0⟩)
  | moved {f : Finish} {w : WorkItem} {written : Store} (call : request.call.finishes = some f)
      (taken : f.Taken request.session db w) (run : f.unit.run = r) (named : f.unit.step = step)
      (writes : Written db f.unit w written db')
      (arrives : db'.checkpoints.get? (r, step) = (db.checkpoints.get? (r, step)).map (arrived written r step))

theorem Completed.written {a : Uuid}
    {opened finished : Store} (h : Completed session opened u w a receipt checks event finished) (hopened : opened.work = db.work)
    (hwork : db'.work = finished.work) : Written db u w finished db' := by
  have hrow : finished.work.get? u = some (completedWork session w receipt checks (earliestEnd opened.leases u.run a)) := by
    rw [h.work, IndexMap.get?_insert_self]
  refine ⟨⟨_, _, hrow, rfl, rfl, by rw [hwork, hrow], Follows.refl _⟩, fun v hv _ _ => ?_, fun v _ => by rw [hwork]⟩
  rw [h.work, IndexMap.get?_insert_of_ne _ _ hv, hopened]

theorem Expanded.written {parent : WorkItem} {a : Uuid}
    {added finished : Store} {run : PipelineRun} (hother : childStep ≠ u.step)
    (h : Expanded session db u parent a receipt checks event children childStep added finished run db') :
    Written db u parent finished db' := by
  have hdone := h.completed
  have hrow : finished.work.get? u = some (completedWork session parent receipt checks (earliestEnd added.leases u.run a)) := by
    rw [hdone.work, IndexMap.get?_insert_self]
  have hsealed := IndexMap.get?_insert_self finished.work u
    (sealWork (completedWork session parent receipt checks (earliestEnd db.leases u.run a)) children.length)
  rw [← h.work] at hsealed
  have hadds := insertChildren_adds h.inserted
  refine ⟨⟨_, _, hrow, rfl, rfl, hsealed, rfl, fun _ => ⟨rfl, rfl, rfl⟩⟩, fun v hv hrun hstep => ?_,
    fun v hv => by rw [h.work, IndexMap.get?_insert_of_ne _ _ hv]⟩
  rw [hdone.work, IndexMap.get?_insert_of_ne _ _ hv]
  cases hold : db.work.get? v with
  | some x => exact hadds.kept v x hold
  | none =>
      refine Option.eq_none_iff_forall_ne_some.2 fun x hx => ?_
      obtain hx | ⟨entry, hentry, hv, _⟩ := hadds.added v x hx
      · rw [hold] at hx
        cases hx
      · -- a child is of the child step, and the parent of another
        have hchild := insertChildren_steps h.inserted entry hentry
        rw [hv, WorkEntry.id] at hstep
        exact hother (hchild.symm.trans hstep)

theorem Adds.checkpoint {q : Uuid} {entries : List WorkEntry} (h : Adds q entries db db') (place : Uuid × String) :
    db'.checkpoints.get? place = db.checkpoints.get? place ∨
      (db.checkpoints.get? place = none ∧ db'.checkpoints.get? place = some ⟨-1, none, none, none, 0⟩) := by
  cases hc : db.checkpoints.get? place with
  | some c => exact .inl (h.checkpointsKept _ c hc)
  | none =>
      cases hc' : db'.checkpoints.get? place with
      | none => exact .inl rfl
      | some c' =>
          obtain hold | ⟨rfl, _⟩ := h.checkpointsAdded _ c' hc'
          · rw [hc] at hold
            cases hold
          · exact .inr ⟨rfl, rfl⟩

theorem Completed.passes {a : Uuid} {f : Finish}
    {opened finished : Store} (h : Completed session opened u w a receipt checks event finished)
    (hbefore : opened.checkpoints.get? (r, step) = db.checkpoints.get? (r, step))
    (hafter : db'.checkpoints.get? (r, step) = finished.checkpoints.get? (r, step)) (hcall : request.call.finishes = some f)
    (hunit : f.unit = u) (htaken : f.Taken request.session db w) (hwritten : Written db u w finished db') :
    Passes db request r step db' := by
  have hpoint := h.checkpoint (r, step)
  rw [hbefore] at hpoint
  by_cases hplace : (r, step) = (u.run, u.step)
  · obtain ⟨rfl, rfl⟩ := Prod.mk.inj hplace
    simp only [if_true] at hpoint
    exact .moved hcall htaken (by rw [hunit]) (by rw [hunit]) (hunit.symm ▸ hwritten) (hafter.trans hpoint)
  · simp only [if_neg hplace, Option.map_id'] at hpoint
    exact .same (hafter.trans hpoint)

theorem openStep_get? (checkpoints : IndexMap (Uuid × String) Checkpoint) (q : Uuid) (childStep : String) (place : Uuid × String) :
    (openStep checkpoints q childStep).get? place = checkpoints.get? place ∨
      (checkpoints.get? place = none ∧ (openStep checkpoints q childStep).get? place = some ⟨-1, none, none, none, 0⟩) := by
  rw [openStep]
  split_ifs with hheld
  · exact .inl rfl
  · rw [IndexMap.get?_insert]
    split_ifs with hplace
    · rw [IndexMap.contains, Option.not_isSome_iff_eq_none] at hheld
      exact .inr ⟨hplace ▸ hheld, rfl⟩
    · exact .inl rfl

theorem Expanded.passes {parent : WorkItem} {a : Uuid} {f : Finish}
    {added finished : Store} {run : PipelineRun} (hother : childStep ≠ u.step)
    (h : Expanded request.session db u parent a receipt checks event children childStep added finished run db')
    (hcall : request.call.finishes = some f) (hunit : f.unit = u) (htaken : f.Taken request.session db parent) :
    Passes db request r step db' := by
  have hadded := insertChildren_checkpoints h.inserted
  by_cases hplace : (r, step) = (u.run, childStep)
  · have hfinished : finished.checkpoints.get? (r, step) = db.checkpoints.get? (r, step) := by
      have hne : (r, step) ≠ (u.run, u.step) := by
        rw [hplace]
        exact fun heq => hother (Prod.mk.inj heq).2
      rw [h.completed.checkpoint (r, step), hadded]
      simp only [if_neg hne, Option.map_id']
    obtain hsame | ⟨habsent, hfresh⟩ := openStep_get? finished.checkpoints u.run childStep (r, step)
    · rw [← h.checkpoints] at hsame
      exact .same (hsame.trans hfinished)
    · rw [← h.checkpoints] at hfresh
      exact .opened (hfinished ▸ habsent) hfresh
  · refine h.completed.passes (by rw [hadded]) ?_ hcall hunit htaken (h.written hother)
    rw [h.checkpoints, openStep]
    split_ifs
    · rfl
    · exact IndexMap.get?_insert_of_ne _ _ hplace

/-- Every accepted call leaves a step's checkpoint, opens it, or moves it as a completion there does. -/
theorem Effect.passes (h : Effect db request answer db') (hrows : ResourceRows db) (hstep : isIdentifier step = true) :
    Passes db request r step db' := by
  cases h with
  | unchanged => exact .same rfl
  | started call found uncompacted inserted accounted =>
      have hadds := startEntries_adds inserted
      rw [insertRun_eq] at hadds
      obtain hsame | ⟨habsent, hfresh⟩ := hadds.checkpoint (r, step)
      · exact .same hsame
      · exact .opened habsent hfresh
  | claimed => exact .same rfl
  | renewed => exact .same rfl
  | waited call found unverified cause => cases cause <;> exact .same rfl
  | reported call authorized named running pins => exact .same (by rw [pins.1])
  | verifying => exact .same rfl
  | pinned pins => exact .same (by rw [pins.1])
  | @completed u a proof receipt checks event w _ call authorized completed =>
      refine completed.passes rfl rfl (f := ⟨u, a, proof, receipt, checks⟩) (by rw [call]; rfl) rfl ?_ (completed.written rfl rfl)
      exact ⟨authorized.found, authorized.accepted, completed.reported, completed.names, completed.valid, completed.passed⟩
  | @advanced u a proof receipt checks event resource revision position w opened finished _ next call authorized range leased opens
      agrees completed written =>
      have hfinished := (openCheckpoint_rows hrows opens).1.completed completed
      refine completed.passes (openCheckpoint_step hstep opens) (writeResource_step hfinished hstep written)
        (f := ⟨u, a, proof, receipt, checks⟩) (by rw [call]; rfl) rfl ?_
        (completed.written (by rw [openCheckpoint_eq opens]) (by rw [writeResource_eq written]))
      exact ⟨authorized.found, authorized.accepted, completed.reported, completed.names, completed.valid, completed.passed⟩
  | repeated call found verified sealed evidence inserted =>
      obtain hsame | ⟨habsent, hfresh⟩ := (insertChildren_adds inserted).checkpoint (r, step)
      · exact .same hsame
      · exact .opened habsent hfresh
  | @expanded u a proof receipt checks event children childStep parent added finished _ run call other keys generated authorized
      expanded =>
      have hdone := expanded.completed
      refine expanded.passes other (f := ⟨u, a, proof, receipt, checks⟩) (by rw [call]; rfl) rfl ?_
      exact ⟨authorized.found, authorized.accepted, hdone.reported, hdone.names, hdone.valid, hdone.passed⟩
  | recorded => exact .same rfl
  | resumed => exact .same rfl
  | blocked => exact .same rfl
  | delivered => exact .same rfl
  | compacted call compacts => exact .same (by rw [compacts.checkpoints])

/-- A completion of a unit lands on a unit: where other units of the step are unfinished, the place before the lowest of them is not above the checkpoint, or holds a unit. -/
def Lands (db : Store) (u : UnitId) : Prop :=
  ∀ v x, StepRow db u.run u.step v x → v ≠ u → x.state ≠ .verified →
    (∀ v' x', StepRow db u.run u.step v' x' → v' ≠ u → x'.state ≠ .verified → x.ordinal ≤ x'.ordinal) →
    (∀ c, db.checkpoints.get? (u.run, u.step) = some c → x.ordinal - 1 ≤ c.ordinal) ∨
      ∃ v' x', StepRow db u.run u.step v' x' ∧ x'.ordinal = x.ordinal - 1

/-- A completion that is taken lands on a unit, and the children it brings come after the checkpoint of their step. -/
def StaysPrefix (db : Store) (request : Request) : Prop :=
  ∀ f w, request.call.finishes = some f → f.Taken request.session db w → Lands db f.unit ∧
    ∀ child ∈ request.call.listed, ∀ c, db.checkpoints.get? (f.unit.run, child.step) = some c → c.ordinal < child.ordinal

def Call.compacts : Call → Bool
  | .compact _ => true
  | _ => false

def KeepsUnits (request : Request) : Prop := request.call.compacts = false

theorem Written.row_before {written : Store} (h : Written db u w written db')
    (hw : db.work.get? u = some w) {v : UnitId} {x : WorkItem} (hx : StepRow written u.run u.step v x) :
    ∃ x', StepRow db u.run u.step v x' ∧ x.ordinal = x'.ordinal := by
  by_cases hv : v = u
  · obtain ⟨y, _, hy, hordinal, _⟩ := h.row
    subst hv
    cases hy.symm.trans hx.1
    exact ⟨w, ⟨hw, rfl, rfl⟩, hordinal⟩
  · exact ⟨x, ⟨h.others v hv hx.2.1 hx.2.2 ▸ hx.1, hx.2⟩, rfl⟩

theorem Written.row_after {written : Store} (h : Written db u w written db')
    (hw : db.work.get? u = some w) {v : UnitId} {x : WorkItem} (hx : StepRow db u.run u.step v x) :
    ∃ x', StepRow written u.run u.step v x' ∧ x'.ordinal = x.ordinal := by
  by_cases hv : v = u
  · obtain ⟨y, _, hy, hordinal, _⟩ := h.row
    subst hv
    cases hw.symm.trans hx.1
    exact ⟨y, ⟨hy, rfl, rfl⟩, hordinal⟩
  · exact ⟨x, ⟨(h.others v hv hx.2.1 hx.2.2).trans hx.1, hx.2⟩, rfl⟩

theorem Written.lands {written : Store} {last : Int} (h : Written db u w written db')
    (hw : db.work.get? u = some w) (hlands : Lands db u) (hc : db.checkpoints.get? (u.run, u.step) = some c)
    (hlast : lastOrdinal written u.run u.step = some last) (hlt : c.ordinal < last) :
    ∃ v x, StepRow written u.run u.step v x ∧ x.ordinal = last := by
  obtain ⟨v, x, hx, hopen, hordinal, hlow⟩ | ⟨_, hhigh⟩ := lastOrdinal_eq_some hlast
  · have hunfinished : ∀ v x, StepRow written u.run u.step v x → x.state ≠ .verified → v ≠ u := by
      intro v x hx hopen
      rintro rfl
      obtain ⟨y, _, hy, _, hverified, _⟩ := h.row
      cases hy.symm.trans hx.1
      exact hopen hverified
    have hv := hunfinished v x hx hopen
    have hbefore : StepRow db u.run u.step v x := ⟨h.others v hv hx.2.1 hx.2.2 ▸ hx.1, hx.2⟩
    have hlowest : ∀ v' x', StepRow db u.run u.step v' x' → v' ≠ u → x'.state ≠ .verified → x.ordinal ≤ x'.ordinal := by
      intro v' x' hx' hv' hopen'
      rw [hordinal]
      exact hlow v' x' ⟨(h.others v' hv' hx'.2.1 hx'.2.2).trans hx'.1, hx'.2⟩ hopen'
    obtain hle | ⟨v', x', hx', hplace⟩ := hlands v x hbefore hv hopen hlowest
    · have := hle c hc
      omega
    · obtain ⟨y, hy, hsame⟩ := h.row_after hw hx'
      exact ⟨v', y, hy, by omega⟩
  · exact hhigh

/-- The store under the engine, with every step's checkpoint at a verified prefix. -/
structure Prefixes (platform : Platform) (db : Store) : Prop where
  kept : Kept platform db
  rows : ResourceRows db
  placed : Placed db
  named : ∀ r step c, step ∈ (platform.config r).steps.map StepConfig.name → db.checkpoints.get? (r, step) = some c →
    NamesPrefix db r step c

theorem prefixes_empty (platform : Platform) : Prefixes platform .empty := by
  refine ⟨kept_empty platform, resourceRows_empty, placed_empty, ?_⟩
  intro r step c _ hc
  cases hc

theorem Prefixes.new_after (h : Prefixes platform db) (hmakes : platform.Makes db request) (hstays : StaysPrefix db request)
    (hresult : perform runText db request = .ok (answer, db')) (hnamed : NamesPrefix db r step c)
    (hc : db.checkpoints.get? (r, step) = some c) {v : UnitId} {x : WorkItem} (hx : StepRow db' r step v x)
    (hnone : db.work.get? v = none) : c.ordinal < x.ordinal := by
  obtain ⟨hx, rfl, rfl⟩ := hx
  obtain ⟨_, _, hgains⟩ := h.kept.gains hmakes hresult hnone hx
  cases hgains with
  | started first ordinal =>
      by_contra hle
      obtain ⟨u, w, hw, _⟩ := hnamed.last (by omega)
      exact first u w hw.1 hw.2.1
  | @generated u parent a proof receipt checks event children entry call found completable run expands listed unit row ordinal =>
      have hfinishes : request.call.finishes = some ⟨u, a, proof, receipt, checks⟩ := by rw [call]; rfl
      have hstep : entry.step = v.step := by rw [unit, WorkEntry.id]
      have hafter := (hstays _ parent hfinishes ⟨found, completable⟩).2 entry (by rw [call]; exact listed) c
      rw [row]
      refine hafter ?_
      show db.checkpoints.get? (u.run, entry.step) = some c
      rw [run, hstep, hc]

theorem Prefixes.named_kept (h : Prefixes platform db) (hmakes : platform.Makes db request) (hkeeps : KeepsUnits request)
    (hstays : StaysPrefix db request) (hresult : perform runText db request = .ok (answer, db'))
    (hnamed : NamesPrefix db r step c) (hc : db.checkpoints.get? (r, step) = some c) : NamesPrefix db' r step c := by
  refine hnamed.keep (fun u w hw => ?_) fun v x hx hnone => h.new_after hmakes hstays hresult hnamed hc hx hnone
  obtain ⟨w', hw', hmoved⟩ | ⟨_, days, hcompact⟩ := (perform_effect hresult).moves hw.1
  · exact ⟨w', ⟨hw', hw.2⟩, hmoved.follows⟩
  · rw [KeepsUnits, hcompact] at hkeeps
    cases hkeeps

theorem Prefixes.arrived {u : UnitId} {w : WorkItem} {written : Store} (h : Prefixes platform db)
    (hw : db.work.get? u = some w) (hwritten : Written db u w written db') (hlands : Lands db u)
    (hc : db.checkpoints.get? (u.run, u.step) = some c) (hnamed : NamesPrefix db' u.run u.step c) :
    NamesPrefix db' u.run u.step (arrived written u.run u.step c) := by
  rw [Bookkeeping.arrived]
  cases hlast : lastOrdinal written u.run u.step with
  | none => exact hnamed
  | some last =>
      rw [Option.elim_some]
      by_cases hlt : c.ordinal < last
      · obtain ⟨v, x, hx, hat⟩ := hwritten.lands hw hlands hc hlast hlt
        refine (namesPrefix_moved (fun y z a b ha hb hsame => ?_) hlast hlt hx hat).keep (fun y z hz => ?_) fun y z hz hnone => ?_
        · obtain ⟨a', ha', hordinal⟩ := hwritten.row_before hw ha
          obtain ⟨b', hb', hordinal'⟩ := hwritten.row_before hw hb
          exact h.placed.apart _ _ y z a' b' ha' hb' (hordinal.symm.trans (hsame.trans hordinal'))
        · by_cases hy : y = u
          · obtain ⟨x', x'', hx', _, _, hx'', hfollows⟩ := hwritten.row
            subst hy
            cases hx'.symm.trans hz.1
            exact ⟨x'', ⟨hx'', hz.2⟩, hfollows⟩
          · exact ⟨z, ⟨(hwritten.same y hy).trans hz.1, hz.2⟩, .refl z⟩
        · by_cases hy : y = u
          · obtain ⟨x', _, hx', _⟩ := hwritten.row
            rw [hy, hx'] at hnone
            cases hnone
          · rw [← hwritten.same y hy, hz.1] at hnone
            cases hnone
      · rw [movedCheckpoint, if_neg hlt]
        exact hnamed

theorem Platform.makes_names (hvalid : platform.Validated) (hmakes : platform.Makes db request)
    (hresult : perform runText db request = .ok (answer, db')) : NamesSteps request := by
  rw [NamesSteps]
  rw [Platform.Makes] at hmakes
  have hidentifier : ∀ {q : Uuid} {name : String}, name ∈ (platform.config q).steps.map StepConfig.name → isIdentifier name = true := by
    intro q name hname
    obtain ⟨step, hstep, rfl⟩ := List.mem_map.1 hname
    exact (validate_steps (hvalid q)).1 step hstep
  cases hcall : request.call with
  | startRun q submission hash items =>
      rw [hcall] at hmakes
      obtain ⟨manifest, hmanifest⟩ := hmakes
      exact fun entry hentry => hidentifier (worklist_steps hmanifest entry hentry).1
  | finishExpand u a proof receipt checks event children childStep =>
      rw [hcall] at hmakes
      simp only [perform, hcall] at hresult
      obtain ⟨_, _, parent, hparent, _⟩ := finishExpand_eq_ok (silent_eq_ok hresult).1
      obtain ⟨⟨selected, hselected, hname, _⟩, hsteps⟩ := Platform.children_step (hmakes parent hparent).2
      intro entry hentry
      rw [hsteps entry hentry, ← hname]
      exact hidentifier (List.mem_map.2 ⟨selected, hselected, rfl⟩)
  | _ =>
      intro entry hentry
      cases hentry

/-- Every accepted call of the engine whose completions land leaves every step's checkpoint at a verified prefix. -/
theorem Prefixes.keep (hvalid : platform.Validated) (h : Prefixes platform db) (hmakes : platform.Makes db request)
    (hkeeps : KeepsUnits request) (hstays : StaysPrefix db request) (hresult : perform runText db request = .ok (answer, db')) :
    Prefixes platform db' := by
  have hplaced := h.placed.keep hresult
  refine ⟨h.kept.step hmakes hresult, h.rows.step (Platform.makes_names hvalid hmakes hresult) hresult, hplaced, ?_⟩
  intro r step c' hstep hc'
  obtain ⟨configured, hconfigured, rfl⟩ := List.mem_map.1 hstep
  have hidentifier := (validate_steps (hvalid r)).1 configured hconfigured
  cases (perform_effect hresult).passes (r := r) h.rows hidentifier with
  | same kept =>
      rw [kept] at hc'
      exact h.named_kept hmakes hkeeps hstays hresult (h.named r _ c' hstep hc') hc'
  | opened absent fresh =>
      cases fresh.symm.trans hc'
      refine ⟨fun u w hw hle => ?_, fun hnonneg => absurd hnonneg (by decide)⟩
      have hordinal := hplaced.ordinal u w hw.1
      have hle : w.ordinal ≤ -1 := hle
      omega
  | moved call taken run named writes arrives =>
      subst run
      rw [arrives] at hc'
      obtain ⟨c, hc, rfl⟩ := Option.map_eq_some_iff.1 hc'
      have hkept := h.named_kept hmakes hkeeps hstays hresult (h.named _ _ c hstep hc) hc
      rw [← named] at hc hkept ⊢
      exact h.arrived taken.1 writes (hstays _ _ call taken).1 hc hkept

def MovesOn (platform : Platform) (db db' : Store) : Prop :=
  ∀ r, ∀ step ∈ (platform.config r).steps, ∀ c, db.checkpoints.get? (r, step.name) = some c →
    ∃ c', db'.checkpoints.get? (r, step.name) = some c' ∧ c.ordinal ≤ c'.ordinal

theorem le_arrived (db : Store) (r : Uuid) (step : String) (c : Checkpoint) : c.ordinal ≤ (arrived db r step c).ordinal := by
  rw [Bookkeeping.arrived]
  cases lastOrdinal db r step with
  | none => exact le_refl _
  | some last =>
      rw [Option.elim_some, movedCheckpoint]
      split_ifs with hlt
      · exact hlt.le
      · exact le_refl _

theorem Effect.moves_on (hvalid : platform.Validated) (h : Effect db request answer db') (hrows : ResourceRows db) :
    MovesOn platform db db' := by
  intro r configured hconfigured c hc
  cases h.passes (r := r) hrows ((validate_steps (hvalid r)).1 configured hconfigured) with
  | same kept => exact ⟨c, kept.trans hc, le_refl _⟩
  | opened absent fresh =>
      rw [hc] at absent
      cases absent
  | @moved f w written call taken run named writes arrives =>
      rw [hc, Option.map_some] at arrives
      exact ⟨_, arrives, le_arrived written r _ c⟩

/-- After a run of calls every step's checkpoint names a verified prefix, and it did not move back on the way. -/
def CheckpointsNamePrefixes (runText : Uuid → String) (platform : Platform) (calls : List Request) : Prop :=
  (∀ r, ∀ step ∈ (platform.config r).steps, ∀ c,
    (Machines.run (perform runText) .empty calls).checkpoints.get? (r, step.name) = some c →
      NamesPrefix (Machines.run (perform runText) .empty calls) r step.name c) ∧
    ∀ front back, calls = front ++ back →
      MovesOn platform (Machines.run (perform runText) .empty front) (Machines.run (perform runText) .empty calls)

/-- In every run of the engine whose completions land on units, every step's checkpoint names a verified prefix. -/
theorem checkpoints_name_prefixes (runText : Uuid → String) (platform : Platform) (hvalid : platform.Validated)
    (calls : List Request) (hcalls : Machines.Meets (perform runText)
      (fun db request => (platform.Makes db request ∧ KeepsUnits request) ∧ StaysPrefix db request) .empty calls) :
    CheckpointsNamePrefixes runText platform calls := by
  have hkeeps : ∀ db request answer db', Prefixes platform db →
      (platform.Makes db request ∧ KeepsUnits request) ∧ StaysPrefix db request →
        perform runText db request = .ok (answer, db') → Prefixes platform db' :=
    fun _ _ _ _ h hcond hresult => h.keep hvalid hcond.1.1 hcond.1.2 hcond.2 hresult
  refine ⟨fun r step hstep c hc => ?_, fun front back hsplit => ?_⟩
  · exact (Machines.run_keeps hkeeps (prefixes_empty platform) hcalls).named r step.name c (List.mem_map.2 ⟨step, hstep, rfl⟩) hc
  · subst hsplit
    obtain ⟨hfront, hback⟩ := Machines.meets_append.1 hcalls
    rw [Machines.run_append]
    refine Machines.run_relates (fun _ _ _ _ c hc => ⟨c, hc, le_refl _⟩) (fun s t u hst htu r step hstep c hc => ?_) hkeeps
      (fun _ _ _ _ h _ hresult => (perform_effect hresult).moves_on hvalid h.rows)
      (Machines.run_keeps hkeeps (prefixes_empty platform) hfront) hback
    obtain ⟨c', hc', hle⟩ := hst r step hstep c hc
    obtain ⟨c'', hc'', hle'⟩ := htu r step hstep c' hc'
    exact ⟨c'', hc'', hle.trans hle'⟩

theorem lands_alone (h : ∀ v ∈ db.work.keys, v.run = u.run → v.step = u.step → v = u) : Lands db u := by
  intro v x hx hv
  exact absurd (h v (IndexMap.mem_keys_of_get? hx.1) hx.2.1 hx.2.2) hv

theorem staysPrefix_of_none (h : request.call.finishes = none) : StaysPrefix db request := by
  intro f w hf
  rw [h] at hf
  cases hf

def fanSteps : List StepConfig := [sampleStep "list" [], sampleStep "copy" ["list"]]

/-- A parent that expands into some units, at places from a base. -/
def fanPlatform (base : String) (keys : List String) : Platform :=
  samplePlatform fanSteps ⟨⟨"list", "p", "copy", some (.num base)⟩, keys.map fun key => sampleUnit key .null⟩

def fanCalls (base : String) : List Request :=
  [sampleStart 1 ["list", "copy"] [sampleWorkEntry "list" "p" 0 (sampleExpands "copy" base)],
    sampleClaim ⟨1, "list", "p"⟩ 11 [] 0, sampleReport ⟨1, "list", "p"⟩ 11 1 0]

theorem fanPlatform_valid (base : String) (keys : List String) : (fanPlatform base keys).Validated := fun _ => by
  show validate (sampleConfig fanSteps) = .ok ()
  decide +kernel

theorem fanClaim_makes (base : String) (keys : List String) (db : Store) (u : UnitId) (a : Uuid) (now : Instant) (step : StepConfig)
    (hstep : step ∈ fanSteps) (hname : step.name = u.step) : (fanPlatform base keys).Makes db (sampleClaim u a step.requires now) :=
  ⟨step, hstep, hname, rfl⟩

theorem fanFinish_makes (base : String) (keys : List String) (a : Uuid) (token : Nat) (now : Instant) (event : Uuid)
    (h : (db.work.get? u).map WorkItem.unit = some (sampleUnit u.key .null)) :
    (fanPlatform base keys).Makes db (sampleFinish u a token now event) := by
  intro w hw
  rw [hw, Option.map_some, Option.some.injEq] at h
  rw [h]
  rfl

/-- The checkpoints of a parent and its one child. -/
theorem checkpoints_name_prefixes_child :
    CheckpointsNamePrefixes toString (fanPlatform "0" ["a"])
      (fanCalls "0" ++ sampleExpand [sampleWorkEntry "copy" "a" 0 .null] :: sampleWork ⟨1, "copy", "a"⟩ 12 ["list"] 5 22) := by
  refine checkpoints_name_prefixes toString _ (fanPlatform_valid _ _) _ (Machines.meets_append.2
    ⟨⟨⟨⟨?_, rfl⟩, ?_⟩, ⟨⟨?_, rfl⟩, ?_⟩, ⟨⟨trivial, rfl⟩, ?_⟩, trivial⟩, ⟨⟨?_, rfl⟩, ?_⟩, ⟨⟨?_, rfl⟩, ?_⟩, ⟨⟨trivial, rfl⟩, ?_⟩,
      ⟨⟨?_, rfl⟩, ?_⟩, trivial⟩)
  · exact sampleStart_makes [("list", [sampleUnit "p" (sampleExpands "copy" "0")]), ("copy", [])] _ (by decide +kernel)
  · exact staysPrefix_of_none rfl
  · exact fanClaim_makes _ _ _ ⟨1, "list", "p"⟩ 11 0 (sampleStep "list" []) (by decide) rfl
  · exact staysPrefix_of_none rfl
  · exact staysPrefix_of_none rfl
  · exact sampleExpand_makes "0" (by decide +kernel) (by decide +kernel)
  · intro f w hf _
    cases hf
    refine ⟨lands_alone (by decide +kernel), fun child hchild c hc => ?_⟩
    cases List.mem_singleton.1 hchild
    have hnone : (Machines.run (perform toString) .empty (fanCalls "0")).checkpoints.get? (1, "copy") = none := by decide +kernel
    exact absurd (hnone.symm.trans hc) (by simp)
  · exact fanClaim_makes _ _ _ ⟨1, "copy", "a"⟩ 12 5 (sampleStep "copy" ["list"]) (by decide) rfl
  · exact staysPrefix_of_none rfl
  · exact staysPrefix_of_none rfl
  · exact fanFinish_makes _ _ 12 1 5 22 (by decide +kernel)
  · intro f w hf _
    cases hf
    exact ⟨lands_alone (by decide +kernel), by simp [sampleFinish, Call.listed]⟩

/-- Two children are placed from a base above zero, and the second one is completed first. -/
def gapCalls : List Request :=
  fanCalls "5" ++ sampleExpand [sampleWorkEntry "copy" "a" 5 .null, sampleWorkEntry "copy" "b" 6 .null] ::
    sampleWork ⟨1, "copy", "b"⟩ 12 ["list"] 5 22

/-- The checkpoint stops in the gap below the first child, with neither cursor nor receipt. -/
theorem checkpoint_in_gap :
    ¬ ∀ (platform : Platform), platform.Validated → ∀ calls : List Request,
      Machines.Meets (perform toString) (fun db request => platform.Makes db request ∧ KeepsUnits request) .empty calls →
        CheckpointsNamePrefixes toString platform calls := by
  intro h
  have hnamed := h (fanPlatform "5" ["a", "b"]) (fanPlatform_valid _ _) gapCalls ?_
  · have hgap : (Machines.run (perform toString) .empty gapCalls).checkpoints.get? (1, "copy") = some ⟨4, none, none, none, 0⟩ := by
      decide +kernel
    obtain ⟨u, w, ⟨hw, _, hstep⟩, _, hle, _⟩ := (hnamed.1 1 (sampleStep "copy" ["list"]) (by decide) _ hgap).last (by decide)
    have hall : ∀ entry ∈ (Machines.run (perform toString) .empty gapCalls).work.entries, entry.1.step = "copy" →
        4 < entry.2.ordinal := by
      decide +kernel
    exact absurd hle (not_le.2 (hall (u, w) (IndexMap.get?_eq_some_iff.1 hw) hstep))
  · refine Machines.meets_append.2 ⟨⟨⟨?_, rfl⟩, ⟨?_, rfl⟩, ⟨trivial, rfl⟩, trivial⟩, ⟨?_, rfl⟩, ⟨?_, rfl⟩, ⟨trivial, rfl⟩, ⟨?_, rfl⟩, trivial⟩
    · exact sampleStart_makes [("list", [sampleUnit "p" (sampleExpands "copy" "5")]), ("copy", [])] _ (by decide +kernel)
    · exact fanClaim_makes _ _ _ ⟨1, "list", "p"⟩ 11 0 (sampleStep "list" []) (by decide) rfl
    · exact sampleExpand_makes "5" (by decide +kernel) (by decide +kernel)
    · exact fanClaim_makes _ _ _ ⟨1, "copy", "b"⟩ 12 5 (sampleStep "copy" ["list"]) (by decide) rfl
    · exact fanFinish_makes _ _ 12 1 5 22 (by decide +kernel)

end EdgarPlatform.Bookkeeping
