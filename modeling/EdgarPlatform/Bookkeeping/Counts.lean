import EdgarPlatform.Bookkeeping.Moves

/-!
# Counting a run's work

A run expects as many units as it has: a start inserts what it expects, and an expansion adds its children to the expected count. Two calls could break the accounts, and the store does not refuse them: an expansion repeated with children that are not stored, and a plain completion of a unit whose frozen cursor names an expansion. The runs considered here make neither.
-/

namespace EdgarPlatform.Bookkeeping

open Records (Json)

/-- A completion of the unit would be taken: its authority is live, and the evidence is that of the reported candidate. -/
def Completable (session : Session) (db : Store) (u : UnitId) (a : Uuid) (proof : List LeaseProof) (receipt checks : Json)
    (w : WorkItem) : Prop :=
  authority session db u a proof = .ok () ∧ w.state = .reported ∧ namesCandidate w.candidate (some receipt) = true ∧
    validReceipt receipt = true ∧ allPassed checks = true

theorem Completable.unverified {session : Session} {db : Store} {u : UnitId} {a : Uuid} {proof : List LeaseProof}
    {receipt checks : Json} {w : WorkItem} (h : Completable session db u a proof receipt checks w) : w.state ≠ .verified := by
  rw [h.2.1]
  simp

/-- The evidence of a sealed expansion, as a repeated call must give it. -/
def Repeats (receipt checks : Json) (w : WorkItem) : Prop :=
  w.state = .verified ∧ w.generatedCount ≠ none ∧ w.receipt = some receipt ∧ w.checks = checks

/-- A call does not break the accounts: no expansion parent is completed without its children, and a sealed expansion is repeated with stored children only. -/
def Accountable (db : Store) (request : Request) : Prop :=
  match request.call with
  | .finish u a proof receipt checks _ =>
      ∀ w, db.work.get? u = some w → Completable request.session db u a proof receipt checks w → generatedStep w.unit = none
  | .finishResource u a proof receipt checks _ _ _ _ =>
      ∀ w, db.work.get? u = some w → Completable request.session db u a proof receipt checks w → generatedStep w.unit = none
  | .finishExpand u _ _ receipt checks _ children _ =>
      ∀ w, db.work.get? u = some w → Repeats receipt checks w → ∀ child ∈ children, db.work.contains (child.id u.run) = true
  | _ => True

variable {runText : Uuid → String} {db db' : Store} {request : Request} {answer : Answer}

variable {r : Uuid} {children : List WorkEntry}

theorem insertChildren_stored {childStep : String}
    (hstored : ∀ child ∈ children, db.work.contains (child.id r) = true)
    (h : children.foldlM (insertChild r childStep true) db = .ok db') : db' = db := by
  refine Runs.run_invariant (fun _ mid => mid = db) h rfl ?_
  intro front child back mid next hsplit hmid hnext
  rw [(insertChild_eq_ok hnext).1, insertWork, hmid, hstored child (by rw [hsplit]; simp), Bool.true_or, if_pos rfl]

theorem insertWork_new {entry : WorkEntry} {x : WorkItem} (hnew : db.work.get? (entry.id r) = none)
    (hx : (insertWork db r entry).work.get? (entry.id r) = some x) :
    (insertWork db r entry).work = db.work.insert (entry.id r) entry.pending := by
  rw [insertWork] at hx ⊢
  split_ifs at hx ⊢ with htaken
  · rw [hnew] at hx
    cases hx
  · rfl

def unitsOf (db : Store) (r : Uuid) : Nat := db.work.count fun u _ => u.run = r

theorem countWork_all (db : Store) (r : Uuid) : countWork db r (fun _ _ => true) = unitsOf db r := by
  simp only [countWork, unitsOf, IndexMap.count, Bool.and_true]

theorem unitsOf_insert {u : UnitId} {w w' : WorkItem} (hw : db.work.get? u = some w) (r : Uuid) :
    unitsOf { db with work := db.work.insert u w' } r = unitsOf db r :=
  IndexMap.count_insert_same hw rfl

theorem unitsOf_children {childStep : String}
    (h : children.foldlM (insertChild r childStep false) db = .ok db') (q : Uuid) :
    unitsOf db' q = unitsOf db q + if q = r then children.length else 0 := by
  refine Runs.run_invariant (fun front mid => unitsOf mid q = unitsOf db q + if q = r then front.length else 0) h (by simp) ?_
  intro front child back mid next _ hmid hnext
  obtain ⟨rfl, _, _, _, hnew, x, hx, _⟩ := insertChild_eq_ok hnext
  have hinserted := insertWork_new (hnew rfl) hx
  rw [unitsOf, hinserted, IndexMap.count_insert_new (hnew rfl)]
  show unitsOf mid q + _ = _
  rw [hmid, List.length_append, List.length_singleton]
  by_cases hq : q = r
  · simp [hq, WorkEntry.id, Nat.add_assoc]
  · have hne : r ≠ q := fun heq => hq heq.symm
    simp [hq, hne, WorkEntry.id]

theorem unitsOf_congr (h : ∀ u, u.run = r → db'.work.get? u = db.work.get? u) : unitsOf db' r = unitsOf db r := by
  refine IndexMap.count_congr fun u w hu => ?_
  rw [h u (by simpa using hu)]

def ledgerOf (db : Store) (r : Uuid) : Option (Nat × Option Instant) :=
  (db.runs.get? r).map fun run => (run.expectedCount, run.compactedAt)

/-- Every run that is not compacted has the units it expects, and units belong to such runs. -/
structure Counted (db : Store) : Prop where
  units : ∀ r count, ledgerOf db r = some (count, none) → unitsOf db r = count
  live : ∀ u w, db.work.get? u = some w → ∃ count, ledgerOf db u.run = some (count, none)

theorem counted_empty : Counted .empty := by
  refine ⟨?_, ?_⟩
  · intro r count h
    cases h
  · intro u w h
    cases h

theorem Counted.same (h : Counted db) (hledger : ∀ r, ledgerOf db' r = ledgerOf db r)
    (hunits : ∀ r, unitsOf db' r = unitsOf db r) (hwork : ∀ u w, db'.work.get? u = some w → ∃ w, db.work.get? u = some w) :
    Counted db' := by
  refine ⟨fun r count hr => ?_, fun u w hw => ?_⟩
  · rw [hunits r]
    exact h.units r count (hledger r ▸ hr)
  · obtain ⟨old, hold⟩ := hwork u w hw
    rw [hledger]
    exact h.live u old hold

theorem Counted.insert (h : Counted db) {u : UnitId} {w w' : WorkItem} (hw : db.work.get? u = some w)
    (hruns : ∀ r, ledgerOf db' r = ledgerOf db r) (hwork : db'.work = db.work.insert u w') : Counted db' := by
  refine h.same hruns (fun r => ?_) fun v x hx => ?_
  · rw [unitsOf, hwork]
    exact unitsOf_insert hw r
  · rw [hwork, IndexMap.get?_insert] at hx
    split_ifs at hx with hv
    · exact ⟨w, hv ▸ hw⟩
    · exact ⟨x, hx⟩

theorem ledgerOf_insert {run : PipelineRun} (hrun : db.runs.get? r = some run) (run' : PipelineRun)
    (hruns : db'.runs = db.runs.insert r run')
    (hsame : run'.expectedCount = run.expectedCount ∧ run'.compactedAt = run.compactedAt) (q : Uuid) : ledgerOf db' q = ledgerOf db q := by
  rw [ledgerOf, ledgerOf, hruns, IndexMap.get?_insert]
  split_ifs with hq
  · rw [hq, hrun, Option.map_some, Option.map_some, hsame.1, hsame.2]
  · rfl

theorem ledgerOf_pins {pinned : Store} (h : Pins db pinned) (r : Uuid) : ledgerOf pinned r = ledgerOf db r := by
  have hsame := congrArg (Option.map fun run : PipelineRun => (run.expectedCount, run.compactedAt)) (h.2 r)
  rw [Option.map_map, Option.map_map] at hsame
  exact hsame

theorem ledgerOf_blockRun (r : Uuid) (message : String) (q : Uuid) : ledgerOf (blockRun db r message) q = ledgerOf db q := by
  rw [blockRun]
  split
  · rfl
  · rename_i run hrun
    exact ledgerOf_insert hrun (blockedRun run message) rfl ⟨rfl, rfl⟩ q

theorem recordedRun_ledger (wire : Completion) (now : Instant) (run : PipelineRun) :
    (recordedRun wire now run).expectedCount = run.expectedCount ∧ (recordedRun wire now run).compactedAt = run.compactedAt := by
  rw [recordedRun]
  split_ifs <;> exact ⟨rfl, rfl⟩

theorem insertRun_ledger {submission : Json} {hash : String} {count : Nat} {q : Uuid}
    (h : q ≠ r ∨ db.runs.contains r = true) : ledgerOf (insertRun db r submission hash count) q = ledgerOf db q := by
  rw [insertRun]
  split_ifs with hheld
  · rfl
  · obtain hq | hr := h
    · rw [ledgerOf, ledgerOf, IndexMap.get?_insert_of_ne _ _ hq]
    · exact absurd hr hheld

theorem Counted.start {submission : Json} {hash : String} {items : List WorkEntry} {run : PipelineRun}
    (h : Counted db) (hfound : (insertRun db r submission hash items.length).runs.get? r = some run)
    (hfresh : run.compactedAt = none) (hitems : items.foldlM (startEntry r) (insertRun db r submission hash items.length) = .ok db')
    (hcount : countWork db' r (fun _ _ => true) = run.expectedCount) : Counted db' := by
  have hadds := startEntries_adds hitems
  have hruns : ∀ q, ledgerOf db' q = ledgerOf (insertRun db r submission hash items.length) q := by
    intro q
    rw [ledgerOf, hadds.runs]
    rfl
  have hwork : (insertRun db r submission hash items.length).work = db.work := by rw [insertRun_eq]
  have hrow : ledgerOf db' r = some (run.expectedCount, none) := by
    rw [hruns, ledgerOf, hfound, Option.map_some, hfresh]
  have hother : ∀ q, q ≠ r → ledgerOf db' q = ledgerOf db q := fun q hq => (hruns q).trans (insertRun_ledger (.inl hq))
  refine ⟨fun q count hq => ?_, fun u w hw => ?_⟩
  · by_cases hqr : q = r
    · rw [hqr, hrow] at hq
      cases hq
      rw [hqr, ← countWork_all, hcount]
    · rw [hother q hqr] at hq
      rw [← h.units q count hq]
      refine unitsOf_congr fun u hu => ?_
      cases hold : db.work.get? u with
      | some w => exact hadds.kept u w (hwork ▸ hold)
      | none =>
          refine Option.eq_none_iff_forall_ne_some.2 fun w hw => ?_
          obtain hold' | ⟨entry, _, rfl, _⟩ := hadds.added u w hw
          · rw [hwork, hold] at hold'
            cases hold'
          · exact hqr hu.symm
  · obtain hold | ⟨entry, _, rfl, _⟩ := hadds.added u w hw
    · rw [hwork] at hold
      obtain ⟨count, hcounted⟩ := h.live u w hold
      by_cases hur : u.run = r
      · exact ⟨run.expectedCount, hur ▸ hrow⟩
      · exact ⟨count, (hother u.run hur).trans hcounted⟩
    · exact ⟨run.expectedCount, hrow⟩

theorem Counted.expand {session : Session} {u : UnitId} {parent : WorkItem} {a : Uuid} {receipt checks : Json} {event : Uuid}
    {childStep : String} {added finished : Store} {run : PipelineRun} (h : Counted db)
    (hparent : db.work.get? u = some parent)
    (he : Expanded session db u parent a receipt checks event children childStep added finished run db') : Counted db' := by
  have hadds := insertChildren_adds he.inserted
  have hfound := hadds.kept u parent hparent
  obtain ⟨count, hlive⟩ := h.live u parent hparent
  have hcompacted : run.compactedAt = none ∧ run.expectedCount = count := by
    rw [ledgerOf, he.expecting, Option.map_some, Option.some.injEq, Prod.mk.injEq] at hlive
    exact ⟨hlive.2, hlive.1⟩
  have hledger : ∀ q, ledgerOf db' q = if q = u.run then some (count + children.length, none) else ledgerOf db q := by
    intro q
    rw [ledgerOf, he.runs, IndexMap.get?_insert]
    split_ifs with hq
    · rw [Option.map_some, expectMore, hcompacted.1, hcompacted.2]
    · rfl
  have hunits : ∀ q, unitsOf db' q = unitsOf db q + if q = u.run then children.length else 0 := by
    intro q
    rw [← unitsOf_children he.inserted q, unitsOf, he.work, he.completed.work,
      IndexMap.count_insert_same (IndexMap.get?_insert_self added.work u _) (by rfl)]
    exact unitsOf_insert hfound q
  refine ⟨fun q n hq => ?_, fun v w hw => ?_⟩
  · rw [hledger] at hq
    rw [hunits]
    split_ifs at hq ⊢ with hqu
    · cases hq
      rw [hqu, h.units u.run count hlive]
    · exact h.units q n hq
  · rw [hledger]
    split_ifs with hv
    · exact ⟨_, rfl⟩
    · rw [he.work, he.completed.work] at hw
      rw [IndexMap.get?_insert_of_ne _ _ (by rintro rfl; exact hv rfl), IndexMap.get?_insert_of_ne _ _ (by rintro rfl; exact hv rfl)]
        at hw
      obtain hold | ⟨entry, _, rfl, _⟩ := hadds.added v w hw
      · exact h.live v w hold
      · exact absurd rfl hv

theorem Effect.counted (h : Effect db request answer db') (hcounted : Counted db) (hcond : Accountable db request) :
    Counted db' := by
  cases h with
  | unchanged => exact hcounted
  | started call found uncompacted inserted accounted => exact hcounted.start found uncompacted inserted accounted
  | claimed call claimed => exact hcounted.insert claimed.found (fun _ => rfl) rfl
  | renewed => exact hcounted.same (fun _ => rfl) (fun _ => rfl) fun u w hw => ⟨w, hw⟩
  | waited call found unverified cause => cases cause <;> exact hcounted.insert found (fun _ => rfl) rfl
  | reported call authorized named running pins => exact hcounted.insert authorized.found (fun r => (ledgerOf_pins pins r :)) rfl
  | verifying => exact hcounted.same (fun _ => rfl) (fun _ => rfl) fun u w hw => ⟨w, hw⟩
  | pinned pins =>
      have hwork : db'.work = db.work := by rw [pins.1]
      exact hcounted.same (ledgerOf_pins pins) (fun r => by rw [unitsOf, hwork]; rfl) fun u w hw => ⟨w, hwork ▸ hw⟩
  | completed call authorized completed =>
      exact hcounted.insert completed.found (fun r => by rw [ledgerOf, completed.runs]; rfl) completed.work
  | advanced call authorized range leased opens agrees completed written =>
      obtain ⟨hfound, hwork⟩ := advanced_work opens completed written
      refine hcounted.insert hfound (fun r => ?_) hwork
      rw [writeResource_eq written, ledgerOf, completed.runs, openCheckpoint_eq opens]
      rfl
  | repeated call found verified sealed evidence inserted =>
      simp only [Accountable, call] at hcond
      rw [insertChildren_stored (hcond _ found ⟨verified, sealed, evidence.1, evidence.2⟩) inserted]
      exact hcounted
  | expanded call other keys generated authorized expanded => exact hcounted.expand authorized.found expanded
  | recorded call found uncompacted observed complete =>
      exact hcounted.same (ledgerOf_insert found _ rfl (recordedRun_ledger ..)) (fun _ => rfl) fun u w hw => ⟨w, hw⟩
  | resumed call found uncompacted =>
      exact hcounted.same (ledgerOf_insert found _ rfl ⟨rfl, rfl⟩) (fun _ => rfl) fun u w hw => ⟨w, hw⟩
  | blocked => exact hcounted.same (fun r => (ledgerOf_blockRun _ _ r :)) (fun _ => rfl) fun u w hw => ⟨w, hw⟩
  | delivered => exact hcounted.same (fun _ => rfl) (fun _ => rfl) fun u w hw => ⟨w, hw⟩
  | @compacted days total dropped _ call compacts =>
      have hledger : ∀ r, r ∉ dropped → ledgerOf db' r = ledgerOf db r := by
        intro r hr
        rw [ledgerOf, compacts.kept r hr]
        rfl
      refine ⟨fun r count hr => ?_, fun u w hw => ?_⟩
      · by_cases hmem : r ∈ dropped
        · obtain ⟨run, summary, t, _, _, _, _, hget⟩ := compacts.compacted r hmem
          rw [ledgerOf, hget] at hr
          cases hr
        · rw [← countWork_all, compacts.counts r hmem, countWork_all]
          exact hcounted.units r count (hledger r hmem ▸ hr)
      · rw [compacts.work] at hw
        split_ifs at hw with hmem
        rw [hledger u.run hmem]
        exact hcounted.live u w hw

end EdgarPlatform.Bookkeeping
