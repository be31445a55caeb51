import EdgarPlatform.Bookkeeping.Counts
import EdgarPlatform.Bookkeeping.Events

/-!
# Exact accounts

Every run that is not compacted has as many units as it expects, every verified unit has one event, and a run becomes complete only when its units are verified, its expansions sealed and its events delivered. A verified expansion counts the children it added, as long as it is completed with them and repeated with the same. The store takes two calls that break this, and the runs considered make neither.
-/

namespace EdgarPlatform.Bookkeeping

open Records (Json)

variable {runText : Uuid → String} {db db' : Store} {request : Request} {answer : Answer}

/-- Every unit of a run is verified, every expansion is sealed and every event is delivered. -/
def AllDone (db : Store) (r : Uuid) : Prop :=
  (∀ u w, db.work.get? u = some w → u.run = r →
    w.state = .verified ∧ (generatedStep w.unit ≠ none → w.generatedCount ≠ none)) ∧
    ∀ e event, db.outbox.get? e = some event → event.unit.run = r → event.deliveredAt ≠ none

theorem marksExpansion_of_generatedStep {unit : Json} (h : generatedStep unit ≠ none) : marksExpansion unit = true := by
  rw [generatedStep] at h
  rw [marksExpansion]
  cases hcursor : cursorOf unit with
  | none => simp [hcursor] at h
  | some cursor =>
      rw [hcursor, Option.bind_some, textOf] at h
      rw [Option.any_some]
      cases cursor with
      | obj fields =>
          cases hfield : (IndexMap.ofList fields).get? "generated_step" with
          | none => simp [fieldOf, hfield] at h
          | some value =>
              have hkey := IndexMap.mem_keys_of_get? hfield
              rw [IndexMap.mem_keys_ofList] at hkey
              simpa [mentions] using hkey
      | _ => simp [fieldOf] at h

theorem incomplete_eq_false {counters : Counters} {checks : RunChecks} (h : counters.incomplete checks = false) :
    counters.verified = counters.actual ∧ counters.pending = 0 ∧ counters.unsealed = 0 := by
  rw [Counters.incomplete, Bool.or_eq_false_iff, Bool.or_eq_false_iff, Bool.or_eq_false_iff, Bool.or_eq_false_iff] at h
  obtain ⟨⟨⟨⟨_, hverified⟩, hpending⟩, hunsealed⟩, _⟩ := h
  exact ⟨not_not.1 (of_decide_eq_false hverified), not_not.1 (of_decide_eq_false hpending),
    not_not.1 (of_decide_eq_false hunsealed)⟩

theorem allDone_of_counters {r : Uuid} {run : PipelineRun} {checks : RunChecks}
    (h : (observeCounters db r run).incomplete checks = false) : AllDone db r := by
  obtain ⟨hverified, hpending, hunsealed⟩ := incomplete_eq_false h
  have hunits : (db.work.count fun u w => u.run = r && decide (w.state = .verified)) = db.work.count fun u _ => u.run = r && true :=
    hverified
  have hsealed : (db.work.count fun u w => u.run = r && (decide (w.generatedCount = none) && marksExpansion w.unit)) = 0 :=
    hunsealed
  have hdelivered : (db.outbox.count fun _ event => event.unit.run = r && decide (event.deliveredAt = none)) = 0 := hpending
  rw [IndexMap.count, List.countP_eq_zero] at hsealed hdelivered
  refine ⟨fun u w hw hr => ⟨?_, fun hgenerated hopen => ?_⟩, fun e event he hr hopen => ?_⟩
  · have himp : ∀ (v : UnitId) (x : WorkItem), (decide (v.run = r) && decide (x.state = .verified)) = true →
        (decide (v.run = r) && true) = true := by
      intro v x hboth
      rw [Bool.and_true]
      exact (Bool.and_eq_true_iff.1 hboth).1
    have hall := IndexMap.count_eq_count himp hunits hw (by simp [hr])
    simpa [hr] using hall
  · refine hsealed (u, w) (IndexMap.get?_eq_some_iff.1 hw) ?_
    simp [hr, hopen, marksExpansion_of_generatedStep hgenerated]
  · refine hdelivered (e, event) (IndexMap.get?_eq_some_iff.1 he) ?_
    simp [hr, hopen]

theorem Effect.completes_run (h : Effect db request answer db') {r : Uuid} {run' : PipelineRun}
    (hrun : db'.runs.get? r = some run') (hcomplete : run'.state = .complete) :
    (∃ run, db.runs.get? r = some run ∧ run.state = .complete) ∨ AllDone db' r := by
  have hpins : ∀ {pinned : Store}, Pins db pinned → pinned.runs.get? r = some run' →
      ∃ run, db.runs.get? r = some run ∧ run.state = .complete := by
    intro pinned hpins hrun
    have hsame := hpins.2 r
    rw [hrun, Option.map_some] at hsame
    obtain ⟨run, hget, heq⟩ := Option.map_eq_some_iff.1 hsame.symm
    exact ⟨run, hget, (congrArg PipelineRun.state heq).trans hcomplete⟩
  have hinsert : ∀ {q : Uuid} {run row : PipelineRun}, db.runs.get? q = some run →
      (db.runs.insert q row).get? r = some run' → (r = q ∧ run' = row) ∨ ∃ run, db.runs.get? r = some run ∧ run.state = .complete := by
    intro q run row _ hget
    rw [IndexMap.get?_insert] at hget
    split_ifs at hget with hq
    · exact .inl ⟨hq, (Option.some.inj hget).symm⟩
    · exact .inr ⟨run', hget, hcomplete⟩
  cases h with
  | unchanged => exact .inl ⟨run', hrun, hcomplete⟩
  | started call found uncompacted inserted accounted =>
      rw [(startEntries_adds inserted).runs, insertRun] at hrun
      split_ifs at hrun
      · exact .inl ⟨run', hrun, hcomplete⟩
      · rw [IndexMap.get?_insert] at hrun
        split_ifs at hrun
        · cases hrun
          cases hcomplete
        · exact .inl ⟨run', hrun, hcomplete⟩
  | claimed => exact .inl ⟨run', hrun, hcomplete⟩
  | renewed => exact .inl ⟨run', hrun, hcomplete⟩
  | waited call found unverified cause => cases cause <;> exact .inl ⟨run', hrun, hcomplete⟩
  | reported call authorized named running pins => exact .inl (hpins pins hrun)
  | verifying => exact .inl ⟨run', hrun, hcomplete⟩
  | pinned pins => exact .inl (hpins pins hrun)
  | completed call authorized completed =>
      rw [completed.runs] at hrun
      exact .inl ⟨run', hrun, hcomplete⟩
  | advanced call authorized range leased opens agrees completed written =>
      rw [writeResource_eq written] at hrun
      rw [openCheckpoint_eq opens] at completed
      exact .inl ⟨run', completed.runs ▸ hrun, hcomplete⟩
  | repeated call found verified sealed evidence inserted =>
      rw [(insertChildren_adds inserted).runs] at hrun
      exact .inl ⟨run', hrun, hcomplete⟩
  | expanded call other keys generated authorized expanded =>
      rw [expanded.runs] at hrun
      obtain ⟨rfl, rfl⟩ | hsame := hinsert expanded.expecting hrun
      · exact .inl ⟨_, expanded.expecting, hcomplete⟩
      · exact .inl hsame
  | @recorded wire run call found uncompacted observed complete =>
      obtain ⟨rfl, rfl⟩ | hsame := hinsert found hrun
      · by_cases hwire : wire.complete = true
        · exact .inr (allDone_of_counters (observed ▸ complete hwire))
        · rw [recordedRun] at hcomplete
          split_ifs at hcomplete
          · exact .inl ⟨_, found, hcomplete⟩
          · simp [Completion.state, hwire] at hcomplete
      · exact .inl hsame
  | resumed call found uncompacted =>
      obtain ⟨rfl, rfl⟩ | hsame := hinsert found hrun
      · cases hcomplete
      · exact .inl hsame
  | @blocked q message call =>
      rw [blockRun] at hrun
      split at hrun
      · exact .inl ⟨run', hrun, hcomplete⟩
      · rename_i run hget
        obtain ⟨rfl, rfl⟩ | hsame := hinsert hget hrun
        · cases hcomplete
        · exact .inl hsame
  | delivered => exact .inl ⟨run', hrun, hcomplete⟩
  | @compacted days _ dropped _ call compacts =>
      by_cases hmem : r ∈ dropped
      · obtain ⟨run, _, _, hget, hdone, _⟩ := compacts.compacted r hmem
        exact .inl ⟨run, hget, hdone⟩
      · rw [compacts.kept r hmem] at hrun
        exact .inl ⟨run', hrun, hcomplete⟩

def Call.completed : Call → Option UnitId
  | .finish u _ _ _ _ _ => some u
  | .finishResource u _ _ _ _ _ _ _ _ => some u
  | .finishExpand u _ _ _ _ _ _ _ => some u
  | _ => none

variable {u : UnitId}

theorem completed_of_completes {a : Uuid} {receipt checks : Json} {call : Call}
    (h : Completes u a receipt checks call) : call.completed = some u := by
  cases h <;> rfl

/-- How many children an accepted expansion of the parent adds, if a call is one. -/
def addedChildren (runText : Uuid → String) (u : UnitId) (db : Store) (request : Request) : Option Nat :=
  match request.call with
  | .finishExpand v _ _ _ _ _ children _ =>
      if v = u ∧ (perform runText db request).isOk = true then
        some (children.countP fun child => !db.work.contains (child.id v.run))
      else none
  | _ => none

/-- What an expansion parent counts, given the children its expansions added so far: none before it is verified, and all of them in its row once it is. -/
structure Sealed (u : UnitId) (added : Nat) (db : Store) : Prop where
  untouched : ∀ w, db.work.get? u = some w → w.state ≠ .verified → added = 0
  absent : db.work.get? u = none → (∀ count t, ledgerOf db u.run ≠ some (count, some t)) → added = 0
  sealed : ∀ w, db.work.get? u = some w → w.state = .verified → generatedStep w.unit ≠ none → w.generatedCount = some added

theorem Effect.stays_compacted (h : Effect db request answer db') {r : Uuid} {count : Nat} {t : Instant}
    (hr : ledgerOf db r = some (count, some t)) : ∃ count, ledgerOf db' r = some (count, some t) := by
  have hsame : ledgerOf db' r = ledgerOf db r → ∃ count, ledgerOf db' r = some (count, some t) := fun heq => ⟨count, heq.trans hr⟩
  cases h with
  | unchanged => exact hsame rfl
  | @started q submission hash items run _ call found uncompacted inserted accounted =>
      have hruns : ledgerOf db' r = ledgerOf (insertRun db q submission hash items.length) r := by
        rw [ledgerOf, (startEntries_adds inserted).runs]
        rfl
      refine hsame (hruns.trans (insertRun_ledger ?_))
      by_cases hq : r = q
      · refine .inr ?_
        obtain ⟨run, hrun, _⟩ := Option.map_eq_some_iff.1 hr
        rw [IndexMap.contains, ← hq, hrun]
        rfl
      · exact .inl hq
  | claimed => exact hsame rfl
  | renewed => exact hsame rfl
  | waited call found unverified cause => cases cause <;> exact hsame rfl
  | reported call authorized named running pins => exact hsame (ledgerOf_pins pins r :)
  | verifying => exact hsame rfl
  | pinned pins => exact hsame (ledgerOf_pins pins r)
  | completed call authorized completed => exact hsame (by rw [ledgerOf, completed.runs]; rfl)
  | advanced call authorized range leased opens agrees completed written =>
      refine hsame ?_
      rw [writeResource_eq written, ledgerOf, completed.runs, openCheckpoint_eq opens]
      rfl
  | repeated call found verified sealed evidence inserted =>
      refine hsame ?_
      rw [ledgerOf, (insertChildren_adds inserted).runs]
      rfl
  | @expanded u _ _ _ _ _ children _ _ _ _ _ run call other keys generated authorized expanded =>
      by_cases hu : r = u.run
      · subst hu
        rw [ledgerOf, expanded.expecting, Option.map_some, Option.some.injEq, Prod.mk.injEq] at hr
        refine ⟨count + children.length, ?_⟩
        rw [ledgerOf, expanded.runs, IndexMap.get?_insert_self, Option.map_some, expectMore, hr.1, hr.2]
      · refine hsame ?_
        rw [ledgerOf, expanded.runs, IndexMap.get?_insert_of_ne _ _ hu]
        rfl
  | recorded call found uncompacted observed complete => exact hsame (ledgerOf_insert found _ rfl (recordedRun_ledger ..) r)
  | @resumed wire run call found uncompacted => exact hsame (ledgerOf_insert found (resumedRun run) rfl ⟨rfl, rfl⟩ r)
  | blocked => exact hsame (ledgerOf_blockRun _ _ r :)
  | delivered => exact hsame rfl
  | @compacted days _ dropped _ call compacts =>
      by_cases hmem : r ∈ dropped
      · obtain ⟨run, _, _, hget, _, hfresh, _⟩ := compacts.compacted r hmem
        rw [ledgerOf, hget, Option.map_some, hfresh] at hr
        cases hr
      · exact hsame (by rw [ledgerOf, compacts.kept r hmem]; rfl)

theorem Effect.drops_compacted (h : Effect db request answer db') {w : WorkItem} (hw : db.work.get? u = some w)
    (hnone : db'.work.get? u = none) : ∃ count t, ledgerOf db' u.run = some (count, some t) := by
  obtain ⟨w', hw', _⟩ | ⟨_, days, hcall⟩ := h.moves hw
  · rw [hnone] at hw'
    cases hw'
  · cases h
    case compacted dropped call compacts =>
      rw [compacts.work] at hnone
      split_ifs at hnone with hmem
      · obtain ⟨run, summary, t, _, _, _, _, hget⟩ := compacts.compacted u.run hmem
        exact ⟨run.expectedCount, t, by rw [ledgerOf, hget]; rfl⟩
      · rw [hw] at hnone
        cases hnone
    case pinned pins =>
      rw [pins.1, hw] at hnone
      cases hnone
    all_goals simp_all

theorem Effect.keeps_sealed (h : Effect db request answer db') {added : Nat} (hcounted : Counted db')
    (hsealed : Sealed u added db) (hother : request.call.completed ≠ some u) : Sealed u added db' := by
  have hfresh : (∀ count t, ledgerOf db' u.run ≠ some (count, some t)) → ∀ count t, ledgerOf db u.run ≠ some (count, some t) := by
    intro hfresh count t hr
    obtain ⟨count', hr'⟩ := h.stays_compacted hr
    exact hfresh count' t hr'
  refine ⟨fun w' hw' hopen => ?_, fun hnone hlive => ?_, fun w' hw' hverified hgenerated => ?_⟩
  · cases hw : db.work.get? u with
    | none =>
        obtain ⟨count, hlive⟩ := hcounted.live u w' hw'
        refine hsealed.absent hw (hfresh fun count' t hr => ?_)
        rw [hlive] at hr
        cases hr
    | some w =>
        refine hsealed.untouched w hw fun hdone => hopen ?_
        obtain ⟨w'', hw'', hmoved⟩ | ⟨hnone, _⟩ := h.moves hw
        · cases hw'.symm.trans hw''
          cases hmoved with
          | same => exact hdone
          | claimed call claimed => exact absurd hdone claimed.unverified
          | waited call unverified cause => exact absurd hdone unverified
          | reported call authorized running =>
              rw [running] at hdone
              cases hdone
          | completed => rfl
          | sealed => rfl
        · rw [hnone] at hw'
          cases hw'
  · cases hw : db.work.get? u with
    | none => exact hsealed.absent hw (hfresh hlive)
    | some w =>
        obtain ⟨count, t, hr⟩ := h.drops_compacted hw hnone
        exact absurd hr (hlive count t)
  · cases hw : db.work.get? u with
    | none =>
        obtain ⟨_, _, entry, _, _, rfl⟩ := h.new hw hw'
        cases hverified
    | some w =>
        obtain ⟨w'', hw'', hmoved⟩ | ⟨hnone, _⟩ := h.moves hw
        · cases hw'.symm.trans hw''
          cases hmoved with
          | same => exact hsealed.sealed w' hw hverified hgenerated
          | claimed =>
              rw [claimedWork_state] at hverified
              cases hverified
          | waited => cases hverified
          | reported => cases hverified
          | completed call => exact absurd (completed_of_completes call) hother
          | sealed call =>
              rw [call] at hother
              exact absurd rfl hother
        · rw [hnone] at hw'
          cases hw'

theorem Sealed.of_plain {added : Nat} {w : WorkItem} (hw : db'.work.get? u = some w) (hdone : w.state = .verified)
    (hplain : generatedStep w.unit = none) : Sealed u added db' := by
  refine ⟨fun w' hw' hopen => ?_, fun hnone => ?_, fun w' hw' _ hgenerated => ?_⟩
  · cases hw.symm.trans hw'
    exact absurd hdone hopen
  · rw [hw] at hnone
    cases hnone
  · cases hw.symm.trans hw'
    exact absurd hplain hgenerated

theorem addedChildren_other (h : request.call.completed ≠ some u) : addedChildren runText u db request = none := by
  rw [addedChildren]
  split
  · rename_i v _ _ _ _ _ children _ hcall
    rw [hcall] at h
    rw [if_neg]
    rintro ⟨rfl, _⟩
    exact h rfl
  · rfl

variable {children : List WorkEntry}

theorem addedChildren_expand {a : Uuid} {proof : List LeaseProof} {receipt checks : Json} {event : Uuid}
    {childStep : String}
    (hcall : request.call = .finishExpand u a proof receipt checks event children childStep)
    (hresult : perform runText db request = .ok (answer, db')) :
    addedChildren runText u db request = some (children.countP fun child => !db.work.contains (child.id u.run)) := by
  simp [addedChildren, hcall, hresult, Except.isOk, Except.toBool]

theorem countP_new {r : Uuid} {childStep : String}
    (h : children.foldlM (insertChild r childStep false) db = .ok db') :
    (children.countP fun child => !db.work.contains (child.id r)) = children.length := by
  rw [List.countP_eq_length]
  intro child hchild
  obtain ⟨front, back, hsplit⟩ := List.append_of_mem hchild
  obtain ⟨mid, next, hfront, hnext, _⟩ := Runs.run_split (hsplit ▸ h)
  obtain ⟨_, _, _, _, hnew, _⟩ := insertChild_eq_ok hnext
  rw [Bool.not_eq_true', IndexMap.contains, Option.isSome_eq_false_iff, Option.isNone_iff_eq_none]
  refine Option.eq_none_iff_forall_ne_some.2 fun x hx => ?_
  have hkept := (insertChildren_adds hfront).kept _ x hx
  rw [hnew rfl] at hkept
  cases hkept

theorem sealed_expand {added : Nat} {a : Uuid} {proof : List LeaseProof} {receipt checks : Json} {event : Uuid}
    {childStep : String} (hsealed : Sealed u added db) (hcond : Accountable db request)
    (hcall : request.call = .finishExpand u a proof receipt checks event children childStep)
    (hresult : perform runText db request = .ok (answer, db')) :
    Sealed u (added + (children.countP fun child => !db.work.contains (child.id u.run))) db' := by
  have hperform := hresult
  simp only [perform, hcall] at hperform
  obtain ⟨hexpand, _⟩ := silent_eq_ok hperform
  obtain ⟨_, _, parent, hparent, _, ⟨hverified, hcount, hreceipt, hchecks, hinserted⟩ |
    ⟨hauthorized, mid, finished, run, hexpanded⟩⟩ := finishExpand_eq_ok hexpand
  · simp only [Accountable, hcall] at hcond
    have hstored := hcond parent hparent ⟨hverified, hcount, hreceipt, hchecks⟩
    rw [insertChildren_stored hstored hinserted, List.countP_eq_zero.2 fun child hchild => by simp [hstored child hchild]]
    exact hsealed
  · have hopen : parent.state ≠ .verified := by
      rw [hexpanded.completed.reported]
      simp
    rw [countP_new hexpanded.inserted, hsealed.untouched parent hparent hopen, Nat.zero_add]
    have hrow := IndexMap.get?_insert_self finished.work u
      (sealWork (completedWork request.session parent receipt checks (earliestEnd db.leases u.run a)) children.length)
    rw [← hexpanded.work] at hrow
    refine ⟨fun w hw hopen => ?_, fun hnone => ?_, fun w hw _ _ => ?_⟩
    · cases hrow.symm.trans hw
      exact absurd rfl hopen
    · rw [hrow] at hnone
      cases hnone
    · cases hrow.symm.trans hw
      rfl

/-- Every accepted call that keeps the accounts leaves each verified expansion with the children it added. -/
theorem sealed_step {added : Nat} (hcounted : Counted db) (hsealed : Sealed u added db)
    (hcond : Accountable db request) (hresult : perform runText db request = .ok (answer, db')) :
    Sealed u (added + (addedChildren runText u db request).getD 0) db' := by
  have heffect := perform_effect hresult
  by_cases hother : request.call.completed = some u
  · have hperform := hresult
    cases hcall : request.call with
    | finish v a proof receipt checks event =>
        simp only [hcall, Call.completed, Option.some.injEq] at hother
        subst hother
        have hnone : addedChildren runText v db request = none := by simp only [addedChildren, hcall]
        rw [hnone]
        simp only [perform, hcall] at hperform
        simp only [Accountable, hcall] at hcond
        obtain ⟨w, hw, ⟨_, _, _, rfl⟩ | ⟨hauthorized, hdone⟩⟩ := finish_eq_ok (silent_eq_ok hperform).1
        · exact hsealed
        · have hplain := hcond w hw ⟨hauthorized.accepted, hdone.reported, hdone.names, hdone.valid, hdone.passed⟩
          have hrow := hdone.work ▸ IndexMap.get?_insert_self db.work v
            (completedWork request.session w receipt checks (earliestEnd db.leases v.run a))
          exact .of_plain hrow rfl hplain
    | finishResource v a proof receipt checks event resource revision position =>
        simp only [hcall, Call.completed, Option.some.injEq] at hother
        subst hother
        have hnone : addedChildren runText v db request = none := by simp only [addedChildren, hcall]
        rw [hnone]
        simp only [perform, hcall] at hperform
        simp only [Accountable, hcall] at hcond
        obtain ⟨next, hfinish, _⟩ := answered_eq_ok hperform
        obtain ⟨w, hw, _, _, ⟨_, rfl, _⟩ | ⟨hopen, hadvance⟩⟩ := finishResource_eq_ok hfinish
        · exact hsealed
        · obtain ⟨_, _, opened, finished, hopens, _, hauthorized, hdone, hwritten⟩ := advanceResource_eq_ok hw hopen hadvance
          have hplain := hcond w hw ⟨hauthorized.accepted, hdone.reported, hdone.names, hdone.valid, hdone.passed⟩
          have hrow := (advanced_work hopens hdone hwritten).2 ▸ IndexMap.get?_insert_self db.work v
            (completedWork request.session w receipt checks (earliestEnd db.leases v.run a))
          exact .of_plain hrow rfl hplain
    | finishExpand v a proof receipt checks event children childStep =>
        simp only [hcall, Call.completed, Option.some.injEq] at hother
        subst hother
        rw [addedChildren_expand hcall hresult, Option.getD_some]
        exact sealed_expand hsealed hcond hcall hresult
    | _ => simp [hcall, Call.completed] at hother
  · rw [addedChildren_other hother]
    exact heffect.keeps_sealed (heffect.counted hcounted hcond) hsealed hother

/-- The accounts of a store, with the children one parent's expansions added so far. -/
structure Accounts (u : UnitId) (done : List Nat) (db : Store) : Prop where
  counted : Counted db
  events : OneEventEach (IsVerified db.work) db.outbox
  sealed : Sealed u done.sum db

theorem accounts_empty (u : UnitId) : Accounts u [] .empty := by
  refine ⟨counted_empty, ⟨?_, ?_, ?_⟩, ⟨?_, fun _ _ => rfl, ?_⟩⟩
  · intro e event he
    cases he
  · intro e e' event event' he
    cases he
  · intro v ⟨w, hw, _⟩
    cases hw
  · intro w hw
    cases hw
  · intro w hw
    cases hw

theorem accounts_step {done : List Nat} (h : Accounts u done db) (hcond : Accountable db request) :
    Accounts u (done ++ (addedChildren runText u db request).toList) (Machines.after (perform runText) db request) := by
  cases hresult : perform runText db request with
  | error refusal =>
      have hnone : addedChildren runText u db request = none := by
        rw [addedChildren]
        split
        · simp [hresult, Except.isOk, Except.toBool]
        · rfl
      rw [Machines.after, hresult, hnone, Option.toList_none, List.append_nil]
      exact h
  | ok result =>
      obtain ⟨answer, db'⟩ := result
      have heffect := perform_effect hresult
      rw [Machines.after_of_ok hresult]
      refine ⟨heffect.counted h.counted hcond, heffect.events h.events, ?_⟩
      have hsealed := sealed_step h.counted h.sealed hcond hresult
      cases hadded : addedChildren runText u db request with
      | none =>
          rw [hadded] at hsealed
          rwa [Option.toList_none, List.append_nil]
      | some count =>
          rw [hadded] at hsealed
          rwa [Option.toList_some, List.sum_append, List.sum_singleton]

theorem accounts_run (runText : Uuid → String) (u : UnitId) {calls : List Request}
    (hcalls : Machines.Meets (perform runText) Accountable .empty calls) :
    Accounts u (Machines.log (perform runText) (addedChildren runText u) .empty calls) (Machines.run (perform runText) .empty calls) :=
  Machines.run_logs (fun _ _ _ h hcond => accounts_step h hcond) (accounts_empty u) hcalls

/-- After a run of calls every run that is not compacted has the units it expects, a verified expansion counts the children it added, a verified unit has one event, and a further call completes a run only when all of it is done. -/
def Accounted (runText : Uuid → String) (calls : List Request) : Prop :=
  let db := Machines.run (perform runText) .empty calls
  (∀ r run, db.runs.get? r = some run → run.compactedAt = none → countWork db r (fun _ _ => true) = run.expectedCount) ∧
    (∀ u w, db.work.get? u = some w → w.state = .verified → generatedStep w.unit ≠ none →
      w.generatedCount = some (Machines.log (perform runText) (addedChildren runText u) .empty calls).sum) ∧
    (∀ u w, db.work.get? u = some w → w.state = .verified →
      ∃! e, ∃ event, db.outbox.get? e = some event ∧ event.unit = u ∧ event.eventType = verifiedEvent) ∧
    ∀ request r run', (Machines.after (perform runText) db request).runs.get? r = some run' → run'.state = .complete →
      (∃ run, db.runs.get? r = some run ∧ run.state = .complete) ∨ AllDone (Machines.after (perform runText) db request) r

/-- In every run whose calls keep the accounts, work is accounted exactly. -/
theorem work_accounted (runText : Uuid → String) (calls : List Request)
    (hcalls : Machines.Meets (perform runText) Accountable .empty calls) : Accounted runText calls := by
  refine ⟨fun r run hrun hfresh => ?_, fun u w hw hverified hgenerated => ?_, fun u w hw hverified => ?_, ?_⟩
  · rw [countWork_all]
    refine (accounts_run runText ⟨r, "", ""⟩ hcalls).counted.units r run.expectedCount ?_
    rw [ledgerOf, hrun, Option.map_some, hfresh]
  · exact (accounts_run runText u hcalls).sealed.sealed w hw hverified hgenerated
  · have hevents := (accounts_run runText u hcalls).events
    obtain ⟨e, event, he, hunit⟩ := hevents.each u ⟨w, hw, hverified⟩
    refine ⟨e, ⟨event, he, hunit, (hevents.about e event he).1⟩, ?_⟩
    rintro e' ⟨event', he', hunit', _⟩
    exact hevents.single e' e event' event he' he (hunit'.trans hunit.symm)
  · intro request r run' hrun hcomplete
    obtain hsame | ⟨answer, hok⟩ := Machines.after_cases (perform runText) (Machines.run (perform runText) .empty calls) request
    · rw [hsame] at hrun
      exact .inl ⟨run', hrun, hcomplete⟩
    · exact (perform_effect hok).completes_run hrun hcomplete

def expansionCalls : List Request :=
  [sampleStart 1 ["list", "copy"] [sampleEntry "list" "p" 0 (.obj [("generated_step", .str "copy")])],
    sampleClaim ⟨1, "list", "p"⟩ 11 [] 0, sampleReport ⟨1, "list", "p"⟩ 11 1 0]

def sampleExpand (children : List WorkEntry) : Request :=
  ⟨verifierAt 2, .finishExpand ⟨1, "list", "p"⟩ 11 (sampleProof ⟨1, "list", "p"⟩ 11 1 0) sampleReceipt sampleChecks 21 children "copy"⟩

/-- The accounts of a run whose expansion adds a child and is repeated. -/
theorem work_accounted_repeat :
    Accounted toString (expansionCalls ++ [sampleExpand [sampleEntry "copy" "a" 0 .null], sampleExpand [sampleEntry "copy" "a" 0 .null]]) := by
  refine work_accounted toString _ (Machines.meets_append.2 ⟨⟨trivial, trivial, trivial, trivial⟩, ?_, ?_, trivial⟩)
  · intro w hw ⟨hverified, _⟩
    have hstate : ((Machines.run (perform toString) .empty expansionCalls).work.get? ⟨1, "list", "p"⟩).map WorkItem.state
        = some .reported := by
      decide +kernel
    rw [hw, Option.map_some, hverified] at hstate
    cases hstate
  · intro w _ _
    decide +kernel

/-- A sealed expansion repeated with a child that is not stored leaves the run with more units than it expects. -/
theorem repeat_adds_uncounted : ¬ ∀ calls, Accounted toString calls := by
  intro h
  have hcounted := (h (expansionCalls ++ [sampleExpand [], sampleExpand [sampleEntry "copy" "a" 0 .null]])).1
  have hrun : ((Machines.run (perform toString) .empty
      (expansionCalls ++ [sampleExpand [], sampleExpand [sampleEntry "copy" "a" 0 .null]])).runs.get? 1).map
        (fun run => (run.compactedAt, run.expectedCount)) = some (none, 1) := by
    decide +kernel
  have hunits : countWork (Machines.run (perform toString) .empty
      (expansionCalls ++ [sampleExpand [], sampleExpand [sampleEntry "copy" "a" 0 .null]])) 1 (fun _ _ => true) = 2 := by
    decide +kernel
  obtain ⟨run, hget, hfields⟩ := Option.map_eq_some_iff.1 hrun
  rw [Prod.mk.injEq] at hfields
  have hexpected := hcounted 1 run hget hfields.1
  rw [hunits, hfields.2] at hexpected
  cases hexpected

end EdgarPlatform.Bookkeeping
