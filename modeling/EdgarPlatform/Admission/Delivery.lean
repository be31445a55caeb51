import EdgarPlatform.Admission.Admitted

/-!
# Publications are verified in order

A publication is only claimed when every earlier one of its consumer is verified, later batches only come behind it, and what is verified stays verified. So whoever holds a claim holds it over a consumer that was told everything before, at any later time as at the claim, and an acknowledgement of that claim verifies in order. A claim is told by its fence: one that was released, or overtaken by a later claim, can neither verify nor release the publication any more.
-/

namespace EdgarPlatform.Admission

variable {env : Env} {protocol : Nat} {s next : State}

variable {key : Key × Key}

def InOrder (s : State) : Prop := ∀ key row, s.outbox.get? key = some row → row.owner.isSome → Cleared s key

theorem before_congr (hledger : next.ledger = s.ledger) {other key : Key × Key} : Before next other key ↔ Before s other key := by
  have hbatches : next.batches = s.batches := congrArg Ledger.batches hledger
  simp only [Before, generationOf, hbatches]

theorem InOrder.quiet (h : InOrder s) (hquiet : Quiet s next) : InOrder next := by
  intro key row hrow howner other row' hrow' hbefore
  rw [hquiet.outbox] at hrow hrow'
  exact h key row hrow howner other row' hrow' ((before_congr hquiet.ledger).1 hbefore)

theorem InOrder.writes (h : InOrder s) {row written : Publication} (hwrites : Writes s next key row written)
    (hverified : row.verified = true → written.verified = true) (hcleared : written.owner.isSome → Cleared s key) :
    InOrder next := by
  have hget : ∀ other row', next.outbox.get? other = some row' →
      other = key ∧ row' = written ∨ other ≠ key ∧ s.outbox.get? other = some row' := by
    intro other row' hrow'
    rw [hwrites.outbox, IndexMap.get?_insert] at hrow'
    by_cases hother : other = key
    · rw [if_pos hother] at hrow'
      exact .inl ⟨hother, (Option.some.inj hrow').symm⟩
    · rw [if_neg hother] at hrow'
      exact .inr ⟨hother, hrow'⟩
  intro own ownRow hown howner other row' hrow' hbefore
  rw [before_congr hwrites.ledger] at hbefore
  have hclear : Cleared s own := by
    obtain ⟨rfl, rfl⟩ | ⟨_, hown⟩ := hget own ownRow hown
    · exact hcleared howner
    · exact h own ownRow hown howner
  obtain ⟨rfl, rfl⟩ | ⟨_, hrow'⟩ := hget other row' hrow'
  · exact hverified (hclear other row hwrites.held hbefore)
  · exact hclear other row' hrow' hbefore

variable {request : Request} {objects : List Object} {proposal : Key}

theorem Admits.publications (hadmits : Admits env request objects proposal s next) {key : Key × Key} {row : Publication}
    (hrow : next.outbox.get? key = some row) :
    s.outbox.get? key = some row ∨ key.1 = request.batchKey env ∧ row.owner = none ∧ row.verified = false := by
  obtain ⟨publications, hpublications, houtbox⟩ := hadmits.outbox
  rw [houtbox] at hrow
  rcases IndexMap.get?_extend_cases hrow with hmem | hrow
  · right
    by_cases hchange : isChange env request objects s = true
    · rw [if_pos hchange] at hpublications
      obtain ⟨consumer, _, hentry⟩ := Runs.mapM_exists_of_mem hpublications hmem
      obtain ⟨name, _, hentry⟩ := Except.bind_eq_ok.1 hentry
      obtain ⟨payload, _, hentry⟩ := Except.bind_eq_ok.1 hentry
      cases hentry
      exact ⟨rfl, rfl, rfl⟩
    · rw [if_neg hchange] at hpublications
      cases hpublications
      cases hmem
  · exact .inl hrow

theorem Admits.keeps (h : Admitted env s) (hadmits : Admits env request objects proposal s next)
    {row : Publication} (hrow : s.outbox.get? key = some row) : next.outbox.get? key = some row := by
  have hold : ∃ row, next.outbox.get? key = some row := (hadmits.outbox_iff key).2 (.inl ⟨row, hrow⟩)
  obtain ⟨row', hrow'⟩ := hold
  obtain hsame | ⟨hbatch, _⟩ := hadmits.publications hrow'
  · rw [hrow', ← hrow, hsame]
  · obtain ⟨batch, hheld⟩ := h.published key row hrow
    rw [hbatch, hadmits.fresh] at hheld
    cases hheld

theorem Admitted.generation_le (h : Admitted env s) {key : Key} {batch : Batch} (hbatch : s.batches.get? key = some batch) :
    batch.generation ≤ s.generation := by
  have hmem : batch.generation ∈ s.batches.values.map Batch.generation :=
    List.mem_map.2 ⟨batch, IndexMap.mem_values_of_get? hbatch, rfl⟩
  rw [h.numbered, List.mem_range'_1] at hmem
  omega

theorem InOrder.admits (h : InOrder s) (hadmitted : Admitted env s) (hadmits : Admits env request objects proposal s next) :
    InOrder next := by
  intro key row hrow howner other row' hrow' hbefore
  obtain hrow | ⟨_, hnone, _⟩ := hadmits.publications hrow
  · obtain ⟨batch, hbatch⟩ := hadmitted.published key row hrow
    obtain ⟨owner, hbatches⟩ := hadmits.batches
    have hne : key.1 ≠ request.batchKey env := by
      intro heq
      rw [heq, hadmits.fresh] at hbatch
      cases hbatch
    have hgeneration : ∀ held, held ≠ request.batchKey env → generationOf next held = generationOf s held := by
      intro held hheld
      rw [generationOf, generationOf, hbatches, IndexMap.get?_insert_of_ne _ _ hheld]
    obtain ⟨hconsumer, generation, own, hother, hown, hlt⟩ := hbefore
    rw [hgeneration key.1 hne] at hown
    have hold : own ≤ s.generation := by
      rw [generationOf, hbatch] at hown
      cases hown
      exact hadmitted.generation_le hbatch
    have hotherNe : other.1 ≠ request.batchKey env := by
      intro heq
      rw [heq, generationOf, hbatches, IndexMap.get?_insert_self] at hother
      cases hother
      exact absurd (Nat.lt_of_lt_of_le hlt hold) (by show ¬s.generation + 1 < s.generation; omega)
    rw [hgeneration other.1 hotherNe] at hother
    obtain hrow' | ⟨heq, _⟩ := hadmits.publications hrow'
    · exact h key row hrow howner other row' hrow' ⟨hconsumer, generation, own, hother, hown, hlt⟩
    · exact absurd heq hotherNe
  · rw [hnone] at howner
    cases howner

def grants (env : Env) (protocol : Nat) (calls : List Call) : List Grant :=
  Machines.log (perform env protocol) (granted env protocol) {} calls

def latest (log : List Grant) (key : Key × Key) : Option Grant := (log.filter fun grant => grant.key = key).getLast?

variable {call : Call}

/-- A publication as it is later: told the same, verified if it was, and under its fence still claimed as it was or not at all. -/
structure Publication.Later (row later : Publication) : Prop where
  consumer : later.consumer = row.consumer
  payload : later.payload = row.payload
  payloadHash : later.payloadHash = row.payloadHash
  verified : row.verified = true → later.verified = true
  fence : row.fence ≤ later.fence
  owner : later.fence = row.fence → later.owner = row.owner ∨ later.owner = none

theorem Publication.Later.refl (row : Publication) : row.Later row := ⟨rfl, rfl, rfl, id, le_rfl, fun _ => .inl rfl⟩

theorem Publication.Later.trans {a b c : Publication} (h : a.Later b) (h' : b.Later c) : a.Later c := by
  refine ⟨h'.consumer.trans h.consumer, h'.payload.trans h.payload, h'.payloadHash.trans h.payloadHash,
    fun hverified => h'.verified (h.verified hverified), h.fence.trans h'.fence, fun hfence => ?_⟩
  have hfirst := h.fence
  have hsecond := h'.fence
  obtain heq | hnone := h'.owner (by omega)
  · rw [heq]
    exact h.owner (by omega)
  · exact .inr hnone

/-- Every publication is kept, and is later what it can become. -/
def Keeps (s next : State) : Prop :=
  ∀ key row, s.outbox.get? key = some row → ∃ later, next.outbox.get? key = some later ∧ row.Later later

theorem Keeps.of_outbox (h : next.outbox = s.outbox) : Keeps s next :=
  fun _ row hrow => ⟨row, h ▸ hrow, .refl row⟩

theorem Keeps.trans {t : State} (h : Keeps s next) (h' : Keeps next t) : Keeps s t := by
  intro key row hrow
  obtain ⟨mid, hmid, hlater⟩ := h key row hrow
  obtain ⟨last, hlast, hlater'⟩ := h' key mid hmid
  exact ⟨last, hlast, hlater.trans hlater'⟩

theorem Keeps.writes {row written : Publication} (hwrites : Writes s next key row written)
    (hlater : row.Later written) : Keeps s next := by
  intro other row' hrow'
  rw [hwrites.outbox, IndexMap.get?_insert]
  by_cases hother : other = key
  · subst hother
    cases hwrites.held.symm.trans hrow'
    rw [if_pos rfl]
    exact ⟨written, rfl, hlater⟩
  · rw [if_neg hother]
    exact ⟨row', hrow', .refl row'⟩

theorem Publication.later_claimed (row : Publication) (owner : Option Key) (expires : Int) : row.Later (row.claimed owner expires) :=
  ⟨rfl, rfl, rfl, id, Nat.le_succ _, fun h => absurd h (Nat.succ_ne_self _)⟩

theorem Publication.later_acknowledged (row : Publication) : row.Later row.acknowledged :=
  ⟨rfl, rfl, rfl, fun _ => rfl, le_rfl, fun _ => .inl rfl⟩

theorem Publication.later_released (row : Publication) : row.Later row.released :=
  ⟨rfl, rfl, rfl, id, le_rfl, fun _ => .inr rfl⟩

theorem Publishes.keeps (h : Publishes env protocol s next call) (hadmitted : Admitted env s) : Keeps s next := by
  cases h with
  | quiet hquiet => exact .of_outbox hquiet.outbox
  | claims key row owner expires _ hwrites => exact .writes hwrites (row.later_claimed owner expires)
  | acknowledges moment wire key row _ _ _ _ hwrites => exact .writes hwrites row.later_acknowledged
  | releases moment wire key row _ _ _ _ hwrites => exact .writes hwrites row.later_released
  | admits mid request objects proposal hmid hadmits =>
      refine .trans (.of_outbox hmid.outbox) fun key row hrow => ⟨row, hadmits.keeps (hadmitted.quiet hmid) hrow, .refl row⟩

theorem Publishes.inOrder (h : Publishes env protocol s next call) (hprotocol : 6 ≤ protocol)
    (hadmitted : Admitted env s) (hs : InOrder s) : InOrder next := by
  cases h with
  | quiet hquiet => exact hs.quiet hquiet
  | claims key row owner expires _ hwrites hunverified hcleared => exact hs.writes hwrites id fun _ => hcleared hprotocol
  | acknowledges moment wire key row _ _ _ _ hwrites =>
      exact hs.writes hwrites (fun _ => rfl) fun howner => hs key row hwrites.held howner
  | releases moment wire key row _ _ _ _ hwrites =>
      refine hs.writes hwrites id fun howner => ?_
      cases howner
  | admits mid request objects proposal hmid hadmits => exact (hs.quiet hmid).admits (hadmitted.quiet hmid) hadmits

theorem latest_concat (log : List Grant) (grant : Grant) (key : Key × Key) :
    latest (log ++ [grant]) key = if grant.key = key then some grant else latest log key := by
  rw [latest, List.filter_append, List.getLast?_append]
  by_cases h : grant.key = key
  · rw [if_pos h, List.filter_cons_of_pos (by simpa using h)]
    rfl
  · rw [if_neg h, List.filter_cons_of_neg (by simpa using h)]
    rfl

/-- A publication that is claimed is claimed by its latest claim. -/
def ClaimedByLatest (log : List Grant) (s : State) : Prop :=
  ∀ key row, s.outbox.get? key = some row → row.owner.isSome →
    ∃ expires, row.expires = some expires ∧ latest log key = some ⟨key, row.owner, row.fence, expires⟩

theorem ClaimedByLatest.same {log : List Grant} (h : ClaimedByLatest log s)
    (hsame : ∀ key row, next.outbox.get? key = some row → row.owner.isSome →
      ∃ old, s.outbox.get? key = some old ∧ old.owner = row.owner ∧ old.fence = row.fence ∧ old.expires = row.expires) :
    ClaimedByLatest log next := by
  intro key row hrow howner
  obtain ⟨old, hold, heq, hfence, hexpires⟩ := hsame key row hrow howner
  obtain ⟨expires, hlive, hlatest⟩ := h key old hold (heq ▸ howner)
  exact ⟨expires, hexpires ▸ hlive, by rw [hlatest, heq, hfence]⟩

theorem Publishes.claimedByLatest (h : Publishes env protocol s next call) {log : List Grant}
    (hs : ClaimedByLatest log s) : ClaimedByLatest (log ++ (granted env protocol s call).toList) next := by
  have hwritten : ∀ key (row written : Publication), Writes s next key row written → written.owner.isSome → written.owner = row.owner →
      written.fence = row.fence → written.expires = row.expires → ∀ other row', next.outbox.get? other = some row' →
        ∃ old, s.outbox.get? other = some old ∧ old.owner = row'.owner ∧ old.fence = row'.fence ∧ old.expires = row'.expires := by
    intro key row written hwrites _ howner hfence hexpires other row' hrow'
    rw [hwrites.outbox, IndexMap.get?_insert] at hrow'
    by_cases hother : other = key
    · rw [if_pos hother] at hrow'
      cases hrow'
      exact ⟨row, hother ▸ hwrites.held, howner.symm, hfence.symm, hexpires.symm⟩
    · rw [if_neg hother] at hrow'
      exact ⟨row', hrow', rfl, rfl, rfl⟩
  cases h with
  | quiet hquiet hnone =>
      rw [hnone, Option.toList_none, List.append_nil]
      refine hs.same fun key row hrow _ => ⟨row, hquiet.outbox ▸ hrow, rfl, rfl, rfl⟩
  | claims key row owner expires hgranted hwrites =>
      intro other row' hrow' howner
      rw [hgranted, Option.toList_some, latest_concat]
      rw [hwrites.outbox, IndexMap.get?_insert] at hrow'
      by_cases hother : other = key
      · subst hother
        rw [if_pos rfl] at hrow'
        cases hrow'
        rw [if_pos rfl]
        exact ⟨expires, rfl, rfl⟩
      · rw [if_neg hother] at hrow'
        rw [if_neg (Ne.symm hother)]
        exact hs other row' hrow' howner
  | acknowledges moment wire key row hcall _ hholds _ hwrites =>
      have hnone : granted env protocol s call = none := by rw [hcall]; rfl
      rw [hnone, Option.toList_none, List.append_nil]
      exact hs.same fun other row' hrow' _ => hwritten key row row.acknowledged hwrites hholds.1 rfl rfl rfl other row' hrow'
  | releases moment wire key row hcall _ _ _ hwrites =>
      have hnone : granted env protocol s call = none := by rw [hcall]; rfl
      rw [hnone, Option.toList_none, List.append_nil]
      refine hs.same fun other row' hrow' howner => ?_
      rw [hwrites.outbox, IndexMap.get?_insert] at hrow'
      by_cases hother : other = key
      · rw [if_pos hother] at hrow'
        cases hrow'
        cases howner
      · rw [if_neg hother] at hrow'
        exact ⟨row', hrow', rfl, rfl, rfl⟩
  | admits mid request objects proposal hmid hadmits hnone =>
      rw [hnone, Option.toList_none, List.append_nil]
      refine hs.same fun key row hrow howner => ?_
      obtain hold | ⟨_, hfree, _⟩ := hadmits.publications hrow
      · exact ⟨row, hmid.outbox ▸ hold, rfl, rfl, rfl⟩
      · rw [hfree] at howner
        cases howner

/-- A fence no claim of the publication is held under any more. -/
def Spent (key : Key × Key) (fence : Nat) (s : State) : Prop :=
  ∃ row, s.outbox.get? key = some row ∧ (fence < row.fence ∨ fence = row.fence ∧ row.owner = none)

theorem Spent.keeps {fence : Nat} (h : Spent key fence s) (hkeeps : Keeps s next) : Spent key fence next := by
  obtain ⟨row, hrow, hspent⟩ := h
  obtain ⟨later, hlater, hrel⟩ := hkeeps key row hrow
  have hfence := hrel.fence
  refine ⟨later, hlater, ?_⟩
  obtain hlt | ⟨heq, hfree⟩ := hspent
  · exact .inl (by omega)
  · rcases Nat.lt_or_eq_of_le hfence with hlt | hsame
    · exact .inl (by omega)
    · refine .inr ⟨by omega, ?_⟩
      obtain howner | hnone := hrel.owner hsame.symm
      · rw [howner, hfree]
      · exact hnone

/-- The publication and the fence a call acknowledges or releases a claim by. -/
def Call.claimOf (env : Env) : Call → Option ((Key × Key) × Nat)
  | .ackOutbox _ wire => (publicationKey env wire.batch wire.consumer).bind fun key => wire.fence.map fun fence => (key, fence)
  | .releaseOutbox _ wire => (publicationKey env wire.batch wire.consumer).bind fun key => wire.fence.map fun fence => (key, fence)
  | _ => none

theorem Holds.not_spent {wire : OutboxWire} {fence : Nat} {row : Publication} (h : Holds env wire row)
    (hrow : s.outbox.get? key = some row) (hfence : wire.fence = some fence) : ¬Spent key fence s := by
  rintro ⟨held, hheld, hspent⟩
  cases hrow.symm.trans hheld
  have hsame : fence = row.fence := Option.some.inj (hfence.symm.trans h.2.2)
  obtain hlt | ⟨_, hfree⟩ := hspent
  · omega
  · have howner := h.1
    rw [hfree] at howner
    cases howner

theorem Spent.refuses {fence : Nat} (h : Spent key fence s)
    (hcall : call.claimOf env = some (key, fence)) : ∃ e, perform env protocol s call = .error e := by
  cases hresult : perform env protocol s call with
  | error e => exact ⟨e, rfl⟩
  | ok result =>
      exfalso
      cases call with
      | ackOutbox moment wire =>
          obtain ⟨own, hkey, hcall⟩ := Option.bind_eq_some_iff.1 hcall
          obtain ⟨number, hfence, hcall⟩ := Option.map_eq_some_iff.1 hcall
          cases hcall
          have hresult : replying (fun _ => .acknowledged) (ackOutbox env protocol moment wire s) = .ok (result.1, result.2) := hresult
          obtain ⟨_, hresult, _⟩ := replying_eq_ok hresult
          obtain ⟨held, row, hheld, hrow, hholds, _⟩ := ackOutbox_cases hresult
          cases hkey.symm.trans hheld
          exact hholds.not_spent hrow hfence h
      | releaseOutbox moment wire =>
          obtain ⟨own, hkey, hcall⟩ := Option.bind_eq_some_iff.1 hcall
          obtain ⟨number, hfence, hcall⟩ := Option.map_eq_some_iff.1 hcall
          cases hcall
          have hresult : replying (fun _ => .released) (releaseOutbox env protocol moment wire s) = .ok (result.1, result.2) := hresult
          obtain ⟨_, hresult, _⟩ := replying_eq_ok hresult
          obtain ⟨held, row, hheld, hholds, _, hwrites⟩ := releaseOutbox_cases hresult
          cases hkey.symm.trans hheld
          exact hholds.not_spent hwrites.held hfence h
      | _ => cases hcall

def Behind (log : List Grant) (s : State) : Prop :=
  ∀ grant ∈ log, ∃ row, s.outbox.get? grant.key = some row ∧ grant.fence ≤ row.fence

theorem Publishes.behind (h : Publishes env protocol s next call) (hadmitted : Admitted env s) {log : List Grant}
    (hs : Behind log s) : Behind (log ++ (granted env protocol s call).toList) next := by
  intro grant hgrant
  rcases List.mem_append.1 hgrant with hgrant | hgrant
  · obtain ⟨row, hrow, hle⟩ := hs grant hgrant
    obtain ⟨later, hlater, hrel⟩ := h.keeps hadmitted grant.key row hrow
    exact ⟨later, hlater, hle.trans hrel.fence⟩
  · have hgranted : granted env protocol s call = some grant := by simpa using hgrant
    cases h with
    | quiet _ hnone => cases hnone.symm.trans hgranted
    | claims key row owner expires hown hwrites =>
        cases hown.symm.trans hgranted
        refine ⟨row.claimed owner expires, ?_, le_rfl⟩
        rw [hwrites.outbox, IndexMap.get?_insert_self]
    | acknowledges moment wire key row hcall =>
        rw [hcall] at hgranted
        cases hgranted
    | releases moment wire key row hcall =>
        rw [hcall] at hgranted
        cases hgranted
    | admits _ _ _ _ _ _ hnone => cases hnone.symm.trans hgranted

theorem inOrder_empty : InOrder {} := by
  intro key row h
  cases h

theorem store_inOrder (env : Env) (hprotocol : 6 ≤ protocol) (calls : List Call) : InOrder (store env protocol calls) := by
  have hrun : Admitted env (store env protocol calls) ∧ InOrder (store env protocol calls) := by
    have hstep : ∀ s call answer next, (Admitted env s ∧ InOrder s) → True → perform env protocol s call = .ok (answer, next) →
        (Admitted env next ∧ InOrder next) := by
      intro s call answer next hs _ hcall
      exact ⟨hs.1.perform hcall, (perform_publishes hcall).inOrder hprotocol hs.1 hs.2⟩
    have hstart : Admitted env {} ∧ InOrder {} := ⟨admitted_empty, inOrder_empty⟩
    exact Machines.run_keeps hstep hstart (Machines.meets_true _ calls)
  exact hrun.2

theorem granted_refused {s : State} {e : String} (hcall : perform env protocol s call = .error e) :
    granted env protocol s call = none := by
  cases call with
  | claimOutbox moment wire =>
      cases hclaim : claimOutbox env protocol moment wire s with
      | error e =>
          rw [granted, hclaim]
          cases publicationKey env wire.batch wire.consumer <;> rfl
      | ok result =>
          rw [perform, hclaim] at hcall
          cases hcall
  | _ => rfl

/-- The claims granted in a run: the latest of a publication is the one it is held by, and none is ahead of it. -/
theorem store_claimed (env : Env) (protocol : Nat) (calls : List Call) :
    ClaimedByLatest (grants env protocol calls) (store env protocol calls) ∧
      Behind (grants env protocol calls) (store env protocol calls) := by
  have hstep : ∀ log s call, (Admitted env s ∧ ClaimedByLatest log s ∧ Behind log s) → True →
      (Admitted env (Machines.after (perform env protocol) s call) ∧
        ClaimedByLatest (log ++ (granted env protocol s call).toList) (Machines.after (perform env protocol) s call) ∧
        Behind (log ++ (granted env protocol s call).toList) (Machines.after (perform env protocol) s call)) := by
    intro log s call hs _
    cases hcall : perform env protocol s call with
    | ok result =>
        rw [Machines.after_of_ok hcall]
        have hpublishes := perform_publishes hcall
        exact ⟨hs.1.perform hcall, hpublishes.claimedByLatest hs.2.1, hpublishes.behind hs.1 hs.2.2⟩
    | error e =>
        rw [Machines.after, hcall, granted_refused hcall, Option.toList_none, List.append_nil]
        exact hs
  have hnone : ClaimedByLatest [] ({} : State) := by
    intro key row h
    cases h
  have hbehind : Behind [] ({} : State) := by
    intro grant h
    cases h
  have hstart : Admitted env {} ∧ ClaimedByLatest [] {} ∧ Behind [] {} := ⟨admitted_empty, hnone, hbehind⟩
  exact (Machines.run_logs hstep hstart (Machines.meets_true _ calls)).2

theorem store_keeps (env : Env) (protocol : Nat) (calls later : List Call) :
    Keeps (store env protocol calls) (store env protocol (calls ++ later)) := by
  rw [store, store, Machines.run_append]
  have hkeeps : ∀ (s : State) (call : Call) answer next, Admitted env s → True →
      perform env protocol s call = .ok (answer, next) → Admitted env next :=
    fun _ _ _ _ hs _ hcall => hs.perform hcall
  have hstep : ∀ (s : State) (call : Call) answer next, Admitted env s → True →
      perform env protocol s call = .ok (answer, next) → Keeps s next :=
    fun _ _ _ _ hs _ hcall => (perform_publishes hcall).keeps hs
  exact Machines.run_relates (fun _ => .of_outbox rfl) (fun _ _ _ => Keeps.trans) hkeeps hstep (store_admitted env protocol calls)
    (Machines.meets_true _ later)

theorem store_concat (env : Env) (protocol : Nat) (calls : List Call) (call : Call) :
    store env protocol (calls ++ [call]) = Machines.after (perform env protocol) (store env protocol calls) call := by
  rw [store, store, Machines.run_append, Machines.run_cons, Machines.run_nil]

def IsVerified (s : State) (key : Key × Key) : Prop := ∃ row, s.outbox.get? key = some row ∧ row.verified = true

theorem Publishes.verifies (h : Publishes env protocol s next call)
    (hnot : ¬IsVerified s key) (hverified : IsVerified next key) : ∃ moment wire row, call = .ackOutbox moment wire ∧
      publicationKey env wire.batch wire.consumer = some key ∧ s.outbox.get? key = some row ∧ Holds env wire row ∧
        wire.receipt = some row.payloadHash ∧ ∀ expires, row.expires = some expires → moment.began < expires := by
  obtain ⟨later, hlater, hyes⟩ := hverified
  have hother : ∀ own (row written : Publication), Writes s next own row written → (written.verified = true → row.verified = true) →
      False := by
    intro own row written hwrites hsame
    rw [hwrites.outbox, IndexMap.get?_insert] at hlater
    by_cases hkey : key = own
    · rw [if_pos hkey] at hlater
      cases hlater
      exact hnot ⟨row, hkey ▸ hwrites.held, hsame hyes⟩
    · rw [if_neg hkey] at hlater
      exact hnot ⟨later, hlater, hyes⟩
  cases h with
  | quiet hquiet => exact absurd ⟨later, hquiet.outbox ▸ hlater, hyes⟩ hnot
  | claims own row owner expires _ hwrites => exact (hother own row _ hwrites id).elim
  | releases moment wire own row _ _ _ _ hwrites => exact (hother own row _ hwrites id).elim
  | acknowledges moment wire own row hcall hkey hholds hreceipt hwrites hlive =>
      by_cases hsame : key = own
      · subst hsame
        exact ⟨moment, wire, row, hcall, hkey, hwrites.held, hholds, hreceipt, hlive⟩
      · rw [hwrites.outbox, IndexMap.get?_insert, if_neg hsame] at hlater
        exact absurd ⟨later, hlater, hyes⟩ hnot
  | admits mid request objects proposal hmid hadmits =>
      obtain hold | ⟨_, _, hno⟩ := hadmits.publications hlater
      · exact absurd ⟨later, hmid.outbox ▸ hold, hyes⟩ hnot
      · cases hno.symm.trans hyes

/-- A call after which a worker has lost its claim under a fence: the claim is released, or another one granted. -/
def Loses (env : Env) (protocol : Nat) (calls : List Call) (call : Call) (key : Key × Key) (fence : Nat) : Prop :=
  (∃ moment wire reply next, call = .releaseOutbox moment wire ∧ call.claimOf env = some (key, fence) ∧
      perform env protocol (store env protocol calls) call = .ok (reply, next)) ∨
    ∃ earlier ∈ grants env protocol calls, earlier.key = key ∧ earlier.fence = fence ∧
      ∃ grant, granted env protocol (store env protocol calls) call = some grant ∧ grant.key = key

theorem Loses.spent {calls : List Call} {fence : Nat} (h : Loses env protocol calls call key fence) :
    Spent key fence (store env protocol (calls ++ [call])) := by
  rw [store_concat]
  obtain ⟨moment, wire, reply, next, rfl, hclaim, hcall⟩ | ⟨earlier, hearlier, rfl, rfl, grant, hgranted, hkey⟩ := h
  · rw [Machines.after_of_ok hcall]
    obtain ⟨own, hown, hclaim⟩ := Option.bind_eq_some_iff.1 hclaim
    obtain ⟨number, hfence, hclaim⟩ := Option.map_eq_some_iff.1 hclaim
    cases hclaim
    have hcall : replying (fun _ => .released) (releaseOutbox env protocol moment wire (store env protocol calls)) =
      .ok (reply, next) := hcall
    obtain ⟨_, hrelease, _⟩ := replying_eq_ok hcall
    obtain ⟨held, row, hheld, hholds, _, hwrites⟩ := releaseOutbox_cases hrelease
    cases hown.symm.trans hheld
    refine ⟨row.released, ?_, .inr ⟨Option.some.inj (hfence.symm.trans hholds.2.2), rfl⟩⟩
    rw [hwrites.outbox, IndexMap.get?_insert_self]
  · obtain ⟨old, hold, hle⟩ := (store_claimed env protocol calls).2 earlier hearlier
    cases hcall : perform env protocol (store env protocol calls) call with
    | error e => cases (granted_refused hcall).symm.trans hgranted
    | ok result =>
        rw [Machines.after_of_ok hcall]
        have hpublishes := perform_publishes hcall
        cases hpublishes with
        | quiet _ hnone => cases hnone.symm.trans hgranted
        | admits _ _ _ _ _ _ hnone => cases hnone.symm.trans hgranted
        | acknowledges _ _ _ _ hack =>
            rw [hack] at hgranted
            cases hgranted
        | releases _ _ _ _ hrelease =>
            rw [hrelease] at hgranted
            cases hgranted
        | claims own row owner expires hown hwrites =>
            cases hown.symm.trans hgranted
            dsimp only at hkey
            subst hkey
            cases hold.symm.trans hwrites.held
            refine ⟨old.claimed owner expires, ?_, .inl (Nat.lt_succ_of_le hle)⟩
            rw [hwrites.outbox, IndexMap.get?_insert_self]

/-- Publications are verified in the order of their batches, each by the holder of its latest claim, and a claim that was lost stays lost. -/
theorem publications_verified_in_order (env : Env) (hprotocol : 6 ≤ protocol) (calls : List Call) (call : Call) :
    Keeps (store env protocol calls) (store env protocol (calls ++ [call])) ∧
      (∀ key, ¬IsVerified (store env protocol calls) key → IsVerified (store env protocol (calls ++ [call])) key →
        Cleared (store env protocol calls) key ∧
          ∃ moment wire row grant, call = .ackOutbox moment wire ∧ publicationKey env wire.batch wire.consumer = some key ∧
            (store env protocol calls).outbox.get? key = some row ∧ wire.receipt = some row.payloadHash ∧
              latest (grants env protocol calls) key = some grant ∧ grant.owner.isSome ∧
                grant.owner = wire.owner.map env.sha256 ∧ wire.fence = some grant.fence ∧ moment.began < grant.expires) ∧
      ∀ key fence, Loses env protocol calls call key fence → ∀ later other, Call.claimOf env other = some (key, fence) →
        ∃ e, perform env protocol (store env protocol (calls ++ [call] ++ later)) other = .error e := by
  refine ⟨store_keeps env protocol calls [call], fun key hnot hverified => ?_, fun key fence hloses later other hother => ?_⟩
  · rw [store_concat] at hverified
    cases hcall : perform env protocol (store env protocol calls) call with
    | error e =>
        rw [Machines.after, hcall] at hverified
        exact absurd hverified hnot
    | ok result =>
        rw [Machines.after_of_ok hcall] at hverified
        obtain ⟨moment, wire, row, hack, hkey, hrow, hholds, hreceipt, hlive⟩ :=
          (perform_publishes hcall).verifies hnot hverified
        refine ⟨store_inOrder env hprotocol calls key row hrow hholds.1, ?_⟩
        obtain ⟨expires, hexpires, hlatest⟩ := (store_claimed env protocol calls).1 key row hrow hholds.1
        exact ⟨moment, wire, row, _, hack, hkey, hrow, hreceipt, hlatest, hholds.1, hholds.2.1, hholds.2.2, hlive expires hexpires⟩
  · exact (hloses.spent.keeps (store_keeps env protocol (calls ++ [call]) later)).refuses hother

def claimedCalls : List Call := sampleCalls ++ [.claimOutbox sampleMoment ⟨some [2], some [8], some [11], some 60, some [1], .absent⟩]

def acknowledgeSample : Call := .ackOutbox sampleMoment ⟨some [2], some [8], some [11], some 1, some (sampleEnv.sha256 [9]), .absent⟩

theorem publications_verified_in_order_sample :
    Cleared (store sampleEnv 6 claimedCalls) (sampleEnv.sha256 [2], sampleEnv.sha256 [8]) := by
  have hrun : ((store sampleEnv 6 claimedCalls).outbox.get? (sampleEnv.sha256 [2], sampleEnv.sha256 [8])).all
        (fun row => ¬row.verified = true) = true ∧
      ((store sampleEnv 6 (claimedCalls ++ [acknowledgeSample])).outbox.get? (sampleEnv.sha256 [2], sampleEnv.sha256 [8])).any
        (fun row => row.verified = true) = true := by decide +kernel
  obtain ⟨_, hverifies, _⟩ := publications_verified_in_order sampleEnv (Nat.le_refl 6) claimedCalls acknowledgeSample
  refine (hverifies _ ?_ ?_).1
  · rintro ⟨row, hrow, hverified⟩
    simp [hrow, hverified] at hrun
  · obtain ⟨row, hrow, hverified⟩ := (Option.any_eq_true _ _).1 hrun.2
    exact ⟨row, hrow, by simpa using hverified⟩

end EdgarPlatform.Admission
