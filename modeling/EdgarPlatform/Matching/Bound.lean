import EdgarPlatform.Matching.Agreement
import EdgarPlatform.Matching.Holders

/-!
# A new master and its bind

A new master is noted when the record that creates it is read, and bound only after its rule has been looked up among the refused. So a batch leaves no new master unbound exactly when no record that creates one has its rule refused.
-/

namespace EdgarPlatform.Matching

open Records (Env Object readText)

variable {env : Env} {input : PreparedInputs} {stored : Found} {s s' : Linking} {entry : String × List Match}

/-- The record of a turn creates a master by a rule that is refused for it. -/
def RefusesNew (input : PreparedInputs) (s : Linking) (entry : String × List Match) : Prop :=
  ∃ kind, HasKind input entry.1 kind ∧ (reachAt input s kind entry.2).problem = none ∧
    (reachAt input s kind entry.2).matched.size = 0 ∧
    ∃ selected, mintItem entry.2 = some selected ∧ Refused input entry.1 selected

/-- The state of a batch after the first of its records took their turns. -/
def after (env : Env) (input : PreparedInputs) (front : List (String × List Match)) : Except String Linking := do
  let c ← Consolidations.read input.consolidations
  front.foldlM (turn env input (storedFound input)) (start input c)

def batchOrder (input : PreparedInputs) : List (String × List Match) :=
  subjects input ((input.found ++ input.plan.callerHolders).foldl hold .empty)

theorem link_eq_after (env : Env) (input : PreparedInputs) : link env input = after env input (batchOrder input) := by
  unfold link after
  refine congrArg (Consolidations.read input.consolidations >>= ·) (funext fun c => ?_)
  show (subjects input (start input c).found).foldlM _ _ = _
  rw [start_found]
  rfl

def IsBound (result : Results) (entity : String) : Prop := ∃ body ∈ result.decisions, BindsTo body entity

def AllBound (result : Results) : Prop :=
  ∀ body ∈ result.identities, ∀ entity, readText body "entity_id" = .ok entity → IsBound result entity

theorem identityBody_entity (entity kind floor : String) :
    readText (identityBody entity kind floor) "entity_id" = .ok entity :=
  readText_of_get? (by simp [identityBody, IndexMap.get?_ofList_eq, IndexMap.lookupEntry])

/-- The master is known to the batch, or a record is bound to it. -/
def Seen (s : Linking) (entity : String) : Prop := Known s entity ∨ IsBound s.result entity

theorem isBound_of_kept {s s' : Linking} (h : s'.result.decisions = s.result.decisions) (entity : String) :
    IsBound s'.result entity ↔ IsBound s.result entity := by
  unfold IsBound
  rw [h]

theorem isBound_write {env : Env} {basis : Basis} {subject kind entity : String} {items : List Match} {selected : Match}
    {r : Reach} {t : Linking} {x : String} :
    IsBound (write env basis subject kind entity items selected r t).result x ↔ IsBound t.result x ∨ x = entity := by
  obtain ⟨added, hadded, hmerges⟩ := mergeOthers_decisions env basis entity (r.mergers.filter (· ≠ entity)) t
  unfold IsBound
  rw [write_decisions, hadded]
  constructor
  · intro h
    obtain ⟨body, hbody, hbinds⟩ := h
    rcases List.mem_append.1 hbody with hbody | hlast
    · rcases List.mem_append.1 hbody with hold | hmerge
      · exact .inl ⟨body, hold, hbinds⟩
      · have hop := (hmerges body hmerge).symm.trans hbinds.1
        exact absurd (Except.ok.inj hop) (by decide)
    · obtain rfl : body = _ := List.mem_singleton.1 hlast
      have hentity := (bindBody_bindsTo env.digest basis subject entity (r.withheld entity)).2.symm.trans hbinds.2
      exact .inr (Except.ok.inj hentity).symm
  · intro h
    rcases h with ⟨body, hbody, hbinds⟩ | rfl
    · exact ⟨body, by simp [hbody], hbinds⟩
    · exact ⟨_, by simp, bindBody_bindsTo env.digest basis subject x (r.withheld x)⟩

theorem Turned.seen (h : Turned env input stored s entry s') :
    (s'.ids = s.ids ∨ ∃ entity, s.ids = entity :: s'.ids) ∧
      ∀ x, Seen s' x → Seen s x ∨ s.ids = x :: s'.ids := by
  cases h with
  | reviewed _ _ => exact ⟨.inl rfl, fun x hx => .inl hx⟩
  | waited _ _ _ _ => exact ⟨.inl rfl, fun x hx => .inl hx⟩
  | @refused kind entity t selected _ _ hchosen _ =>
      obtain ⟨hfound, hmoved, _, hdecisions, hentity⟩ := hchosen.entity
      refine ⟨?_, fun x hx => .inl ?_⟩
      · rcases hentity with ⟨_, hids, _⟩ | ⟨_, hids, _⟩
        · exact .inl hids
        · exact .inr ⟨entity, hids⟩
      · unfold Seen Known at hx ⊢
        rwa [hfound, hmoved, isBound_of_kept hdecisions] at hx
  | @bound kind entity t selected basis _ _ hchosen _ =>
      obtain ⟨hfound, hmoved, _, hdecisions, hentity⟩ := hchosen.entity
      have hids : (write env basis entry.1 kind entity entry.2 selected (reachAt input s kind entry.2) t).ids = t.ids :=
        write_ids _ _ _ _ _ _ _ _ _
      have htaken : Seen s entity ∨ s.ids = entity :: t.ids := by
        rcases hentity with ⟨hmatched, _, _⟩ | ⟨_, hids, _⟩
        · exact .inl (.inl (known_of_matched hmatched))
        · exact .inr hids
      rw [hids]
      refine ⟨?_, fun x hx => ?_⟩
      · rcases hentity with ⟨_, hids, _⟩ | ⟨_, hids, _⟩
        · exact .inl hids
        · exact .inr ⟨entity, hids⟩
      · have hcases : Seen s x ∨ x = entity := by
          rcases hx with (⟨key, hholds⟩ | ⟨y, hy⟩) | hbound
          · rcases holds_write hholds with hold | hnew
            · exact .inl (.inl (.inl ⟨key, by rwa [hfound] at hold⟩))
            · exact .inr hnew
          · rw [write_moved] at hy
            split_ifs at hy
            · exact .inr (Option.some.inj hy).symm
            · exact .inl (.inl (.inr ⟨y, by rwa [hmoved] at hy⟩))
          · rcases isBound_write.1 hbound with hold | hnew
            · exact .inl (.inr ((isBound_of_kept hdecisions x).1 hold))
            · exact .inr hnew
        rcases hcases with hseen | rfl
        · exact .inl hseen
        · exact htaken

def Fresh (s : Linking) : Prop := s.ids.Nodup ∧ ∀ x ∈ s.ids, ¬ Seen s x

theorem Fresh.turned (h : Fresh s) (hturned : Turned env input stored s entry s') : Fresh s' := by
  obtain ⟨hids, hseen⟩ := hturned.seen
  have hsub : ∀ x ∈ s'.ids, x ∈ s.ids ∧ s.ids ≠ x :: s'.ids := by
    intro x hx
    rcases hids with hsame | ⟨entity, htaken⟩
    · refine ⟨hsame ▸ hx, fun hcons => ?_⟩
      have hlength := congrArg List.length (hsame.trans hcons)
      simp at hlength
    · refine ⟨htaken ▸ List.mem_cons_of_mem _ hx, fun hcons => ?_⟩
      have hnodup := h.1
      rw [hcons, List.nodup_cons] at hnodup
      exact hnodup.1 hx
  refine ⟨?_, fun x hx hseen' => ?_⟩
  · rcases hids with hsame | ⟨entity, htaken⟩
    · exact hsame ▸ h.1
    · have hnodup := h.1
      rw [htaken, List.nodup_cons] at hnodup
      exact hnodup.2
  · obtain ⟨hmem, hne⟩ := hsub x hx
    rcases hseen x hseen' with hold | hcons
    · exact h.2 x hmem hold
    · exact hne hcons

def Lost (s : Linking) (x : String) : Prop := x ∉ s.ids ∧ ¬ Seen s x

theorem Lost.turned {x : String} (h : Lost s x) (hturned : Turned env input stored s entry s') : Lost s' x := by
  obtain ⟨hids, hseen⟩ := hturned.seen
  constructor
  · rcases hids with hsame | ⟨entity, htaken⟩
    · exact hsame ▸ h.1
    · intro hx
      exact h.1 (htaken ▸ List.mem_cons_of_mem _ hx)
  · intro hseen'
    rcases hseen x hseen' with hold | hcons
    · exact h.2 hold
    · exact h.1 (by rw [hcons]; simp)

theorem Turned.identities_mem (h : Turned env input stored s entry s') {body : Object}
    (hbody : body ∈ s.result.identities) : body ∈ s'.result.identities := by
  cases h with
  | reviewed _ _ => exact hbody
  | waited _ _ _ _ => exact hbody
  | refused _ _ hchosen _ =>
      obtain ⟨_, _, _, _, ⟨_, _, hkept⟩ | ⟨_, _, _, hadded⟩⟩ := hchosen.entity
      · rwa [hkept]
      · simp [hadded, hbody]
  | bound _ _ hchosen _ =>
      rw [write_identities]
      obtain ⟨_, _, _, _, ⟨_, _, hkept⟩ | ⟨_, _, _, hadded⟩⟩ := hchosen.entity
      · rwa [hkept]
      · simp [hadded, hbody]

theorem refused_not_allowed {subject : String} {selected : Match} {basis : Basis} (h : Refused input subject selected)
    (hbasis : Basis.Of env input subject selected basis) : False := by
  obtain ⟨ruleId, version, hrule, hversion, hmem⟩ := h
  cases hrule.symm.trans hbasis.ruleId
  cases hversion.symm.trans hbasis.version
  exact hbasis.allowed hmem

theorem hasKind_unique {subject kind other : String} (h : HasKind input subject kind) (h' : HasKind input subject other) :
    kind = other := by
  obtain ⟨record, hget, hkind⟩ := h
  obtain ⟨record', hget', hkind'⟩ := h'
  cases hget.symm.trans hget'
  cases hkind.symm.trans hkind'
  rfl

/-- The step lemma: a turn that refuses no new master leaves every new master bound, and one that does leaves one no later turn binds. -/
theorem Turned.allBound (h : Turned env input stored s entry s') :
    (¬ RefusesNew input s entry → AllBound s.result → AllBound s'.result) ∧
      (RefusesNew input s entry → Fresh s → ∃ x, Lost s' x ∧ ∃ body ∈ s'.result.identities,
        readText body "entity_id" = .ok x) := by
  have hunreviewed : ∀ kind, HasKind input entry.1 kind → RefusesNew input s entry →
      (reachAt input s kind entry.2).review s.consolidations = none ∧ mintItem entry.2 ≠ none := by
    intro kind hkind hrefuses
    obtain ⟨kind', hkind', hproblem, hsize, selected, hmint, _⟩ := hrefuses
    obtain rfl := hasKind_unique hkind hkind'
    exact ⟨by rw [Reach.review_of_unmatched hsize, hproblem], by simp [hmint]⟩
  cases h with
  | reviewed hkind hreview =>
      refine ⟨fun _ hall => hall, fun hrefuses _ => ?_⟩
      rw [(hunreviewed _ hkind hrefuses).1] at hreview
      cases hreview
  | waited hkind _ _ hmint =>
      exact ⟨fun _ hall => hall, fun hrefuses _ => absurd hmint (hunreviewed _ hkind hrefuses).2⟩
  | @refused kind entity t selected hkind hreview hchosen hrefused =>
      obtain ⟨hfound, hmoved, _, hdecisions, hentity⟩ := hchosen.entity
      constructor
      · intro hnot hall body hbody x hx
        rcases hentity with ⟨_, _, hkept⟩ | ⟨hsize, _, _⟩
        · rw [isBound_of_kept hdecisions]
          exact hall body (hkept ▸ hbody) x hx
        · have hproblem : (reachAt input s kind entry.2).problem = none := by
            rwa [Reach.review_of_unmatched hsize] at hreview
          exact absurd ⟨kind, hkind, hproblem, hsize, selected, hchosen.mintItem hsize, hrefused⟩ hnot
      · intro hrefuses hfresh
        rcases hentity with ⟨hmatched, _, _⟩ | ⟨_, hids, floor, hadded⟩
        · obtain ⟨kind', hkind', _, hsize, _⟩ := hrefuses
          obtain rfl := hasKind_unique hkind hkind'
          exact absurd hmatched (IndexMap.not_mem_keys_of_size hsize _)
        · have hnodup := hfresh.1
          rw [hids, List.nodup_cons] at hnodup
          refine ⟨entity, ⟨hnodup.1, fun hseen => ?_⟩, identityBody entity kind floor, by simp [hadded],
            identityBody_entity _ _ _⟩
          refine hfresh.2 entity (by simp [hids]) ?_
          unfold Seen Known at hseen ⊢
          rwa [hfound, hmoved, isBound_of_kept hdecisions] at hseen
  | @bound kind entity t selected basis hkind hreview hchosen hbasis =>
      obtain ⟨_, _, _, hdecisions, hentity⟩ := hchosen.entity
      constructor
      · intro _ hall body hbody x hx
        rw [write_identities] at hbody
        rw [isBound_write, isBound_of_kept hdecisions]
        rcases hentity with ⟨_, _, hkept⟩ | ⟨_, _, floor, hadded⟩
        · exact .inl (hall body (hkept ▸ hbody) x hx)
        · rw [hadded, List.mem_append, List.mem_singleton] at hbody
          rcases hbody with hold | rfl
          · exact .inl (hall body hold x hx)
          · rw [identityBody_entity] at hx
            exact .inr (Except.ok.inj hx).symm
      · intro hrefuses _
        obtain ⟨kind', hkind', hproblem, hsize, selected', hmint, hrefused⟩ := hrefuses
        obtain rfl := hasKind_unique hkind hkind'
        cases hmint.symm.trans (hchosen.mintItem hsize)
        exact (refused_not_allowed hrefused hbasis).elim

/-- Nothing the batch is given names an allocated identity, and no identity is allocated twice. -/
def NewIds (input : PreparedInputs) : Prop := input.newIds.Nodup ∧ ∀ x ∈ input.newIds, ¬ Named input x

theorem start_fresh (c : Consolidations) (h : NewIds input) : Fresh (start input c) := by
  refine ⟨h.1, fun x hx hseen => ?_⟩
  rcases hseen with hknown | ⟨body, hbody, _⟩
  · exact h.2 x hx (known_start hknown)
  · simp [start, Results.empty] at hbody

theorem linkMatchingRecords_eq_ok {result : Results} (h : linkMatchingRecords env input = .ok result) :
    ∃ c s, Consolidations.read input.consolidations = .ok c ∧
      (batchOrder input).foldlM (turn env input (storedFound input)) (start input c) = .ok s ∧ s.result = result := by
  unfold linkMatchingRecords at h
  obtain ⟨s, hs, h⟩ := Except.bind_eq_ok.1 h
  rw [link_eq_after] at hs
  obtain ⟨c, hc, hrun⟩ := Except.bind_eq_ok.1 hs
  exact ⟨c, s, hc, hrun, Except.ok.inj h⟩

theorem after_eq_ok {front : List (String × List Match)} {c : Consolidations} {s : Linking}
    (hc : Consolidations.read input.consolidations = .ok c) :
    after env input front = .ok s ↔ front.foldlM (turn env input (storedFound input)) (start input c) = .ok s := by
  rw [after, hc, Except.bind_ok]

theorem run_fresh {front : List (String × List Match)} {s t : Linking} (hfresh : Fresh s)
    (hrun : front.foldlM (turn env input stored) s = .ok t) : Fresh t :=
  Runs.run_invariant (fun _ mid => Fresh mid) hrun hfresh
    fun _ _ _ _ _ _ hmid hstep => hmid.turned (turn_eq_ok hstep)

theorem run_lost {back : List (String × List Match)} {x : String} (hlost : Lost s x)
    (hrun : back.foldlM (turn env input stored) s = .ok s') : Lost s' x :=
  Runs.run_invariant (fun _ mid => Lost mid x) hrun hlost
    fun _ _ _ _ _ _ hmid hstep => hmid.turned (turn_eq_ok hstep)

theorem run_identities {back : List (String × List Match)} {body : Object} (hbody : body ∈ s.result.identities)
    (hrun : back.foldlM (turn env input stored) s = .ok s') : body ∈ s'.result.identities :=
  Runs.run_invariant (fun _ mid => body ∈ mid.result.identities) hrun hbody
    fun _ _ _ _ _ _ hmid hstep => (turn_eq_ok hstep).identities_mem hmid

/-- No record of the batch, on its turn, creates a master by a rule that is refused for it. -/
def NoneRefusedNew (env : Env) (input : PreparedInputs) : Prop :=
  ∀ front entry back before, batchOrder input = front ++ entry :: back → after env input front = .ok before →
    ¬ RefusesNew input before entry

theorem run_allBound {c : Consolidations} (hc : Consolidations.read input.consolidations = .ok c)
    (hnever : NoneRefusedNew env input)
    (hrun : (batchOrder input).foldlM (turn env input (storedFound input)) (start input c) = .ok s) :
    AllBound s.result := by
  have hboth := Runs.run_invariant
    (fun front mid => front.foldlM (turn env input (storedFound input)) (start input c) = .ok mid ∧ AllBound mid.result)
    hrun ⟨rfl, fun body hbody => by simp [start, Results.empty] at hbody⟩ ?_
  · exact hboth.2
  · intro front entry back mid next hsplit hmid hstep
    refine ⟨Runs.foldlM_append_eq_ok.2 ⟨mid, hmid.1, Runs.foldlM_cons_eq_ok.2 ⟨next, hstep, rfl⟩⟩, ?_⟩
    have hnot := hnever front entry back mid hsplit ((after_eq_ok hc).2 hmid.1)
    exact (turn_eq_ok hstep).allBound.1 hnot hmid.2

/-- **When no new master is left unbound.** Every new master of a batch is the entity of a bind of the batch where no record of it creates a master by a rule that is refused for it; and, the allocated identities being new, only there. -/
theorem new_masters_bound_iff (env : Env) (input : PreparedInputs) (result : Results)
    (h : linkMatchingRecords env input = .ok result) :
    (NoneRefusedNew env input →
      ∀ body ∈ result.identities, ∀ entity, readText body "entity_id" = .ok entity → IsBound result entity) ∧
    (NewIds input →
      ((∀ body ∈ result.identities, ∀ entity, readText body "entity_id" = .ok entity → IsBound result entity) ↔
        NoneRefusedNew env input)) := by
  obtain ⟨c, s, hc, hrun, rfl⟩ := linkMatchingRecords_eq_ok h
  have hbound : NoneRefusedNew env input → AllBound s.result := fun hnever => run_allBound hc hnever hrun
  refine ⟨hbound, fun hnew => ⟨fun hall => ?_, hbound⟩⟩
  intro front entry back before hsplit hbefore hrefuses
  rw [after_eq_ok hc] at hbefore
  rw [hsplit] at hrun
  obtain ⟨mid, next, hmid, hstep, hback⟩ := Runs.run_split hrun
  cases hbefore.symm.trans hmid
  have hfresh := run_fresh (start_fresh c hnew) hmid
  obtain ⟨x, hlost, body, hbody, hentity⟩ := (turn_eq_ok hstep).allBound.2 hrefuses hfresh
  have hseen := hall body (run_identities hbody hback) x hentity
  exact (run_lost hlost hback).2 (.inr hseen)

def issuedValue (value : String) : Match where
  rule := .ofList [("rule_id", .str "lei"), ("version", .str "1")]
  outcomes := ⟨.mint, .review, .review⟩
  idNamespace := "lei"
  value
  raw := value
  issued := true
  lookupOnly := false

def companyRecord (assertion : String) : Object :=
  .ofList [("kind", .str "company"), ("assertion_id", .str assertion)]

/-- Two records that issue one value, the holdings their batch is given, and the rules refused. -/
def filersBatch (found : List Holder) (refused : List (String × String × String)) : PreparedInputs where
  plan :=
    { records := .ofList [("s1", companyRecord "a1"), ("s2", companyRecord "a2")]
      applicable := .ofList [("s1", [issuedValue "5493"]), ("s2", [issuedValue "5493"])]
      callerHolders := [] }
  found
  suspended := []
  newest := .empty
  newIds := ["n1", "n2"]
  refused
  asOf := "2026-01-06T00:00:00+00:00"
  consolidations := []

def env2026 : Env := ⟨calendar2026, id⟩

theorem filersBatch_newIds (refused : List (String × String × String)) : NewIds (filersBatch [] refused) := by
  refine ⟨?_, fun x _ hnamed => ?_⟩
  · show ["n1", "n2"].Nodup
    decide
  · obtain ⟨holder, hholder, _⟩ := hnamed
    simp [filersBatch] at hholder

theorem new_masters_bound_iff_filers :
    ∃ result, linkMatchingRecords env2026 (filersBatch [] []) = .ok result ∧ result.identities ≠ [] ∧
      ((∀ body ∈ result.identities, ∀ entity, readText body "entity_id" = .ok entity → IsBound result entity) ↔
        NoneRefusedNew env2026 (filersBatch [] [])) := by
  have hrun : ∃ result, linkMatchingRecords env2026 (filersBatch [] []) = .ok result ∧
      decide (result.identities ≠ []) = true :=
    Except.exists_of_any (by decide +kernel)
  obtain ⟨result, hresult, hidentities⟩ := hrun
  exact ⟨result, hresult, by simpa using hidentities,
    (new_masters_bound_iff env2026 (filersBatch [] []) result hresult).2 (filersBatch_newIds [])⟩

/-- The records' rule is refused for both: their batch has two new masters and binds neither. -/
theorem refused_master_left_unbound :
    ∃ result, linkMatchingRecords env2026 (filersBatch [] [("s1", "lei", "1"), ("s2", "lei", "1")]) = .ok result ∧
      ∃ body ∈ result.identities, readText body "entity_id" = .ok "n1" ∧ ¬ IsBound result "n1" := by
  have hrun : linkMatchingRecords env2026 (filersBatch [] [("s1", "lei", "1"), ("s2", "lei", "1")]) = .ok
      { Results.empty with
        identities := [identityBody "n1" "company" "2026-01-06T00:00:00+00:00",
          identityBody "n2" "company" "2026-01-06T00:00:00+00:00"] } := by
    decide +kernel
  refine ⟨_, hrun, _, List.mem_cons_self, identityBody_entity _ _ _, fun hbound => ?_⟩
  obtain ⟨body, hbody, _⟩ := hbound
  simp [Results.empty] at hbody

end EdgarPlatform.Matching
