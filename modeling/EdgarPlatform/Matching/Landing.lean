import EdgarPlatform.Matching.Bound

/-!
# Every bound record ends on one master

Once a record is bound, the values it issues are held by its master alone, up to the moves. What a value is held by never changes after that, and a later move takes all the masters that already lead to one place to one place again.
-/

namespace EdgarPlatform.Matching

open Records (Env Object readText)

variable {env : Env} {input : PreparedInputs} {stored : Found} {s s' : Linking} {entry : String × List Match}

/-- Walks over the moves end, and every holding names a master. -/
structure Orderly (s : Linking) : Prop where
  ends : Forest.Ends s.moved.get?
  holders : ∀ key held, s.found.get? key = some held → held.keys ≠ []

/-- What holds of a later state of the batch: the values held are held as before, and walks go on from where they ended. -/
structure Later (s s' : Linking) : Prop where
  found : ∀ key, s.found.get? key ≠ none → s'.found.get? key = s.found.get? key
  moved : ∀ x, resolve s'.moved x = resolve s'.moved (resolve s.moved x)

theorem Later.of_kept (hends : Forest.Ends s.moved.get?) (hfound : s'.found = s.found) (hmoved : s'.moved = s.moved) :
    Later s s' where
  found := fun _ _ => by rw [hfound]
  moved := fun x => by
    rw [hmoved]
    exact (resolve_of_climbs (.stop (resolve_root hends x))).symm

theorem Orderly.of_kept (h : Orderly s) (hfound : s'.found = s.found) (hmoved : s'.moved = s.moved) : Orderly s' where
  ends := hmoved ▸ h.ends
  holders := hfound ▸ h.holders

theorem climbs_gathered {moved moved' : IndexMap String String} {others : List String} {entity : String}
    (hends : Forest.Ends moved.get?) (hgather : moved'.get? = Forest.gather moved.get? others entity)
    (hroots : ∀ x ∈ others, moved.get? x = none) (hentity : others ≠ [] → moved.get? entity = none)
    (hnot : entity ∉ others) (x : String) :
    Forest.Climbs moved'.get? x (if resolve moved x ∈ others then entity else resolve moved x) := by
  rw [hgather]
  by_cases hothers : others = []
  · subst hothers
    have hsame : Forest.gather moved.get? [] entity = moved.get? := by
      funext y
      simp [Forest.gather]
    rw [hsame, if_neg (by simp)]
    exact climbs_resolve hends x
  · exact (climbs_resolve hends x).gather hroots (hentity hothers) hnot

theorem resolve_gathered {moved moved' : IndexMap String String} {others : List String} {entity : String}
    (hends : Forest.Ends moved.get?) (hgather : moved'.get? = Forest.gather moved.get? others entity)
    (hroots : ∀ x ∈ others, moved.get? x = none) (hentity : others ≠ [] → moved.get? entity = none)
    (hnot : entity ∉ others) (x : String) : resolve moved' x = resolve moved' (resolve moved x) := by
  have hself : resolve moved (resolve moved x) = resolve moved x :=
    resolve_of_climbs (.stop (resolve_root hends x))
  have hroot := climbs_gathered hends hgather hroots hentity hnot (resolve moved x)
  rw [hself] at hroot
  rw [resolve_of_climbs (climbs_gathered hends hgather hroots hentity hnot x), resolve_of_climbs hroot]

section Turn

variable {kind entity : String} {t : Linking} {selected : Match}

def mergedAt (input : PreparedInputs) (s : Linking) (kind : String) (items : List Match) (entity : String) : List String :=
  (reachAt input s kind items).mergers.filter (· ≠ entity)

theorem Chosen.entity_matched {items : List Match} {x : String}
    (h : Chosen input stored s kind items (reachAt input s kind items) t entity selected)
    (hx : x ∈ (reachAt input s kind items).matched.keys) : (reachAt input s kind items).target = some entity := by
  cases h with
  | reached htarget _ => exact htarget
  | created htarget _ _ =>
      have hsize := (reach_of s.found s.moved input.suspended kind items).target_eq_none.1 htarget
      exact absurd hx (IndexMap.not_mem_keys_of_size hsize x)

theorem Chosen.gathered {items : List Match} (env : Env) (basis : Basis) (subject : String)
    (hends : Forest.Ends s.moved.get?)
    (h : Chosen input stored s kind items (reachAt input s kind items) t entity selected) :
    (write env basis subject kind entity items selected (reachAt input s kind items) t).moved.get? =
        Forest.gather s.moved.get? (mergedAt input s kind items entity) entity ∧
      (∀ x ∈ mergedAt input s kind items entity, s.moved.get? x = none) ∧
      (mergedAt input s kind items entity ≠ [] → s.moved.get? entity = none) ∧
      entity ∉ mergedAt input s kind items entity := by
  have hof := reachAt_of input s kind items
  have hmatched : ∀ x ∈ mergedAt input s kind items entity, x ∈ (reachAt input s kind items).matched.keys :=
    fun x hx => hof.mergers_matched (List.mem_filter.1 hx).1
  refine ⟨?_, fun x hx => matched_root hends (hmatched x hx), fun hsome => ?_, by simp [mergedAt]⟩
  · rw [write_moved_eq_gather, h.entity.2.1]
    rfl
  · obtain ⟨x, hx⟩ := List.exists_mem_of_ne_nil _ hsome
    exact matched_root hends (hof.target_matched (h.entity_matched (hmatched x hx)))

theorem Turned.later (h : Turned env input stored s entry s') (hs : Orderly s) : Orderly s' ∧ Later s s' := by
  cases h with
  | reviewed _ _ => exact ⟨hs.of_kept rfl rfl, .of_kept hs.ends rfl rfl⟩
  | waited _ _ _ _ => exact ⟨hs, .of_kept hs.ends rfl rfl⟩
  | refused _ _ hchosen _ =>
      obtain ⟨hfound, hmoved, _⟩ := hchosen.entity
      exact ⟨hs.of_kept hfound hmoved, .of_kept hs.ends hfound hmoved⟩
  | @bound kind entity t selected basis _ _ hchosen _ =>
      obtain ⟨hgather, hroots, hentity, hnot⟩ := hchosen.gathered env basis entry.1 hs.ends
      have hfound := hchosen.entity.1
      have hwritten := write_found env basis entry.1 kind entity entry.2 selected (reachAt input s kind entry.2) t
      rw [hfound] at hwritten
      refine ⟨⟨fun x => ⟨_, climbs_gathered hs.ends hgather hroots hentity hnot x⟩, fun key held hget => ?_⟩,
        fun key hkey => (hwritten key).1 hkey, resolve_gathered hs.ends hgather hroots hentity hnot⟩
      obtain ⟨hkept, hgiven, hnever⟩ := hwritten key
      by_cases hnone : s.found.get? key = none
      · by_cases hgives : Gives ((reachAt input s kind entry.2).matched.size = 0) selected entry.2 key
        · rw [hgiven hnone hgives] at hget
          cases hget
          intro hnil
          have hmem : entity ∈ (IndexMap.ofList [(entity, kind)]).keys := by simp [IndexMap.mem_keys_ofList]
          rw [hnil] at hmem
          simp at hmem
        · rw [hnever hnone hgives] at hget
          cases hget
      · rw [hkept hnone] at hget
        exact hs.holders key held hget

end Turn

/-- The masters that hold the value have become one, the one the entity has become. -/
def HeldAlone (s : Linking) (key : String × String) (entity : String) : Prop :=
  ∀ y, (∃ x, Holds s.found key x ∧ resolve s.moved x = y) ↔ y = resolve s.moved entity

theorem Later.holds {key : String × String} {x : String} (hlater : Later s s') (h : Holds s.found key x) :
    Holds s'.found key x := by
  obtain ⟨held, hget, hx⟩ := h
  exact ⟨held, (hlater.found key (by simp [hget])).trans hget, hx⟩

theorem HeldAlone.later {key : String × String} {entity : String} (h : HeldAlone s key entity) (hlater : Later s s') :
    HeldAlone s' key entity := by
  obtain ⟨holder, ⟨held, hget, _⟩, _⟩ := (h _).2 rfl
  have hsame : s'.found.get? key = s.found.get? key := hlater.found key (by simp [hget])
  have hholds : ∀ x, Holds s'.found key x ↔ Holds s.found key x := fun x => by
    unfold Holds
    rw [hsame]
  intro y
  constructor
  · intro hy
    obtain ⟨x, hx, rfl⟩ := hy
    have hx' : resolve s.moved x = resolve s.moved entity := (h _).1 ⟨x, (hholds x).1 hx, rfl⟩
    rw [hlater.moved x, hx', ← hlater.moved entity]
  · rintro rfl
    obtain ⟨x, hx, hmoved⟩ := (h _).2 rfl
    exact ⟨x, (hholds x).2 hx, by rw [hlater.moved x, hmoved, ← hlater.moved entity]⟩

/-- A bound record's values are its master's alone, but for those it does not issue and those the bind withholds. -/
theorem Chosen.heldAlone {kind entity : String} {t : Linking} {selected item : Match} (env : Env) (basis : Basis)
    (hs : Orderly s)
    (hchosen : Chosen input stored s kind entry.2 (reachAt input s kind entry.2) t entity selected)
    (hreview : (reachAt input s kind entry.2).review s.consolidations = none)
    (hitem : item ∈ entry.2) (hissued : item.issued = true)
    (hwithheld : (item.idNamespace, item.raw) ∉ (reachAt input s kind entry.2).withheld entity) :
    HeldAlone (write env basis entry.1 kind entity entry.2 selected (reachAt input s kind entry.2) t) item.key entity := by
  obtain ⟨hgather, hroots, hentity, hnot⟩ := hchosen.gathered env basis entry.1 hs.ends
  have hresolve := climbs_gathered hs.ends hgather hroots hentity hnot
  obtain ⟨hkept, hgiven, _⟩ :=
    write_found env basis entry.1 kind entity entry.2 selected (reachAt input s kind entry.2) t item.key
  rw [hchosen.entity.1] at hkept hgiven
  generalize write env basis entry.1 kind entity entry.2 selected (reachAt input s kind entry.2) t = s' at *
  cases hheld : s.found.get? item.key with
  | none =>
      have hnew := hgiven hheld ⟨item, hitem, rfl, .inl hissued⟩
      have hholds : ∀ x, Holds s'.found item.key x ↔ x = entity := by
        intro x
        unfold Holds
        simp [hnew, IndexMap.mem_keys_ofList]
      intro y
      simp only [hholds, exists_eq_left]
      exact eq_comm
  | some held =>
      have hsame : s'.found.get? item.key = some held := (hkept (by simp [hheld])).trans hheld
      -- Each holder leads to a master reached by the value, and all of them are gathered under the one bound to.
      have hall : ∀ x ∈ held.keys, resolve s'.moved x = resolve s'.moved entity := by
        intro x hx
        obtain ⟨matched, hget, hmem⟩ :=
          reached_of_holds (Reach.review_eq_none.1 hreview).1 hitem ⟨held, hheld, hx⟩
        have hkey := IndexMap.mem_keys_of_get? hget
        have htarget := hchosen.entity_matched hkey
        have hof := reachAt_of input s kind entry.2
        have hroot := matched_root hs.ends (hof.target_matched htarget)
        have hentity' : resolve s'.moved entity = entity := by
          have hclimbs := hresolve entity
          rw [resolve_of_climbs (.stop hroot), if_neg hnot] at hclimbs
          exact resolve_of_climbs hclimbs
        rw [hentity', resolve_of_climbs (hresolve x)]
        rcases hof.reached_cases hreview htarget hkey with heq | hfirst | hmerged
        · rw [heq, if_neg hnot]
        · by_contra hne
          refine hwithheld (Reach.mem_withheld.2 ⟨by simp [hfirst], resolve s.moved x, matched, hget, fun heq => ?_,
            item, hmem, rfl⟩)
          rw [heq, if_neg hnot] at hne
          exact hne rfl
        · by_cases heq : resolve s.moved x = entity
          · rw [heq, if_neg hnot]
          · have hin : resolve s.moved x ∈ mergedAt input s kind entry.2 entity :=
              List.mem_filter.2 ⟨hmerged.1, by simpa using heq⟩
            rw [if_pos hin]
      obtain ⟨first, hfirst⟩ := List.exists_mem_of_ne_nil _ (hs.holders item.key held hheld)
      intro y
      constructor
      · intro hy
        obtain ⟨x, ⟨held', hget', hx⟩, rfl⟩ := hy
        cases hsame.symm.trans hget'
        exact hall x hx
      · rintro rfl
        exact ⟨first, ⟨held, hsame, hfirst⟩, hall first hfirst⟩

def Landed (input : PreparedInputs) (s : Linking) : Prop :=
  ∀ body ∈ s.result.decisions, ∀ entity, BindsTo body entity →
    ∃ entry ∈ input.plan.applicable.entries, readText body "subject" = .ok entry.1 ∧
      ∀ item ∈ entry.2, item.issued = true → ¬ Withholds body (item.idNamespace, item.raw) →
        HeldAlone s item.key entity

def MovesAreMerges (s : Linking) : Prop :=
  ∀ x y, s.moved.get? x = some y ↔ ∃ body ∈ s.result.decisions, MergesInto body y x

theorem Landed.of_kept (h : Landed input s) (hdecisions : s'.result.decisions = s.result.decisions)
    (hlater : Later s s') : Landed input s' := by
  intro body hbody entity hbinds
  rw [hdecisions] at hbody
  obtain ⟨e, he, hsubject, hitems⟩ := h body hbody entity hbinds
  exact ⟨e, he, hsubject, fun item hitem hissued hwithheld => (hitems item hitem hissued hwithheld).later hlater⟩

theorem Turned.landed (h : Turned env input stored s entry s') (hentry : entry ∈ input.plan.applicable.entries)
    (hs : Orderly s) (hlanded : Landed input s) : Landed input s' := by
  have hlater := (h.later hs).2
  cases h with
  | reviewed _ _ => exact hlanded.of_kept rfl hlater
  | waited _ _ _ _ => exact hlanded
  | refused _ _ hchosen _ => exact hlanded.of_kept hchosen.entity.2.2.2.1 hlater
  | @bound kind entity t selected basis _ hreview hchosen _ =>
      intro body hbody x hbinds
      rw [write_decisions] at hbody
      rcases List.mem_append.1 hbody with hold | hlast
      · obtain ⟨added, hadded, hmerges⟩ := mergeOthers_decisions env basis entity (mergedAt input s kind entry.2 entity) t
        rw [mergedAt] at hadded
        rw [hadded, hchosen.entity.2.2.2.1, List.mem_append] at hold
        rcases hold with hold | hmerge
        · obtain ⟨e, he, hsubject, hitems⟩ := hlanded body hold x hbinds
          exact ⟨e, he, hsubject,
            fun item hitem hissued hwithheld => (hitems item hitem hissued hwithheld).later hlater⟩
        · have hop := (hmerges body hmerge).symm.trans hbinds.1
          exact absurd (Except.ok.inj hop) (by decide)
      · obtain rfl := List.mem_singleton.1 hlast
        have hentity := Except.ok.inj ((bindBody_bindsTo env.digest basis entry.1 entity _).2.symm.trans hbinds.2)
        subst hentity
        refine ⟨entry, hentry, bindBody_subject _ _ _ _ _, fun item hitem hissued hwithheld => ?_⟩
        refine hchosen.heldAlone env basis hs hreview hitem hissued fun hin => ?_
        exact hwithheld (bindBody_withholds env.digest basis entry.1 entity hin)

theorem Turned.movesAreMerges (h : Turned env input stored s entry s') (hs : Orderly s) (hmoves : MovesAreMerges s) :
    MovesAreMerges s' := by
  cases h with
  | reviewed _ _ => exact hmoves
  | waited _ _ _ _ => exact hmoves
  | refused _ _ hchosen _ =>
      obtain ⟨_, hmoved, _, hdecisions, _⟩ := hchosen.entity
      intro x y
      rw [hmoved, hdecisions]
      exact hmoves x y
  | @bound kind entity t selected basis _ _ hchosen _ =>
      obtain ⟨hgather, hroots, _, _⟩ := hchosen.gathered env basis entry.1 hs.ends
      have hmerged := mergeOthers_merged env basis entity (mergedAt input s kind entry.2 entity) t
      intro x y
      have hbodies : (∃ body ∈ (write env basis entry.1 kind entity entry.2 selected (reachAt input s kind entry.2) t
          ).result.decisions, MergesInto body y x) ↔
          s.moved.get? x = some y ∨ y = entity ∧ x ∈ mergedAt input s kind entry.2 entity := by
        rw [hmoves x y, ← hchosen.entity.2.2.2.1, ← hmerged, write_decisions]
        constructor
        · intro h
          obtain ⟨body, hbody, hinto⟩ := h
          rcases List.mem_append.1 hbody with hold | hlast
          · exact ⟨body, hold, hinto⟩
          · obtain rfl := List.mem_singleton.1 hlast
            exact absurd hinto (bindBody_bindsTo _ _ _ _ _).not_merges
        · intro h
          obtain ⟨body, hbody, hinto⟩ := h
          exact ⟨body, List.mem_append_left _ hbody, hinto⟩
      rw [hbodies, hgather, Forest.gather]
      split_ifs with hmem
      · rw [hroots x hmem, Option.some.injEq]
        simp [hmem, eq_comm]
      · simp [hmem]

theorem Turned.unheld (h : Turned env input stored s entry s') (hnew : s'.result.identities ≠ s.result.identities) :
    ∀ item ∈ entry.2, ∀ x, ¬ Holds s.found item.key x := by
  have hunreached : ∀ {kind : String} {entity : String} {t : Linking} {selected : Match},
      (reachAt input s kind entry.2).review s.consolidations = none →
      Chosen input stored s kind entry.2 (reachAt input s kind entry.2) t entity selected →
      t.result.identities ≠ s.result.identities → ∀ item ∈ entry.2, ∀ x, ¬ Holds s.found item.key x := by
    intro kind entity t selected hreview hchosen hcreated item hitem x hholds
    rcases hchosen.entity.2.2.2.2 with ⟨_, _, hkept⟩ | ⟨hsize, _⟩
    · exact hcreated hkept
    · obtain ⟨matched, hget, _⟩ := reached_of_holds (Reach.review_eq_none.1 hreview).1 hitem hholds
      exact IndexMap.not_mem_keys_of_size hsize _ (IndexMap.mem_keys_of_get? hget)
  cases h with
  | reviewed _ _ => exact absurd rfl hnew
  | waited _ _ _ _ => exact absurd rfl hnew
  | refused _ hreview hchosen _ => exact hunreached hreview hchosen hnew
  | bound _ hreview hchosen _ =>
      rw [write_identities] at hnew
      exact hunreached hreview hchosen hnew

def NoneEmpty (input : PreparedInputs) : Prop :=
  ∀ holder ∈ input.found ++ input.plan.callerHolders, holder.records.keys ≠ []

theorem start_orderly (c : Consolidations) (h : NoneEmpty input) : Orderly (start input c) where
  ends := fun x => ⟨x, .stop rfl⟩
  holders := by
    intro key held hget hnil
    rw [start_found] at hget
    have hsome : ((input.found ++ input.plan.callerHolders).foldl hold .empty).get? key ≠ none := by
      rw [hget]
      simp
    rcases contains_holdAll.1 hsome with hempty | ⟨holder, hmem, hkey⟩
    · exact hempty rfl
    · obtain ⟨x, hx⟩ := List.exists_mem_of_ne_nil _ (h holder hmem)
      obtain ⟨held', hget', hx'⟩ := holds_holdAll.2 (.inr ⟨holder, hmem, hkey, hx⟩)
      cases hget.symm.trans hget'
      rw [hnil] at hx'
      simp at hx'

/-- **Every bound record ends on one master.** The moves of a batch are the merges it writes, and following them ends; the stored and the caller's holdings are kept; a bound record's values that its source issues and its bind does not withhold are held, up to the moves, by its master alone; and a master is created only for a record none of whose values is held when its turn comes. -/
theorem bound_records_end_on_one_master (env : Env) (input : PreparedInputs) (s : Linking) (hheld : NoneEmpty input)
    (h : link env input = .ok s) :
    (∀ x y, s.moved.get? x = some y ↔ ∃ body ∈ s.result.decisions, MergesInto body y x) ∧
    (∀ x, Forest.Climbs s.moved.get? x (resolve s.moved x)) ∧
    (∀ holder ∈ input.found ++ input.plan.callerHolders, ∀ x ∈ holder.records.keys, Holds s.found holder.key x) ∧
    (∀ body ∈ s.result.decisions, ∀ entity, BindsTo body entity →
      ∃ entry ∈ input.plan.applicable.entries, readText body "subject" = .ok entry.1 ∧
        ∀ item ∈ entry.2, item.issued = true → ¬ Withholds body (item.idNamespace, item.raw) →
          ∀ y, (∃ x, Holds s.found item.key x ∧ resolve s.moved x = y) ↔ y = resolve s.moved entity) ∧
    (∀ front entry back before next, batchOrder input = front ++ entry :: back → after env input front = .ok before →
      turn env input (storedFound input) before entry = .ok next →
      next.result.identities ≠ before.result.identities → ∀ item ∈ entry.2, ∀ x, ¬ Holds before.found item.key x) := by
  rw [link_eq_after] at h
  obtain ⟨c, hc, hrun⟩ := Except.bind_eq_ok.1 h
  have hall := Runs.run_invariant (fun _ mid => Orderly mid ∧ Landed input mid ∧ MovesAreMerges mid ∧
    ∀ key x, Holds (start input c).found key x → Holds mid.found key x) hrun ?_ ?_
  · obtain ⟨horderly, hlanded, hmoves, hkept⟩ := hall
    refine ⟨hmoves, fun x => climbs_resolve horderly.ends x, fun holder hholder x hx => ?_, hlanded, ?_⟩
    · exact hkept holder.key x (holds_start.2 ⟨holder, hholder, rfl, hx⟩)
    · intro front entry back before next _ _ hturn hnew
      exact (turn_eq_ok hturn).unheld hnew
  · refine ⟨start_orderly c hheld, fun body hbody => ?_, fun x y => ?_, fun _ _ hholds => hholds⟩
    · simp [start, Results.empty] at hbody
    · simp [start, Results.empty]
  · intro front entry back mid next hsplit hmid hstep
    obtain ⟨horderly, hlanded, hmoves, hkept⟩ := hmid
    have hturned := turn_eq_ok hstep
    have hentry : entry ∈ input.plan.applicable.entries := by
      have hmem : entry ∈ batchOrder input := by simp [hsplit]
      exact Sorting.mem_sortByKey.1 hmem
    obtain ⟨hnext, hlater⟩ := hturned.later horderly
    exact ⟨hnext, hturned.landed hentry horderly hlanded, hturned.movesAreMerges horderly hmoves,
      fun key x hholds => hlater.holds (hkept key x hholds)⟩

/-- Two filers with one identifier, whose stored holding names a master. -/
theorem bound_records_end_on_one_master_filers :
    ∃ s, link env2026 (filersBatch [⟨"lei", "5493", .ofList [("e1", "company")]⟩] []) = .ok s ∧
      s.result.decisions ≠ [] ∧
      ∀ body ∈ s.result.decisions, ∀ entity, BindsTo body entity →
        ∃ entry ∈ (filersBatch [] []).plan.applicable.entries, readText body "subject" = .ok entry.1 ∧
          ∀ item ∈ entry.2, item.issued = true → ¬ Withholds body (item.idNamespace, item.raw) →
            ∀ y, (∃ x, Holds s.found item.key x ∧ resolve s.moved x = y) ↔ y = resolve s.moved entity := by
  have hrun : ∃ s, link env2026 (filersBatch [⟨"lei", "5493", .ofList [("e1", "company")]⟩] []) = .ok s ∧
      decide (s.result.decisions ≠ []) = true :=
    Except.exists_of_any (by decide +kernel)
  obtain ⟨s, hs, hdecisions⟩ := hrun
  have hheld : NoneEmpty (filersBatch [⟨"lei", "5493", .ofList [("e1", "company")]⟩] []) := by
    intro holder hholder
    obtain rfl : holder = ⟨"lei", "5493", .ofList [("e1", "company")]⟩ := by
      simpa [filersBatch] using hholder
    simp [IndexMap.ofList, IndexMap.extend, IndexMap.keys_insert]
  exact ⟨s, hs, by simpa using hdecisions,
    (bound_records_end_on_one_master env2026 _ s hheld hs).2.2.2.1⟩

/-- A stored holding that names no master: the record that issues its value creates one and is bound to it, and no master holds the value at the end. -/
theorem empty_holding_left_empty :
    ∃ s, link env2026 (filersBatch [⟨"lei", "5493", .empty⟩] []) = .ok s ∧
      (∃ body ∈ s.result.decisions, BindsTo body "n1" ∧ readText body "subject" = .ok "s1" ∧
        body.get? "withheld" = none) ∧
      ("s1", [issuedValue "5493"]) ∈ (filersBatch [] []).plan.applicable.entries ∧
      ¬ ∀ y, (∃ x, Holds s.found (issuedValue "5493").key x ∧ resolve s.moved x = y) ↔ y = resolve s.moved "n1" := by
  have hrun : ∃ s, link env2026 (filersBatch [⟨"lei", "5493", .empty⟩] []) = .ok s ∧
      decide (s.found.get? ("lei", "5493") = some .empty ∧ (∃ body ∈ s.result.decisions,
        (readText body "operation" = .ok "bind" ∧ readText body "entity_id" = .ok "n1") ∧
          readText body "subject" = .ok "s1" ∧ body.get? "withheld" = none)) = true :=
    Except.exists_of_any (by decide +kernel)
  obtain ⟨s, hs, hcheck⟩ := hrun
  obtain ⟨hempty, body, hbody, hbinds, hsubject, hwithheld⟩ := of_decide_eq_true hcheck
  refine ⟨s, hs, ⟨body, hbody, hbinds, hsubject, hwithheld⟩, by decide, fun hall => ?_⟩
  obtain ⟨x, ⟨held, hget, hx⟩, _⟩ := (hall _).2 rfl
  cases (hempty.symm.trans hget : some IndexMap.empty = some held)
  simp at hx

end EdgarPlatform.Matching
