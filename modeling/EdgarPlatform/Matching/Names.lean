import EdgarPlatform.Matching.Bound
import EdgarPlatform.Matching.Plan

/-!
# The masters a batch's decisions name

A batch binds records to, and merges, only masters that something it is given names or that are allocated to it. So what holds of all of those holds of every master its decisions name.
-/

namespace EdgarPlatform.Matching

open Records (Env Json Object readText)

variable {env : Env} {input : PreparedInputs} {stored : Found} {s s' : Linking} {entry : String × List Match}

/-- What holds of every master some batch knows, may still create or has decided on. -/
structure OnlyNames (holds : String → Prop) (s : Linking) : Prop where
  seen : ∀ x, Seen s x → holds x
  ids : ∀ x ∈ s.ids, holds x
  merged : ∀ body ∈ s.result.decisions, ∀ kept other, MergesInto body kept other → holds kept ∧ holds other

variable {holds : String → Prop}

theorem OnlyNames.merges (h : OnlyNames holds s) {t : Linking} {kind entity : String} {selected : Match}
    (hchosen : Chosen input stored s kind entry.2 (reachAt input s kind entry.2) t entity selected) (basis : Basis) :
    ∀ body ∈ (write env basis entry.1 kind entity entry.2 selected (reachAt input s kind entry.2) t).result.decisions,
      ∀ kept other, MergesInto body kept other → holds kept ∧ holds other := by
  intro body hbody kept other hmerges
  obtain ⟨_, _, _, hdecisions, hentity⟩ := hchosen.entity
  rw [write_decisions] at hbody
  obtain hbody | hbind := List.mem_append.1 hbody
  · obtain ⟨old, hold, holdmerges⟩ | ⟨rfl, hother⟩ :=
      (mergeOthers_merged env basis entity _ t kept other).1 ⟨body, hbody, hmerges⟩
    · exact h.merged old (hdecisions ▸ hold) kept other holdmerges
    · have hmatched := (reachAt_of input s kind entry.2).mergers_matched (List.mem_of_mem_filter hother)
      refine ⟨?_, h.seen other (.inl (known_of_matched hmatched))⟩
      obtain ⟨hkept, _, _⟩ | ⟨_, hids, _⟩ := hentity
      · exact h.seen kept (.inl (known_of_matched hkept))
      · exact h.ids kept (hids ▸ List.mem_cons_self)
  · obtain rfl := List.mem_singleton.1 hbind
    exact absurd hmerges (bindBody_bindsTo _ _ _ _ _).not_merges

theorem OnlyNames.turned (h : OnlyNames holds s) (hturned : Turned env input stored s entry s') :
    OnlyNames holds s' := by
  obtain ⟨hids, hseen⟩ := hturned.seen
  refine ⟨fun x hx => ?_, fun x hx => ?_, ?_⟩
  · obtain hold | hnew := hseen x hx
    · exact h.seen x hold
    · exact h.ids x (hnew ▸ List.mem_cons_self)
  · obtain hsame | ⟨entity, htaken⟩ := hids
    · exact h.ids x (hsame ▸ hx)
    · exact h.ids x (htaken ▸ List.mem_cons_of_mem _ hx)
  · cases hturned with
    | reviewed _ _ => exact h.merged
    | waited _ _ _ _ => exact h.merged
    | refused _ _ hchosen _ =>
        rw [hchosen.entity.2.2.2.1]
        exact h.merged
    | bound _ _ hchosen _ => exact h.merges hchosen _

theorem OnlyNames.start {holds : String → Prop} (c : Consolidations) (hnamed : ∀ x, Named input x → holds x)
    (hids : ∀ x ∈ input.newIds, holds x) : OnlyNames holds (start input c) where
  seen := by
    rintro x (hknown | ⟨body, hbody, _⟩)
    · exact hnamed x (known_start hknown)
    · cases hbody
  ids := hids
  merged := fun body hbody => by cases hbody

theorem link_names {result : Results} (h : linkMatchingRecords env input = .ok result)
    (hnamed : ∀ x, Named input x → holds x) (hids : ∀ x ∈ input.newIds, holds x) :
    (∀ body ∈ result.decisions, ∀ entity, BindsTo body entity → holds entity) ∧
      ∀ body ∈ result.decisions, ∀ kept other, MergesInto body kept other → holds kept ∧ holds other := by
  obtain ⟨c, s, _, hrun, rfl⟩ := linkMatchingRecords_eq_ok h
  have hnames : OnlyNames holds s :=
    Runs.run_invariant (fun _ mid => OnlyNames holds mid) hrun (.start c hnamed hids)
      fun _ _ _ _ _ _ hmid hstep => hmid.turned (turn_eq_ok hstep)
  exact ⟨fun body hbody entity hbinds => hnames.seen entity (.inr ⟨body, hbody, hbinds⟩), hnames.merged⟩

theorem link_binds_applicable {result : Results} (h : linkMatchingRecords env input = .ok result) :
    ∀ body ∈ result.decisions, ∀ entity, BindsTo body entity → ∀ subject, readText body "subject" = .ok subject →
      subject ∈ input.plan.applicable.keys := by
  obtain ⟨c, s, _, hrun, rfl⟩ := linkMatchingRecords_eq_ok h
  refine Runs.run_invariant (fun _ mid => ∀ body ∈ mid.result.decisions, ∀ entity, BindsTo body entity →
    ∀ subject, readText body "subject" = .ok subject → subject ∈ input.plan.applicable.keys) hrun (fun body hbody => by cases hbody) ?_
  intro front entry back mid next hsplit hmid hstep
  have hentry : entry ∈ input.plan.applicable.entries := by
    have hmem : entry ∈ batchOrder input := by
      rw [hsplit]
      exact List.mem_append_right _ List.mem_cons_self
    exact Sorting.mem_sortByKey.1 hmem
  cases turn_eq_ok hstep with
  | reviewed _ _ => exact hmid
  | waited _ _ _ _ => exact hmid
  | refused _ _ hchosen _ =>
      rw [hchosen.entity.2.2.2.1]
      exact hmid
  | @bound kind entity t selected basis _ _ hchosen _ =>
      intro body hbody other hbinds subject hsubject
      rw [write_decisions] at hbody
      obtain hbody | hbind := List.mem_append.1 hbody
      · obtain ⟨added, hadded, hmerges⟩ := mergeOthers_decisions env basis entity
          ((reachAt input mid kind entry.2).mergers.filter (· ≠ entity)) t
        rw [hadded, hchosen.entity.2.2.2.1] at hbody
        obtain hold | hmerge := List.mem_append.1 hbody
        · exact hmid body hold other hbinds subject hsubject
        · have hoperation := Except.ok.inj ((hmerges body hmerge).symm.trans hbinds.1)
          exact absurd hoperation (by decide)
      · obtain rfl := List.mem_singleton.1 hbind
        rw [bindBody_subject] at hsubject
        rw [← Except.ok.inj hsubject]
        exact List.mem_map_of_mem hentry

theorem callerMasters_of_stored {input : MatchInputs} {subject entity : String}
    (h : (callerMasters input .empty).get? subject = some entity) : (subject, entity) ∈ input.boundEntities.entries := by
  rw [callerMasters, SortedMap.get?_extend, SortedMap.get?_empty, Option.or_none] at h
  exact List.mem_of_mem_filter (List.mem_reverse.1 (IndexMap.lookupEntry_eq_some h))

variable {held : List (String × Holder)}

theorem valueHolder_records {holding : Holding} {record : Object} {subject entity idNamespace raw : String}
    (h : valueHolder holding record subject entity idNamespace raw = .ok held) :
    ∀ entry ∈ held, ∀ x ∈ entry.2.records.keys, x = entity := by
  unfold valueHolder at h
  split_ifs at h
  · cases h
    intro entry hentry
    cases hentry
  · obtain ⟨value, _, h⟩ := Except.bind_eq_ok.1 h
    obtain ⟨kind, _, h⟩ := Except.bind_eq_ok.1 h
    cases h
    intro entry hentry x hx
    obtain rfl := List.mem_singleton.1 hentry
    simpa [IndexMap.mem_keys_ofList] using hx

theorem identifierHolders_records {holding : Holding} {record : Object} {entity source : String} {identifier : String × Json}
    (h : identifierHolders holding record entity source identifier = .ok held) :
    ∀ entry ∈ held, ∀ x ∈ entry.2.records.keys, x = entity := by
  unfold identifierHolders at h
  split_ifs at h
  · obtain ⟨subject, _, h⟩ := Except.bind_eq_ok.1 h
    obtain ⟨raws, _, h⟩ := Except.bind_eq_ok.1 h
    obtain ⟨parts, hparts, h⟩ := Except.bind_eq_ok.1 h
    cases h
    intro entry hentry
    obtain ⟨raw, _, part, hpart, hmem⟩ := (Runs.mem_flatten_mapM hparts).1 hentry
    exact valueHolder_records hpart entry hmem
  · cases h
    intro entry hentry
    cases hentry

theorem recordHolders_records {holding : Holding} {caller : SortedMap String String} {record : Object}
    (h : recordHolders holding caller record = .ok held) :
    ∀ entry ∈ held, ∀ x ∈ entry.2.records.keys, ∃ subject, caller.get? subject = some x := by
  obtain ⟨subject, _, h⟩ := Except.bind_eq_ok.1 h
  cases hentity : caller.get? subject with
  | none =>
      simp only [hentity] at h
      cases h
      intro entry hentry
      cases hentry
  | some entity =>
      simp only [hentity] at h
      obtain ⟨source, _, h⟩ := Except.bind_eq_ok.1 h
      obtain ⟨identifiers, _, h⟩ := Except.bind_eq_ok.1 h
      obtain ⟨parts, hparts, h⟩ := Except.bind_eq_ok.1 h
      cases h
      intro entry hentry x hx
      obtain ⟨identifier, _, part, hpart, hmem⟩ := (Runs.mem_flatten_mapM hparts).1 hentry
      obtain rfl := identifierHolders_records hpart entry hmem x hx
      exact ⟨subject, hentity⟩

theorem planRecordMatches_holders {forms : TextForms} {test : RecordTest} {input : MatchInputs} {plan : MatchPlan}
    (h : planRecordMatches forms test input = .ok plan) (hnone : input.decisions = []) :
    ∀ holder ∈ plan.callerHolders, ∀ x ∈ holder.records.keys, ∃ subject, (subject, x) ∈ input.boundEntities.entries := by
  obtain ⟨book, _, h⟩ := Except.bind_eq_ok.1 h
  obtain ⟨records, _, h⟩ := Except.bind_eq_ok.1 h
  obtain ⟨decided, hdecided, h⟩ := Except.bind_eq_ok.1 h
  obtain ⟨applicable, _, h⟩ := Except.bind_eq_ok.1 h
  obtain ⟨kinds, _, h⟩ := Except.bind_eq_ok.1 h
  obtain ⟨parts, hparts, h⟩ := Except.bind_eq_ok.1 h
  rw [← Except.ok.inj h]
  intro holder hholder x hx
  obtain ⟨entry, hentry, rfl⟩ := List.mem_map.1 hholder
  obtain ⟨record, _, part, hpart, hmem⟩ := (Runs.mem_flatten_mapM hparts).1 hentry
  obtain ⟨subject, hsubject⟩ := recordHolders_records hpart entry hmem x hx
  rw [hnone, Runs.foldlM_nil_eq_ok] at hdecided
  rw [← hdecided] at hsubject
  exact ⟨subject, callerMasters_of_stored hsubject⟩

end EdgarPlatform.Matching
