import EdgarPlatform.Relationships.Finish

/-!
# What gathered relationships carry

A relationship keeps the body it was first added with, but for the day it was last seen. Each of its periods states its start: a period reported without one starts when its record was seen, and a sighting has its day.
-/

namespace EdgarPlatform.Relationships

open Records (Calendar Env Json Object readText hasValue hasContent readOptionalValue valuesMatch)

theorem hasValue_insert_of_ne (body : Object) {key field : String} (value : Json) (h : field ≠ key) :
    hasValue (body.insert key value) field = hasValue body field := by
  unfold hasValue
  rw [IndexMap.get?_insert_of_ne _ _ h]

theorem hasValue_iff {body : Object} {field : String} :
    hasValue body field = true ↔ ∃ value, body.get? field = some value ∧ hasContent value = true := by
  unfold hasValue
  cases body.get? field <;> simp

theorem readText_eq_ok {body : Object} {field value : String} :
    readText body field = .ok value ↔ body.get? field = some (.str value) := by
  unfold readText
  split <;> simp_all

theorem readText_insert_of_ne (body : Object) {key field : String} (value : Json) (h : field ≠ key) :
    readText (body.insert key value) field = readText body field := by
  unfold readText
  rw [IndexMap.get?_insert_of_ne _ _ h]

/-- The body of a relationship of a key. -/
structure Described (key : String) (body : Object) : Prop where
  derived : body.get? "derived" = some (.bool false)
  id : readText body "relationship_id" = .ok key
  kind : ∃ kind, readText body "type" = .ok kind
  source : ∃ source, readText body "source_id" = .ok source
  target : ∃ target, readText body "target_id" = .ok target
  scope : ∃ scope, body.get? "scope" = some scope

structure EdgeOf (key : String) (edge : Relationship) : Prop where
  described : Described key edge.body
  dated : ∀ period ∈ edge.periods, hasValue period "valid_from" = true
  sighted : ∀ sightings, edge.sightings = some sightings → ∀ s ∈ sightings, hasValue s "on" = true

def EdgesOf (edges : Edges) : Prop := ∀ key edge, edges.get? key = some edge → EdgeOf key edge

theorem EdgesOf.empty : EdgesOf .empty := fun _ _ h => by cases h

theorem EdgesOf.insert {edges : Edges} {key : String} {edge : Relationship} (h : EdgesOf edges) (hedge : EdgeOf key edge) :
    EdgesOf (edges.insert key edge) := by
  intro other e hget
  rw [IndexMap.get?_insert] at hget
  split_ifs at hget with heq
  · cases hget
    exact heq ▸ hedge
  · exact h other e hget

theorem EdgesOf.of_mem {edges : Edges} (h : EdgesOf edges) {entry : String × Relationship} (hentry : entry ∈ edges.entries) :
    EdgeOf entry.1 entry.2 := h entry.1 entry.2 (IndexMap.get?_eq_some_iff.2 hentry)

theorem Described.insert {key field : String} {body : Object} {value : Json} (h : Described key body)
    (hfield : field ∉ ["derived", "relationship_id", "type", "source_id", "target_id", "scope"]) :
    Described key (body.insert field value) := by
  simp only [List.mem_cons, List.not_mem_nil, or_false, not_or] at hfield
  obtain ⟨hderived, hid, hkind, hsource, htarget, hscope⟩ := hfield
  constructor
  · rw [IndexMap.get?_insert_of_ne _ _ (Ne.symm hderived)]
    exact h.derived
  · rw [readText_insert_of_ne _ _ (Ne.symm hid)]
    exact h.id
  · simp only [readText_insert_of_ne _ _ (Ne.symm hkind)]
    exact h.kind
  · simp only [readText_insert_of_ne _ _ (Ne.symm hsource)]
    exact h.source
  · simp only [readText_insert_of_ne _ _ (Ne.symm htarget)]
    exact h.target
  · simp only [IndexMap.get?_insert_of_ne _ _ (Ne.symm hscope)]
    exact h.scope

theorem moveStart_get? (anyBasis : Bool) (period stored : Object) (key : String) :
    (moveStart anyBasis period stored).get? key =
      if key = "valid_from" ∨ anyBasis = true ∧ key = "valid_from_basis" then (period.get? key).or (stored.get? key)
      else stored.get? key := by
  have hcopy : ∀ (body : Object) (field : String), (copyField period body field).get? key =
      if key = field then (period.get? key).or (body.get? key) else body.get? key := by
    intro body field
    unfold copyField
    by_cases hkey : key = field
    · subst hkey
      cases hget : period.get? key <;> simp
    · cases hget : period.get? field <;> simp [IndexMap.get?_insert, hkey]
  unfold moveStart
  cases anyBasis
  · simp [hcopy]
  · simp only [if_true, List.foldl_cons, List.foldl_nil, hcopy]
    by_cases hfrom : key = "valid_from"
    · subst hfrom
      simp
    · by_cases hbasis : key = "valid_from_basis" <;> simp [hfrom, hbasis]

variable {calendar : Calendar}

variable {period : Object}

theorem keepEarlierStart_eq_ok {anyBasis : Bool} {periods kept : List Object}
    (h : keepEarlierStart calendar period anyBasis periods = .ok (some kept)) :
    ∃ front stored back, periods = front ++ stored :: back ∧
      (kept = periods ∨ kept = front ++ moveStart anyBasis period stored :: back ∧
        (anyBasis = true ∨ isText stored "valid_from_basis" "observed" = true) ∧
        ∃ start own, readAt calendar period "valid_from" firstTime = .ok start ∧
          readAt calendar stored "valid_from" firstTime = .ok own ∧ start < own) := by
  induction periods generalizing kept with
  | nil => cases h
  | cons stored rest ih =>
      unfold keepEarlierStart at h
      split_ifs at h with hmatch
      · obtain ⟨start, hstart, h⟩ := Except.bind_eq_ok.1 h
        obtain ⟨own, hown, h⟩ := Except.bind_eq_ok.1 h
        cases h
        refine ⟨[], stored, rest, rfl, ?_⟩
        split_ifs with hlt
        · exact .inr ⟨rfl, hmatch.1, start, own, hstart, hown, hlt⟩
        · exact .inl rfl
      · obtain ⟨found, hfound, h⟩ := Except.bind_eq_ok.1 h
        obtain ⟨kept', rfl, rfl⟩ : ∃ kept', found = some kept' ∧ stored :: kept' = kept := by
          simpa [Option.map_eq_some_iff] using h
        obtain ⟨front, own, back, rfl, hkept⟩ := ih hfound
        refine ⟨stored :: front, own, back, rfl, ?_⟩
        rcases hkept with rfl | ⟨rfl, hmoved⟩
        · exact .inl rfl
        · exact .inr ⟨rfl, hmoved⟩

theorem hasValue_moveStart {anyBasis : Bool} {period stored : Object} (h : hasValue period "valid_from" = true) :
    hasValue (moveStart anyBasis period stored) "valid_from" = true := by
  obtain ⟨value, hget, hcontent⟩ := hasValue_iff.1 h
  refine hasValue_iff.2 ⟨value, ?_, hcontent⟩
  rw [moveStart_get?, if_pos (.inl rfl), hget]
  rfl

theorem keepEarlierStart_dated {anyBasis : Bool} {periods kept : List Object}
    (h : keepEarlierStart calendar period anyBasis periods = .ok (some kept)) (hperiod : hasValue period "valid_from" = true)
    (hperiods : ∀ p ∈ periods, hasValue p "valid_from" = true) : ∀ p ∈ kept, hasValue p "valid_from" = true := by
  obtain ⟨front, stored, back, rfl, rfl | ⟨rfl, _⟩⟩ := keepEarlierStart_eq_ok h
  · exact hperiods
  · intro p hp
    rcases List.mem_append.1 hp with hp | hp
    · exact hperiods p (by simp [hp])
    · rcases List.mem_cons.1 hp with rfl | hp
      · exact hasValue_moveStart hperiod
      · exact hperiods p (by simp [hp])

theorem addPeriod_dated {rules : TypeRules} {periods added : List Object}
    (h : addPeriod calendar rules periods period = .ok added) (hperiod : hasValue period "valid_from" = true)
    (hperiods : ∀ p ∈ periods, hasValue p "valid_from" = true) : ∀ p ∈ added, hasValue p "valid_from" = true := by
  have hboth : ∀ p ∈ periods ++ [period], hasValue p "valid_from" = true := by
    intro p hp
    rcases List.mem_append.1 hp with hp | hp
    · exact hperiods p hp
    · rwa [List.mem_singleton.1 hp]
  unfold addPeriod at h
  split_ifs at h with hstart hsame
  · obtain ⟨kept, hkept, h⟩ := Except.bind_eq_ok.1 h
    cases h
    cases kept with
    | none => exact hboth
    | some kept => exact keepEarlierStart_dated hkept hperiod hperiods
  · cases h
    exact hperiods
  · cases h
    exact hboth

/-- Every period made so far, and the one that goes on, states its start. -/
structure Combining.Dated (found : Combining) : Prop where
  periods : ∀ p ∈ found.periods, hasValue p "valid_from" = true
  current : ∀ p, found.current = some p → hasValue p "valid_from" = true

theorem mem_changeLast {α : Type} {change : α → α} {items : List α} {a : α} (h : a ∈ changeLast change items) :
    a ∈ items ∨ ∃ last ∈ items, a = change last := by
  induction items with
  | nil => simp [changeLast] at h
  | cons first rest ih =>
      cases rest with
      | nil => exact .inr ⟨first, by simp, List.mem_singleton.1 h⟩
      | cons second rest =>
          rcases List.mem_cons.1 h with rfl | h
          · exact .inl (by simp)
          · rcases ih h with hmem | ⟨last, hlast, heq⟩
            · exact .inl (List.mem_cons_of_mem _ hmem)
            · exact .inr ⟨last, List.mem_cons_of_mem _ hlast, heq⟩

variable {s : Sighting} {basis : String}

theorem hasValue_withEnd (h : hasValue period "valid_from" = true) :
    hasValue (withEnd s basis period) "valid_from" = true := by
  unfold withEnd
  rwa [hasValue_insert_of_ne _ _ (by decide), hasValue_insert_of_ne _ _ (by decide)]

theorem endPeriod_dated {found : Combining} {ended : List Object}
    (h : endPeriod calendar found s basis = .ok ended) (hdated : found.Dated) :
    ∀ p ∈ ended, hasValue p "valid_from" = true := by
  unfold endPeriod at h
  split at h
  · next period hcurrent =>
      obtain ⟨start, _, h⟩ := Except.bind_eq_ok.1 h
      cases h
      split_ifs
      · intro p hp
        rcases List.mem_append.1 hp with hp | hp
        · exact hdated.periods p hp
        · rw [List.mem_singleton.1 hp]
          exact hasValue_withEnd (hdated.current period hcurrent)
      · exact hdated.periods
  · split_ifs at h <;> cases h
    · intro p hp
      rcases mem_changeLast hp with hp | ⟨last, hlast, rfl⟩
      · exact hdated.periods p hp
      · exact hasValue_withEnd (hdated.periods last hlast)
    · exact hdated.periods

theorem goOn_dated {found next : Combining}
    (h : goOn found s basis period = .ok next) (hperiods : ∀ p ∈ found.periods, hasValue p "valid_from" = true)
    (hperiod : hasValue period "valid_from" = true) : next.Dated := by
  obtain ⟨titled, htitled, h⟩ := Except.bind_eq_ok.1 h
  cases h
  refine ⟨hperiods, fun p hp => ?_⟩
  cases hp
  simp only [addTitle, Except.bind_eq_ok] at htitled
  obtain ⟨raw, _, titles, _, htitled⟩ := htitled
  cases htitled
  rw [hasValue_insert_of_ne _ _ (by decide)]
  split_ifs
  · rwa [hasValue_insert_of_ne _ _ (by decide)]
  · exact hperiod

theorem hasValue_beginPeriod (h : hasValue s.body "on" = true) :
    hasValue (beginPeriod s basis) "valid_from" = true := by
  obtain ⟨value, hget, hcontent⟩ := hasValue_iff.1 h
  refine hasValue_iff.2 ⟨value, ?_, hcontent⟩
  rw [beginPeriod, IndexMap.get?_ofList_eq (by simp only [List.map_cons, List.map_nil]; decide)]
  simp [IndexMap.lookupEntry, readOptionalValue, hget]

theorem combineSighting_dated {stated : List Int} {found next : Combining}
    (h : combineSighting calendar stated found s = .ok next) (hdated : found.Dated)
    (hon : hasValue s.body "on" = true) : next.Dated := by
  obtain ⟨basis, _, h⟩ := Except.bind_eq_ok.1 h
  split_ifs at h
  · cases h
    exact hdated
  · obtain ⟨ended, hended, h⟩ := Except.bind_eq_ok.1 h
    cases h
    exact ⟨endPeriod_dated hended hdated, fun p hp => by cases hp⟩
  · unfold observe at h
    split at h
    · next period _ hcurrent => exact goOn_dated h hdated.periods (hdated.current _ hcurrent)
    · split_ifs at h
      · obtain ⟨raw, _, h⟩ := Except.bind_eq_ok.1 h
        obtain ⟨time, _, h⟩ := Except.bind_eq_ok.1 h
        cases h
        split_ifs
        · exact ⟨hdated.periods, hdated.current⟩
        · exact hdated
      · exact goOn_dated h hdated.periods (hasValue_beginPeriod hon)
    · exact goOn_dated h hdated.periods (hasValue_beginPeriod hon)

theorem combinePeriods_dated {sightings periods contradictions : List Object}
    (h : combinePeriods calendar sightings = .ok (periods, contradictions))
    (hon : ∀ s ∈ sightings, hasValue s "on" = true) : ∀ p ∈ periods, hasValue p "valid_from" = true := by
  obtain ⟨read, hread, h⟩ := Except.bind_eq_ok.1 h
  obtain ⟨found, hrun, h⟩ := Except.bind_eq_ok.1 h
  cases h
  have hbodies : ∀ s ∈ read, hasValue s.body "on" = true := by
    intro s hs
    obtain ⟨body, hbody, hsighting⟩ := Runs.mapM_exists_of_mem hread hs
    simp only [readSighting, Except.bind_eq_ok] at hsighting
    obtain ⟨time, _, basis, _, order, _, hsighting⟩ := hsighting
    cases hsighting
    exact hon body hbody
  have hdated : found.Dated := by
    refine Runs.run_invariant (fun _ mid => mid.Dated) hrun ⟨by simp [Combining.start], by simp [Combining.start]⟩ ?_
    intro front s back mid next hsplit hmid hstep
    refine combineSighting_dated hstep hmid (hbodies s ?_)
    have hmem : s ∈ Sorting.sortByKey Sighting.key read := by simp [hsplit]
    exact Sorting.mem_sortByKey.1 hmem
  intro p hp
  rcases List.mem_append.1 hp with hp | hp
  · exact hdated.periods p hp
  · exact hdated.current p (by simpa using hp)

theorem hasValue_withStart {period next : Object} {seen : Option Json} {context : List (String × Json)}
    (h : withStart period seen context = .ok next) : hasValue next "valid_from" = true := by
  unfold withStart at h
  split_ifs at h with hstart hbasis
  · cases h
    exact hstart
  · cases h
    rwa [hasValue_insert_of_ne _ _ (by decide)]
  · obtain ⟨value, hvalue, h⟩ := Except.bind_eq_ok.1 h
    cases h
    cases hseen : seen.filter hasContent with
    | none =>
        rw [hseen] at hvalue
        cases hvalue
    | some shown =>
        rw [hseen] at hvalue
        cases hvalue
        rw [hasValue_insert_of_ne _ _ (by decide)]
        exact hasValue_iff.2 ⟨value, by simp, (Option.filter_eq_some_iff.1 hseen).2⟩

theorem readPeriod_dated {reported period : Object} {seen : Option Json}
    {context : List (String × Json)} (h : readPeriod calendar reported seen context = .ok period) :
    hasValue period "valid_from" = true := by
  simp only [readPeriod, Except.bind_eq_ok] at h
  obtain ⟨_, _, started, hstarted, bounds, _, _, _, h⟩ := h
  cases h
  have hstart := hasValue_withStart hstarted
  unfold withEndBasis
  split_ifs
  · rwa [hasValue_insert_of_ne _ _ (by decide)]
  · exact hstart

variable {rules : IndexMap String TypeRules}

variable {command : Command} {record reported : Object}

theorem examine_eq_ok {env : Env} {subject : String}
    {a : Accepted} (h : examine env command rules subject record reported = .ok a) :
    a.sighting = hasValue reported "on" ∧ (a.sighting = false → hasValue a.period "valid_from" = true) := by
  obtain ⟨start, _, h⟩ := Except.bind_eq_ok.1 h
  obtain ⟨declared, _, h⟩ := Except.bind_eq_ok.1 h
  obtain ⟨ends, _, h⟩ := Except.bind_eq_ok.1 h
  obtain ⟨records, _, h⟩ := Except.bind_eq_ok.1 h
  obtain ⟨sourceMeta, _, h⟩ := Except.bind_eq_ok.1 h
  obtain ⟨period, hperiod, h⟩ := Except.bind_eq_ok.1 h
  obtain ⟨_, _, h⟩ := Except.bind_eq_ok.1 h
  obtain ⟨_, _, h⟩ := Except.bind_eq_ok.1 h
  cases h
  refine ⟨rfl, fun hsighting => ?_⟩
  have hsighting' : hasValue reported "on" = false := hsighting
  rw [reportedPeriod, if_neg (by simp [hsighting'])] at hperiod
  exact readPeriod_dated hperiod

theorem newRelationship_edgeOf (key : String) (reported : Object) (a : Accepted) :
    EdgeOf key (newRelationship key reported a) := by
  have hget : ∀ field, (newRelationship key reported a).body.get? field = IndexMap.lookupEntry field
      (identityFields reported a ++ [("derived", .bool false), ("relationship_id", .str key), ("last_seen", .null)]) := by
    intro field
    refine IndexMap.get?_ofList_eq ?_ field
    unfold identityFields
    split_ifs <;> (simp only [List.map_append, List.map_cons, List.map_nil]; decide)
  have htext : ∀ field value, (newRelationship key reported a).body.get? field = some (.str value) →
      readText (newRelationship key reported a).body field = .ok value := by
    intro field value h
    unfold readText
    rw [h]
  have hcapacity : ∀ field, field ≠ "capacity" → (newRelationship key reported a).body.get? field =
      IndexMap.lookupEntry field [("type", .str a.kind), ("source_id", .str a.sourceId), ("target_id", .str a.targetId),
        ("scope", (reported.get? "scope").getD (.str "")), ("derived", .bool false), ("relationship_id", .str key),
        ("last_seen", .null)] := by
    intro field hfield
    rw [hget, identityFields, IndexMap.lookupEntry_append, IndexMap.lookupEntry_append]
    have hnone : IndexMap.lookupEntry field (if hasValue reported "capacity" = true then
        [("capacity", readOptionalValue reported "capacity")] else []) = none := by
      split_ifs
      · rw [IndexMap.lookupEntry, if_neg (Ne.symm hfield)]
        rfl
      · rfl
    rw [hnone, Option.or_none, ← IndexMap.lookupEntry_append]
    rfl
  refine ⟨⟨?_, ?_, ⟨a.kind, ?_⟩, ⟨a.sourceId, ?_⟩, ⟨a.targetId, ?_⟩,
    ⟨(reported.get? "scope").getD (.str ""), ?_⟩⟩, by simp [newRelationship],
    by simp [newRelationship]⟩
  · rw [hcapacity _ (by decide)]
    simp [IndexMap.lookupEntry]
  · refine htext _ _ ?_
    rw [hcapacity _ (by decide)]
    simp [IndexMap.lookupEntry]
  · refine htext _ _ ?_
    rw [hcapacity _ (by decide)]
    simp [IndexMap.lookupEntry]
  · refine htext _ _ ?_
    rw [hcapacity _ (by decide)]
    simp [IndexMap.lookupEntry]
  · refine htext _ _ ?_
    rw [hcapacity _ (by decide)]
    simp [IndexMap.lookupEntry]
  · rw [hcapacity _ (by decide)]
    simp [IndexMap.lookupEntry]

theorem seeLater_described {key : String} {body next : Object} {seen : Option Json}
    (h : seeLater calendar body seen = .ok next) (hbody : Described key body) : Described key next := by
  unfold seeLater at h
  split at h
  · cases h
    exact hbody
  · simp only [Except.bind_eq_ok] at h
    obtain ⟨raw, _, time, _, h⟩ := h
    split_ifs at h
    · obtain ⟨last, _, h⟩ := Except.bind_eq_ok.1 h
      cases h
      split_ifs
      · exact hbody.insert (by decide)
      · exact hbody
    · cases h
      exact hbody.insert (by decide)

theorem addTo_edgeOf {env : Env} {subject key : String} {a : Accepted}
    {edge next : Relationship} (h : addTo env subject record reported a edge = .ok next)
    (hsighting : a.sighting = hasValue reported "on")
    (hperiod : a.sighting = false → hasValue a.period "valid_from" = true) (hedge : EdgeOf key edge) :
    EdgeOf key next := by
  unfold addTo at h
  split_ifs at h with hsights
  · obtain ⟨sighting, hbody, h⟩ := Except.bind_eq_ok.1 h
    cases h
    refine ⟨hedge.described, hedge.dated, fun sightings hsome s hs => ?_⟩
    cases hsome
    rcases List.mem_append.1 hs with hold | hnew
    · cases hprior : edge.sightings with
      | none => simp [hprior] at hold
      | some prior =>
          rw [hprior] at hold
          exact hedge.sighted prior hprior s hold
    · obtain rfl := List.mem_singleton.1 hnew
      obtain ⟨basis, _, hbody⟩ := Except.bind_eq_ok.1 hbody
      cases hbody
      obtain ⟨value, hget, hcontent⟩ := hasValue_iff.1 (hsighting.symm.trans hsights)
      refine hasValue_iff.2 ⟨value, ?_, hcontent⟩
      rw [IndexMap.get?_ofList_eq (by simp only [List.map_cons, List.map_nil]; decide)]
      simp [IndexMap.lookupEntry, readOptionalValue, hget]
  · obtain ⟨periods, hperiods, h⟩ := Except.bind_eq_ok.1 h
    cases h
    exact ⟨hedge.described, addPeriod_dated hperiods (hperiod (by simpa using hsights)) hedge.dated, hedge.sighted⟩

theorem addReported_edgesOf {env : Env} {subject : String}
    {a : Accepted} {edges next : Edges}
    (hexamined : examine env command rules subject record reported = .ok a)
    (h : addReported env subject record reported a edges = .ok next) (hedges : EdgesOf edges) : EdgesOf next := by
  obtain ⟨hsighting, hperiod⟩ := examine_eq_ok hexamined
  simp only [addReported, Except.bind_eq_ok] at h
  obtain ⟨edge, hedge, body, hbody, h⟩ := h
  cases h
  have hprior : EdgeOf (relationshipKey env reported a) ((edges.get? (relationshipKey env reported a)).getD
      (newRelationship (relationshipKey env reported a) reported a)) := by
    cases hget : edges.get? (relationshipKey env reported a) with
    | none => exact newRelationship_edgeOf _ _ _
    | some edge => exact hedges _ edge hget
  have hadded := addTo_edgeOf hedge hsighting hperiod hprior
  exact hedges.insert ⟨seeLater_described hbody hadded.described, hadded.dated, hadded.sighted⟩

theorem gatherClaims_edgesOf {env : Env} {found : Gathered}
    (h : gatherClaims env command rules = .ok found) : EdgesOf found.edges := by
  refine Runs.run_invariant (fun _ mid => EdgesOf mid.edges) h .empty ?_
  intro _ entry _ mid next _ hmid hstep
  obtain ⟨reported, _, hstep⟩ := Except.bind_eq_ok.1 hstep
  refine Runs.run_invariant (fun _ mid => EdgesOf mid.edges) hstep hmid ?_
  intro _ raw _ mid next _ hmid hstep
  obtain ⟨body, _, hstep⟩ := Except.bind_eq_ok.1 hstep
  split at hstep
  · cases hstep
  · cases hstep
    exact hmid
  · next a hexamined =>
      obtain ⟨edges, hedges, hstep⟩ := Except.bind_eq_ok.1 hstep
      cases hstep
      exact addReported_edgesOf hexamined hedges hmid

theorem combineSightings_edgesOf {found next : Gathered}
    (h : combineSightings calendar found = .ok next) (hfound : EdgesOf found.edges) : EdgesOf next.edges := by
  refine Runs.run_invariant (fun _ mid => EdgesOf mid.edges) h .empty ?_
  intro front entry back mid next hsplit hmid hstep
  have hentry : EdgeOf entry.1 entry.2 := hfound.of_mem (by simp [hsplit])
  unfold combineEdge at hstep
  split at hstep
  · cases hstep
    exact hmid.insert hentry
  · next sightings hsightings =>
      obtain ⟨⟨periods, contradictions⟩, hcombined, hstep⟩ := Except.bind_eq_ok.1 hstep
      obtain ⟨reviews, _, hstep⟩ := Except.bind_eq_ok.1 hstep
      cases hstep
      split_ifs
      · exact hmid
      · exact hmid.insert ⟨hentry.described, combinePeriods_dated hcombined (hentry.sighted sightings hsightings), by simp⟩

theorem cutPeriod_dated {key : String} {body period : Object} {succession : Succession}
    {found next : List Object × List Object} (h : cutPeriod calendar key body succession found period = .ok next)
    (hfound : ∀ p ∈ found.1, hasValue p "valid_from" = true) (hperiod : hasValue period "valid_from" = true) :
    ∀ p ∈ next.1, hasValue p "valid_from" = true := by
  obtain ⟨bounds, _, h⟩ := Except.bind_eq_ok.1 h
  split_ifs at h
  · obtain ⟨ends, _, h⟩ := Except.bind_eq_ok.1 h
    cases h
    exact hfound
  · cases h
    intro p hp
    rcases List.mem_append.1 hp with hp | hp
    · exact hfound p hp
    · rw [List.mem_singleton.1 hp, hasValue_insert_of_ne _ _ (by decide), hasValue_insert_of_ne _ _ (by decide),
        hasValue_insert_of_ne _ _ (by decide)]
      exact hperiod
  · cases h
    intro p hp
    rcases List.mem_append.1 hp with hp | hp
    · exact hfound p hp
    · rwa [List.mem_singleton.1 hp]

theorem cutAtEnd_dated {ceased : Ceased} {key side : String} {body : Object}
    {found next : List Object × List Object} (h : cutAtEnd calendar ceased key body found side = .ok next)
    (hfound : ∀ p ∈ found.1, hasValue p "valid_from" = true) : ∀ p ∈ next.1, hasValue p "valid_from" = true := by
  obtain ⟨endpoint, _, h⟩ := Except.bind_eq_ok.1 h
  split at h
  · cases h
    exact hfound
  · obtain ⟨seenAfter, _, h⟩ := Except.bind_eq_ok.1 h
    split_ifs at h
    · cases h
      exact hfound
    · refine Runs.run_invariant (fun _ mid => ∀ p ∈ mid.1, hasValue p "valid_from" = true) h (by simp) ?_
      intro _ period _ mid next hsplit hmid hstep
      exact cutPeriod_dated hstep hmid (hfound period (by simp [hsplit]))

theorem finishAtSuccession_edgesOf {found next : Gathered}
    (h : finishAtSuccession calendar rules found = .ok next) (hfound : EdgesOf found.edges) : EdgesOf next.edges := by
  obtain ⟨ceased, _, h⟩ := Except.bind_eq_ok.1 h
  refine Runs.run_invariant (fun _ mid => EdgesOf mid.edges) h .empty ?_
  intro front entry back mid next hsplit hmid hstep
  have hentry : EdgeOf entry.1 entry.2 := hfound.of_mem (by simp [hsplit])
  obtain ⟨kind, _, hstep⟩ := Except.bind_eq_ok.1 hstep
  split_ifs at hstep
  · obtain ⟨⟨periods, reviews⟩, hcut, hstep⟩ := Except.bind_eq_ok.1 hstep
    cases hstep
    split_ifs
    · exact hmid
    · refine hmid.insert ⟨hentry.described, ?_, hentry.sighted⟩
      refine Runs.run_invariant (fun _ mid => ∀ p ∈ mid.1, hasValue p "valid_from" = true) hcut hentry.dated ?_
      intro _ side _ mid next _ hmid hstep
      exact cutAtEnd_dated hstep hmid
  · cases hstep
    exact hmid.insert hentry

theorem gather_edgesOf {env : Env} {found : Gathered}
    (h : gather env command rules = .ok found) : EdgesOf found.edges := by
  obtain ⟨claimed, hclaimed, h⟩ := Except.bind_eq_ok.1 h
  obtain ⟨combined, hcombined, h⟩ := Except.bind_eq_ok.1 h
  exact finishAtSuccession_edgesOf h (combineSightings_edgesOf hcombined (gatherClaims_edgesOf hclaimed))

end EdgarPlatform.Relationships
