import EdgarPlatform.Readings.Versions
import Mathlib.Data.List.Pairwise

/-!
# Records whatever the order readings arrive in

Readings are put in the order of their versions before they are folded, so the records do not depend on the order they arrive in, as long as one identity is of one reading: two readings that tie on everything the order is made of are folded as they arrived. What a fold refuses in readings that are each accepted alone is two assertions of one version.
-/

namespace EdgarPlatform.Readings

open Records (Json Object)

theorem readText_of_text? {body : Object} {name value : String} (h : (body.get? name).bind text? = some value) :
    Records.readText body name = .ok value := by
  rw [Records.readText]
  cases hget : body.get? name with
  | none =>
      rw [hget] at h
      cases h
  | some held =>
      rw [hget] at h
      cases held <;> cases h
      rfl

/-- What a reading has of its body. -/
structure ReadAs (body : Object) (reading : Reading) : Prop where
  assertion : Records.readText body "assertion_id" = .ok reading.assertionId
  subject : Records.readText body "subject" = .ok reading.subject
  source : Records.readText body "source_code" = .ok reading.sourceCode
  revision : body.get? "revision" = some reading.revision
  effective : optionalText? body "effective_at" = some reading.effectiveAt
  mapping : optionalValue body "mapping_version" = reading.mappingVersion

variable {reading : Reading}

theorem readReading_eq_ok {body : Object} (h : readReading body = .ok reading) : ReadAs body reading := by
  rw [readReading] at h
  cases hread : reading? body with
  | none =>
      rw [hread] at h
      cases h
  | some read =>
      rw [hread] at h
      cases h
      obtain ⟨assertionId, hassertion, hread⟩ := Option.bind_eq_some_iff.1 hread
      obtain ⟨subject, hsubject, hread⟩ := Option.bind_eq_some_iff.1 hread
      obtain ⟨sourceCode, hsource, hread⟩ := Option.bind_eq_some_iff.1 hread
      obtain ⟨recordKey, _, hread⟩ := Option.bind_eq_some_iff.1 hread
      obtain ⟨publicationKey, _, hread⟩ := Option.bind_eq_some_iff.1 hread
      obtain ⟨revision, hrevision, hread⟩ := Option.bind_eq_some_iff.1 hread
      obtain ⟨effectiveAt, heffective, hread⟩ := Option.bind_eq_some_iff.1 hread
      obtain ⟨kind, _, hread⟩ := Option.bind_eq_some_iff.1 hread
      obtain ⟨fields, _, hread⟩ := Option.bind_eq_some_iff.1 hread
      obtain ⟨identifiers, _, hread⟩ := Option.bind_eq_some_iff.1 hread
      obtain ⟨crossReferences, _, hread⟩ := Option.bind_eq_some_iff.1 hread
      obtain ⟨details, _, hread⟩ := Option.bind_eq_some_iff.1 hread
      obtain ⟨profiles, _, hread⟩ := Option.bind_eq_some_iff.1 hread
      obtain ⟨relationships, _, hread⟩ := Option.bind_eq_some_iff.1 hread
      rw [← Option.some.inj hread]
      exact ⟨readText_of_text? hassertion, readText_of_text? hsubject, readText_of_text? hsource, hrevision, heffective, rfl⟩

variable {env : Env}

theorem foldField_stateFree (metadata : Body) (entry : String × Json) : Runs.StateFree (foldField metadata) entry := by
  rintro s t ⟨s', h⟩
  obtain ⟨body, hbody, h⟩ := Except.bind_eq_ok.1 h
  rw [foldField, hbody, Except.bind_ok]
  cases hop : body.get? "op" with
  | none =>
      rw [hop] at h
      cases h
  | some raw =>
      rw [hop] at h
      obtain ⟨operation, hoperation, _⟩ := Except.bind_eq_ok.1 h
      exact ⟨_, Except.bind_eq_ok.2 ⟨operation, hoperation, rfl⟩⟩

theorem applyProfileChange_ok {metadata item : Body} {name operation : String} {values next : SortedMap String Body}
    (h : applyProfileChange metadata item name operation values = .ok next) (others : SortedMap String Body) :
    ∃ next', applyProfileChange metadata item name operation others = .ok next' := by
  rw [applyProfileChange] at h ⊢
  by_cases hunknown : operation = "unknown"
  · exact ⟨_, if_pos hunknown⟩
  · rw [if_neg hunknown] at h ⊢
    by_cases hretract : operation = "retract"
    · exact ⟨_, if_pos hretract⟩
    · rw [if_neg hretract] at h ⊢
      by_cases hset : operation = "value" ∨ operation = "clear"
      · rw [if_pos hset, Except.ite_error_eq_ok] at h
        exact ⟨_, by rw [if_pos hset, if_neg h.1]⟩
      · rw [if_neg hset] at h
        cases h

theorem foldProfileField_stateFree (metadata : Body) (entry : String × Json) :
    Runs.StateFree (foldProfileField metadata) entry := by
  rintro s t ⟨s', h⟩
  rw [foldProfileField] at h ⊢
  cases hop : (profileChange entry.2).get? "op" with
  | none =>
      rw [hop] at h
      cases h
  | some raw =>
      rw [hop] at h
      obtain ⟨operation, hoperation, h⟩ := Except.bind_eq_ok.1 h
      obtain ⟨next, hnext⟩ := applyProfileChange_ok h t
      exact ⟨next, Except.bind_eq_ok.2 ⟨operation, hoperation, hnext⟩⟩

theorem foldProfile_ok {metadata : Body} {before continuing next : ProfileFields} {raw : Json}
    (h : foldProfile env metadata before continuing raw = .ok next) (before' continuing' : ProfileFields) :
    ∃ next', foldProfile env metadata before' continuing' raw = .ok next' := by
  obtain ⟨profile, hprofile, h⟩ := Except.bind_eq_ok.1 h
  obtain ⟨key, hkey, h⟩ := Except.bind_eq_ok.1 h
  obtain ⟨changes, hchanges, h⟩ := Except.bind_eq_ok.1 h
  obtain ⟨values, hvalues, _⟩ := Except.bind_eq_ok.1 h
  obtain ⟨values', hvalues'⟩ := Runs.foldlM_stateFree (fun entry _ => foldProfileField_stateFree metadata entry) hvalues
    ((before'.get? key).getD .empty)
  refine ⟨continuing'.insert key values', ?_⟩
  rw [foldProfile, hprofile, Except.bind_ok, hkey, Except.bind_ok, hchanges, Except.bind_ok, hvalues', Except.bind_ok]

def Reading.Folds (env : Env) (reading : Reading) : Prop := ∃ next, foldReading env {} reading = .ok next

/-- The reading states a version another assertion was read by. -/
def Contradicts (state : Folding) (reading : Reading) : Prop :=
  ∃ assertion, state.seen.get? reading.versionKey = some assertion ∧ assertion ≠ reading.assertionId

variable {state : Folding}

theorem contradicts_iff :
    Contradicts state reading ↔ (state.seen.get? reading.versionKey).any (· ≠ reading.assertionId) = true := by
  rw [Contradicts]
  cases state.seen.get? reading.versionKey <;> simp

theorem foldReading_contradicts (h : Contradicts state reading) :
    foldReading env state reading = .error "Source native revision has contradictory publications" := by
  rw [foldReading, if_pos (contradicts_iff.1 h)]

theorem foldReading_seen {state next : Folding} (h : foldReading env state reading = .ok next) :
    ¬Contradicts state reading ∧ next.seen = state.seen.insert reading.versionKey reading.assertionId := by
  rw [foldReading, Except.ite_error_eq_ok] at h
  obtain ⟨hno, h⟩ := h
  obtain ⟨fields, _, h⟩ := Except.bind_eq_ok.1 h
  obtain ⟨profileFields, _, h⟩ := Except.bind_eq_ok.1 h
  refine ⟨fun hyes => hno (contradicts_iff.1 hyes), ?_⟩
  rw [← Except.ok.inj h]

theorem foldReading_ok (h : reading.Folds env) (hno : ¬Contradicts state reading) :
    ∃ next, foldReading env state reading = .ok next := by
  obtain ⟨next, h⟩ := h
  rw [foldReading, Except.ite_error_eq_ok] at h
  obtain ⟨fields, hfields, h⟩ := Except.bind_eq_ok.1 h.2
  obtain ⟨profileFields, hprofiles, _⟩ := Except.bind_eq_ok.1 h
  obtain ⟨fields', hfields'⟩ := Runs.foldlM_stateFree (fun entry _ => foldField_stateFree reading.metadata entry) hfields state.fields
  have hsteps : ∀ raw ∈ reading.profiles, ∀ continuing, ∃ next,
      foldProfile env reading.metadata state.profileFields continuing raw = .ok next := by
    intro raw hraw continuing
    obtain ⟨front, back, hsplit⟩ := List.append_of_mem hraw
    rw [hsplit] at hprofiles
    obtain ⟨_, _, _, hstep, _⟩ := Runs.run_split hprofiles
    exact foldProfile_ok hstep _ _
  obtain ⟨profileFields', hprofiles'⟩ := Runs.foldlM_ok_of_forall hsteps .empty
  rw [foldReading, if_neg fun hyes => hno (contradicts_iff.2 hyes), hfields', Except.bind_ok, hprofiles', Except.bind_ok]
  exact ⟨_, rfl⟩

def Opposed (reading other : Reading) : Prop :=
  reading.versionKey = other.versionKey ∧ reading.assertionId ≠ other.assertionId

theorem Opposed.symm {reading other : Reading} (h : Opposed reading other) : Opposed other reading :=
  ⟨h.1.symm, Ne.symm h.2⟩

variable {versions : List Reading}

/-- Readings that each fold alone fold together, unless two are opposed or one contradicts what was read before. -/
theorem foldReadings_ok_iff (h : ∀ reading ∈ versions, reading.Folds env) (state : Folding) :
    (∃ next, versions.foldlM (foldReading env) state = .ok next) ↔
      (∀ reading ∈ versions, ¬Contradicts state reading) ∧ versions.Pairwise fun a b => ¬Opposed a b := by
  induction versions generalizing state with
  | nil => simpa using ⟨state, rfl⟩
  | cons reading rest ih =>
      have hrest := ih fun other hother => h other (List.mem_cons_of_mem _ hother)
      -- What the rest may state once the reading is folded.
      have hafter : ∀ mid, foldReading env state reading = .ok mid → ∀ other,
          ¬Contradicts mid other ↔ ¬Opposed reading other ∧ (reading.versionKey = other.versionKey ∨ ¬Contradicts state other) := by
        intro mid hmid other
        rw [Contradicts, (foldReading_seen hmid).2, Contradicts, Opposed]
        by_cases hkey : other.versionKey = reading.versionKey
        · rw [hkey, SortedMap.get?_insert_self]
          simp
        · rw [SortedMap.get?_insert_of_ne _ _ hkey]
          simp [Ne.symm hkey]
      rw [List.forall_mem_cons, List.pairwise_cons]
      constructor
      · rintro ⟨next, hrun⟩
        obtain ⟨mid, hmid, hrun⟩ := Runs.foldlM_cons_eq_ok.1 hrun
        obtain ⟨hrun, hpairs⟩ := (hrest mid).1 ⟨next, hrun⟩
        have hno := (foldReading_seen hmid).1
        refine ⟨⟨hno, fun other hother hyes => ?_⟩, fun other hother => ((hafter mid hmid other).1 (hrun other hother)).1, hpairs⟩
        obtain ⟨hopposed, hkey | hother⟩ := (hafter mid hmid other).1 (hrun other hother)
        · obtain ⟨assertion, hget, hne⟩ := hyes
          have hsame : reading.assertionId = other.assertionId := not_not.1 fun hdiffer => hopposed ⟨hkey, hdiffer⟩
          exact hno ⟨assertion, by rw [hkey]; exact hget, by rw [hsame]; exact hne⟩
        · exact hother hyes
      · rintro ⟨⟨hno, hstate⟩, hopposed, hpairs⟩
        obtain ⟨mid, hmid⟩ := foldReading_ok (h reading (List.mem_cons_self ..)) hno
        obtain ⟨next, hrun⟩ := (hrest mid).2 ⟨fun other hother =>
          (hafter mid hmid other).2 ⟨hopposed other hother, .inr (hstate other hother)⟩, hpairs⟩
        exact ⟨next, Runs.foldlM_cons_eq_ok.2 ⟨mid, hmid, hrun⟩⟩

theorem foldReadings_error (h : ∀ reading ∈ versions, reading.Folds env)
    {e : String} (herror : versions.foldlM (foldReading env) state = .error e) :
    e = "Source native revision has contradictory publications" := by
  obtain ⟨_, reading, _, mid, hversions, _, herror⟩ := Runs.run_error herror
  have hreading : reading ∈ versions := hversions ▸ List.mem_append_right _ (List.mem_cons_self ..)
  by_cases hyes : Contradicts mid reading
  · rw [foldReading_contradicts hyes] at herror
    exact (Except.error.inj herror).symm
  · obtain ⟨next, hnext⟩ := foldReading_ok (h reading hreading) hyes
    rw [hnext] at herror
    cases herror

theorem currentRecord_ok_iff :
    (∃ record, currentRecord env versions = .ok record) ↔
      versions ≠ [] ∧ ∃ next, (Sorting.sortByKey Reading.order versions).foldlM (foldReading env) {} = .ok next := by
  constructor
  · rintro ⟨record, h⟩
    obtain ⟨newest, hnewest, _⟩ := currentRecord_newest h
    obtain ⟨next, hnext, _⟩ := Except.bind_eq_ok.1 h
    exact ⟨List.ne_nil_of_mem hnewest, next, hnext⟩
  · rintro ⟨hne, next, hnext⟩
    obtain ⟨reading, hreading⟩ : ∃ reading, (Sorting.sortByKey Reading.order versions).getLast? = some reading :=
      Sorting.getLast?_sortByKey_exists hne
    have hlast := foldReading_last hnext
    rw [hreading, Option.some_or] at hlast
    rw [currentRecord, hnext, Except.bind_ok, hlast]
    exact ⟨_, rfl⟩

/-- Readings of a record that each fold alone make a record, or are refused for two that are opposed. -/
theorem currentRecord_opposed (h : ∀ reading ∈ versions, reading.Folds env)
    (hne : versions ≠ []) :
    (∃ record, currentRecord env versions = .ok record) ∧ (¬∃ reading ∈ versions, ∃ other ∈ versions, Opposed reading other) ∨
      currentRecord env versions = .error "Source native revision has contradictory publications" ∧
        ∃ reading ∈ versions, ∃ other ∈ versions, Opposed reading other := by
  have hsorted : ∀ reading ∈ Sorting.sortByKey Reading.order versions, reading.Folds env :=
    fun reading hreading => h reading (Sorting.mem_sortByKey.1 hreading)
  have hpairs : (Sorting.sortByKey Reading.order versions).Pairwise (fun a b => ¬Opposed a b) ↔
      ¬∃ reading ∈ versions, ∃ other ∈ versions, Opposed reading other := by
    constructor
    · rintro hpairs ⟨reading, hreading, other, hother, hopposed⟩
      have : Std.Symm fun a b : Reading => ¬Opposed a b := ⟨fun _ _ h h' => h h'.symm⟩
      exact hpairs.forall_of_forall (fun _ _ h => h.2 rfl) (Sorting.mem_sortByKey.2 hreading) (Sorting.mem_sortByKey.2 hother)
        hopposed
    · intro hnone
      apply List.pairwise_iff_forall_sublist.2
      intro a b hsub hopposed
      have hmem := hsub.subset
      exact hnone ⟨a, Sorting.mem_sortByKey.1 (hmem (by simp)), b, Sorting.mem_sortByKey.1 (hmem (by simp)), hopposed⟩
  have hfold := foldReadings_ok_iff hsorted {}
  have hstart : ∀ reading ∈ Sorting.sortByKey Reading.order versions, ¬Contradicts {} reading := by
    rintro reading _ ⟨assertion, hget, _⟩
    cases hget
  cases hrun : (Sorting.sortByKey Reading.order versions).foldlM (foldReading env) {} with
  | ok next =>
      left
      exact ⟨currentRecord_ok_iff.2 ⟨hne, next, hrun⟩, hpairs.1 (hfold.1 ⟨next, hrun⟩).2⟩
  | error e =>
      right
      constructor
      · rw [currentRecord, hrun, foldReadings_error hsorted hrun]
        rfl
      · by_contra hnone
        obtain ⟨next, hnext⟩ := hfold.2 ⟨hstart, hpairs.2 hnone⟩
        rw [hrun] at hnext
        cases hnext

/-- A body is read as a reading that counts. -/
structure IsKept (env : Env) (asOf : String) (retired : List String) (body : Object) (reading : Reading) : Prop where
  read : readReading body = .ok reading
  counts : ∃ clock, readTime env asOf = .ok clock ∧ reading.counts env clock retired = .ok true

/-- Two kept readings of a record share their version but not their assertion. -/
def Contradictory (env : Env) (readings : List Object) (asOf : String) (retired : List String) : Prop :=
  ∃ body ∈ readings, ∃ other ∈ readings, ∃ reading reading', IsKept env asOf retired body reading ∧
    IsKept env asOf retired other reading' ∧ reading.subject = reading'.subject ∧ Opposed reading reading'

/-- Kept readings of a record that tie on version, publication and assertion are one reading. -/
def TiesAgree (env : Env) (readings : List Object) (asOf : String) (retired : List String) : Prop :=
  ∀ body ∈ readings, ∀ other ∈ readings, ∀ reading reading', IsKept env asOf retired body reading →
    IsKept env asOf retired other reading' → reading.subject = reading'.subject → reading.order = reading'.order →
      reading = reading'

def AcceptedAlone (env : Env) (readings : List Object) (asOf : String) (retired : List String) : Prop :=
  ∀ body ∈ readings, ∃ records, prepareCurrentRecords env [body] asOf retired = .ok records

variable {asOf : String} {retired : List String} {clock : Int}

theorem groupReading_ok {counted : Bool} (h : reading.counts env clock retired = .ok counted)
    (groups : Groups) : ∃ next, groupReading env clock retired groups reading = .ok next := by
  rw [groupReading, h]
  exact ⟨_, rfl⟩

theorem groupReadings_ok {readings : List Reading}
    (h : ∀ reading ∈ readings, ∃ counted, reading.counts env clock retired = .ok counted) :
    ∃ groups, readings.foldlM (groupReading env clock retired) .empty = .ok groups := by
  apply Runs.foldlM_ok_of_forall
  intro reading hreading groups
  obtain ⟨counted, hcounted⟩ := h reading hreading
  exact groupReading_ok hcounted groups

theorem groupReading_counts {readings : List Reading} {groups : Groups}
    (h : readings.foldlM (groupReading env clock retired) .empty = .ok groups) :
    ∀ reading ∈ readings, ∃ counted, reading.counts env clock retired = .ok counted := by
  intro reading hreading
  obtain ⟨front, back, rfl⟩ := List.append_of_mem hreading
  obtain ⟨_, _, _, hstep, _⟩ := Runs.run_split h
  obtain ⟨counted, hcounted, _⟩ := Except.bind_eq_ok.1 hstep
  exact ⟨counted, hcounted⟩

variable {readings : List Object}

/-- What readings that are accepted alone are: each is read, told to count or not, and folded where it counts. -/
theorem AcceptedAlone.reads (h : AcceptedAlone env readings asOf retired) {clock : Int}
    (hclock : readTime env asOf = .ok clock) : ∀ body ∈ readings, ∃ reading counted, readReading body = .ok reading ∧
      reading.counts env clock retired = .ok counted ∧ (counted = true → reading.Folds env) := by
  intro body hbody
  obtain ⟨records, hrecords⟩ := h body hbody
  obtain ⟨read, hread, hrecords⟩ := Except.bind_eq_ok.1 hrecords
  obtain ⟨clock', hclock', hrecords⟩ := Except.bind_eq_ok.1 hrecords
  obtain ⟨groups, hgroups, hvalues⟩ := Except.bind_eq_ok.1 hrecords
  cases hclock.symm.trans hclock'
  obtain ⟨reading, hreading, rfl⟩ : ∃ reading, readReading body = .ok reading ∧ read = [reading] := by
    obtain ⟨reading, rest, hreading, hrest, rfl⟩ := List.forall₂_cons_left_iff.1 (Runs.mapM_eq_ok.1 hread)
    exact ⟨reading, hreading, by rw [List.forall₂_nil_left_iff.1 hrest]⟩
  obtain ⟨counted, hcounted⟩ := groupReading_counts hgroups reading (List.mem_singleton.2 rfl)
  refine ⟨reading, counted, hreading, hcounted, fun htrue => ?_⟩
  subst htrue
  have hcountedOf : countedOf env clock retired [reading] reading.subject = [reading] := by
    rw [countedOf, List.filter_cons_of_pos, List.filter_nil]
    simp [hcounted]
  have hget := groups_get? hgroups reading.subject
  rw [hcountedOf, if_neg (List.cons_ne_nil _ _)] at hget
  obtain ⟨record, hrecord⟩ := SortedMap.mapValuesM_ok_of_get? hvalues hget
  obtain ⟨_, next, hnext⟩ := currentRecord_ok_iff.1 ⟨record, hrecord⟩
  obtain ⟨mid, hmid, _⟩ := Runs.foldlM_cons_eq_ok.1 hnext
  exact ⟨mid, hmid⟩

theorem AcceptedAlone.groups {readings : List Object} (h : AcceptedAlone env readings asOf retired)
    (hclock : readTime env asOf = .ok clock) : ∃ read groups, readings.mapM readReading = .ok read ∧
      read.foldlM (groupReading env clock retired) .empty = .ok groups ∧
      ∀ subject versions, groups.get? subject = some versions →
        versions = countedOf env clock retired read subject ∧ versions ≠ [] ∧ ∀ reading ∈ versions, reading.Folds env := by
  have hreads := h.reads hclock
  obtain ⟨read, hread⟩ := Runs.mapM_ok_of_forall fun body hbody => (hreads body hbody).imp fun _ h => h.choose_spec.1
  have hfolds : ∀ reading ∈ read, ∃ counted, reading.counts env clock retired = .ok counted ∧
      (counted = true → reading.Folds env) := by
    intro reading hreading
    obtain ⟨body, hbody, hbodyRead⟩ := Runs.forall₂_exists_left (Runs.mapM_eq_ok.1 hread) hreading
    obtain ⟨reading', counted, hreading', hcounted, hfolded⟩ := hreads body hbody
    cases hbodyRead.symm.trans hreading'
    exact ⟨counted, hcounted, hfolded⟩
  obtain ⟨groups, hgroups⟩ := groupReadings_ok fun reading hreading => (hfolds reading hreading).imp fun _ h => h.1
  refine ⟨read, groups, hread, hgroups, fun subject versions hget => ?_⟩
  rw [groups_get? hgroups] at hget
  obtain ⟨hempty, hversions⟩ := Option.ite_none_left_eq_some.1 hget
  cases hversions
  refine ⟨rfl, hempty, fun reading hreading => ?_⟩
  obtain ⟨hmem, _, hcounts⟩ := mem_countedOf.1 hreading
  obtain ⟨counted, hcounted, hfolded⟩ := hfolds reading hmem
  exact hfolded (Except.ok.inj (hcounted.symm.trans hcounts))

theorem prepareCurrentRecords_contradictory (h : AcceptedAlone env readings asOf retired) :
    prepareCurrentRecords env readings asOf retired = .error "Source native revision has contradictory publications" ↔
      Contradictory env readings asOf retired := by
  cases hclock : readTime env asOf with
  | error e =>
      have hnone : ¬Contradictory env readings asOf retired := by
        rintro ⟨_, _, _, _, _, _, hkept, _⟩
        obtain ⟨_, hclock', _⟩ := hkept.counts
        cases hclock.symm.trans hclock'
      refine iff_of_false (fun hrefused => ?_) hnone
      have hempty : readings = [] := by
        refine List.eq_nil_iff_forall_not_mem.2 fun body hbody => ?_
        obtain ⟨records, hrecords⟩ := h body hbody
        obtain ⟨_, _, hrecords⟩ := Except.bind_eq_ok.1 hrecords
        obtain ⟨_, hclock', _⟩ := Except.bind_eq_ok.1 hrecords
        cases hclock.symm.trans hclock'
      subst hempty
      have he : e = "Effective time must include a timezone" := by
        rw [readTime] at hclock
        cases hinstant : env.instant (String.ofList (withT 10 asOf.toList)) with
        | none =>
            rw [hinstant] at hclock
            exact (Except.error.inj hclock).symm
        | some time =>
            rw [hinstant] at hclock
            cases hclock
      rw [prepareCurrentRecords, List.mapM_nil, hclock, he] at hrefused
      exact absurd (Except.error.inj hrefused) (by decide)
  | ok clock =>
      obtain ⟨read, groups, hread, hgroups, hgroup⟩ := h.groups hclock
      have hpairs := Runs.mapM_eq_ok.1 hread
      rw [prepareCurrentRecords, hread, Except.bind_ok, hclock, Except.bind_ok, hgroups, Except.bind_ok]
      constructor
      · intro hrefused
        obtain ⟨subject, versions, hget, hrefused⟩ := SortedMap.mapValuesM_error hrefused
        obtain ⟨rfl, hne, hversions⟩ := hgroup subject versions hget
        obtain ⟨⟨record, hrecord⟩, _⟩ | ⟨_, reading, hreading, other, hother, hopposed⟩ := currentRecord_opposed hversions hne
        · cases hrecord.symm.trans hrefused
        · obtain ⟨hmem, hsubject, hcounts⟩ := mem_countedOf.1 hreading
          obtain ⟨hmem', hsubject', hcounts'⟩ := mem_countedOf.1 hother
          obtain ⟨body, hbody, hbodyRead⟩ := Runs.forall₂_exists_left hpairs hmem
          obtain ⟨body', hbody', hbodyRead'⟩ := Runs.forall₂_exists_left hpairs hmem'
          exact ⟨body, hbody, body', hbody', reading, other, ⟨hbodyRead, clock, hclock, hcounts⟩,
            ⟨hbodyRead', clock, hclock, hcounts'⟩, hsubject.trans hsubject'.symm, hopposed⟩
      · rintro ⟨body, hbody, body', hbody', reading, reading', hkept, hkept', hsubject, hopposed⟩
        obtain ⟨clock', hclock', hcounts⟩ := hkept.counts
        cases hclock.symm.trans hclock'
        obtain ⟨clock', hclock', hcounts'⟩ := hkept'.counts
        cases hclock.symm.trans hclock'
        obtain ⟨own, hmem, hown⟩ := Runs.forall₂_exists_right hpairs hbody
        cases hkept.read.symm.trans hown
        obtain ⟨own, hmem', hown⟩ := Runs.forall₂_exists_right hpairs hbody'
        cases hkept'.read.symm.trans hown
        have hcounted := mem_countedOf.2 ⟨hmem, rfl, hcounts⟩
        have hcounted' := mem_countedOf.2 ⟨hmem', hsubject.symm, hcounts'⟩
        have hget := groups_get? hgroups reading.subject
        rw [if_neg (List.ne_nil_of_mem hcounted)] at hget
        obtain ⟨_, hne, hversions⟩ := hgroup _ _ hget
        obtain ⟨_, hnone⟩ | ⟨hrefused, _⟩ := currentRecord_opposed hversions hne
        · exact absurd ⟨reading, hcounted, reading', hcounted', hopposed⟩ hnone
        · cases hvalues : groups.mapValuesM fun _ versions => currentRecord env versions with
          | ok records =>
              obtain ⟨record, hrecord⟩ := SortedMap.mapValuesM_ok_of_get? hvalues hget
              cases hrefused.symm.trans hrecord
          | error e =>
              -- Every group that fails fails for this.
              obtain ⟨subject, versions, hget, herror⟩ := SortedMap.mapValuesM_error hvalues
              obtain ⟨_, hne, hversions⟩ := hgroup subject versions hget
              obtain ⟨⟨record, hrecord⟩, _⟩ | ⟨hsame, _⟩ := currentRecord_opposed hversions hne
              · cases hrecord.symm.trans herror
              · rw [Except.error.inj (herror.symm.trans hsame)]

theorem prepareCurrentRecords_perm {readings others : List Object} (hperm : readings.Perm others)
    (hties : TiesAgree env readings asOf retired) {records : SortedMap String CurrentRecord}
    (h : prepareCurrentRecords env readings asOf retired = .ok records) :
    prepareCurrentRecords env others asOf retired = .ok records := by
  obtain ⟨read, hread, h⟩ := Except.bind_eq_ok.1 h
  obtain ⟨clock, hclock, h⟩ := Except.bind_eq_ok.1 h
  obtain ⟨groups, hgroups, hrecords⟩ := Except.bind_eq_ok.1 h
  obtain ⟨read', hread', hreadPerm⟩ := Runs.mapM_perm hperm hread
  obtain ⟨groups', hgroups'⟩ := groupReadings_ok fun reading hreading =>
    groupReading_counts hgroups reading (hreadPerm.mem_iff.2 hreading)
  have hcounted : ∀ subject, (countedOf env clock retired read subject).Perm (countedOf env clock retired read' subject) :=
    fun subject => hreadPerm.filter _
  have hsame : ∀ subject, currentRecord env (countedOf env clock retired read subject) =
      currentRecord env (countedOf env clock retired read' subject) := by
    intro subject
    have hsorted : (Sorting.sortByKey Reading.order (countedOf env clock retired read subject)).map id =
        (Sorting.sortByKey Reading.order (countedOf env clock retired read' subject)).map id :=
      Sorting.sortByKey_map_eq Reading.order ((hcounted subject).map id) (fun _ _ => rfl) (fun _ _ => rfl) ?_
    · simp only [List.map_id] at hsorted
      rw [currentRecord, currentRecord, hsorted]
    · intro a ha b hb horder
      rw [List.map_id] at ha hb
      obtain ⟨hmem, hsubject, hcounts⟩ := mem_countedOf.1 ha
      obtain ⟨hmem', hsubject', hcounts'⟩ := mem_countedOf.1 hb
      obtain ⟨body, hbody, hbodyRead⟩ := Runs.forall₂_exists_left (Runs.mapM_eq_ok.1 hread) hmem
      obtain ⟨body', hbody', hbodyRead'⟩ := Runs.forall₂_exists_left (Runs.mapM_eq_ok.1 hread) hmem'
      exact hties body hbody body' hbody' a b ⟨hbodyRead, clock, hclock, hcounts⟩ ⟨hbodyRead', clock, hclock, hcounts'⟩
        (hsubject.trans hsubject'.symm) horder
  have hget : ∀ subject versions, groups'.get? subject = some versions ↔
      groups.get? subject = some (countedOf env clock retired read subject) ∧
        versions = countedOf env clock retired read' subject := by
    intro subject versions
    have hempty : countedOf env clock retired read' subject = [] ↔ countedOf env clock retired read subject = [] := by
      rw [← List.length_eq_zero_iff, ← (hcounted subject).length_eq, List.length_eq_zero_iff]
    rw [groups_get? hgroups, groups_get? hgroups']
    by_cases hnil : countedOf env clock retired read subject = []
    · rw [if_pos (hempty.2 hnil), if_pos hnil]
      simp
    · rw [if_neg fun h => hnil (hempty.1 h), if_neg hnil]
      simp [eq_comm]
  obtain ⟨records', hrecords'⟩ := SortedMap.mapValuesM_ok_of_forall (f := fun _ versions => currentRecord env versions)
    (m := groups') fun subject versions hversions => by
      obtain ⟨hgroup, rfl⟩ := (hget subject versions).1 hversions
      rw [← hsame]
      exact SortedMap.mapValuesM_ok_of_get? hrecords hgroup
  have hequal : records' = records := by
    refine SortedMap.ext_get? fun subject => Option.ext fun record => ?_
    rw [SortedMap.get?_mapValuesM hrecords', SortedMap.get?_mapValuesM hrecords]
    constructor
    · rintro ⟨versions, hversions, hrecord⟩
      obtain ⟨hgroup, rfl⟩ := (hget subject versions).1 hversions
      exact ⟨_, hgroup, by rw [hsame]; exact hrecord⟩
    · rintro ⟨versions, hversions, hrecord⟩
      have hversions' := groups_get? hgroups subject
      rw [hversions] at hversions'
      obtain ⟨hnil, hversions'⟩ := Option.ite_none_left_eq_some.1 hversions'.symm
      cases hversions'
      exact ⟨_, (hget subject _).2 ⟨hversions, rfl⟩, by rw [← hsame]; exact hrecord⟩
  rw [prepareCurrentRecords, hread', Except.bind_ok, hclock, Except.bind_ok, hgroups', Except.bind_ok, hrecords', hequal]

theorem TiesAgree.perm {readings others : List Object} (h : TiesAgree env readings asOf retired) (hperm : readings.Perm others) :
    TiesAgree env others asOf retired :=
  fun body hbody other hother => h body (hperm.mem_iff.2 hbody) other (hperm.mem_iff.2 hother)

theorem tiesAgree_of_assertions
    (h : ∀ body ∈ readings, ∀ other ∈ readings,
      Records.readText body "assertion_id" = Records.readText other "assertion_id" → body = other) :
    TiesAgree env readings asOf retired := by
  intro body hbody other hother reading reading' hkept hkept' _ horder
  have hassertion : reading.assertionId = reading'.assertionId :=
    congrArg (fun order : Version ×ₗ (String ×ₗ String) => (ofLex (ofLex order).2).2) horder
  have hsame := h body hbody other hother (by
    rw [(readReading_eq_ok hkept.read).assertion, (readReading_eq_ok hkept'.read).assertion, hassertion])
  subst hsame
  exact Except.ok.inj (hkept.read.symm.trans hkept'.read)

variable (env asOf retired) in
/-- Records are the same whatever order readings arrive in where ties agree, and only a contradiction refuses readings that are each accepted alone. -/
theorem current_records_arrival (readings : List Object) :
    (TiesAgree env readings asOf retired → ∀ others, readings.Perm others → ∀ records,
      prepareCurrentRecords env readings asOf retired = .ok records ↔
        prepareCurrentRecords env others asOf retired = .ok records) ∧
      (AcceptedAlone env readings asOf retired →
        (prepareCurrentRecords env readings asOf retired =
            .error "Source native revision has contradictory publications" ↔
          Contradictory env readings asOf retired)) := by
  refine ⟨fun hties others hperm records => ⟨prepareCurrentRecords_perm hperm hties, ?_⟩, prepareCurrentRecords_contradictory⟩
  exact prepareCurrentRecords_perm hperm.symm (hties.perm hperm)

def plainEnv : Env where
  instant raw := if raw = "2026-01-01T00:00:00+00:00" then some 0 else none
  digest := id

def amountReading (id revision amount : String) : Object :=
  .ofList [("assertion_id", .str id), ("subject", .str "s"), ("source_code", .str "example"), ("record_key", .str "r"),
    ("publication_key", .str "p"), ("revision", .num revision), ("kind", .str "record"),
    ("fields", .obj [("amount", .obj [("op", .str "value"), ("value", .num amount)])]),
    ("identifiers", .obj []), ("profiles", .arr []), ("relationships", .arr [])]

def amountOf (records : SortedMap String CurrentRecord) : Option Json :=
  (records.get? "s").bind fun record => (record.fields.get? "amount").bind (·.get? "value")

def amountIs (amount : String) (records : SortedMap String CurrentRecord) : Bool := amountOf records = some (.num amount)

/-- Two revisions make one record in both orders, and no contradiction. -/
theorem current_records_arrival_revisions :
    (∃ records, prepareCurrentRecords plainEnv [amountReading "a" "1" "5", amountReading "b" "2" "6"]
        "2026-01-01T00:00:00+00:00" [] = .ok records ∧
      prepareCurrentRecords plainEnv [amountReading "b" "2" "6", amountReading "a" "1" "5"]
        "2026-01-01T00:00:00+00:00" [] = .ok records ∧ amountIs "6" records = true) ∧
      ¬Contradictory plainEnv [amountReading "a" "1" "5", amountReading "b" "2" "6"] "2026-01-01T00:00:00+00:00" [] := by
  obtain ⟨horder, hcontradictory⟩ := current_records_arrival plainEnv "2026-01-01T00:00:00+00:00" []
    [amountReading "a" "1" "5", amountReading "b" "2" "6"]
  obtain ⟨records, hrecords, hamount⟩ : ∃ records, prepareCurrentRecords plainEnv
      [amountReading "a" "1" "5", amountReading "b" "2" "6"] "2026-01-01T00:00:00+00:00" [] = .ok records ∧
        amountIs "6" records = true := Except.exists_of_any (by decide +kernel)
  have hties : TiesAgree plainEnv [amountReading "a" "1" "5", amountReading "b" "2" "6"] "2026-01-01T00:00:00+00:00" [] := by
    apply tiesAgree_of_assertions
    decide +kernel
  have halone : AcceptedAlone plainEnv [amountReading "a" "1" "5", amountReading "b" "2" "6"]
      "2026-01-01T00:00:00+00:00" [] := by
    intro body hbody
    have haccepted : ∀ body ∈ [amountReading "a" "1" "5", amountReading "b" "2" "6"],
        (prepareCurrentRecords plainEnv [body] "2026-01-01T00:00:00+00:00" []).toOption.any (fun _ => true) = true := by
      decide +kernel
    obtain ⟨records, hrecords, _⟩ := Except.exists_of_any (haccepted body hbody)
    exact ⟨records, hrecords⟩
  refine ⟨⟨records, hrecords, (horder hties _ (List.Perm.swap ..) records).1 hrecords, hamount⟩, fun hyes => ?_⟩
  rw [(hcontradictory halone).2 hyes] at hrecords
  cases hrecords

/-- Two readings of one assertion that differ make the record of the one that comes last. -/
theorem tied_readings_in_arrival_order :
    ¬∀ (env : Env) (readings others : List Object) (asOf : String) (retired : List String), readings.Perm others →
      ∀ records, prepareCurrentRecords env readings asOf retired = .ok records →
        prepareCurrentRecords env others asOf retired = .ok records := by
  intro h
  obtain ⟨records, hrecords, hsix⟩ : ∃ records, prepareCurrentRecords plainEnv
      [amountReading "a" "1" "5", amountReading "a" "1" "6"] "2026-01-01T00:00:00+00:00" [] = .ok records ∧
        amountIs "6" records = true := Except.exists_of_any (by decide +kernel)
  obtain ⟨records', hrecords', hfive⟩ : ∃ records, prepareCurrentRecords plainEnv
      [amountReading "a" "1" "6", amountReading "a" "1" "5"] "2026-01-01T00:00:00+00:00" [] = .ok records ∧
        amountIs "5" records = true := Except.exists_of_any (by decide +kernel)
  cases hrecords'.symm.trans (h _ _ _ _ _ (List.Perm.swap ..) records hrecords)
  exact absurd ((of_decide_eq_true hsix).symm.trans (of_decide_eq_true hfive)) (by decide)

end EdgarPlatform.Readings
