import EdgarPlatform.Lookups.Derived

/-!
# Runs of the index of source records

Readings arrive over any number of calls, in any order. Each call is given what is stored of the subjects it touches, and its changes are applied to the store. After every call the store holds the entries of each record's newest reading, with what the last call that touched the record calculates of it.
-/

namespace EdgarPlatform.Lookups

open Records (Json Object readText readObject readOptionalValue readObjectText writeSortedJson same_normal)
open Matching (TextForms Contracts)
open Readings (Version readRevision mappingVersion)

variable (forms : TextForms) (digest : String → String)

def storedRecord (store : Store) (subject : String) : Option Object := (store.get? (recordKey subject)).bind readObjectText

/-- The numbers of a call's readings are written as numbers are. -/
structure ValidInputs (input : RecordInputs) : Prop where
  readings : ∀ reading ∈ input.readings, Object.Valid reading
  occurrences : ∀ id occurrence, input.occurrences.get? id = some occurrence → Object.Valid occurrence

/-- What a call is given: JSON, and what is stored of the subjects it touches. -/
structure Supplied (store : Store) (input : RecordInputs) : Prop where
  valid : ValidInputs input
  previous : ∀ subject ∈ input.subjects, input.previous.get? subject = storedRecord store subject

/-- One call, and the store once its changes are applied. -/
structure RecordStep (store : Store) (input : RecordInputs) (next : Store) : Prop where
  supplied : Supplied store input
  result : ∃ records changes, prepareRecordLookups forms digest input = .ok (records, changes) ∧
    next = applyEntries store changes

inductive RecordRun : List RecordInputs → Store → Prop
  | start : RecordRun [] .empty
  | call {inputs : List RecordInputs} {store : Store} {input : RecordInputs} {next : Store} (hrun : RecordRun inputs store)
      (hstep : RecordStep forms digest store input next) : RecordRun (inputs ++ [input]) next

def seenReadings (inputs : List RecordInputs) (subject : String) : List Object :=
  inputs.flatMap fun input => readingsOf input.readings subject

def lastCall (inputs : List RecordInputs) (subject : String) : Option RecordInputs :=
  (inputs.filter fun input => subject ∈ input.subjects).getLast?

/-- The record of a reading that a call supplied, with what another calculates of it. -/
def directRecord (last supplier : RecordInputs) (subject : String) (reading : Object) : Except String Object := do
  let id ← readText reading "assertion_id"
  let record ← recordOf supplier.batchId supplier.occurrences reading id
  let contracts ← Matching.prepareIdentifierRules last.policy
  deriveRecord forms contracts (digest (routesText last.candidateRoutes)) (.ofList [(id, reading)]) last subject record

/-- The reading is one of the greatest version, and no other assertion of its record is of that version. -/
structure Newest (readings : List Object) (reading : Object) : Prop where
  mem : reading ∈ readings
  greatest : ∃ version, readRevision reading = .ok version ∧ ∀ other ∈ readings, AtMost reading version other

/-- A subject's record is the one collected directly from its newest reading. -/
def Collected (inputs : List RecordInputs) (subject : String) (record : Object) : Prop :=
  ∃ last supplier reading, lastCall inputs subject = some last ∧ supplier ∈ inputs ∧
    reading ∈ readingsOf supplier.readings subject ∧ Newest (seenReadings inputs subject) reading ∧
    directRecord forms digest last supplier subject reading = .ok record

/-- Readings of one assertion have the same contents: an assertion's id is its content's hash. -/
def AssertionsNameReadings (inputs : List RecordInputs) : Prop :=
  ∀ input ∈ inputs, ∀ other ∈ inputs, ∀ reading ∈ input.readings, ∀ reading' ∈ other.readings, ∀ id,
    readText reading "assertion_id" = .ok id → readText reading' "assertion_id" = .ok id → Object.Same reading reading'

def DigestsNameRoutes (inputs : List RecordInputs) : Prop :=
  ∀ input ∈ inputs, ∀ other ∈ inputs, digest (routesText input.candidateRoutes) = digest (routesText other.candidateRoutes) →
    input.candidateRoutes = other.candidateRoutes

/-- What the store holds of a subject after some calls: nothing if none of its readings came, else the entries of its
newest reading's record. -/
inductive Holds (inputs : List RecordInputs) (store : Store) (subject : String) : Prop
  | unseen (hseen : seenReadings inputs subject = []) (hstore : ∀ key : Key, (ofLex key).2 = subject → store.get? key = none)
  | seen {record : Object} {entries : List (Key × String)} (hrecord : Collected forms digest inputs subject record)
      (hvalid : Object.Valid record) (hentries : recordEntries subject record = .ok entries)
      (hstore : ∀ key : Key, (ofLex key).2 = subject → store.get? key = (SortedMap.ofList entries).get? key)

theorem readRevision_normal {body : Object} {version : Version} (hvalid : Object.Valid body)
    (h : readRevision body = .ok version) : readRevision (Object.normal body) = .ok version := by
  have hnum : ∀ value : Json, value.Valid → Readings.allDigits (Readings.rawText value) = true → value.normal = value := by
    intro value hvalue hdigits
    obtain ⟨text, rfl, _⟩ := Readings.isInteger_of_allDigits hvalue hdigits
    rfl
  have hmapping : (mappingVersion body).Valid := by
    rw [mappingVersion]
    cases hget : body.get? "mapping_version" with
    | none => exact .num (by decide)
    | some value => exact hvalid _ _ hget
  obtain ⟨⟨hrevision, hmappingDigits⟩, _⟩ := Readings.readRevision_eq_ok.1 h
  have hsameRevision : readOptionalValue (Object.normal body) "revision" = readOptionalValue body "revision" := by
    have hown := hnum _ (hvalid.readOptionalValue "revision") hrevision
    rw [readOptionalValue] at hown ⊢
    rw [Records.get?_normal, readOptionalValue]
    cases hget : body.get? "revision" with
    | none => rfl
    | some value =>
        rw [hget] at hown
        exact hown
  have hsameMapping : mappingVersion (Object.normal body) = mappingVersion body := by
    have hown := hnum _ hmapping hmappingDigits
    rw [mappingVersion] at hown
    rw [mappingVersion, mappingVersion, Records.get?_normal]
    cases hget : body.get? "mapping_version" with
    | none => rfl
    | some value =>
        rw [hget] at hown
        exact hown
  rw [← h, readRevision, readRevision, hsameRevision, hsameMapping]

theorem lookupType_ne_recordType (name : String) (keys : List String) : lookupType name keys ≠ recordType := by
  intro h
  have hhead := congrArg (fun text : String => text.toList.head?) h
  simp [lookupType, recordType] at hhead

theorem not_mem_recordGroups {record : Object} {groups : List String} (h : recordGroups record = .ok groups) :
    recordType ∉ groups := by
  obtain ⟨members, hmembers, h⟩ := Except.bind_eq_ok.1 h
  obtain ⟨identifiers, _, h⟩ := Except.bind_eq_ok.1 h
  obtain ⟨byIdentifier, hbyIdentifier, h⟩ := Except.bind_eq_ok.1 h
  obtain ⟨references, _, h⟩ := Except.bind_eq_ok.1 h
  obtain ⟨byReference, hbyReference, h⟩ := Except.bind_eq_ok.1 h
  obtain ⟨names, _, h⟩ := Except.bind_eq_ok.1 h
  obtain ⟨byName, hbyName, h⟩ := Except.bind_eq_ok.1 h
  rw [← Except.ok.inj h]
  simp only [List.mem_append, Runs.mem_flatten_mapM hbyIdentifier, Runs.mem_flatten_mapM hbyReference,
    Runs.mem_flatten_mapM hbyName]
  rintro (((hmem | ⟨entry, _, part, hpart, hmem⟩) | ⟨entry, _, part, hpart, hmem⟩) | ⟨entry, _, part, hpart, hmem⟩)
  · rw [memberGroups] at hmembers
    split_ifs at hmembers
    · obtain ⟨entity, _, hmembers⟩ := Except.bind_eq_ok.1 hmembers
      rw [← Except.ok.inj hmembers, List.mem_singleton] at hmem
      exact lookupType_ne_recordType _ _ hmem.symm
    · rw [← Except.ok.inj hmembers] at hmem
      cases hmem
  · obtain ⟨values, _, hpart⟩ := Except.bind_eq_ok.1 hpart
    obtain ⟨value, _, hgroup⟩ := Runs.mapM_exists_of_mem hpart hmem
    obtain ⟨source, _, hgroup⟩ := Except.bind_eq_ok.1 hgroup
    exact lookupType_ne_recordType _ _ (Except.ok.inj hgroup)
  · rw [crossReferenceGroups] at hpart
    split_ifs at hpart
    · rw [← Except.ok.inj hpart] at hmem
      cases hmem
    · obtain ⟨value, _, hpart⟩ := Except.bind_eq_ok.1 hpart
      rw [← Except.ok.inj hpart, List.mem_singleton] at hmem
      exact lookupType_ne_recordType _ _ hmem.symm
  · obtain ⟨source, _, hpart⟩ := Except.bind_eq_ok.1 hpart
    obtain ⟨value, _, hpart⟩ := Except.bind_eq_ok.1 hpart
    rw [← Except.ok.inj hpart, List.mem_singleton] at hmem
    exact lookupType_ne_recordType _ _ hmem.symm

theorem recordEntries_text {subject : String} {record : Object} {entries : List (Key × String)}
    (h : recordEntries subject record = .ok entries) :
    (SortedMap.ofList entries).get? (recordKey subject) = some (writeSortedJson (Object.toJson record)) := by
  obtain ⟨groups, hgroups, hget⟩ := recordEntries_get? h
  have hnot : ¬((ofLex (recordKey subject)).1 ∈ groups ∧ (ofLex (recordKey subject)).2 = subject) :=
    fun hmem => not_mem_recordGroups hgroups hmem.1
  rw [hget, if_neg hnot, if_pos rfl]

theorem storedRecord_of_entries {store : Store} {subject : String} {record : Object} {entries : List (Key × String)}
    (hvalid : Object.Valid record) (hentries : recordEntries subject record = .ok entries)
    (hstore : store.get? (recordKey subject) = (SortedMap.ofList entries).get? (recordKey subject)) :
    storedRecord store subject = some (Object.normal record) := by
  rw [storedRecord, hstore, recordEntries_text hentries, Option.bind_some]
  exact Records.readObjectText_writeSortedJson hvalid

theorem recordOf_valid {batchId id : String} {occurrences : SortedMap String Object} {reading record : Object}
    (hreading : Object.Valid reading) (hoccurrences : ∀ id occurrence, occurrences.get? id = some occurrence → Object.Valid occurrence)
    (h : recordOf batchId occurrences reading id = .ok record) : Object.Valid record := by
  obtain ⟨references, hreferences, h⟩ := Except.bind_eq_ok.1 h
  have hbronze : (bronzeOf occurrences id).Valid := by
    rw [bronzeOf]
    cases hget : occurrences.get? id with
    | none => exact .null
    | some occurrence =>
        refine .obj fun field hfield => ?_
        obtain ⟨name, _, rfl⟩ := List.mem_map.1 hfield
        exact (hoccurrences id occurrence hget).readOptionalValue name
  have hmapping : (mappingVersion reading).Valid := by
    rw [mappingVersion]
    cases hget : reading.get? "mapping_version" with
    | none => exact .num (by decide)
    | some value => exact hreading _ _ hget
  rw [← Except.ok.inj h]
  refine .ofList fun entry hentry => ?_
  rw [recordFields, List.mem_append] at hentry
  obtain hentry | hentry := hentry
  · obtain ⟨name, _, rfl⟩ := List.mem_map.1 hentry
    exact hreading.readOptionalValue name
  · simp only [List.mem_cons, List.not_mem_nil, or_false] at hentry
    obtain rfl | rfl | rfl | rfl := hentry
    · exact hmapping
    · exact Object.toJson_valid (hreading.readObject hreferences)
    · exact .str _
    · exact hbronze

theorem optionalText_valid (value : Option String) : (optionalText value).Valid := by
  cases value with
  | none => exact .null
  | some text => exact .str text

theorem readCandidateKeys_valid (reading : Object) (routes : Routes) : Object.Valid (readCandidateKeys reading routes) := by
  refine .ofList fun entry hentry => ?_
  obtain ⟨route, _, hroute⟩ := List.mem_filterMap.1 hentry
  obtain ⟨key, _, rfl⟩ := Option.map_eq_some_iff.1 hroute
  exact .str key

theorem writeIdentifierValues_valid (values : List String) (like : Json) :
    (Matching.writeIdentifierValues values like).Valid := by
  have htexts : (Json.arr (values.map .str)).Valid := by
    refine .arr fun item hitem => ?_
    obtain ⟨text, _, rfl⟩ := List.mem_map.1 hitem
    exact .str text
  unfold Matching.writeIdentifierValues
  split
  · exact .str _
  · exact htexts

variable {input : RecordInputs}

theorem deriveRecord_valid {contracts : Contracts} {sha : String} {available : SortedMap String Object}
    {subject : String} {record derived : Object} (hrecord : Object.Valid record)
    (h : deriveRecord forms contracts sha available input subject record = .ok derived) : Object.Valid derived := by
  obtain ⟨routed, hrouted, h⟩ := Except.bind_eq_ok.1 h
  obtain ⟨normalized, hnormalized, h⟩ := Except.bind_eq_ok.1 h
  have hroutedValid : Object.Valid routed := by
    obtain ⟨latestId, _, hrouted⟩ := Except.bind_eq_ok.1 hrouted
    cases hget : available.get? latestId with
    | none =>
        rw [hget] at hrouted
        dsimp only at hrouted
        split_ifs at hrouted
        exact Except.ok.inj hrouted ▸ hrecord
    | some reading =>
        rw [hget] at hrouted
        rw [← Except.ok.inj hrouted]
        exact (hrecord.insert (Object.toJson_valid (readCandidateKeys_valid reading _))).insert (.str _)
  have hnormalizedValid : Object.Valid normalized := by
    obtain ⟨identifiers, _, hnormalized⟩ := Except.bind_eq_ok.1 hnormalized
    obtain ⟨parts, hparts, hnormalized⟩ := Except.bind_eq_ok.1 hnormalized
    rw [← Except.ok.inj hnormalized]
    refine .ofList fun entry hentry => ?_
    obtain ⟨item, _, part, hpart, hmem⟩ := (Runs.mem_flatten_mapM hparts).1 hentry
    obtain ⟨values, _, hpart⟩ := Except.bind_eq_ok.1 hpart
    obtain ⟨found, _, hpart⟩ := Except.bind_eq_ok.1 hpart
    rw [← Except.ok.inj hpart] at hmem
    split_ifs at hmem
    · cases hmem
    · rw [List.mem_singleton.1 hmem]
      exact writeIdentifierValues_valid _ _
  rw [← Except.ok.inj h]
  exact ((hroutedValid.insert (optionalText_valid _)).insert (optionalText_valid _)).insert (Object.toJson_valid hnormalizedValid)

/-- A record collected directly, taken apart. -/
structure Direct (last supplier : RecordInputs) (subject : String) (reading record base : Object) (id : String)
    (contracts : Contracts) : Prop where
  hid : readText reading "assertion_id" = .ok id
  hbase : recordOf supplier.batchId supplier.occurrences reading id = .ok base
  hcontracts : Matching.prepareIdentifierRules last.policy = .ok contracts
  hderived : deriveRecord forms contracts (digest (routesText last.candidateRoutes)) (.ofList [(id, reading)]) last subject
    base = .ok record

variable {forms digest} {last supplier : RecordInputs} {subject : String} {reading record : Object}

theorem directRecord_eq_ok : directRecord forms digest last supplier subject reading = .ok record ↔
    ∃ base id contracts, Direct forms digest last supplier subject reading record base id contracts := by
  rw [directRecord]
  simp only [Except.bind_eq_ok]
  constructor
  · rintro ⟨id, hid, base, hbase, contracts, hcontracts, hderived⟩
    exact ⟨base, id, contracts, hid, hbase, hcontracts, hderived⟩
  · rintro ⟨base, id, contracts, hid, hbase, hcontracts, hderived⟩
    exact ⟨id, hid, base, hbase, contracts, hcontracts, hderived⟩

namespace Direct

variable {base : Object} {id : String} {contracts : Contracts}

theorem base_sameReading (h : Direct forms digest last supplier subject reading record base id contracts) :
    SameReading base reading := recordOf_sameReading h.hbase h.hid

theorem sameReading (h : Direct forms digest last supplier subject reading record base id contracts) :
    SameReading record reading := by
  have hderived := deriveRecord_sameReading h.hderived
  have hbase := h.base_sameReading
  exact ⟨hderived.revision.trans hbase.revision, hderived.mapping.trans hbase.mapping, hderived.assertion.trans hbase.assertion⟩

theorem sameBut (h : Direct forms digest last supplier subject reading record base id contracts) :
    Object.SameBut derivedFields record base := by
  intro name hname
  rw [deriveRecord_get? h.hderived hname]

theorem keys (h : Direct forms digest last supplier subject reading record base id contracts) :
    record.get? "matching_keys" = some (Object.toJson (readCandidateKeys reading last.candidateRoutes)) ∧
      readText record "matching_routes_sha256" = .ok (digest (routesText last.candidateRoutes)) := by
  obtain ⟨routed, hrouted, hderived⟩ := Except.bind_eq_ok.1 h.hderived
  obtain ⟨normalized, _, hderived⟩ := Except.bind_eq_ok.1 hderived
  obtain ⟨latestId, hlatestId, hrouted⟩ := Except.bind_eq_ok.1 hrouted
  have hlatest : latestId = id :=
    Except.ok.inj (hlatestId.symm.trans (h.base_sameReading.assertion.trans h.hid))
  have hown : (SortedMap.ofList [(id, reading)]).get? latestId = some reading := by
    rw [SortedMap.get?_ofList, hlatest]
    simp [IndexMap.lookupEntry]
  rw [hown] at hrouted
  have hget : ∀ name, name ∉ ["entity_id", "quarantined_id", "normalized_identifiers"] →
      record.get? name = routed.get? name := by
    intro name hname
    simp only [List.mem_cons, List.not_mem_nil, or_false, not_or] at hname
    rw [← Except.ok.inj hderived, bindRecord, IndexMap.get?_insert_of_ne _ _ hname.2.2,
      IndexMap.get?_insert_of_ne _ _ hname.2.1, IndexMap.get?_insert_of_ne _ _ hname.1]
  have hsha : record.get? "matching_routes_sha256" = some (.str (digest (routesText last.candidateRoutes))) := by
    rw [hget _ (by decide), ← Except.ok.inj hrouted, IndexMap.get?_insert, if_pos rfl]
  refine ⟨?_, ?_⟩
  · rw [hget _ (by decide), ← Except.ok.inj hrouted, IndexMap.get?_insert_of_ne _ _ (by decide), IndexMap.get?_insert,
      if_pos rfl]
  · rw [readText, hsha]

theorem valid (h : Direct forms digest last supplier subject reading record base id contracts)
    (hsupplier : ValidInputs supplier) (hreading : reading ∈ supplier.readings) : Object.Valid record :=
  deriveRecord_valid forms (recordOf_valid (hsupplier.readings reading hreading) hsupplier.occurrences h.hbase) h.hderived

end Direct

theorem availableReadings_get? {readings : List Object} {available : SortedMap String Object}
    (h : availableReadings readings = .ok available) {id : String} :
    (∀ other, available.get? id = some other → other ∈ readings ∧ readText other "assertion_id" = .ok id) ∧
      ∀ other ∈ readings, readText other "assertion_id" = .ok id → ∃ held, available.get? id = some held := by
  obtain ⟨entries, hentries, h⟩ := Except.bind_eq_ok.1 h
  have hentry : ∀ (reading : Object) (entry : String × Object),
      (readText reading "assertion_id").map (fun id => (id, reading)) = .ok entry →
        entry.2 = reading ∧ readText reading "assertion_id" = .ok entry.1 := by
    intro reading entry hentry
    obtain ⟨own, hown, rfl⟩ := Records.map_eq_ok.1 hentry
    exact ⟨rfl, hown⟩
  rw [← Except.ok.inj h]
  refine ⟨fun other hget => ?_, fun other hother hid => ?_⟩
  · rw [SortedMap.get?_ofList] at hget
    have hmem := List.mem_reverse.1 (IndexMap.lookupEntry_eq_some hget)
    obtain ⟨reading, hreading, hmapped⟩ := Runs.mapM_exists_of_mem hentries hmem
    obtain ⟨hsame, hown⟩ := hentry reading _ hmapped
    have hsame : other = reading := hsame
    subst hsame
    exact ⟨hreading, hown⟩
  · obtain ⟨entry, hmem, hmapped⟩ := Runs.forall₂_exists_right (Runs.mapM_eq_ok.1 hentries) hother
    obtain ⟨_, hown⟩ := hentry other entry hmapped
    apply SortedMap.mem_keys_iff.1
    rw [SortedMap.mem_keys_ofList]
    exact List.mem_map.2 ⟨entry, hmem, Except.ok.inj (hown.symm.trans hid)⟩

variable (forms digest) in
/-- A call that returned, taken apart. -/
structure Looked (input : RecordInputs) (contracts : Contracts) (available : SortedMap String Object)
    (current records : RecordMap) (before after : Store) : Prop where
  hcontracts : Matching.prepareIdentifierRules input.policy = .ok contracts
  havailable : availableReadings input.readings = .ok available
  hlatest : ∀ subject, Latest input.batchId input.occurrences ((previousRecords input).get? subject)
    (readingsOf input.readings subject) (current.get? subject)
  hrecords : current.mapValuesM (deriveRecord forms contracts (digest (routesText input.candidateRoutes)) available input)
    = .ok records
  hscope : ∀ reading ∈ input.readings, ∃ subject ∈ input.subjects, readText reading "subject" = .ok subject
  hbefore : collectEntries (previousRecords input) = .ok before
  hafter : collectEntries records = .ok after

theorem prepareRecordLookups_looked {records : RecordMap} {changes : List Entry}
    (h : prepareRecordLookups forms digest input = .ok (records, changes)) :
    ∃ contracts available current before after,
      Looked forms digest input contracts available current records before after ∧
        (changes.map Entry.change).Perm (Differences.differences before after) := by
  obtain ⟨own, hown, h⟩ := Except.bind_eq_ok.1 h
  obtain ⟨before, hbefore, h⟩ := Except.bind_eq_ok.1 h
  obtain ⟨after, hafter, h⟩ := Except.bind_eq_ok.1 h
  obtain ⟨rfl, rfl⟩ := Prod.mk.inj (Except.ok.inj h)
  obtain ⟨contracts, available, current, hcontracts, havailable, hlatest, hscope, hrecords⟩ := currentRecords_eq_ok hown
  refine ⟨contracts, available, current, before, after,
    ⟨hcontracts, havailable, hlatest, hrecords, hscope, hbefore, hafter⟩, ?_⟩
  have hperm := (Sorting.sortByKey_perm Entry.key (indexChanges before after)).map Entry.change
  rwa [map_change_indexChanges] at hperm

namespace Looked

variable {input : RecordInputs} {contracts : Contracts} {available : SortedMap String Object}
  {current records : RecordMap} {before after store : Store}

theorem previous_of_not_mem {subject : String} (hsubject : subject ∉ input.subjects) :
    (previousRecords input).get? subject = none := by
  rw [previousRecords, SortedMap.get?_filter]
  simp [hsubject]

theorem previous_of_mem {subject : String} (hsubject : subject ∈ input.subjects) :
    (previousRecords input).get? subject = input.previous.get? subject := by
  rw [previousRecords, SortedMap.get?_filter]
  cases input.previous.get? subject <;> simp [hsubject]

theorem readingsOf_of_not_mem (h : Looked forms digest input contracts available current records before after)
    {subject : String} (hsubject : subject ∉ input.subjects) : readingsOf input.readings subject = [] := by
  refine List.eq_nil_iff_forall_not_mem.2 fun reading hreading => hsubject ?_
  obtain ⟨hmem, hown⟩ := mem_readingsOf.1 hreading
  obtain ⟨other, hother, hotherSubject⟩ := h.hscope reading hmem
  exact Except.ok.inj (hotherSubject.symm.trans hown) ▸ hother

theorem records_none (h : Looked forms digest input contracts available current records before after) {subject : String}
    (hheld : (previousRecords input).get? subject = none) (hreadings : readingsOf input.readings subject = []) :
    records.get? subject = none := by
  have hlatest := h.hlatest subject
  rw [hheld, hreadings] at hlatest
  have hcurrent : current.get? subject = none := by
    generalize current.get? subject = held at hlatest
    cases hlatest with
    | unread => rfl
    | read _ hsource _ _ =>
        obtain hnone | ⟨_, hmem, _⟩ := hsource
        · cases hnone
        · cases hmem
  refine Option.eq_none_iff_forall_ne_some.2 fun record hget => ?_
  obtain ⟨held, hheld, _⟩ := (SortedMap.get?_mapValuesM h.hrecords).1 hget
  rw [hcurrent] at hheld
  cases hheld

theorem available_same (h : Looked forms digest input contracts available current records before after)
    {inputs : List RecordInputs} (hnames : AssertionsNameReadings (inputs ++ [input])) {supplier : RecordInputs}
    (hsupplier : supplier ∈ inputs ++ [input]) {reading : Object} (hreading : reading ∈ supplier.readings) {id : String}
    (hid : readText reading "assertion_id" = .ok id) (other : Object) (hget : available.get? id = some other) :
    Object.Same other reading := by
  obtain ⟨hmem, hother⟩ := (availableReadings_get? h.havailable).1 other hget
  exact hnames input (by simp) supplier hsupplier other hmem reading hreading id hother hid

end Looked

theorem seenReadings_append (inputs : List RecordInputs) (input : RecordInputs) (subject : String) :
    seenReadings (inputs ++ [input]) subject = seenReadings inputs subject ++ readingsOf input.readings subject := by
  rw [seenReadings, List.flatMap_append, List.flatMap_singleton]
  rfl

theorem lastCall_append_of_mem (inputs : List RecordInputs) {subject : String}
    (h : subject ∈ input.subjects) : lastCall (inputs ++ [input]) subject = some input := by
  have hown : [input].filter (fun input => subject ∈ input.subjects) = [input] := by simp [h]
  rw [lastCall, List.filter_append, hown, List.getLast?_append]
  rfl

theorem lastCall_append_of_not_mem (inputs : List RecordInputs) {subject : String}
    (h : subject ∉ input.subjects) : lastCall (inputs ++ [input]) subject = lastCall inputs subject := by
  have hown : [input].filter (fun input => subject ∈ input.subjects) = [] := by simp [h]
  rw [lastCall, List.filter_append, hown, List.append_nil]
  rfl

section Collecting

variable {input : RecordInputs} {inputs : List RecordInputs} {contracts : Contracts} {available : SortedMap String Object}
  {current records : RecordMap} {before after store : Store} {derived : Object}

theorem Looked.collected_new (h : Looked forms digest input contracts available current records before after)
    (hnames : AssertionsNameReadings (inputs ++ [input])) (hvalid : ValidInputs input) (hsubject : subject ∈ input.subjects)
    {base : Object} {id : String} {version : Version} (hreading : reading ∈ readingsOf input.readings subject)
    (hid : readText reading "assertion_id" = .ok id)
    (hbase : recordOf input.batchId input.occurrences reading id = .ok base) (hversion : readRevision base = .ok version)
    (hgreatest : ∀ other ∈ seenReadings (inputs ++ [input]) subject, AtMost base version other)
    (hderived : deriveRecord forms contracts (digest (routesText input.candidateRoutes)) available input subject base
      = .ok derived) :
    ∃ record, Collected forms digest (inputs ++ [input]) subject record ∧ Object.Valid record ∧ Object.Same derived record := by
  have hmem := (mem_readingsOf.1 hreading).1
  have hsame := recordOf_sameReading hbase hid
  obtain ⟨held, hheld⟩ := (availableReadings_get? h.havailable).2 reading hmem hid
  obtain ⟨record, hrecord, hsameRecord⟩ := deriveRecord_of_reading hderived (fun _ _ => rfl) (hsame.assertion.trans hid)
    (h.available_same hnames (by simp) hmem hid) fun hnone => (nomatch hnone.symm.trans hheld)
  have hdirect : Direct forms digest input input subject reading record base id contracts :=
    ⟨hid, hbase, h.hcontracts, hrecord⟩
  refine ⟨record, ⟨input, input, reading, lastCall_append_of_mem inputs hsubject, by simp, hreading, ⟨?_, version, ?_, ?_⟩,
    directRecord_eq_ok.2 ⟨base, id, contracts, hdirect⟩⟩, hdirect.valid hvalid hmem, hsameRecord⟩
  · rw [seenReadings_append]
    exact List.mem_append_right _ hreading
  · rw [← hsame.readRevision]
    exact hversion
  · exact fun other hother => (hgreatest other hother).congr hsame.assertion

theorem Looked.collected_kept (h : Looked forms digest input contracts available current records before after)
    (hnames : AssertionsNameReadings (inputs ++ [input])) (hroutes : DigestsNameRoutes digest (inputs ++ [input]))
    (hvalid : ∀ supplier ∈ inputs, ValidInputs supplier) (hsubject : subject ∈ input.subjects)
    (hrecord : Collected forms digest inputs subject record)
    (hgreatest : ∀ version, readRevision record = .ok version →
      ∀ other ∈ readingsOf input.readings subject, AtMost record version other)
    (hderived : deriveRecord forms contracts (digest (routesText input.candidateRoutes)) available input subject
      (Object.normal record) = .ok derived) :
    ∃ record, Collected forms digest (inputs ++ [input]) subject record ∧ Object.Valid record ∧ Object.Same derived record := by
  obtain ⟨last, supplier, reading, hlast, hsupplier, hreading, hnewest, hdirect⟩ := hrecord
  obtain ⟨base, id, contracts', hdirect⟩ := directRecord_eq_ok.1 hdirect
  have hmem := (mem_readingsOf.1 hreading).1
  have hlastMem : last ∈ inputs := (List.mem_filter.1 (List.mem_of_getLast? hlast)).1
  have hbaseId := hdirect.base_sameReading.assertion.trans hdirect.hid
  obtain ⟨next, hnext, hsameNext⟩ := deriveRecord_of_reading hderived
    (((same_normal record).sameBut _).trans hdirect.sameBut) hbaseId
    (h.available_same hnames (List.mem_append_left _ hsupplier) hmem hdirect.hid) (fun _ hsha => by
      rw [Records.readText_normal, hdirect.keys.2] at hsha
      have hsameRoutes := hroutes last (List.mem_append_left _ hlastMem) input (by simp) (Except.ok.inj hsha)
      rw [same_normal record, hdirect.keys.1, Option.map_some, hsameRoutes])
  have hnextDirect : Direct forms digest input supplier subject reading next base id contracts :=
    ⟨hdirect.hid, hdirect.hbase, h.hcontracts, hnext⟩
  obtain ⟨version, hversion, hseen⟩ := hnewest.greatest
  refine ⟨next, ⟨input, supplier, reading, lastCall_append_of_mem inputs hsubject, List.mem_append_left _ hsupplier, hreading,
    ⟨?_, version, hversion, fun other hother => ?_⟩, directRecord_eq_ok.2 ⟨base, id, contracts, hnextDirect⟩⟩,
    hnextDirect.valid (hvalid supplier hsupplier) hmem, hsameNext⟩
  · rw [seenReadings_append]
    exact List.mem_append_left _ hnewest.mem
  · rw [seenReadings_append] at hother
    rcases List.mem_append.1 hother with hother | hother
    · exact hseen other hother
    · have hown := hdirect.sameReading.readRevision.trans hversion
      exact (hgreatest version hown other hother).congr hdirect.sameReading.assertion

theorem Looked.collected (h : Looked forms digest input contracts available current records before after)
    (hholds : Holds forms digest inputs store subject) (hsupplied : Supplied store input)
    (hnames : AssertionsNameReadings (inputs ++ [input])) (hroutes : DigestsNameRoutes digest (inputs ++ [input]))
    (hvalid : ∀ supplier ∈ inputs, ValidInputs supplier) (hsubject : subject ∈ input.subjects)
    (hget : records.get? subject = some derived) :
    ∃ record, Collected forms digest (inputs ++ [input]) subject record ∧ Object.Valid record ∧ Object.Same derived record := by
  obtain ⟨held, hcurrent, hderived⟩ := (SortedMap.get?_mapValuesM h.hrecords).1 hget
  have hlatest := h.hlatest subject
  rw [Looked.previous_of_mem hsubject, hsupplied.previous subject hsubject, hcurrent] at hlatest
  cases hholds with
  | unseen hseen hstore =>
      have hnone : storedRecord store subject = none := by
        rw [storedRecord, hstore (recordKey subject) rfl]
        rfl
      rw [hnone] at hlatest
      cases hlatest with
      | read hversion hsource hreadings _ =>
          obtain hheld | ⟨reading, hreading, id, hid, hbase⟩ := hsource
          · cases hheld
          · refine h.collected_new hnames hsupplied.valid hsubject hreading hid hbase hversion (fun other hother => ?_) hderived
            rw [seenReadings_append, hseen, List.nil_append] at hother
            exact hreadings other hother
  | @seen record entries hrecord hrecordValid hentries hstore =>
      have hstored := storedRecord_of_entries hrecordValid hentries (hstore (recordKey subject) rfl)
      rw [hstored] at hlatest
      have hassertion : readText (Object.normal record) "assertion_id" = readText record "assertion_id" :=
        Records.readText_normal record _
      generalize hheldEq : some (Object.normal record) = before at hlatest
      cases hlatest with
      | unread hreadings =>
          rw [← Option.some.inj hheldEq] at hderived
          refine h.collected_kept hnames hroutes hvalid hsubject hrecord (fun _ _ other hother => ?_) hderived
          rw [hreadings] at hother
          cases hother
      | @read _ version hversion hsource hreadings hheld =>
          obtain hbefore | ⟨reading, hreading, id, hid, hbase⟩ := hsource
          · rw [← hheldEq] at hbefore
            have hsame := Option.some.inj hbefore
            rw [← hsame] at hderived hversion hreadings
            refine h.collected_kept hnames hroutes hvalid hsubject hrecord (fun own hown other hother => ?_) hderived
            cases (readRevision_normal hrecordValid hown).symm.trans hversion
            exact (hreadings other hother).congr hassertion
          · refine h.collected_new hnames hsupplied.valid hsubject hreading hid hbase hversion (fun other hother => ?_) hderived
            rw [seenReadings_append] at hother
            rcases List.mem_append.1 hother with hother | hother
            · -- A reading seen before is at most the record held, and that at most the one made now.
              obtain ⟨last, supplier, source, _, _, _, hnewest, hdirect⟩ := hrecord
              obtain ⟨base, sourceId, contracts', hdirect⟩ := directRecord_eq_ok.1 hdirect
              obtain ⟨own, hown, hseen⟩ := hnewest.greatest
              have hownRecord := readRevision_normal hrecordValid (hdirect.sameReading.readRevision.trans hown)
              have hmiddle := (hseen other hother).congr (hdirect.sameReading.assertion.symm.trans hassertion.symm)
              exact hmiddle.trans (hheld _ hheldEq.symm) hownRecord
            · exact hreadings other hother

theorem Looked.before_of_mem (h : Looked forms digest input contracts available current records before after)
    (hholds : Holds forms digest inputs store subject) (hsupplied : Supplied store input) (hsubject : subject ∈ input.subjects)
    {key : Key} (hkey : (ofLex key).2 = subject) : before.get? key = store.get? key := by
  have hget := collectEntries_get? h.hbefore hkey
  rw [Looked.previous_of_mem hsubject, hsupplied.previous subject hsubject] at hget
  cases hholds with
  | unseen hseen hstore =>
      rw [hstore key hkey]
      refine hget.1 ?_
      rw [storedRecord, hstore (recordKey subject) rfl]
      rfl
  | @seen record entries hrecord hvalid hentries hstore =>
      obtain ⟨own, hown, hbefore⟩ := hget.2 _ (storedRecord_of_entries hvalid hentries (hstore (recordKey subject) rfl))
      obtain ⟨entries', hentries', hsame⟩ := recordEntries_same (same_normal record) hown
      cases hentries.symm.trans hentries'
      rw [hbefore, hsame, hstore key hkey]

theorem Looked.before_of_not_mem (h : Looked forms digest input contracts available current records before after)
    (hsubject : subject ∉ input.subjects) {key : Key} (hkey : (ofLex key).2 = subject) : before.get? key = none :=
  (collectEntries_get? h.hbefore hkey).1 (Looked.previous_of_not_mem hsubject)

theorem Looked.get?_next (h : Looked forms digest input contracts available current records before after)
    (hholds : ∀ subject, Holds forms digest inputs store subject) (hsupplied : Supplied store input) {changes : List Entry}
    (hchanges : (changes.map Entry.change).Perm (Differences.differences before after)) (key : Key) :
    (applyEntries store changes).get? key =
      if (ofLex key).2 ∈ input.subjects then after.get? key else store.get? key := by
  have hstore : ∀ key body, before.get? key = some body → store.get? key = some body := by
    intro key body hget
    by_cases hsubject : (ofLex key).2 ∈ input.subjects
    · rwa [← h.before_of_mem (hholds _) hsupplied hsubject rfl]
    · rw [h.before_of_not_mem hsubject rfl] at hget
      cases hget
  have hnodup : ((changes.map Entry.change).map Prod.fst).Nodup := by
    rw [(hchanges.map Prod.fst).nodup_iff]
    exact Differences.differences_nodup before after
  have hnext : (applyEntries store changes).get? key =
      (after.get? key).or (if before.contains key then none else store.get? key) :=
    Differences.get?_applyChanges hnodup hstore fun value => hchanges.mem_iff
  rw [hnext]
  split_ifs with hcontains hsubject hsubject
  · rw [Option.or_none]
  · obtain ⟨body, hbody⟩ := SortedMap.mem_keys_iff.1 (SortedMap.contains_iff.1 hcontains)
    rw [h.before_of_not_mem hsubject rfl] at hbody
    cases hbody
  · have hnone : before.get? key = none :=
      SortedMap.get?_eq_none_iff.2 fun hmem => hcontains (SortedMap.contains_iff.2 hmem)
    rw [← h.before_of_mem (hholds _) hsupplied hsubject rfl, hnone, Option.or_none]
  · have hnone : after.get? key = none := (collectEntries_get? h.hafter rfl).1
      (h.records_none (Looked.previous_of_not_mem hsubject) (h.readingsOf_of_not_mem hsubject))
    rw [hnone, Option.none_or]

theorem holds_step (hholds : ∀ subject, Holds forms digest inputs store subject)
    (hvalid : ∀ supplier ∈ inputs, ValidInputs supplier) {next : Store} (hstep : RecordStep forms digest store input next)
    (hnames : AssertionsNameReadings (inputs ++ [input])) (hroutes : DigestsNameRoutes digest (inputs ++ [input]))
    (subject : String) : Holds forms digest (inputs ++ [input]) next subject := by
  obtain ⟨records, changes, hok, rfl⟩ := hstep.result
  obtain ⟨contracts, available, current, before, after, h, hchanges⟩ := prepareRecordLookups_looked hok
  have hget := h.get?_next hholds hstep.supplied hchanges
  by_cases hsubject : subject ∈ input.subjects
  · have hnext : ∀ key : Key, (ofLex key).2 = subject → (applyEntries store changes).get? key = after.get? key := by
      intro key hkey
      rw [hget, if_pos (hkey ▸ hsubject)]
    cases hrecord : records.get? subject with
    | none =>
        have hcurrent : current.get? subject = none := by
          refine Option.eq_none_iff_forall_ne_some.2 fun held hheld => ?_
          obtain ⟨derived, hderived⟩ := SortedMap.mapValuesM_ok_of_get? h.hrecords hheld
          cases hrecord.symm.trans ((SortedMap.get?_mapValuesM h.hrecords).2 ⟨held, hheld, hderived⟩)
        have hlatest := h.hlatest subject
        rw [hcurrent, Looked.previous_of_mem hsubject, hstep.supplied.previous subject hsubject] at hlatest
        refine .unseen ?_ fun key hkey => (hnext key hkey).trans ((collectEntries_get? h.hafter hkey).1 hrecord)
        generalize hstored : storedRecord store subject = held at hlatest
        cases hlatest with
        | unread hreadings =>
            rw [seenReadings_append, hreadings, List.append_nil]
            cases hholds subject with
            | unseen hseen _ => exact hseen
            | seen _ hrecordValid hentries hstore =>
                cases hstored.symm.trans (storedRecord_of_entries hrecordValid hentries (hstore (recordKey subject) rfl))
    | some derived =>
        obtain ⟨record, hcollected, hrecordValid, hsame⟩ :=
          h.collected (hholds subject) hstep.supplied hnames hroutes hvalid hsubject hrecord
        obtain ⟨entries, hentries, _⟩ := (collectEntries_get? h.hafter (rfl : (ofLex (recordKey subject)).2 = subject)).2 _ hrecord
        obtain ⟨entries', hentries', hmap⟩ := recordEntries_same hsame hentries
        refine .seen hcollected hrecordValid hentries' fun key hkey => ?_
        obtain ⟨own, hown, hafter⟩ := (collectEntries_get? h.hafter hkey).2 _ hrecord
        cases hentries.symm.trans hown
        rw [hnext key hkey, hafter, hmap]
  · have hnext : ∀ key : Key, (ofLex key).2 = subject → (applyEntries store changes).get? key = store.get? key := by
      intro key hkey
      rw [hget, if_neg (hkey ▸ hsubject)]
    have hseen : seenReadings (inputs ++ [input]) subject = seenReadings inputs subject := by
      rw [seenReadings_append, h.readingsOf_of_not_mem hsubject, List.append_nil]
    cases hholds subject with
    | unseen hnone hstore => exact .unseen (hseen.trans hnone) fun key hkey => (hnext key hkey).trans (hstore key hkey)
    | seen hrecord hrecordValid hentries hstore =>
        obtain ⟨last, supplier, reading, hlast, hsupplier, hreading, hnewest, hdirect⟩ := hrecord
        refine .seen ⟨last, supplier, reading, ?_, List.mem_append_left _ hsupplier, hreading, hseen ▸ hnewest, hdirect⟩
          hrecordValid hentries fun key hkey => (hnext key hkey).trans (hstore key hkey)
        rw [lastCall_append_of_not_mem inputs hsubject, hlast]

end Collecting

theorem RecordRun.valid {inputs : List RecordInputs} {store : Store} (hrun : RecordRun forms digest inputs store) :
    ∀ input ∈ inputs, ValidInputs input := by
  induction hrun with
  | start => exact fun _ h => (nomatch h)
  | call _ hstep ih =>
      intro input hinput
      rcases List.mem_append.1 hinput with hinput | hinput
      · exact ih input hinput
      · rw [List.mem_singleton.1 hinput]
        exact hstep.supplied.valid

theorem AssertionsNameReadings.subset {inputs others : List RecordInputs} (h : AssertionsNameReadings others)
    (hsub : inputs ⊆ others) : AssertionsNameReadings inputs :=
  fun input hinput other hother => h input (hsub hinput) other (hsub hother)

theorem DigestsNameRoutes.subset {inputs others : List RecordInputs} (h : DigestsNameRoutes digest others)
    (hsub : inputs ⊆ others) : DigestsNameRoutes digest inputs :=
  fun input hinput other hother => h input (hsub hinput) other (hsub hother)

theorem RecordRun.holds {inputs : List RecordInputs} {store : Store} (hrun : RecordRun forms digest inputs store)
    (hnames : AssertionsNameReadings inputs) (hroutes : DigestsNameRoutes digest inputs) (subject : String) :
    Holds forms digest inputs store subject := by
  induction hrun generalizing subject with
  | start => exact .unseen rfl fun _ _ => rfl
  | @call inputs store input next hrun hstep ih =>
      have hsub : inputs ⊆ inputs ++ [input] := List.subset_append_left ..
      exact holds_step (ih (hnames.subset hsub) (hroutes.subset hsub)) hrun.valid hstep hnames hroutes subject

end EdgarPlatform.Lookups
