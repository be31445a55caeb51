import EdgarPlatform.Lookups.Records

/-!
# The newest reading is the one that is kept

A call takes its readings in the order of their versions, and each replaces what is held of its record if it is newer. What is held afterwards is of the greatest version, of those held before and those given.
-/

namespace EdgarPlatform.Lookups

open Records (Json Object readText readObject readOptionalValue)
open Matching (TextForms Contracts)
open Readings (Version readRevision mappingVersion orderReadings)

/-- A record and a reading are of one assertion in one version. -/
structure SameReading (record reading : Object) : Prop where
  revision : readOptionalValue record "revision" = readOptionalValue reading "revision"
  mapping : mappingVersion record = mappingVersion reading
  assertion : readText record "assertion_id" = readText reading "assertion_id"

theorem SameReading.readRevision {record reading : Object} (h : SameReading record reading) :
    readRevision record = readRevision reading := by
  rw [Readings.readRevision, Readings.readRevision, h.revision, h.mapping]

theorem readText_of_copied {record reading : Object} {name text : String}
    (hrecord : record.get? name = some (readOptionalValue reading name)) (htext : readText reading name = .ok text) :
    readText record name = .ok text := by
  rw [readText] at htext ⊢
  rw [hrecord, readOptionalValue]
  cases hget : reading.get? name with
  | none =>
      rw [hget] at htext
      cases htext
  | some value =>
      rw [hget] at htext
      exact htext

def recordKeys : List String := copiedFields ++ ["mapping_version", "cross_references", "batch_id", "bronze"]

theorem recordFields_get? (batchId : String) (bronze : Json) (reading references : Object) (name : String) :
    (IndexMap.ofList (recordFields batchId bronze reading references)).get? name =
      IndexMap.lookupEntry name (recordFields batchId bronze reading references) := by
  refine IndexMap.get?_ofList_eq ?_ name
  have hkeys : (recordFields batchId bronze reading references).map Prod.fst = recordKeys := rfl
  rw [hkeys]
  decide

/-- What a record has of its reading. -/
structure RecordOf (batchId : String) (bronze : Json) (reading references record : Object) : Prop where
  hreferences : readObject reading "cross_references" = .ok references
  hcopied : ∀ name ∈ copiedFields, record.get? name = some (readOptionalValue reading name)
  hadded : ∀ name, name ∉ copiedFields → record.get? name = IndexMap.lookupEntry name
    [("mapping_version", mappingVersion reading), ("cross_references", Object.toJson references),
      ("batch_id", .str batchId), ("bronze", bronze)]

theorem recordOf_eq_ok {batchId id : String} {occurrences : SortedMap String Object} {reading record : Object}
    (h : recordOf batchId occurrences reading id = .ok record) :
    ∃ references, RecordOf batchId (bronzeOf occurrences id) reading references record := by
  obtain ⟨references, hreferences, h⟩ := Except.bind_eq_ok.1 h
  have hget : ∀ name, record.get? name =
      IndexMap.lookupEntry name (recordFields batchId (bronzeOf occurrences id) reading references) := by
    intro name
    rw [← Except.ok.inj h]
    exact recordFields_get? batchId (bronzeOf occurrences id) reading references name
  refine ⟨references, hreferences, fun name hname => ?_, fun name hname => ?_⟩
  · rw [hget]
    exact IndexMap.lookupEntry_map_self (readOptionalValue reading) _ hname
  · rw [hget]
    exact IndexMap.lookupEntry_map_not_mem (readOptionalValue reading) _ hname

theorem recordOf_sameReading {batchId id : String} {occurrences : SortedMap String Object} {reading record : Object}
    (h : recordOf batchId occurrences reading id = .ok record) (hid : readText reading "assertion_id" = .ok id) :
    SameReading record reading := by
  obtain ⟨references, hrecord⟩ := recordOf_eq_ok h
  have hrevision := hrecord.hcopied "revision" (by decide)
  have hassertion := hrecord.hcopied "assertion_id" (by decide)
  have hmapping : record.get? "mapping_version" = some (mappingVersion reading) := hrecord.hadded _ (by decide)
  refine ⟨?_, ?_, (readText_of_copied hassertion hid).trans hid.symm⟩
  · rw [readOptionalValue, hrevision]
    rfl
  · rw [mappingVersion, hmapping]
    rfl

def readingsOf (readings : List Object) (subject : String) : List Object :=
  readings.filter fun reading => (readText reading "subject").toOption = some subject

variable {subject : String}

theorem mem_readingsOf {readings : List Object} {reading : Object} :
    reading ∈ readingsOf readings subject ↔ reading ∈ readings ∧ readText reading "subject" = .ok subject := by
  rw [readingsOf, List.mem_filter, decide_eq_true_eq]
  cases readText reading "subject" <;> simp [Except.toOption]

/-- A reading of at most this version, and of this version only if it is of the record's assertion. -/
def AtMost (record : Object) (version : Version) (body : Object) : Prop :=
  ∃ other, readRevision body = .ok other ∧ other ≤ version ∧
    (other = version → readText body "assertion_id" = readText record "assertion_id")

/-- What is held of a record after some of its readings: what was held before, or the record of one of them, and of
the greatest version. -/
inductive Latest (batchId : String) (occurrences : SortedMap String Object) (held : Option Object)
    (readings : List Object) : Option Object → Prop
  | unread (hreadings : readings = []) : Latest batchId occurrences held readings held
  | read {record : Object} {version : Version} (hversion : readRevision record = .ok version)
      (hsource : held = some record ∨ ∃ reading ∈ readings, ∃ id, readText reading "assertion_id" = .ok id ∧
        recordOf batchId occurrences reading id = .ok record)
      (hreadings : ∀ reading ∈ readings, AtMost record version reading)
      (hheld : ∀ before, held = some before → AtMost record version before) :
      Latest batchId occurrences held readings (some record)

theorem AtMost.raise {record next body : Object} {version newer : Version} (h : AtMost record version body)
    (hlt : version < newer) : AtMost next newer body := by
  obtain ⟨other, hother, hle, _⟩ := h
  exact ⟨other, hother, hle.trans hlt.le, fun heq => absurd (heq ▸ hle) hlt.not_ge⟩

theorem AtMost.congr {record other body : Object} {version : Version} (h : AtMost record version body)
    (hid : readText record "assertion_id" = readText other "assertion_id") : AtMost other version body := by
  obtain ⟨own, hown, hle, hsame⟩ := h
  exact ⟨own, hown, hle, fun heq => (hsame heq).trans hid⟩

theorem AtMost.trans {record middle body : Object} {version version' : Version} (h : AtMost middle version body)
    (h' : AtMost record version' middle) (hversion : readRevision middle = .ok version) : AtMost record version' body := by
  obtain ⟨own, hown, hle, hsame⟩ := h
  obtain ⟨other, hother, hle', hsame'⟩ := h'
  cases hversion.symm.trans hother
  refine ⟨own, hown, hle.trans hle', fun heq => ?_⟩
  have hmiddle : version = version' := le_antisymm hle' (heq ▸ hle)
  exact (hsame (heq.trans hmiddle.symm)).trans (hsame' hmiddle)

theorem atMost_self {record : Object} {version : Version} (h : readRevision record = .ok version) :
    AtMost record version record :=
  ⟨version, h, le_refl _, fun _ => rfl⟩

theorem replaces_eq_ok {revision : Version} {id : String} {held : Object} {newer : Bool}
    (h : replaces revision id (some held) = .ok newer) :
    ∃ before, readRevision held = .ok before ∧ (newer = true → before < revision) ∧
      (newer = false → revision ≤ before ∧ (revision = before → readText held "assertion_id" = .ok id)) := by
  obtain ⟨before, hbefore, h⟩ := Except.bind_eq_ok.1 h
  refine ⟨before, hbefore, ?_⟩
  by_cases heq : revision = before
  · rw [if_pos heq] at h
    obtain ⟨heldId, hheldId, h⟩ := Except.bind_eq_ok.1 h
    rw [Except.ite_error_eq_ok, not_not] at h
    obtain ⟨hsame, h⟩ := h
    rw [← Except.ok.inj h]
    exact ⟨fun hfalse => (nomatch hfalse), fun _ => ⟨heq.le, fun _ => hsame ▸ hheldId⟩⟩
  · rw [if_neg heq] at h
    rw [← Except.ok.inj h]
    exact ⟨fun h => of_decide_eq_true h, fun h => ⟨not_lt.1 (of_decide_eq_false h), fun h => absurd h heq⟩⟩

variable {batchId : String} {occurrences : SortedMap String Object} {held : Option Object} {readings : List Object}

theorem Latest.next {record : Option Object} {next reading : Object} {version : Version} {id : String}
    (h : Latest batchId occurrences held readings record) (hversion : readRevision reading = .ok version)
    (hid : readText reading "assertion_id" = .ok id) (hnewer : replaces version id record = .ok true)
    (hnext : recordOf batchId occurrences reading id = .ok next) :
    Latest batchId occurrences held (readings ++ [reading]) (some next) := by
  have hsame := recordOf_sameReading hnext hid
  refine .read (hsame.readRevision.trans hversion) (.inr ⟨reading, by simp, id, hid, hnext⟩) ?_ ?_
  · intro other hother
    rcases List.mem_append.1 hother with hother | hother
    · cases h with
      | unread hreadings =>
          rw [hreadings] at hother
          cases hother
      | read hbefore _ hreadings _ =>
          obtain ⟨before, hbefore', hlt, _⟩ := replaces_eq_ok hnewer
          cases hbefore.symm.trans hbefore'
          exact (hreadings other hother).raise (hlt rfl)
    · rw [List.mem_singleton.1 hother]
      exact ⟨version, hversion, le_refl _, fun _ => hsame.assertion.symm⟩
  · rintro before rfl
    cases h with
    | unread _ =>
        obtain ⟨revision, hrevision, hlt, _⟩ := replaces_eq_ok hnewer
        exact ⟨revision, hrevision, (hlt rfl).le, fun heq => absurd heq (hlt rfl).ne⟩
    | read hbefore _ _ hheld =>
        obtain ⟨revision, hrevision, hlt, _⟩ := replaces_eq_ok hnewer
        cases hbefore.symm.trans hrevision
        exact (hheld before rfl).raise (hlt rfl)

theorem Latest.keep {record : Option Object} {reading : Object} {version : Version} {id : String}
    (h : Latest batchId occurrences held readings record) (hversion : readRevision reading = .ok version)
    (hid : readText reading "assertion_id" = .ok id) (hnewer : replaces version id record = .ok false) :
    Latest batchId occurrences held (readings ++ [reading]) record := by
  cases record with
  | none => cases hnewer
  | some record =>
      obtain ⟨before, hbefore, _, hkept⟩ := replaces_eq_ok hnewer
      obtain ⟨hle, hsame⟩ := hkept rfl
      have hreading : AtMost record before reading :=
        ⟨version, hversion, hle, fun heq => hid.trans (hsame heq).symm⟩
      cases h with
      | unread hreadings =>
          refine .read hbefore (.inl rfl) ?_ ?_
          · rw [hreadings]
            intro other hother
            rwa [List.mem_singleton.1 hother]
          · intro earlier hearlier
            rw [← Option.some.inj hearlier]
            exact atMost_self hbefore
      | read hversion' hsource hreadings hheld =>
          cases hversion'.symm.trans hbefore
          refine .read hbefore ?_ ?_ hheld
          · exact hsource.imp_right fun ⟨source, hsource, hrecord⟩ => ⟨source, List.mem_append_left _ hsource, hrecord⟩
          · intro other hother
            rcases List.mem_append.1 hother with hother | hother
            · exact hreadings other hother
            · rwa [List.mem_singleton.1 hother]

theorem readingsOf_append (front : List Object) (reading : Object) (subject : String) :
    readingsOf (front ++ [reading]) subject =
      readingsOf front subject ++ if (readText reading "subject").toOption = some subject then [reading] else [] := by
  rw [readingsOf, readingsOf, List.filter_append, List.filter_cons, List.filter_nil]
  simp only [decide_eq_true_eq]

variable {input : RecordInputs}

theorem addReading_latest {current next : RecordMap} {front : List Object} {ordered : Version × Object}
    (hversion : readRevision ordered.2 = .ok ordered.1)
    (h : addReading input current ordered = .ok next)
    (hcurrent : Latest input.batchId input.occurrences held (readingsOf front subject) (current.get? subject)) :
    Latest input.batchId input.occurrences held (readingsOf (front ++ [ordered.2]) subject) (next.get? subject) := by
  obtain ⟨own, hown, h⟩ := Except.bind_eq_ok.1 h
  rw [Except.ite_error_eq_ok] at h
  obtain ⟨id, hid, h⟩ := Except.bind_eq_ok.1 h.2
  obtain ⟨newer, hnewer, h⟩ := Except.bind_eq_ok.1 h
  rw [readingsOf_append, hown]
  have hoption : (Except.ok own : Except String String).toOption = some subject ↔ own = subject := by
    simp [Except.toOption]
  simp only [hoption]
  by_cases hsubject : own = subject
  · subst hsubject
    rw [if_pos rfl]
    cases newer with
    | true =>
        obtain ⟨record, hrecord, h⟩ := Except.bind_eq_ok.1 h
        rw [← Except.ok.inj h, SortedMap.get?_insert_self]
        exact hcurrent.next hversion hid hnewer hrecord
    | false =>
        rw [← Except.ok.inj h]
        exact hcurrent.keep hversion hid hnewer
  · rw [if_neg hsubject, List.append_nil]
    cases newer with
    | true =>
        obtain ⟨record, hrecord, h⟩ := Except.bind_eq_ok.1 h
        rw [← Except.ok.inj h, SortedMap.get?_insert_of_ne _ _ (Ne.symm hsubject)]
        exact hcurrent
    | false =>
        rw [← Except.ok.inj h]
        exact hcurrent

theorem Latest.perm {readings' : List Object} {record : Option Object} (h : Latest batchId occurrences held readings record)
    (hperm : readings.Perm readings') : Latest batchId occurrences held readings' record := by
  cases h with
  | unread hreadings => exact .unread (hreadings ▸ hperm).nil_eq.symm
  | read hversion hsource hreadings hheld =>
      refine .read hversion ?_ (fun reading hreading => hreadings reading (hperm.mem_iff.2 hreading)) hheld
      exact hsource.imp_right fun ⟨source, hmem, hrecord⟩ => ⟨source, hperm.mem_iff.1 hmem, hrecord⟩

theorem latest_of_readings {start current : RecordMap} {ordered : List (Version × Object)}
    (hordered : orderReadings input.readings = .ok ordered) (h : ordered.foldlM (addReading input) start = .ok current)
    (subject : String) :
    Latest input.batchId input.occurrences (start.get? subject) (readingsOf input.readings subject) (current.get? subject) := by
  obtain ⟨hperm, hversions, _⟩ := Readings.orderReadings_perm hordered
  have hrun : Latest input.batchId input.occurrences (start.get? subject) (readingsOf (ordered.map Prod.snd) subject)
      (current.get? subject) := by
    refine Runs.run_invariant (fun front (mid : RecordMap) => Latest input.batchId input.occurrences (start.get? subject)
      (readingsOf (front.map Prod.snd) subject) (mid.get? subject)) h (.unread rfl) ?_
    intro front entry back mid next hsplit hmid hnext
    rw [List.map_append]
    exact addReading_latest (hversions entry (by rw [hsplit]; simp)) hnext hmid
  exact hrun.perm (hperm.filter _)

theorem subject_of_readings {start current : RecordMap} {ordered : List (Version × Object)}
    (hordered : orderReadings input.readings = .ok ordered) (h : ordered.foldlM (addReading input) start = .ok current) :
    ∀ reading ∈ input.readings, ∃ subject ∈ input.subjects, readText reading "subject" = .ok subject := by
  intro reading hreading
  obtain ⟨hperm, _⟩ := Readings.orderReadings_perm hordered
  obtain ⟨entry, hentry, rfl⟩ := List.mem_map.1 (hperm.mem_iff.2 hreading)
  obtain ⟨front, back, rfl⟩ := List.append_of_mem hentry
  obtain ⟨_, _, _, hstep, _⟩ := Runs.run_split h
  obtain ⟨subject, hsubject, hstep⟩ := Except.bind_eq_ok.1 hstep
  rw [Except.ite_error_eq_ok, not_not] at hstep
  exact ⟨subject, hstep.1, hsubject⟩

def derivedFields : List String :=
  ["matching_keys", "matching_routes_sha256", "entity_id", "quarantined_id", "normalized_identifiers"]

variable {available : SortedMap String Object}

theorem routedKeys_get? {routes : Routes} {digest : String} {record routed : Object}
    (h : routedKeys routes digest available record = .ok routed) {name : String} (hname : name ∉ derivedFields) :
    routed.get? name = record.get? name := by
  obtain ⟨latestId, _, h⟩ := Except.bind_eq_ok.1 h
  cases hget : available.get? latestId with
  | none =>
      rw [hget] at h
      dsimp only at h
      split_ifs at h
      rw [← Except.ok.inj h]
  | some reading =>
      rw [hget] at h
      have hkeys : name ≠ "matching_keys" := fun heq => hname (by simp [derivedFields, heq])
      have hroutes : name ≠ "matching_routes_sha256" := fun heq => hname (by simp [derivedFields, heq])
      rw [← Except.ok.inj h, IndexMap.get?_insert_of_ne _ _ hroutes, IndexMap.get?_insert_of_ne _ _ hkeys]

theorem bindRecord_get? {record : Object} {name : String}
    (hname : name ∉ derivedFields) : (bindRecord input subject record).get? name = record.get? name := by
  have hentity : name ≠ "entity_id" := fun heq => hname (by simp [derivedFields, heq])
  have hquarantined : name ≠ "quarantined_id" := fun heq => hname (by simp [derivedFields, heq])
  rw [bindRecord, IndexMap.get?_insert_of_ne _ _ hquarantined, IndexMap.get?_insert_of_ne _ _ hentity]

variable {forms : TextForms}

theorem deriveRecord_get? {contracts : Contracts} {digest : String}
    {record derived : Object}
    (h : deriveRecord forms contracts digest available input subject record = .ok derived) {name : String}
    (hname : name ∉ derivedFields) : derived.get? name = record.get? name := by
  obtain ⟨routed, hrouted, h⟩ := Except.bind_eq_ok.1 h
  obtain ⟨normalized, _, h⟩ := Except.bind_eq_ok.1 h
  have hnormalized : name ≠ "normalized_identifiers" := fun heq => hname (by simp [derivedFields, heq])
  rw [← Except.ok.inj h, IndexMap.get?_insert_of_ne _ _ hnormalized, bindRecord_get? hname, routedKeys_get? hrouted hname]

theorem deriveRecord_sameReading {contracts : Contracts} {digest : String}
    {record derived : Object}
    (h : deriveRecord forms contracts digest available input subject record = .ok derived) : SameReading derived record where
  revision := by rw [readOptionalValue, readOptionalValue, deriveRecord_get? h (by decide)]
  mapping := by rw [mappingVersion, mappingVersion, deriveRecord_get? h (by decide)]
  assertion := by rw [readText, readText, deriveRecord_get? h (by decide)]

theorem currentRecords_eq_ok {digest : String → String} {records : RecordMap}
    (h : currentRecords forms digest input = .ok records) :
    ∃ contracts available, ∃ current : RecordMap, Matching.prepareIdentifierRules input.policy = .ok contracts ∧
      availableReadings input.readings = .ok available ∧
      (∀ subject, Latest input.batchId input.occurrences ((previousRecords input).get? subject)
        (readingsOf input.readings subject) (current.get? subject)) ∧
      (∀ reading ∈ input.readings, ∃ subject ∈ input.subjects, readText reading "subject" = .ok subject) ∧
      current.mapValuesM (deriveRecord forms contracts (digest (routesText input.candidateRoutes)) available input)
        = .ok records := by
  obtain ⟨_, _, h⟩ := Except.bind_eq_ok.1 h
  obtain ⟨contracts, hcontracts, h⟩ := Except.bind_eq_ok.1 h
  obtain ⟨available, havailable, h⟩ := Except.bind_eq_ok.1 h
  obtain ⟨ordered, hordered, h⟩ := Except.bind_eq_ok.1 h
  obtain ⟨current, hcurrent, h⟩ := Except.bind_eq_ok.1 h
  exact ⟨contracts, available, current, hcontracts, havailable, latest_of_readings hordered hcurrent,
    subject_of_readings hordered hcurrent, h⟩

theorem currentRecords_newest {digest : String → String} {records : RecordMap}
    (h : currentRecords forms digest input = .ok records) (hnew : input.previous.get? subject = none)
    {reading : Object} (hreading : reading ∈ readingsOf input.readings subject) :
    ∃ record version, records.get? subject = some record ∧ readRevision record = .ok version ∧
      (∃ newest ∈ readingsOf input.readings subject, SameReading record newest) ∧
      ∀ other ∈ readingsOf input.readings subject, AtMost record version other := by
  obtain ⟨contracts, available, current, _, _, hlatest, _, hderived⟩ := currentRecords_eq_ok h
  have hheld : (previousRecords input).get? subject = none := by
    rw [previousRecords, SortedMap.get?_filter, hnew]
    rfl
  have hlatest := hlatest subject
  rw [hheld] at hlatest
  generalize hcurrent : current.get? subject = held at hlatest
  cases hlatest with
  | unread hreadings =>
      rw [hreadings] at hreading
      cases hreading
  | @read record version hversion hsource hreadings _ =>
      obtain ⟨derived, hrecord⟩ := SortedMap.mapValuesM_ok_of_get? hderived hcurrent
      have hsame := deriveRecord_sameReading hrecord
      refine ⟨derived, version, (SortedMap.get?_mapValuesM hderived).2 ⟨record, hcurrent, hrecord⟩,
        hsame.readRevision.trans hversion, ?_, fun other hother => ?_⟩
      · obtain h | ⟨newest, hnewest, id, hid, hrecordOf⟩ := hsource
        · cases h
        · have hnewestSame := recordOf_sameReading hrecordOf hid
          exact ⟨newest, hnewest, hsame.revision.trans hnewestSame.revision, hsame.mapping.trans hnewestSame.mapping,
            hsame.assertion.trans hnewestSame.assertion⟩
      · obtain ⟨otherVersion, hother, hle, hid⟩ := hreadings other hother
        exact ⟨otherVersion, hother, hle, fun heq => (hid heq).trans hsame.assertion.symm⟩

end EdgarPlatform.Lookups
