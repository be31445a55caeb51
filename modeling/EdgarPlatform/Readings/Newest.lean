import EdgarPlatform.Lookups.Latest
import EdgarPlatform.Matching.Plan
import EdgarPlatform.Readings.Arrival

/-!
# One newest reading

The current records, the matching plan and the record lookups each choose a record's newest reading on their own: the first folds the readings in order and keeps the last, the second writes each over the one before it, the third replaces what it holds by what is newer. They choose one assertion, that of the greatest revision and mapping version.
-/

namespace EdgarPlatform.Readings

open Records (Json Object readOptionalValue)

/-- A reading of a record of the greatest version. -/
structure IsNewest (readings : List Object) (subject : String) (reading : Object) : Prop where
  mem : reading ∈ readings
  hsubject : Records.readText reading "subject" = .ok subject
  greatest : ∀ other ∈ readings, Records.readText other "subject" = .ok subject → nativeVersion other ≤ nativeVersion reading

/-- A reading of a source that is not retired, and that is in effect by a time. -/
structure InEffect (env : Env) (asOf : String) (retired : List String) (reading : Object) : Prop where
  source : ∀ source, Records.readText reading "source_code" = .ok source → source ∉ retired
  effective : ∀ text, reading.get? "effective_at" = some (.str text) →
    ∃ time clock, readTime env text = .ok time ∧ readTime env asOf = .ok clock ∧ time ≤ clock

namespace ReadAs

variable {body : Object} {reading : Reading}

theorem mappingText (h : ReadAs body reading) (hversion : HasVersion body) :
    reading.mappingText = rawText (mappingVersion body) := by
  rw [Reading.mappingText, ← h.mapping, optionalValue]
  rw [HasVersion, mappingVersion] at hversion
  rw [mappingVersion]
  cases hget : body.get? "mapping_version" with
  | none => rfl
  | some value =>
      rw [hget] at hversion
      obtain ⟨_, text, htext, _⟩ := hversion
      rw [Option.getD_some] at htext
      rw [htext]
      rfl

theorem version (h : ReadAs body reading) (hversion : HasVersion body) :
    reading.version = versionOf (rawText (readOptionalValue body "revision")) (rawText (mappingVersion body)) := by
  rw [Reading.version, h.mappingText hversion, readOptionalValue, h.revision, Option.getD_some]

theorem counts (h : ReadAs body reading) {env : Env} {asOf : String} {clock : Int} {retired : List String} {counted : Bool}
    (hkept : InEffect env asOf retired body) (hclock : readTime env asOf = .ok clock)
    (hcounted : reading.counts env clock retired = .ok counted) : reading.counts env clock retired = .ok true := by
  have hafter : reading.isAfter env clock = .ok false := by
    have heffective := h.effective
    rw [Reading.isAfter]
    cases hat : reading.effectiveAt with
    | none => rfl
    | some effective =>
        have hget : body.get? "effective_at" = some (.str effective) := by
          rw [hat, optionalText?] at heffective
          cases hget : body.get? "effective_at" with
          | none =>
              rw [hget] at heffective
              cases heffective
          | some value =>
              rw [hget] at heffective
              cases value <;> cases heffective
              rfl
        obtain ⟨time, clock', htime, hclock', hle⟩ := hkept.effective effective hget
        cases hclock.symm.trans hclock'
        show (readTime env effective).map (fun time => decide (clock < time)) = .ok false
        rw [htime, Except.map, decide_eq_false (not_lt.2 hle)]
  rw [Reading.counts, if_neg (hkept.source _ h.source), hafter, Except.bind_ok] at hcounted ⊢
  obtain ⟨_, hchecked, _⟩ := Except.bind_eq_ok.1 hcounted
  rw [if_neg Bool.false_ne_true, hchecked, Except.bind_ok]

end ReadAs

variable {subject : String} {readings : List Object}

theorem prepareCurrentRecords_newest {env : Env} {asOf : String} {retired : List String}
    {records : SortedMap String CurrentRecord} (h : prepareCurrentRecords env readings asOf retired = .ok records)
    (hversions : ∀ reading ∈ readings, HasVersion reading) (hkept : ∀ reading ∈ readings, InEffect env asOf retired reading)
    {reading : Object} (hreading : reading ∈ readings)
    (hsubject : Records.readText reading "subject" = .ok subject) :
    ∃ record newest, records.get? subject = some record ∧ IsNewest readings subject newest ∧
      Records.readText newest "assertion_id" = .ok record.assertionId := by
  obtain ⟨read, hread, h⟩ := Except.bind_eq_ok.1 h
  obtain ⟨clock, hclock, h⟩ := Except.bind_eq_ok.1 h
  obtain ⟨groups, hgroups, hrecords⟩ := Except.bind_eq_ok.1 h
  have hpairs : List.Forall₂ (fun body reading => body ∈ readings ∧ ReadAs body reading) readings read :=
    Runs.forall₂_imp_of_mem (Runs.mapM_eq_ok.1 hread) fun body reading hbody hreading => ⟨hbody, readReading_eq_ok hreading⟩
  -- Every reading of the subject counts.
  have hcounted : ∀ body ∈ readings, Records.readText body "subject" = .ok subject →
      ∃ reading ∈ countedOf env clock retired read subject, ReadAs body reading := by
    intro body hbody hbodySubject
    obtain ⟨other, hother, _, hreadAs⟩ := Runs.forall₂_exists_right hpairs hbody
    obtain ⟨counted, hcounts⟩ := groupReading_counts hgroups other hother
    refine ⟨other, mem_countedOf.2 ⟨hother, ?_, hreadAs.counts (hkept body hbody) hclock hcounts⟩, hreadAs⟩
    exact Except.ok.inj (hreadAs.subject.symm.trans hbodySubject)
  obtain ⟨own, hown, _⟩ := hcounted reading hreading hsubject
  have hget : groups.get? subject = some (countedOf env clock retired read subject) := by
    rw [groups_get? hgroups, if_neg (List.ne_nil_of_mem hown)]
  obtain ⟨record, hrecord⟩ := SortedMap.mapValuesM_ok_of_get? hrecords hget
  obtain ⟨newest, hnewest, hid, hgreatest⟩ := currentRecord_newest hrecord
  obtain ⟨hmem, hnewestSubject, _⟩ := mem_countedOf.1 hnewest
  obtain ⟨body, _, hbody, hreadAs⟩ := Runs.forall₂_exists_left hpairs hmem
  refine ⟨record, body, (SortedMap.get?_mapValuesM hrecords).2 ⟨_, hget, hrecord⟩,
    ⟨hbody, hnewestSubject ▸ hreadAs.subject, fun other hother hotherSubject => ?_⟩, hid ▸ hreadAs.assertion⟩
  obtain ⟨otherReading, hotherReading, hotherAs⟩ := hcounted other hother hotherSubject
  have hle := hgreatest otherReading hotherReading
  rw [hotherAs.version (hversions other hother), hreadAs.version (hversions body hbody)] at hle
  exact (versionOf_le_versionOf (hversions other hother) (hversions body hbody)).1 hle

theorem nativeVersion_le {body other : Object} {version version' : Version} (hversion : HasVersion body)
    (hversion' : HasVersion other) (h : readRevision body = .ok version) (h' : readRevision other = .ok version')
    (hle : version ≤ version') : nativeVersion body ≤ nativeVersion other := by
  cases hversion.readRevision.symm.trans h
  cases hversion'.readRevision.symm.trans h'
  exact (versionOf_le_versionOf hversion hversion').1 hle

theorem newestRecords_newest {assertions : List Object} {records : SortedMap String Object}
    (h : Matching.newestRecords assertions = .ok records) (hversions : ∀ reading ∈ assertions, HasVersion reading)
    {record : Object} (hget : records.get? subject = some record) : IsNewest assertions subject record := by
  obtain ⟨hmem, hsubject, version, hversion, hgreatest⟩ := Matching.newestRecords_get? h hget
  refine ⟨hmem, hsubject, fun other hother hotherSubject => ?_⟩
  obtain ⟨otherVersion, hotherVersion, hle⟩ := hgreatest other hother hotherSubject
  exact nativeVersion_le (hversions other hother) (hversions record hmem) hotherVersion hversion hle

theorem prepareRecordLookups_newest {forms : Matching.TextForms} {digest : String → String} {input : Lookups.RecordInputs}
    {records : Lookups.RecordMap} {changes : List Lookups.Entry}
    (h : Lookups.prepareRecordLookups forms digest input = .ok (records, changes))
    (hversions : ∀ reading ∈ input.readings, HasVersion reading)
    (hnew : input.previous.get? subject = none) {reading : Object} (hreading : reading ∈ input.readings)
    (hsubject : Records.readText reading "subject" = .ok subject) :
    ∃ record newest, records.get? subject = some record ∧ IsNewest input.readings subject newest ∧
      Lookups.SameReading record newest := by
  obtain ⟨current, hcurrent, h⟩ := Except.bind_eq_ok.1 h
  obtain ⟨before, _, h⟩ := Except.bind_eq_ok.1 h
  obtain ⟨after, _, h⟩ := Except.bind_eq_ok.1 h
  obtain ⟨rfl, _⟩ := Prod.mk.inj (Except.ok.inj h)
  obtain ⟨record, version, hget, hversion, ⟨newest, hnewest, hsame⟩, hgreatest⟩ :=
    Lookups.currentRecords_newest hcurrent hnew (Lookups.mem_readingsOf.2 ⟨hreading, hsubject⟩)
  obtain ⟨hmem, hnewestSubject⟩ := Lookups.mem_readingsOf.1 hnewest
  refine ⟨record, newest, hget, ⟨hmem, hnewestSubject, fun other hother hotherSubject => ?_⟩, hsame⟩
  obtain ⟨otherVersion, hotherVersion, hle, _⟩ := hgreatest other (Lookups.mem_readingsOf.2 ⟨hother, hotherSubject⟩)
  exact nativeVersion_le (hversions other hother) (hversions newest hmem) hotherVersion
    (hsame.readRevision.symm.trans hversion) hle

def VersionsNameAssertions (readings : List Object) : Prop :=
  ∀ reading ∈ readings, ∀ other ∈ readings, ∀ subject, Records.readText reading "subject" = .ok subject →
    Records.readText other "subject" = .ok subject → nativeVersion reading = nativeVersion other →
      Records.readText reading "assertion_id" = Records.readText other "assertion_id"

theorem exists_isNewest {reading : Object} (hreading : reading ∈ readings)
    (hsubject : Records.readText reading "subject" = .ok subject) : ∃ newest, IsNewest readings subject newest := by
  have hne := List.ne_nil_of_mem (Lookups.mem_readingsOf.2 ⟨hreading, hsubject⟩)
  obtain ⟨newest, hnewest⟩ := @Sorting.getLast?_sortByKey_exists _ _ _ nativeVersion _ hne
  obtain ⟨hmem, hgreatest⟩ := Sorting.getLast?_sortByKey hnewest
  obtain ⟨hmem, hnewestSubject⟩ := Lookups.mem_readingsOf.1 hmem
  exact ⟨newest, hmem, hnewestSubject, fun other hother hotherSubject =>
    hgreatest other (Lookups.mem_readingsOf.2 ⟨hother, hotherSubject⟩)⟩

theorem IsNewest.assertion_eq {newest other : Object}
    (h : IsNewest readings subject newest) (h' : IsNewest readings subject other)
    (hassertions : VersionsNameAssertions readings) :
    Records.readText newest "assertion_id" = Records.readText other "assertion_id" := by
  apply hassertions newest h.mem other h'.mem subject h.hsubject h'.hsubject
  apply le_antisymm
  · exact h'.greatest newest h.mem h.hsubject
  · exact h.greatest other h'.mem h'.hsubject

/-- The current records, the matching plan and the record lookups take one assertion for a record's newest. -/
theorem newest_readings_agree {readings : List Object} (hversions : ∀ reading ∈ readings, HasVersion reading)
    (hassertions : VersionsNameAssertions readings) {reading : Object} (hreading : reading ∈ readings) {subject : String}
    (hsubject : Records.readText reading "subject" = .ok subject) :
    ∃ newest, IsNewest readings subject newest ∧
      (∀ env asOf retired records, (∀ reading ∈ readings, InEffect env asOf retired reading) →
        prepareCurrentRecords env readings asOf retired = .ok records →
          ∃ record, records.get? subject = some record ∧ Records.readText newest "assertion_id" = .ok record.assertionId) ∧
      (∀ forms test input plan, input.assertions = readings → Matching.planRecordMatches forms test input = .ok plan →
        ∃ record, plan.toPlan.records.get? subject = some record ∧ IsNewest readings subject record ∧
          Records.readText record "assertion_id" = Records.readText newest "assertion_id" ∧
          ∀ items, plan.toPlan.applicable.get? subject = some items →
            ∃ book, Matching.readRulebook forms test input = .ok book ∧ Matching.recordMatches book record = .ok items) ∧
      ∀ forms digest input records changes, input.readings = readings → input.previous.get? subject = none →
        Lookups.prepareRecordLookups forms digest input = .ok (records, changes) →
          ∃ record, records.get? subject = some record ∧
            Records.readText record "assertion_id" = Records.readText newest "assertion_id" ∧
            nativeVersion record = nativeVersion newest := by
  obtain ⟨newest, hnewest⟩ := exists_isNewest hreading hsubject
  refine ⟨newest, hnewest, ?_, ?_, ?_⟩
  · intro env asOf retired records hkept h
    obtain ⟨record, own, hget, hown, hid⟩ := prepareCurrentRecords_newest h hversions hkept hreading hsubject
    exact ⟨record, hget, (hnewest.assertion_eq hown hassertions).trans hid⟩
  · rintro forms test input plan rfl h
    obtain ⟨hrecords, book, decided, hbook, _, happlicable⟩ := Matching.planRecordMatches_get? h
    obtain ⟨record, hget⟩ := Matching.newestRecords_contains hrecords hreading hsubject
    have hown := newestRecords_newest hrecords hversions hget
    refine ⟨record, (SortedMap.get?_indexMap _ _).trans hget, hown, hown.assertion_eq hnewest hassertions, ?_⟩
    intro items hitems
    obtain ⟨_, _, other, hother, hmatches⟩ := (happlicable subject items).1 ((SortedMap.get?_indexMap _ _).symm.trans hitems)
    cases hget.symm.trans hother
    exact ⟨book, hbook, hmatches⟩
  · rintro forms digest input records changes rfl hnew h
    obtain ⟨record, own, hget, hown, hsame⟩ := prepareRecordLookups_newest h hversions hnew hreading hsubject
    refine ⟨record, hget, hsame.assertion.trans (hown.assertion_eq hnewest hassertions), ?_⟩
    have hnative : nativeVersion record = nativeVersion own := by
      rw [nativeVersion, nativeVersion, hsame.revision, hsame.mapping]
    rw [hnative]
    apply le_antisymm
    · exact hnewest.greatest own hown.mem hown.hsubject
    · exact hown.greatest newest hnewest.mem hnewest.hsubject

def sampleEnv : Env where
  instant raw := if raw = "2026-01-01T00:00:00+00:00" then some 0 else none
  digest := id

def sampleReading (id revision : String) : Object :=
  .ofList [("assertion_id", .str id), ("subject", .str "s"), ("source_code", .str "example"), ("record_key", .str "r"),
    ("publication_key", .str "p"), ("revision", .num revision), ("kind", .str "record"), ("fields", .obj []),
    ("identifiers", .obj []), ("profiles", .arr []), ("relationships", .arr [])]

def sampleReadings : List Object := [sampleReading "b" "10", sampleReading "a" "9"]

theorem sample_versions : ∀ reading ∈ sampleReadings, HasVersion reading := by
  have hone : IsInteger (.num "1") := ⟨"1", rfl, Digits.isInteger_of_all (by decide) (by decide)⟩
  simp only [sampleReadings, List.forall_mem_cons, List.not_mem_nil, false_imp_iff, implies_true, and_true]
  exact ⟨⟨⟨"10", rfl, Digits.isInteger_of_all (by decide) (by decide)⟩, hone⟩,
    ⟨⟨"9", rfl, Digits.isInteger_of_all (by decide) (by decide)⟩, hone⟩⟩

theorem sample_inEffect : ∀ reading ∈ sampleReadings, InEffect sampleEnv "2026-01-01T00:00:00+00:00" [] reading := by
  simp only [sampleReadings, List.forall_mem_cons, List.not_mem_nil, false_imp_iff, implies_true, and_true]
  exact ⟨⟨fun _ _ h => (nomatch h), fun _ h => (nomatch h)⟩, ⟨fun _ _ h => (nomatch h), fun _ h => (nomatch h)⟩⟩

/-- Revision 10 is newer than revision 9. -/
theorem newest_readings_agree_ten :
    ∃ newest, IsNewest sampleReadings "s" newest ∧ Records.readText newest "assertion_id" = .ok "b" := by
  have hassertions : VersionsNameAssertions sampleReadings := by
    intro reading hreading other hother _ _ _ hsame
    have hdistinct : ∀ reading ∈ sampleReadings, ∀ other ∈ sampleReadings, nativeVersion reading = nativeVersion other →
        Records.readText reading "assertion_id" = Records.readText other "assertion_id" := by decide +kernel
    exact hdistinct reading hreading other hother hsame
  obtain ⟨newest, hnewest, hcurrent, _⟩ := newest_readings_agree sample_versions hassertions
    (List.mem_cons_self ..) (rfl : Records.readText (sampleReading "b" "10") "subject" = .ok "s")
  obtain ⟨records, hrecords, hid⟩ : ∃ records,
      prepareCurrentRecords sampleEnv sampleReadings "2026-01-01T00:00:00+00:00" [] = .ok records ∧
        (records.get? "s").map CurrentRecord.assertionId = some "b" := by decide +kernel
  obtain ⟨record, hget, hassertion⟩ := hcurrent sampleEnv _ [] records sample_inEffect hrecords
  rw [hget] at hid
  exact ⟨newest, hnewest, hassertion.trans (congrArg Except.ok (Option.some.inj hid))⟩

end EdgarPlatform.Readings
