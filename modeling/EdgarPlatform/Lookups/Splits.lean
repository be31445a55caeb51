import EdgarPlatform.Lookups.Retained

/-!
# The index does not depend on how readings came

However readings are split into calls, and in whatever order they come, the index comes to the same, but for what a record says of the batch that supplied it.
-/

namespace EdgarPlatform.Lookups

open Records (Json Object readText readObject readOptionalValue writeSortedJson same_normal)
open Matching (TextForms Contracts)
open Readings (Version readRevision mappingVersion)

variable {forms : TextForms} {digest : String → String}

def supplyFields : List String := ["batch_id", "bronze"]

/-- What two calls calculate of a subject is calculated from the same. -/
structure SameContext (last other : RecordInputs) (subject : String) : Prop where
  bindings : last.bindings.get? subject = other.bindings.get? subject
  quarantined : last.quarantined.get? subject = other.quarantined.get? subject
  policy : last.policy = other.policy
  normalizers : last.normalizers = other.normalizers
  candidateRoutes : last.candidateRoutes = other.candidateRoutes

/-- Two lists of calls give the same readings of each subject, and last touch it in the same context. -/
structure SameSupply (inputs others : List RecordInputs) (subject : String) : Prop where
  readings : ∀ reading ∈ seenReadings inputs subject, ∃ other ∈ seenReadings others subject, Object.Same reading other
  back : ∀ other ∈ seenReadings others subject, ∃ reading ∈ seenReadings inputs subject, Object.Same other reading
  context : ∀ last other, lastCall inputs subject = some last → lastCall others subject = some other →
    SameContext last other subject

/-- Two stores hold the same of a subject, but for what its record says of the batch that supplied it. -/
structure SameIndex (store other : Store) (subject : String) : Prop where
  groups : ∀ group, group ≠ recordType → store.get? (toLex (group, subject)) = other.get? (toLex (group, subject))
  stored : (storedRecord store subject).isSome = (storedRecord other subject).isSome
  record : ∀ record record', storedRecord store subject = some record → storedRecord other subject = some record' →
    ∀ name, name ∉ supplyFields → record.get? name = record'.get? name

theorem recordGroups_insert (record : Object) {name : String} (hname : name ∈ supplyFields) (value : Json) :
    recordGroups (record.insert name value) = recordGroups record := by
  have hget : ∀ key, key ∉ supplyFields → (record.insert name value).get? key = record.get? key :=
    fun key hkey => IndexMap.get?_insert_of_ne _ _ fun heq => hkey (heq ▸ hname)
  have htext : ∀ key, key ∉ supplyFields → readText (record.insert name value) key = readText record key :=
    fun key hkey => by rw [readText, readText, hget key hkey]
  have hobject : ∀ key, key ∉ supplyFields → readObject (record.insert name value) key = readObject record key :=
    fun key hkey => by rw [readObject, readObject, hget key hkey]
  have hvalue : Records.hasValue (record.insert name value) "entity_id" = Records.hasValue record "entity_id" := by
    rw [Records.hasValue, Records.hasValue, hget _ (by decide)]
  have hgroup : identifierGroup (record.insert name value) = identifierGroup record := by
    funext idNamespace text
    rw [identifierGroup, identifierGroup, bindingState, bindingState, hvalue, htext _ (by decide)]
  have hidentifiers : identifierGroups (record.insert name value) = identifierGroups record := by
    funext entry
    rw [identifierGroups, identifierGroups, hgroup]
  have hnames : nameGroups (record.insert name value) = nameGroups record := by
    funext entry
    rw [nameGroups, nameGroups, htext _ (by decide)]
  rw [recordGroups, recordGroups, memberGroups, memberGroups, hvalue, htext _ (by decide), hobject _ (by decide),
    hidentifiers, hobject _ (by decide), hobject _ (by decide), hnames]

theorem recordGroups_sameBut {record other : Object} (h : Object.SameBut supplyFields record other) {groups : List String}
    (hgroups : recordGroups record = .ok groups) :
    ∃ groups', recordGroups other = .ok groups' ∧ ∀ group, group ∈ groups ↔ group ∈ groups' := by
  have hsame : Object.Same ((record.insert "batch_id" .null).insert "bronze" .null)
      ((other.insert "batch_id" .null).insert "bronze" .null) := ((h.insert rfl).insert rfl).same
  have hgroups' : recordGroups ((record.insert "batch_id" .null).insert "bronze" .null) = .ok groups := by
    rw [recordGroups_insert _ (by decide), recordGroups_insert _ (by decide), hgroups]
  obtain ⟨groups', hother, hmem⟩ := recordGroups_same hsame hgroups'
  rw [recordGroups_insert _ (by decide), recordGroups_insert _ (by decide)] at hother
  exact ⟨groups', hother, hmem⟩

theorem mappingVersion_same {reading other : Object} (h : Object.Same reading other) :
    (mappingVersion reading).normal = (mappingVersion other).normal := by
  rw [mappingVersion, mappingVersion]
  cases hget : reading.get? "mapping_version" with
  | none => rw [h.get?_none hget]
  | some value =>
      obtain ⟨value', hget', hvalue⟩ := h.get?_some hget
      rw [hget']
      exact hvalue

theorem lookupEntry_sameBut {names : List String} {entries others : List (String × Json)}
    (h : List.Forall₂ (fun a b => a.1 = b.1 ∧ (a.1 ∉ names → a.2.normal = b.2.normal)) entries others) {name : String}
    (hname : name ∉ names) :
    (IndexMap.lookupEntry name entries).map Json.normal = (IndexMap.lookupEntry name others).map Json.normal := by
  induction h with
  | nil => rfl
  | @cons a b _ _ hhead _ ih =>
      rw [IndexMap.lookupEntry, IndexMap.lookupEntry, ← hhead.1]
      split_ifs with hkey
      · exact congrArg some (hhead.2 (hkey ▸ hname))
      · exact ih

theorem recordOf_same {batchId batchId' id : String} {occurrences occurrences' : SortedMap String Object}
    {reading other base base' : Object} (h : Object.Same reading other)
    (hbase : recordOf batchId occurrences reading id = .ok base) (hbase' : recordOf batchId' occurrences' other id = .ok base') :
    Object.SameBut supplyFields base base' := by
  obtain ⟨references, hrecord⟩ := recordOf_eq_ok hbase
  obtain ⟨references', hrecord'⟩ := recordOf_eq_ok hbase'
  obtain ⟨own, hown, hreferences⟩ := h.readObject hrecord.hreferences
  cases hrecord'.hreferences.symm.trans hown
  intro name hname
  by_cases hcopied : name ∈ copiedFields
  · rw [hrecord.hcopied name hcopied, hrecord'.hcopied name hcopied]
    exact congrArg some (h.readOptionalValue name)
  · rw [hrecord.hadded name hcopied, hrecord'.hadded name hcopied]
    refine lookupEntry_sameBut ?_ hname
    refine .cons ⟨rfl, fun _ => mappingVersion_same h⟩ (.cons ⟨rfl, fun _ => hreferences.toJson⟩ ?_)
    exact .cons ⟨rfl, fun hnot => absurd (by simp [supplyFields]) hnot⟩
      (.cons ⟨rfl, fun hnot => absurd (by simp [supplyFields]) hnot⟩ .nil)

variable {subject : String}

theorem deriveRecord_context {contracts : Contracts} {sha : String} {available : SortedMap String Object}
    {last other : RecordInputs} (h : SameContext last other subject) (record : Object) :
    deriveRecord forms contracts sha available last subject record =
      deriveRecord forms contracts sha available other subject record := by
  have hbind : bindRecord last subject = bindRecord other subject := by
    funext record
    rw [bindRecord, bindRecord, h.bindings, h.quarantined]
  rw [deriveRecord, deriveRecord, h.candidateRoutes, h.normalizers, hbind]

theorem directRecord_same {last last' supplier supplier' : RecordInputs} {reading reading' record record' : Object}
    (hcontext : SameContext last last' subject) (hreading : Object.Same reading reading')
    (h : directRecord forms digest last supplier subject reading = .ok record)
    (h' : directRecord forms digest last' supplier' subject reading' = .ok record') : Object.SameBut supplyFields record record' := by
  obtain ⟨base, id, contracts, hdirect⟩ := directRecord_eq_ok.1 h
  obtain ⟨base', id', contracts', hdirect'⟩ := directRecord_eq_ok.1 h'
  have hid : id = id' := Except.ok.inj (hdirect.hid.symm.trans ((hreading.readText _).trans hdirect'.hid))
  subst hid
  have hcontracts := hdirect'.hcontracts
  rw [← hcontext.policy] at hcontracts
  cases hdirect.hcontracts.symm.trans hcontracts
  have hderived' := hdirect'.hderived
  rw [← deriveRecord_context hcontext, ← hcontext.candidateRoutes] at hderived'
  have hbase := recordOf_same hreading hdirect.hbase hdirect'.hbase
  have hrouted : ∀ {base reading : Object}, readText base "assertion_id" = .ok id →
      routedKeys last.candidateRoutes (digest (routesText last.candidateRoutes)) (.ofList [(id, reading)]) base =
        .ok ((base.insert "matching_keys" (Object.toJson (readCandidateKeys reading last.candidateRoutes))).insert
          "matching_routes_sha256" (.str (digest (routesText last.candidateRoutes)))) := by
    intro base reading hid
    have hown : (SortedMap.ofList [(id, reading)]).get? id = some reading := by
      rw [SortedMap.get?_ofList]
      simp [IndexMap.lookupEntry]
    rw [routedKeys, hid, Except.bind_ok, hown]
  have hbaseId := hdirect.base_sameReading.assertion.trans hdirect.hid
  have hbaseId' := hdirect'.base_sameReading.assertion.trans hdirect'.hid
  have hkeys := readCandidateKeys_same hreading last.candidateRoutes
  have hsame : Object.SameBut ("entity_id" :: "quarantined_id" :: "normalized_identifiers" :: supplyFields)
      ((base.insert "matching_keys" (Object.toJson (readCandidateKeys reading last.candidateRoutes))).insert
        "matching_routes_sha256" (.str (digest (routesText last.candidateRoutes))))
      ((base'.insert "matching_keys" (Object.toJson (readCandidateKeys reading' last.candidateRoutes))).insert
        "matching_routes_sha256" (.str (digest (routesText last.candidateRoutes)))) := by
    rw [hkeys]
    refine Object.SameBut.insert (Object.SameBut.insert (fun name hname => hbase name fun hmem => hname ?_) rfl) rfl
    simp [hmem]
  obtain ⟨derived, hderived, hsame⟩ :=
    deriveRecord_of_routed (by decide) (hrouted hbaseId) (hrouted hbaseId') hsame hdirect.hderived
  cases hderived.symm.trans hderived'
  exact hsame

theorem newest_same {inputs others : List RecordInputs} (hsupply : SameSupply inputs others subject)
    (hvalid : ∀ input ∈ inputs, ValidInputs input) (hvalid' : ∀ input ∈ others, ValidInputs input)
    (hnames : AssertionsNameReadings (inputs ++ others)) {reading other : Object}
    (h : Newest (seenReadings inputs subject) reading) (h' : Newest (seenReadings others subject) other)
    {id id' : String} (hid : readText reading "assertion_id" = .ok id) (hid' : readText other "assertion_id" = .ok id') :
    Object.Same reading other := by
  have hread : ∀ {inputs : List RecordInputs} {reading other : Object} {version : Version},
      (∀ input ∈ inputs, ValidInputs input) → reading ∈ seenReadings inputs subject → Object.Valid other →
        Object.Same reading other → readRevision reading = .ok version → ∀ {own}, readRevision other = .ok own → own = version := by
    intro inputs reading other version hvalid hmem hother hsame hversion own hown
    obtain ⟨input, hinput, hreading⟩ := List.mem_flatMap.1 hmem
    have hnormal := readRevision_normal ((hvalid input hinput).readings _ (mem_readingsOf.1 hreading).1) hversion
    rw [Records.normal_eq_of_same hsame] at hnormal
    exact Except.ok.inj ((readRevision_normal hother hown).symm.trans hnormal)
  have hmemValid : ∀ {inputs : List RecordInputs} {reading : Object}, (∀ input ∈ inputs, ValidInputs input) →
      reading ∈ seenReadings inputs subject → Object.Valid reading := by
    intro inputs reading hvalid hmem
    obtain ⟨input, hinput, hreading⟩ := List.mem_flatMap.1 hmem
    exact (hvalid input hinput).readings _ (mem_readingsOf.1 hreading).1
  obtain ⟨version, hversion, hgreatest⟩ := h.greatest
  obtain ⟨version', hversion', hgreatest'⟩ := h'.greatest
  obtain ⟨reading', hreading', hsame⟩ := hsupply.readings reading h.mem
  obtain ⟨other', hother', hsame'⟩ := hsupply.back other h'.mem
  obtain ⟨own, hown, hle, hassertion⟩ := hgreatest' reading' hreading'
  obtain ⟨own', hown', hle', _⟩ := hgreatest other' hother'
  have hownVersion := hread hvalid h.mem (hmemValid hvalid' hreading') hsame hversion hown
  have hownVersion' := hread hvalid' h'.mem (hmemValid hvalid hother') hsame' hversion' hown'
  have hequal : own = version' := le_antisymm hle (hownVersion' ▸ hownVersion ▸ hle')
  have hids : id = id' := by
    have htext := (hsame.readText "assertion_id").trans (hassertion hequal)
    exact Except.ok.inj (hid.symm.trans (htext.trans hid'))
  obtain ⟨input, hinput, hmem⟩ := List.mem_flatMap.1 h.mem
  obtain ⟨input', hinput', hmem'⟩ := List.mem_flatMap.1 h'.mem
  exact hnames input (List.mem_append_left _ hinput) input' (List.mem_append_right _ hinput') reading
    (mem_readingsOf.1 hmem).1 other (mem_readingsOf.1 hmem').1 id hid (hids ▸ hid')

theorem sameIndex {inputs others : List RecordInputs} {store other : Store}
    (hsupply : SameSupply inputs others subject) (hvalid : ∀ input ∈ inputs, ValidInputs input)
    (hvalid' : ∀ input ∈ others, ValidInputs input) (hnames : AssertionsNameReadings (inputs ++ others))
    (hholds : Holds forms digest inputs store subject) (hholds' : Holds forms digest others other subject) :
    SameIndex store other subject := by
  cases hholds with
  | unseen hseen hstore =>
      cases hholds' with
      | unseen hseen' hstore' =>
          have hnone : storedRecord store subject = none := by
            rw [storedRecord, hstore (recordKey subject) rfl]
            rfl
          have hnone' : storedRecord other subject = none := by
            rw [storedRecord, hstore' (recordKey subject) rfl]
            rfl
          refine ⟨fun group _ => ?_, by rw [hnone, hnone'], fun record _ hrecord => ?_⟩
          · rw [hstore _ rfl, hstore' _ rfl]
          · rw [hnone] at hrecord
            cases hrecord
      | seen hrecord' _ _ _ =>
          obtain ⟨_, _, reading, _, _, _, hnewest, _⟩ := hrecord'
          obtain ⟨_, hmem, _⟩ := hsupply.back reading hnewest.mem
          rw [hseen] at hmem
          cases hmem
  | @seen record entries hrecord hrecordValid hentries hstore =>
      obtain ⟨last, supplier, reading, hlast, _, _, hnewest, hdirect⟩ := hrecord
      cases hholds' with
      | unseen hseen' _ =>
          obtain ⟨_, hmem, _⟩ := hsupply.readings reading hnewest.mem
          rw [hseen'] at hmem
          cases hmem
      | @seen record' entries' hrecord' hrecordValid' hentries' hstore' =>
          obtain ⟨last', supplier', reading', hlast', _, _, hnewest', hdirect'⟩ := hrecord'
          obtain ⟨base, id, contracts, hparts⟩ := directRecord_eq_ok.1 hdirect
          obtain ⟨base', id', contracts', hparts'⟩ := directRecord_eq_ok.1 hdirect'
          have hreading := newest_same hsupply hvalid hvalid' hnames hnewest hnewest' hparts.hid hparts'.hid
          have hsame := directRecord_same (hsupply.context last last' hlast hlast') hreading hdirect hdirect'
          have hstored := storedRecord_of_entries hrecordValid hentries (hstore (recordKey subject) rfl)
          have hstored' := storedRecord_of_entries hrecordValid' hentries' (hstore' (recordKey subject) rfl)
          obtain ⟨groups, hgroups, hget⟩ := recordEntries_get? hentries
          obtain ⟨groups', hgroups', hget'⟩ := recordEntries_get? hentries'
          obtain ⟨own, hown, hmem⟩ := recordGroups_sameBut hsame hgroups
          cases hgroups'.symm.trans hown
          refine ⟨fun group hgroup => ?_, by rw [hstored, hstored']; rfl, ?_⟩
          · have hne : (toLex (group, subject) : Key) ≠ recordKey subject :=
              fun heq => hgroup (congrArg (fun key : Key => (ofLex key).1) heq)
            rw [hstore _ rfl, hstore' _ rfl, hget, hget', if_neg hne, if_neg hne]
            simp only [ofLex_toLex, hmem]
          · intro kept kept' hkept hkept' name hname
            cases hstored.symm.trans hkept
            cases hstored'.symm.trans hkept'
            rw [Records.get?_normal, Records.get?_normal, hsame name hname]

theorem exists_records {inputs : List RecordInputs} {store : Store}
    (hholds : ∀ subject, Holds forms digest inputs store subject) :
    ∃ records : RecordMap, (∀ subject record, records.get? subject = some record → Collected forms digest inputs subject record) ∧
      (∀ subject, records.get? subject = none ↔ seenReadings inputs subject = []) ∧ collectEntries records = .ok store := by
  classical
  let holdsRecord : String → Object → Prop := fun subject record => Collected forms digest inputs subject record ∧
    ∃ entries, recordEntries subject record = .ok entries ∧
      ∀ key : Key, (ofLex key).2 = subject → store.get? key = (SortedMap.ofList entries).get? key
  let recordFor : String → Option Object := fun subject =>
    if h : ∃ record, holdsRecord subject record then some h.choose else none
  have hrecordFor : ∀ subject record, recordFor subject = some record → holdsRecord subject record := by
    intro subject record hrecord
    simp only [recordFor] at hrecord
    split_ifs at hrecord with h
    exact Option.some.inj hrecord ▸ h.choose_spec
  have hscope : ∀ subject record, holdsRecord subject record → subject ∈ inputs.flatMap RecordInputs.subjects := by
    rintro subject record ⟨⟨last, _, _, hlast, _⟩, _⟩
    obtain ⟨hmem, hsubject⟩ := List.mem_filter.1 (List.mem_of_getLast? hlast)
    exact List.mem_flatMap.2 ⟨last, hmem, of_decide_eq_true hsubject⟩
  let records : RecordMap := .ofList ((inputs.flatMap RecordInputs.subjects).filterMap fun subject =>
    (recordFor subject).map fun record => (subject, record))
  have hget : ∀ subject, records.get? subject = recordFor subject := by
    intro subject
    rw [SortedMap.get?_ofList_filterMap]
    split_ifs with hsubject
    · rfl
    · refine (Option.eq_none_iff_forall_ne_some.2 fun record hrecord => hsubject ?_).symm
      exact hscope subject record (hrecordFor subject record hrecord)
  have hnone : ∀ subject, records.get? subject = none ↔ seenReadings inputs subject = [] := by
    intro subject
    rw [hget]
    constructor
    · intro hempty
      cases hholds subject with
      | unseen hseen _ => exact hseen
      | @seen record entries hrecord _ hentries hstore =>
          have hexists : ∃ record, holdsRecord subject record := ⟨record, hrecord, entries, hentries, hstore⟩
          simp only [recordFor, dif_pos hexists] at hempty
          cases hempty
    · intro hseen
      refine Option.eq_none_iff_forall_ne_some.2 fun record hrecord => ?_
      obtain ⟨⟨_, _, reading, _, _, _, hnewest, _⟩, _⟩ := hrecordFor subject record hrecord
      have hmem := hnewest.mem
      rw [hseen] at hmem
      cases hmem
  obtain ⟨collected, hcollected⟩ : ∃ collected, collectEntries records = .ok collected := by
    refine exists_collectEntries fun subject record hrecord => ?_
    obtain ⟨_, entries, hentries, _⟩ := hrecordFor subject record (hget subject ▸ hrecord)
    exact ⟨entries, hentries⟩
  refine ⟨records, fun subject record hrecord => (hrecordFor subject record (hget subject ▸ hrecord)).1, hnone, ?_⟩
  rw [hcollected]
  refine congrArg Except.ok (SortedMap.ext_get? fun key => ?_)
  have hkey := collectEntries_get? hcollected (rfl : (ofLex key).2 = (ofLex key).2)
  cases hrecord : records.get? (ofLex key).2 with
  | none =>
      rw [hkey.1 hrecord]
      cases hholds (ofLex key).2 with
      | unseen _ hstore => exact (hstore key rfl).symm
      | seen hcollectedRecord _ _ _ =>
          obtain ⟨_, _, reading, _, _, _, hnewest, _⟩ := hcollectedRecord
          have hmem := hnewest.mem
          rw [(hnone _).1 hrecord] at hmem
          cases hmem
  | some record =>
      obtain ⟨entries, hentries, hown⟩ := hkey.2 record hrecord
      obtain ⟨_, entries', hentries', hstore⟩ := hrecordFor _ record (hget _ ▸ hrecord)
      cases hentries.symm.trans hentries'
      rw [hown, hstore key rfl]

/-- Whatever the calls, the store is the entries of the newest reading of each subject; a call leaves other subjects alone;
and calls that give the same readings in another way come to the same index, but for the batches that supplied them. -/
theorem record_lookups_exact {inputs : List RecordInputs} {store : Store} (hrun : RecordRun forms digest inputs store)
    (hnames : AssertionsNameReadings inputs) (hroutes : DigestsNameRoutes digest inputs) :
    (∃ records : RecordMap,
      (∀ subject record, records.get? subject = some record → Collected forms digest inputs subject record) ∧
      (∀ subject, records.get? subject = none ↔ seenReadings inputs subject = []) ∧ collectEntries records = .ok store) ∧
    (∀ input next, RecordStep forms digest store input next →
      ∀ key : Key, (ofLex key).2 ∉ input.subjects → next.get? key = store.get? key) ∧
    ∀ others other, RecordRun forms digest others other → AssertionsNameReadings (inputs ++ others) →
      DigestsNameRoutes digest others → (∀ subject, SameSupply inputs others subject) →
        ∀ subject, SameIndex store other subject := by
  have hholds := hrun.holds hnames hroutes
  refine ⟨exists_records hholds, ?_, ?_⟩
  · intro input next hstep key hkey
    obtain ⟨records, changes, hok, rfl⟩ := hstep.result
    obtain ⟨contracts, available, current, before, after, hlooked, hchanges⟩ := prepareRecordLookups_looked hok
    rw [hlooked.get?_next hholds hstep.supplied hchanges, if_neg hkey]
  · intro others other hother hnamesBoth hroutes' hsupply subject
    have hnames' := hnamesBoth.subset (List.subset_append_right inputs others)
    exact sameIndex (hsupply subject) hrun.valid hother.valid hnamesBoth (hholds subject) (hother.holds hnames' hroutes' subject)

def callRecords (forms : TextForms) (digest : String → String) (store : Store) (input : RecordInputs) : Option Store :=
  (prepareRecordLookups forms digest input).toOption.map fun result => applyEntries store result.2

theorem step_of_callRecords {store next : Store} {input : RecordInputs} (hsupplied : Supplied store input)
    (h : callRecords forms digest store input = some next) : RecordStep forms digest store input next := by
  obtain ⟨⟨records, changes⟩, hok, rfl⟩ := Option.map_eq_some_iff.1 h
  refine ⟨hsupplied, records, changes, ?_, rfl⟩
  cases hresult : prepareRecordLookups forms digest input with
  | error fail =>
      rw [hresult] at hok
      cases hok
  | ok result =>
      rw [hresult] at hok
      cases hok
      rfl

def plainForms : TextForms where
  identifier := fun value _ => value
  conformedName := id
  name := fun value _ => value
  uppercase := id
  isDecimal := Char.isDigit

def sampleReading (id revision : String) : Object :=
  .ofList [("subject", .str "s"), ("source_code", .str "sec"), ("assertion_id", .str id), ("revision", .num revision),
    ("cross_references", .obj []), ("identifiers", .obj [])]

def sampleCall (reading : Object) (previous : RecordMap) : RecordInputs where
  readings := [reading]
  previous := previous
  subjects := ["s"]
  bindings := .ofList [("s", "e")]
  quarantined := .empty
  policy := .ofList [("kinds", .obj [])]
  normalizers := .empty
  batchId := "b"
  occurrences := .empty
  candidateRoutes := .empty

def newerCall : RecordInputs := sampleCall (sampleReading "r2" "10") .empty

/-- The record stored of the sample's subject, as the next call is given it. -/
def sampleStored : RecordMap :=
  .ofList (((callRecords plainForms id .empty newerCall).bind fun store => storedRecord store "s").toList.map
    fun record => ("s", record))

def olderCall : RecordInputs := sampleCall (sampleReading "r1" "9") sampleStored

theorem sampleReading_valid {id revision : String} (hrevision : (Json.num revision).Valid) :
    Object.Valid (sampleReading id revision) := by
  refine .ofList fun entry hentry => ?_
  simp only [List.mem_cons, List.not_mem_nil, or_false] at hentry
  rcases hentry with rfl | rfl | rfl | rfl | rfl | rfl
  · exact .str _
  · exact .str _
  · exact .str _
  · exact hrevision
  · exact .obj (fun _ h => (nomatch h))
  · exact .obj (fun _ h => (nomatch h))

theorem sampleCall_valid {id revision : String} {previous : RecordMap} (hrevision : (Json.num revision).Valid) :
    ValidInputs (sampleCall (sampleReading id revision) previous) where
  readings := fun reading hreading => by
    obtain rfl := List.mem_singleton.1 hreading
    exact sampleReading_valid hrevision
  occurrences := fun _ _ h => (nomatch h)

theorem sampleStored_get? {store : Store} (h : callRecords plainForms id .empty newerCall = some store) :
    sampleStored.get? "s" = storedRecord store "s" := by
  rw [sampleStored, h, Option.bind_some]
  cases storedRecord store "s" with
  | none => rfl
  | some record => rfl

/-- The record the first call leaves. -/
def sampleRecord : Object :=
  .ofList [("assertion_id", .str "r2"), ("batch_id", .str "b"), ("bronze", .null), ("cross_references", .obj []), ("effective_at", .null),
    ("entity_id", .str "e"), ("identifiers", .obj []), ("kind", .null), ("mapping_version", .num "1"), ("matching_keys", .obj []),
    ("matching_routes_sha256", .str "\x7b\x7d"), ("normalized_identifiers", .obj []), ("publication_key", .null),
    ("quarantined_id", .null), ("record_key", .null), ("revision", .num "10"), ("source_code", .str "sec"), ("subject", .str "s")]

theorem sampleRecord_valid : Object.Valid sampleRecord := by
  refine .ofList fun entry hentry => ?_
  simp only [List.mem_cons, List.not_mem_nil, or_false] at hentry
  rcases hentry with rfl | rfl | rfl | rfl | rfl | rfl | rfl | rfl | rfl | rfl | rfl | rfl | rfl | rfl | rfl | rfl | rfl | rfl
  all_goals first | exact .str _ | exact .null | exact .num (by decide) | exact .obj (fun _ h => (nomatch h))

theorem sampleStored_eq : sampleStored = .ofList [("s", Object.normal sampleRecord)] := by
  have htext : ((callRecords plainForms id .empty newerCall).bind fun store => store.get? (recordKey "s")) =
      some (writeSortedJson (Object.toJson sampleRecord)) := by decide +kernel
  obtain ⟨store, hstore, hget⟩ := Option.bind_eq_some_iff.1 htext
  rw [sampleStored, hstore, Option.bind_some, storedRecord, hget, Option.bind_some,
    Records.readObjectText_writeSortedJson sampleRecord_valid]
  rfl

/-- A reading older than the one held leaves the record the one of the reading held. -/
theorem record_lookups_exact_sample : ∃ store, RecordRun plainForms id [newerCall, olderCall] store ∧
    ∃ records : RecordMap, collectEntries records = .ok store ∧
      ∃ record, records.get? "s" = some record ∧ Collected plainForms id [newerCall, olderCall] "s" record := by
  obtain ⟨store, hstore⟩ : ∃ store, callRecords plainForms id .empty newerCall = some store :=
    Option.isSome_iff_exists.1 (by decide +kernel)
  obtain ⟨next, hnext⟩ : ∃ next, callRecords plainForms id store olderCall = some next := by
    refine Option.isSome_iff_exists.1 ?_
    rw [callRecords, Option.isSome_map, olderCall, sampleStored_eq]
    decide +kernel
  have hfirst : Supplied .empty newerCall :=
    ⟨sampleCall_valid (.num (by decide)), fun subject hsubject => by obtain rfl := List.mem_singleton.1 hsubject; rfl⟩
  have hsecond : Supplied store olderCall := by
    refine ⟨sampleCall_valid (.num (by decide)), fun subject hsubject => ?_⟩
    have hs : subject = "s" := List.mem_singleton.1 hsubject
    rw [hs, olderCall, sampleCall, sampleStored_get? hstore]
  have hrun : RecordRun plainForms id [newerCall, olderCall] next :=
    .call (.call .start (step_of_callRecords hfirst hstore)) (step_of_callRecords hsecond hnext)
  have hnames : AssertionsNameReadings [newerCall, olderCall] := by
    have hreadings : ∀ input ∈ [newerCall, olderCall], ∀ reading ∈ input.readings,
        reading = sampleReading "r2" "10" ∨ reading = sampleReading "r1" "9" := by
      intro input hinput reading hreading
      obtain rfl | rfl := List.mem_pair.1 hinput
      · exact .inl (List.mem_singleton.1 hreading)
      · exact .inr (List.mem_singleton.1 hreading)
    have hnewer : readText (sampleReading "r2" "10") "assertion_id" = .ok "r2" := rfl
    have holder : readText (sampleReading "r1" "9") "assertion_id" = .ok "r1" := rfl
    intro input hinput other hother reading hreading reading' hreading' id hid hid'
    obtain rfl | rfl := hreadings input hinput reading hreading <;>
      obtain rfl | rfl := hreadings other hother reading' hreading'
    · exact .refl _
    · cases hid.symm.trans hnewer
      exact absurd (hid'.symm.trans holder) (by decide)
    · cases hid.symm.trans holder
      exact absurd (hid'.symm.trans hnewer) (by decide)
    · exact .refl _
  have hroutes : DigestsNameRoutes id [newerCall, olderCall] := by
    have hempty : ∀ input ∈ [newerCall, olderCall], input.candidateRoutes = .empty := by
      intro input hinput
      obtain rfl | rfl := List.mem_pair.1 hinput
      · rfl
      · rfl
    exact fun input hinput other hother _ => (hempty input hinput).trans (hempty other hother).symm
  obtain ⟨⟨records, hcollected, hnone, hentries⟩, _, _⟩ := record_lookups_exact hrun hnames hroutes
  refine ⟨next, hrun, records, hentries, ?_⟩
  cases hrecord : records.get? "s" with
  | none =>
      have hseen : seenReadings [newerCall, olderCall] "s" ≠ [] := by decide +kernel
      exact absurd ((hnone "s").1 hrecord) hseen
  | some record => exact ⟨record, rfl, hcollected "s" record hrecord⟩

end EdgarPlatform.Lookups
