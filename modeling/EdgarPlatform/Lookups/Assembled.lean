import EdgarPlatform.Lookups.Contradictions

/-!
# A history assembled again

The history of some inputs is the history of those inputs in any order, and of those inputs with what was retained of them: an input read back from its evidence has its keys in order, and everything that is read of it but the text of its revision is read without regard to their order.
-/

namespace EdgarPlatform.Lookups

open Records (Json Object readText readOptionalValue readArray readFields hasValue writeJson writeSortedJson)

def kinds : List Kind := [.reading, .decision, .identity, .deferred, .occurrence]

def readEvidence (entry : Key × String) : Option Item :=
  (kinds.find? fun kind => kind.recordType = (ofLex entry.1).1).bind fun kind =>
    (Records.readObjectText entry.2).map fun body => (kind, body)

def bodiesOf (items : List Item) (kind : Kind) : List Object := (items.filter fun item => item.1 = kind).map Prod.snd

def Inputs.ofItems (items : List Item) : Inputs where
  readings := bodiesOf items .reading
  decisions := bodiesOf items .decision
  identities := bodiesOf items .identity
  deferred := bodiesOf items .deferred
  occurrences := bodiesOf items .occurrence

/-- The inputs a history is the history of, read back from its evidence. -/
def History.inputs? (history : History) : Option Inputs := (history.evidence.entries.mapM readEvidence).map Inputs.ofItems

def Inputs.append (input other : Inputs) : Inputs where
  readings := input.readings ++ other.readings
  decisions := input.decisions ++ other.decisions
  identities := input.identities ++ other.identities
  deferred := input.deferred ++ other.deferred
  occurrences := input.occurrences ++ other.occurrences

/-- The same inputs, each list in another order. -/
structure Inputs.Rearranges (input other : Inputs) : Prop where
  readings : input.readings.Perm other.readings
  decisions : input.decisions.Perm other.decisions
  identities : input.identities.Perm other.identities
  deferred : input.deferred.Perm other.deferred
  occurrences : input.occurrences.Perm other.occurrences

/-- A reading's revision and its mapping version are written as they are stored. -/
def Inputs.VersionsStored (input : Inputs) : Prop :=
  ∀ reading ∈ input.readings, revisionText reading = writeSortedJson (readOptionalValue reading "revision") ∧
    mappingText reading = writeSortedJson ((reading.get? "mapping_version").getD (.num "1"))

theorem mem_items_ofItems {items : List Item} {item : Item} : item ∈ (Inputs.ofItems items).items ↔ item ∈ items := by
  obtain ⟨kind, body⟩ := item
  have hbodies : ∀ other, body ∈ bodiesOf items other ↔ (other, body) ∈ items := by
    intro other
    simp only [bodiesOf, List.mem_map, List.mem_filter, decide_eq_true_eq]
    constructor
    · rintro ⟨⟨_, _⟩, ⟨hmem, rfl⟩, rfl⟩
      exact hmem
    · exact fun hmem => ⟨_, ⟨hmem, rfl⟩, rfl⟩
  cases kind <;> simp [Inputs.items, Inputs.ofItems, hbodies]

variable {input other : Inputs}

theorem mem_items_append {item : Item} :
    item ∈ (input.append other).items ↔ item ∈ input.items ∨ item ∈ other.items := by
  obtain ⟨kind, body⟩ := item
  cases kind <;> simp [Inputs.items, Inputs.append]

theorem Inputs.Rearranges.mem_items (h : input.Rearranges other) {item : Item} :
    item ∈ input.items ↔ item ∈ other.items := by
  simp only [Inputs.items, List.mem_append, List.mem_map, h.readings.mem_iff, h.decisions.mem_iff, h.identities.mem_iff,
    h.deferred.mem_iff, h.occurrences.mem_iff]

theorem optionalKey_same {body other : Object} (h : Object.Same body other) (name : String) :
    optionalKey body name = optionalKey other name := by
  rw [optionalKey, optionalKey, h.hasValue, h.readText]

theorem relationshipSubjects_normal (subject : String) (raw : Json) :
    relationshipSubjects subject raw.normal = relationshipSubjects subject raw := by
  cases raw with
  | obj fields =>
      have hnormal : (Json.obj fields).normal = (Json.obj fields).normal.normal := (Records.normal_normal _).symm
      obtain ⟨other, hother, hsame⟩ := Records.readFields_of_normal_eq hnormal rfl
      rw [relationshipSubjects, relationshipSubjects, hother, readFields]
      simp only [Except.bind_ok, hsame.hasValue, hsame.readText, optionalKey_same hsame]
  | _ => rfl

theorem namedSubjects_normal (subject : String) (reading : Object) :
    namedSubjects subject (Object.normal reading) = namedSubjects subject reading := by
  have harray : readArray (Object.normal reading) "relationships" =
      (readArray reading "relationships").map fun items => items.map Json.normal := by
    rw [readArray, readArray, Records.get?_normal]
    cases reading.get? "relationships" with
    | none => rfl
    | some value =>
        cases value with
        | arr items => exact congrArg Except.ok (Records.normalItems_eq items)
        | _ => rfl
  rw [namedSubjects, namedSubjects, harray]
  cases readArray reading "relationships" with
  | error e => rfl
  | ok items =>
      show (do
        let named ← (items.map Json.normal).mapM (relationshipSubjects subject)
        Except.ok _) = _
      rw [List.mapM_map]
      simp only [Function.comp_def, relationshipSubjects_normal]
      rfl

theorem writeJson_normal (value : Json) : writeJson false value.normal = writeSortedJson value :=
  (Records.writeSortedJson_eq value).symm

theorem revisionText_normal (reading : Object) :
    revisionText (Object.normal reading) = writeSortedJson (readOptionalValue reading "revision") := by
  rw [revisionText, ← writeJson_normal, readOptionalValue, readOptionalValue, Records.get?_normal]
  cases reading.get? "revision" <;> rfl

theorem mappingText_normal (reading : Object) :
    mappingText (Object.normal reading) = writeSortedJson ((reading.get? "mapping_version").getD (.num "1")) := by
  rw [mappingText, ← writeJson_normal, Records.get?_normal]
  cases reading.get? "mapping_version" <;> rfl

variable {digest : String → String}

theorem readItem_normal {input : Inputs} (h : input.VersionsStored) {kind : Kind} {body : Object}
    (hmem : (kind, body) ∈ input.items) : readItem digest (kind, Object.normal body) = readItem digest (kind, body) := by
  have hsame := Records.same_normal body
  cases kind with
  | reading =>
      have hreading : body ∈ input.readings := by simpa [Inputs.items] using hmem
      obtain ⟨hrevision, hmapping⟩ := h body hreading
      simp only [readItem, readReading, Records.readText_normal, hsame.writeSortedJson, namedSubjects_normal, revisionText_normal,
        mappingText_normal, ← hrevision, ← hmapping]
  | decision =>
      have hkeys : optionalKey (Object.normal body) = optionalKey body := funext fun name => optionalKey_same hsame name
      simp only [readItem, readDecision, retiredSource, Records.readText_normal, hsame.writeSortedJson, hkeys]
  | identity => simp only [readItem, readIdentity, Records.readText_normal, hsame.writeSortedJson]
  | deferred => simp only [readItem, readDeferred, Records.readText_normal, hsame.writeSortedJson]
  | occurrence => simp only [readItem, readOccurrence, Records.readText_normal, hsame.writeSortedJson]

theorem find?_recordType (kind : Kind) : kinds.find? (fun other => other.recordType = kind.recordType) = some kind := by
  cases kind <;> decide

theorem readEvidence_evidenceEntry {item : Item} (hvalid : Object.Valid item.2) {kept : Retained}
    (h : readItem digest item = .ok kept) : readEvidence kept.evidenceEntry = some (item.1, Object.normal item.2) := by
  obtain ⟨hkind, hbody⟩ := bodyJson_of_readItem h
  show ((kinds.find? fun kind => kind.recordType = kept.kind.recordType).bind fun kind =>
    (Records.readObjectText kept.bodyJson).map fun body => (kind, body)) = _
  rw [hkind, hbody, find?_recordType, Option.bind_some, Records.readObjectText_writeSortedJson hvalid]
  rfl

theorem inputs?_of_retainInputs {input : Inputs} (hvalid : input.Valid) {history : History}
    (h : retainInputs digest input = .ok history) :
    ∃ again, history.inputs? = some again ∧ ∀ item ∈ again.items, ∃ body, (item.1, body) ∈ input.items ∧ item.2 = Object.normal body := by
  obtain ⟨keeps, hkeeps, hcoherent, rfl⟩ := retainInputs_eq_ok.1 h
  have hentries : ∀ entry ∈ (historyOf keeps).evidence.entries,
      ∃ item ∈ input.items, readEvidence entry = some (item.1, Object.normal item.2) := by
    rintro ⟨key, value⟩ hentry
    have hmem := (Agreed.get?_ofList hcoherent.evidence).1 (SortedMap.get?_eq_some_iff.2 hentry)
    obtain ⟨kept, hkept, heq⟩ := List.mem_map.1 hmem
    obtain ⟨item, hitem, hread⟩ := Runs.mapM_exists_of_mem hkeeps hkept
    exact ⟨item, hitem, heq ▸ readEvidence_evidenceEntry (hvalid item hitem) hread⟩
  obtain ⟨items, hitems, hsources⟩ : ∃ items, (historyOf keeps).evidence.entries.mapM readEvidence = some items ∧
      ∀ item ∈ items, ∃ source ∈ input.items, item = (source.1, Object.normal source.2) := by
    generalize (historyOf keeps).evidence.entries = entries at hentries
    induction entries with
    | nil => exact ⟨[], rfl, fun _ hitem => absurd hitem List.not_mem_nil⟩
    | cons entry rest ih =>
        obtain ⟨source, hsource, hread⟩ := hentries entry (List.mem_cons_self ..)
        obtain ⟨items, hitems, hsources⟩ := ih fun other hother => hentries other (List.mem_cons_of_mem _ hother)
        refine ⟨_ :: items, by rw [List.mapM_cons, hread, hitems]; rfl, fun item hitem => ?_⟩
        rcases List.mem_cons.1 hitem with rfl | hitem
        · exact ⟨source, hsource, rfl⟩
        · exact hsources item hitem
  refine ⟨_, by rw [History.inputs?, hitems]; rfl, fun item hitem => ?_⟩
  obtain ⟨source, hsource, rfl⟩ := hsources item (mem_items_ofItems.1 hitem)
  exact ⟨source.2, hsource, rfl⟩

theorem storedJson_injective : Function.Injective storedJson := by
  rintro ⟨⟨recordType, id⟩, body⟩ ⟨⟨recordType', id'⟩, body'⟩ h
  simp only [storedJson, Json.obj.injEq, List.cons.injEq, Prod.mk.injEq, Json.str.injEq, true_and, and_true] at h
  obtain ⟨htype, hid, hbody⟩ := h
  exact Prod.ext (congrArg toLex (Prod.ext htype hid)) hbody

theorem storedJson_valid (entry : Key × String) : (storedJson entry).Valid := by
  refine .obj fun field hfield => ?_
  simp only [List.mem_cons, List.not_mem_nil, or_false] at hfield
  rcases hfield with rfl | rfl | rfl <;> exact .str _

theorem History.text_injective : Function.Injective History.text := by
  intro history other h
  have hvalid : ∀ store : Store, (Json.arr (store.entries.map storedJson)).Valid := by
    refine fun store => .arr fun item hitem => ?_
    obtain ⟨entry, _, rfl⟩ := List.mem_map.1 hitem
    exact storedJson_valid entry
  have hread : ∀ history : History, Records.readJson history.text =
      some (.arr [.arr (history.evidence.entries.map storedJson), .arr (history.indexes.entries.map storedJson)]) := by
    refine fun history => Records.readJson_writeJson (.arr fun item hitem => ?_)
    simp only [List.mem_cons, List.not_mem_nil, or_false] at hitem
    rcases hitem with rfl | rfl
    · exact hvalid history.evidence
    · exact hvalid history.indexes
  have hsame := hread history
  rw [h, hread other] at hsame
  simp only [Option.some.injEq, Json.arr.injEq, List.cons.injEq, and_true] at hsame
  obtain ⟨hevidence, hindexes⟩ := hsame
  have hmap := List.map_injective_iff.2 storedJson_injective
  cases history
  cases other
  exact congrArg₂ History.mk (SortedMap.ext_entries (hmap hevidence.symm)) (SortedMap.ext_entries (hmap hindexes.symm))

theorem retainInputs_rearranged (h : input.Rearranges other) {history : History}
    (hretain : retainInputs digest input = .ok history) : retainInputs digest other = .ok history := by
  refine retainInputs_congr hretain (fun item hitem kept hread => ?_) fun item hitem => ?_
  · exact ⟨item, h.mem_items.1 hitem, hread⟩
  · exact ⟨item, h.mem_items.2 hitem, rfl⟩

theorem Inputs.Rearranges.symm (h : input.Rearranges other) : other.Rearranges input :=
  ⟨h.readings.symm, h.decisions.symm, h.identities.symm, h.deferred.symm, h.occurrences.symm⟩

theorem retainInputs_with_own {input : Inputs} (hvalid : input.Valid) (hstored : input.VersionsStored)
    {history : History} (h : retainInputs digest input = .ok history) :
    ∃ again, history.inputs? = some again ∧ retainInputs digest (input.append again) = .ok history := by
  obtain ⟨again, hagain, hitems⟩ := inputs?_of_retainInputs hvalid h
  refine ⟨again, hagain, retainInputs_congr h (fun item hitem kept hread => ?_) fun item hitem => ?_⟩
  · exact ⟨item, mem_items_append.2 (.inl hitem), hread⟩
  · rcases mem_items_append.1 hitem with hitem | hitem
    · exact ⟨item, hitem, rfl⟩
    · obtain ⟨body, hbody, hnormal⟩ := hitems item hitem
      refine ⟨_, hbody, ?_⟩
      rw [← readItem_normal hstored hbody, ← hnormal]

theorem retainInputs_error_iff {input : Inputs} (hvalid : input.Valid)
    (hread : ∀ item ∈ input.items, ∃ kept, readItem digest item = .ok kept) :
    (∃ e, retainInputs digest input = .error e) ↔ ∃ item ∈ input.items, ∃ other ∈ input.items, Contradict digest item other := by
  obtain ⟨keeps, hkeeps⟩ := Runs.mapM_ok_of_forall hread
  rw [← not_coherent_iff hvalid hkeeps]
  constructor
  · rintro ⟨e, he⟩ hcoherent
    have hok := retainInputs_eq_ok.2 ⟨keeps, hkeeps, hcoherent, rfl⟩
    rw [he] at hok
    cases hok
  · intro hnot
    rcases Except.eq_ok_or_error (retainInputs digest input) with ⟨history, hok⟩ | herror
    · obtain ⟨keeps', hkeeps', hcoherent, _⟩ := retainInputs_eq_ok.1 hok
      cases hkeeps.symm.trans hkeeps'
      exact absurd hcoherent hnot
    · exact herror

/-- Retained inputs give one history in every order and together with what is kept of them, and they are refused exactly for an input that is not read or two that contradict each other. -/
theorem prepareRecordHistory_of_same_inputs (digest : String → String) {input : Inputs} (hvalid : input.Valid) :
    (∀ other, input.Rearranges other →
      (prepareRecordHistory digest other).toOption = (prepareRecordHistory digest input).toOption) ∧
    (input.VersionsStored → ∀ history, retainInputs digest input = .ok history →
      ∃ again, history.inputs? = some again ∧
        prepareRecordHistory digest (input.append again) = prepareRecordHistory digest input) ∧
    ((∃ e, prepareRecordHistory digest input = .error e) ↔
      (∃ item ∈ input.items, ∃ e, readItem digest item = .error e) ∨
        ∃ item ∈ input.items, ∃ other ∈ input.items, Contradict digest item other) := by
  refine ⟨fun other hother => ?_, fun hstored history h => ?_, ?_⟩
  · refine Option.ext fun text => ?_
    have hiff : ∀ input : Inputs, (prepareRecordHistory digest input).toOption = some text ↔
        ∃ history, retainInputs digest input = .ok history ∧ history.text = text := by
      intro input
      rw [prepareRecordHistory]
      cases retainInputs digest input <;> simp [Except.map, Except.toOption]
    rw [hiff, hiff]
    constructor
    · rintro ⟨history, h, htext⟩
      exact ⟨history, retainInputs_rearranged hother.symm h, htext⟩
    · rintro ⟨history, h, htext⟩
      exact ⟨history, retainInputs_rearranged hother h, htext⟩
  · obtain ⟨again, hagain, hsame⟩ := retainInputs_with_own hvalid hstored h
    exact ⟨again, hagain, by rw [prepareRecordHistory, prepareRecordHistory, h, hsame]⟩
  · have herror : (∃ e, prepareRecordHistory digest input = .error e) ↔ ∃ e, retainInputs digest input = .error e := by
      rw [prepareRecordHistory]
      cases retainInputs digest input <;> simp [Except.map]
    rw [herror]
    by_cases hread : ∀ item ∈ input.items, ∃ kept, readItem digest item = .ok kept
    · rw [retainInputs_error_iff hvalid hread]
      refine (or_iff_right ?_).symm
      rintro ⟨item, hitem, e, he⟩
      obtain ⟨kept, hkept⟩ := hread item hitem
      rw [he] at hkept
      cases hkept
    · have hunread : ∃ item ∈ input.items, ∃ e, readItem digest item = .error e := by
        push Not at hread
        obtain ⟨item, hitem, hnone⟩ := hread
        rcases Except.eq_ok_or_error (readItem digest item) with ⟨kept, hkept⟩ | herror
        · exact absurd hkept (hnone kept)
        · exact ⟨item, hitem, herror⟩
      refine iff_of_true ?_ (.inl hunread)
      obtain ⟨item, hitem, e, he⟩ := hunread
      rcases Except.eq_ok_or_error (retainInputs digest input) with ⟨history, hok⟩ | herror
      · obtain ⟨keeps, hkeeps, _, _⟩ := retainInputs_eq_ok.1 hok
        obtain ⟨kept, hkept⟩ := Runs.mapM_ok_of_mem hkeeps item hitem
        rw [he] at hkept
        cases hkept
      · exact herror

/-- Two revisions of one source record and the decision that binds it. -/
def boundRecord : Inputs where
  readings := [
    .ofList [("assertion_id", .str "a1"), ("subject", .str "s"), ("source_code", .str "c"), ("record_key", .str "k"),
      ("revision", .str "1")],
    .ofList [("assertion_id", .str "a2"), ("subject", .str "s"), ("source_code", .str "c"), ("record_key", .str "k"),
      ("revision", .str "2")]]
  decisions := [.ofList [("decision_id", .str "d"), ("operation", .str "bind"), ("subject", .str "s"), ("entity_id", .str "e")]]
  identities := []

theorem boundRecord_valid : boundRecord.Valid := by
  intro item hitem
  simp only [boundRecord, Inputs.items, List.map_cons, List.map_nil, List.append_nil, List.mem_append, List.mem_cons,
    List.not_mem_nil, or_false] at hitem
  rcases hitem with (rfl | rfl) | rfl <;>
  · refine Records.Object.Valid.ofList fun entry hentry => ?_
    simp only [List.mem_cons, List.not_mem_nil, or_false] at hentry
    rcases hentry with rfl | rfl | rfl | rfl | rfl <;> exact .str _

theorem prepareRecordHistory_of_same_inputs_bound :
    boundRecord.VersionsStored ∧ (∃ history, retainInputs id boundRecord = .ok history ∧ history.indexes.size = 9) ∧
      ((∀ other, boundRecord.Rearranges other →
        (prepareRecordHistory id other).toOption = (prepareRecordHistory id boundRecord).toOption) ∧
      (boundRecord.VersionsStored → ∀ history, retainInputs id boundRecord = .ok history →
        ∃ again, history.inputs? = some again ∧
          prepareRecordHistory id (boundRecord.append again) = prepareRecordHistory id boundRecord) ∧
      ((∃ e, prepareRecordHistory id boundRecord = .error e) ↔
        (∃ item ∈ boundRecord.items, ∃ e, readItem id item = .error e) ∨
          ∃ item ∈ boundRecord.items, ∃ other ∈ boundRecord.items, Contradict id item other)) :=
  ⟨by unfold Inputs.VersionsStored; decide +kernel, by decide +kernel, prepareRecordHistory_of_same_inputs id boundRecord_valid⟩

/-- A reading whose revision is written with its keys out of order. -/
def unsortedRevision : Inputs where
  readings := [
    .ofList [("assertion_id", .str "a"), ("subject", .str "s"), ("source_code", .str "c"), ("record_key", .str "k"),
      ("revision", .obj [("b", .num "1"), ("a", .num "2")])]]
  decisions := []
  identities := []

def unnamedIdentity : Inputs where
  readings := []
  decisions := []
  identities := [.ofList [("kind", .str "company")]]

/-- A reading with its own evidence is retained under two revisions, and an identity that contradicts nothing is refused. -/
theorem own_evidence_adds_a_revision :
    (∃ history again, retainInputs id unsortedRevision = .ok history ∧ history.inputs? = some again ∧
      (∃ text, prepareRecordHistory id (unsortedRevision.append again) = .ok text) ∧
      prepareRecordHistory id (unsortedRevision.append again) ≠ prepareRecordHistory id unsortedRevision) ∧
    prepareRecordHistory id unnamedIdentity = .error "Missing record field: entity_id" ∧
      ¬ ∃ item ∈ unnamedIdentity.items, ∃ other ∈ unnamedIdentity.items, Contradict id item other := by
  refine ⟨?_, by decide +kernel, ?_⟩
  · have hrun : (retainInputs id unsortedRevision).toOption.any (fun history => history.inputs?.any fun again =>
        (retainInputs id (unsortedRevision.append again)).toOption.any fun next => next.indexes.size ≠ history.indexes.size) =
        true := by decide +kernel
    obtain ⟨history, hhistory, hrun⟩ := Except.exists_of_any hrun
    obtain ⟨again, hagain, hrun⟩ := (Option.any_eq_true _ _).1 hrun
    obtain ⟨next, hnext, hsize⟩ := Except.exists_of_any hrun
    refine ⟨history, again, hhistory, hagain, ⟨next.text, by rw [prepareRecordHistory, hnext]; rfl⟩, fun heq => ?_⟩
    rw [prepareRecordHistory, prepareRecordHistory, hnext, hhistory] at heq
    have hsame := History.text_injective (Except.ok.inj heq)
    rw [hsame] at hsize
    exact of_decide_eq_true hsize rfl
  · rintro ⟨item, hitem, other, _, kept, _, _, hread, _⟩
    rw [List.mem_singleton.1 hitem] at hread
    cases hread

end EdgarPlatform.Lookups
