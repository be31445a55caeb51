import EdgarPlatform.Library.Digits
import EdgarPlatform.Records.Stored

/-!
# Versions of a reading

A source writes a record in revisions, and a revision is reread under later mapping versions. Both are integers of any size, kept as the text they were written in, and a reading without a mapping version is of the first.
-/

namespace EdgarPlatform.Readings

open Records (Json Object readOptionalValue writeJson)

def rawText (value : Json) : String := writeJson false value

def allDigits (text : String) : Bool := text.toList.all Char.isDigit

/-- The mapping version of a reading, the first where there is none. -/
def mappingVersion (body : Object) : Json := (body.get? "mapping_version").getD (.num "1")

/-- A revision and a mapping version, in the order of their texts. -/
abbrev Version := (Nat ×ₗ String) ×ₗ (Nat ×ₗ String)

def versionOf (revision mapping : String) : Version := toLex (Digits.order revision, Digits.order mapping)

/-- The version of a reading as the lookups and the matching plan read it. -/
def readRevision (body : Object) : Except String Version :=
  if allDigits (rawText (readOptionalValue body "revision")) ∧ allDigits (rawText (mappingVersion body)) then
    .ok (versionOf (rawText (readOptionalValue body "revision")) (rawText (mappingVersion body)))
  else .error "Reading revisions must be nonnegative integers"

/-- Readings in the order of their versions, each with its own. Those of one version keep their order. -/
def orderReadings (readings : List Object) : Except String (List (Version × Object)) := do
  let ordered ← readings.mapM fun reading => (readRevision reading).map fun revision => (revision, reading)
  .ok (Sorting.sortByKey Prod.fst ordered)

theorem orderReadings_perm {readings : List Object} {ordered : List (Version × Object)}
    (h : orderReadings readings = .ok ordered) :
    (ordered.map Prod.snd).Perm readings ∧ (∀ entry ∈ ordered, readRevision entry.2 = .ok entry.1) ∧
      ordered.Pairwise fun a b => a.1 ≤ b.1 := by
  obtain ⟨pairs, hpairs, h⟩ := Except.bind_eq_ok.1 h
  have hread : ∀ (reading : Object) (pair : Version × Object),
      (readRevision reading).map (fun revision => (revision, reading)) = .ok pair →
        pair.2 = reading ∧ readRevision reading = .ok pair.1 := by
    intro reading pair hpair
    obtain ⟨revision, hrevision, rfl⟩ := Records.map_eq_ok.1 hpair
    exact ⟨rfl, hrevision⟩
  rw [← Except.ok.inj h]
  refine ⟨?_, fun entry hentry => ?_, Sorting.sortByKey_sorted Prod.fst pairs⟩
  · have hmap := Runs.mapM_map_eq Prod.snd (fun reading pair hpair => (hread reading pair hpair).1) hpairs
    exact ((Sorting.sortByKey_perm Prod.fst pairs).map Prod.snd).trans (hmap ▸ List.Perm.refl _)
  · obtain ⟨reading, _, hpair⟩ := Runs.mapM_exists_of_mem hpairs (Sorting.mem_sortByKey.1 hentry)
    obtain ⟨hreading, hrevision⟩ := hread reading entry hpair
    rwa [hreading]

def IsInteger (value : Json) : Prop := ∃ text, value = .num text ∧ Digits.IsInteger text

/-- A reading of a revision and a mapping version that are integers. -/
def HasVersion (body : Object) : Prop :=
  IsInteger (readOptionalValue body "revision") ∧ IsInteger (mappingVersion body)

/-- The revision and the mapping version of a reading, as numbers. -/
def nativeVersion (body : Object) : Nat ×ₗ Nat :=
  toLex (Digits.number (rawText (readOptionalValue body "revision")), Digits.number (rawText (mappingVersion body)))

theorem rawText_num (text : String) : rawText (.num text) = text := by
  rw [rawText, writeJson]

theorem IsInteger.rawText {value : Json} (h : IsInteger value) : Digits.IsInteger (rawText value) := by
  obtain ⟨text, rfl, htext⟩ := h
  rwa [rawText_num]

theorem isInteger_of_allDigits {value : Json} (hvalid : value.Valid) (h : allDigits (rawText value) = true) :
    IsInteger value := by
  have hfirst : ∀ c, (rawText value).toList.head? = some c → c.isDigit = true :=
    fun c hc => List.all_eq_true.1 h c (List.mem_of_head? hc)
  cases hvalid with
  | null => exact absurd (hfirst 'n' rfl) (by decide)
  | bool value =>
      cases value with
      | true => exact absurd (hfirst 't' rfl) (by decide)
      | false => exact absurd (hfirst 'f' rfl) (by decide)
  | num hnumber =>
      rw [rawText_num] at h
      exact ⟨_, rfl, Digits.isInteger_of_isNumber h hnumber⟩
  | str value =>
      refine absurd (hfirst '"' ?_) (by decide)
      simp [rawText, writeJson, Records.writeString]
  | arr _ =>
      refine absurd (hfirst '[' ?_) (by decide)
      simp [rawText, writeJson]
  | obj _ =>
      refine absurd (hfirst '\x7b' ?_) (by decide)
      simp [rawText, writeJson]

theorem allDigits_of_isInteger {text : String} (h : Digits.IsInteger text) : allDigits text = true :=
  List.all_eq_true.2 h.1

theorem readRevision_eq_ok {body : Object} {version : Version} :
    readRevision body = .ok version ↔ (allDigits (rawText (readOptionalValue body "revision")) = true ∧
      allDigits (rawText (mappingVersion body)) = true) ∧
      version = versionOf (rawText (readOptionalValue body "revision")) (rawText (mappingVersion body)) := by
  rw [readRevision]
  split_ifs with h
  · simp only [h, and_self, true_and, Except.ok.injEq, eq_comm]
  · simp only [h, false_and]

theorem versionOf_le_iff {revision revision' mapping mapping' : String} (hr : Digits.IsInteger revision)
    (hr' : Digits.IsInteger revision') (hm : Digits.IsInteger mapping) (hm' : Digits.IsInteger mapping') :
    versionOf revision mapping ≤ versionOf revision' mapping' ↔
      (toLex (Digits.number revision, Digits.number mapping) : Nat ×ₗ Nat) ≤
        toLex (Digits.number revision', Digits.number mapping') := by
  rw [versionOf, versionOf, Prod.Lex.toLex_le_toLex, Prod.Lex.toLex_le_toLex, Digits.order_lt_iff hr hr',
    Digits.order_le_iff hm hm']
  have hsame : Digits.order revision = Digits.order revision' ↔ Digits.number revision = Digits.number revision' :=
    ⟨fun h => congrArg Digits.number (Digits.order_injective h), fun h => congrArg Digits.order (Digits.number_inj hr hr' h)⟩
  rw [hsame]

theorem versionOf_le_versionOf {body other : Object} (h : HasVersion body) (h' : HasVersion other) :
    versionOf (rawText (readOptionalValue body "revision")) (rawText (mappingVersion body)) ≤
        versionOf (rawText (readOptionalValue other "revision")) (rawText (mappingVersion other)) ↔
      nativeVersion body ≤ nativeVersion other :=
  versionOf_le_iff h.1.rawText h'.1.rawText h.2.rawText h'.2.rawText

theorem HasVersion.readRevision {body : Object} (h : HasVersion body) :
    readRevision body = .ok (versionOf (rawText (readOptionalValue body "revision")) (rawText (mappingVersion body))) :=
  readRevision_eq_ok.2 ⟨⟨allDigits_of_isInteger h.1.rawText, allDigits_of_isInteger h.2.rawText⟩, rfl⟩

/-! ### Current records

The readings of each record are folded in the order of their versions. A field is set, kept or removed by each reading in turn, and the fields of a profile are kept for as long as each reading carries the profile. What is not folded is the newest reading's own.
-/

open Records (Json Object)

abbrev Body := SortedMap String Json

structure Reading where
  assertionId : String
  subject : String
  sourceCode : String
  recordKey : String
  publicationKey : String
  revision : Json
  mappingVersion : Option Json
  effectiveAt : Option String
  kind : String
  fields : Body
  identifiers : Json
  crossReferences : Body
  details : Body
  profiles : List Json
  relationships : Json

def text? : Json → Option String
  | .str value => some value
  | _ => none

def items? : Json → Option (List Json)
  | .arr items => some items
  | _ => none

def body? : Json → Option Body
  | .obj fields => some (.ofList fields)
  | _ => none

def optionalText? (body : Object) (name : String) : Option (Option String) :=
  match body.get? name with
  | none => some none
  | some .null => some none
  | some value => (text? value).map some

def optionalValue (body : Object) (name : String) : Option Json :=
  match body.get? name with
  | some .null => none
  | value => value

def defaultBody? (body : Object) (name : String) : Option Body := (body.get? name).elim (some .empty) body?

def reading? (body : Object) : Option Reading := do
  let assertionId ← (body.get? "assertion_id").bind text?
  let subject ← (body.get? "subject").bind text?
  let sourceCode ← (body.get? "source_code").bind text?
  let recordKey ← (body.get? "record_key").bind text?
  let publicationKey ← (body.get? "publication_key").bind text?
  let revision ← body.get? "revision"
  let effectiveAt ← optionalText? body "effective_at"
  let kind ← (body.get? "kind").bind text?
  let fields ← (body.get? "fields").bind body?
  let identifiers ← body.get? "identifiers"
  let crossReferences ← defaultBody? body "cross_references"
  let details ← defaultBody? body "details"
  let profiles ← (body.get? "profiles").bind items?
  let relationships ← body.get? "relationships"
  let mappingVersion := optionalValue body "mapping_version"
  some { assertionId, subject, sourceCode, recordKey, publicationKey, revision, mappingVersion, effectiveAt, kind, fields,
         identifiers, crossReferences, details, profiles, relationships }

def readReading (body : Object) : Except String Reading := (reading? body).elim (.error "Invalid retained readings") .ok

def readObject (value : Json) : Except String Body := (body? value).elim (.error "Reading requires an object") .ok

def readText (value : Json) : Except String String := (text? value).elim (.error "Reading requires text") .ok

/-- What is calculated with: the instants of RFC 3339 texts, and a digest of texts. -/
structure Env where
  instant : String → Option Int
  digest : String → String

/-- The text with a `T` where a blank stands at a byte's place. -/
def withT : Nat → List Char → List Char
  | _, [] => []
  | place, c :: rest =>
      if place = 0 then (if c = ' ' then 'T' else c) :: rest
      else if place < c.utf8Size then c :: rest
      else c :: withT (place - c.utf8Size) rest

def readTime (env : Env) (raw : String) : Except String Int :=
  (env.instant (String.ofList (withT 10 raw.toList))).elim (.error "Effective time must include a timezone") .ok

def checkRevision (raw : String) : Except String Unit :=
  if raw = "" ∨ allDigits raw = false then .error "Reading revision must be a nonnegative integer" else .ok ()

namespace Reading

def mappingText (reading : Reading) : String := reading.mappingVersion.elim "1" rawText

def version (reading : Reading) : Version := versionOf (rawText reading.revision) reading.mappingText

def order (reading : Reading) : Version ×ₗ (String ×ₗ String) :=
  toLex (reading.version, toLex (reading.publicationKey, reading.assertionId))

def versionKey (reading : Reading) : String ×ₗ String := toLex (rawText reading.revision, reading.mappingText)

def isAfter (env : Env) (clock : Int) (reading : Reading) : Except String Bool :=
  match reading.effectiveAt with
  | none => .ok false
  | some effective => (readTime env effective).map fun time => decide (clock < time)

def checkVersion (reading : Reading) : Except String Unit := do
  checkRevision (rawText reading.revision)
  match reading.mappingVersion with
  | none => .ok ()
  | some mapping => checkRevision (rawText mapping)

/-- A reading of a source that is not retired, and that is in effect. -/
def counts (env : Env) (clock : Int) (retired : List String) (reading : Reading) : Except String Bool :=
  if reading.sourceCode ∈ retired then .ok false
  else do
    let after ← reading.isAfter env clock
    if after then .ok false
    else
      reading.checkVersion
      .ok true

end Reading

abbrev Groups := SortedMap String (List Reading)

def addToGroup (groups : Groups) (reading : Reading) : Groups :=
  groups.insert reading.subject ((groups.get? reading.subject).getD [] ++ [reading])

def groupReading (env : Env) (clock : Int) (retired : List String) (groups : Groups) (reading : Reading) :
    Except String Groups := do
  let counted ← reading.counts env clock retired
  .ok (if counted then addToGroup groups reading else groups)

/-- What identifies a profile: the text of each part, or none where it has none. -/
def profilePart (profile : Body) (name : String) : Except String Json :=
  match profile.get? name with
  | none => .ok .null
  | some .null => .ok .null
  | some value => (readText value).map .str

def identifyProfile (env : Env) (profile : Body) : Except String String := do
  let parts ← ["role", "authority", "registration", "jurisdiction", "valid_from"].mapM (profilePart profile)
  .ok (env.digest (Records.writeJson false (.arr parts)))

def Reading.metadata (reading : Reading) : Body :=
  .ofList [("assertion_id", .str reading.assertionId), ("source_code", .str reading.sourceCode),
    ("record_key", .str reading.recordKey), ("effective_at", reading.effectiveAt.elim .null .str)]

def recordField (item metadata : Body) : Body := item.extend metadata.entries

def foldField (metadata : Body) (fields : SortedMap String Body) (entry : String × Json) :
    Except String (SortedMap String Body) := do
  let body ← readObject entry.2
  match body.get? "op" with
  | none => .error "Field operation is missing"
  | some raw => do
      let operation ← readText raw
      .ok (if operation = "unknown" then fields
        else if operation = "retract" then fields.erase entry.1
        else fields.insert entry.1 (recordField body metadata))

/-- The change a profile's field makes. A value that states no operation is set, unless it is `null`. -/
def profileChange (value : Json) : Body :=
  match body? value with
  | some body => if body.contains "op" then body else .ofList [("op", .str "value"), ("value", value)]
  | none => if value = .null then .ofList [("op", .str "unknown")] else .ofList [("op", .str "value"), ("value", value)]

def hasNoValue (item : Body) : Bool := (item.get? "value").all fun value => value = .null

def applyProfileChange (metadata item : Body) (name operation : String) (values : SortedMap String Body) :
    Except String (SortedMap String Body) :=
  if operation = "unknown" then .ok values
  else if operation = "retract" then .ok (values.erase name)
  else if operation = "value" ∨ operation = "clear" then
    if operation = "value" ∧ hasNoValue item then .error "Use unknown for null profile evidence"
    else .ok (values.insert name (recordField item metadata))
  else .error "Unknown profile field operation"

def foldProfileField (metadata : Body) (values : SortedMap String Body) (entry : String × Json) :
    Except String (SortedMap String Body) :=
  match (profileChange entry.2).get? "op" with
  | none => .error "Profile field operation is missing"
  | some raw => do
      let operation ← readText raw
      applyProfileChange metadata (profileChange entry.2) entry.1 operation values

abbrev ProfileFields := SortedMap String (SortedMap String Body)

def profileFieldsOf (profile : Body) : Except String Body := (profile.get? "fields").elim (.ok .empty) readObject

/-- A profile the reading carries, its fields begun from those it had before the reading. -/
def foldProfile (env : Env) (metadata : Body) (before continuing : ProfileFields) (raw : Json) :
    Except String ProfileFields := do
  let profile ← readObject raw
  let key ← identifyProfile env profile
  let changes ← profileFieldsOf profile
  let values ← changes.entries.foldlM (foldProfileField metadata) ((before.get? key).getD .empty)
  .ok (continuing.insert key values)

structure Folding where
  fields : SortedMap String Body := .empty
  profileFields : ProfileFields := .empty
  /-- The assertion each version was read by. -/
  seen : SortedMap (String ×ₗ String) String := .empty
  last : Option Reading := none

def foldReading (env : Env) (state : Folding) (reading : Reading) : Except String Folding :=
  if (state.seen.get? reading.versionKey).any (· ≠ reading.assertionId) then
    .error "Source native revision has contradictory publications"
  else do
    let fields ← reading.fields.entries.foldlM (foldField reading.metadata) state.fields
    let profileFields ← reading.profiles.foldlM (foldProfile env reading.metadata state.profileFields) .empty
    .ok { fields, profileFields, seen := state.seen.insert reading.versionKey reading.assertionId, last := some reading }

structure CurrentRecord where
  kind : String
  fields : SortedMap String Body
  identifiers : Json
  crossReferences : Body
  details : Body
  profiles : List Json
  profileFields : ProfileFields
  relationships : Json
  assertionId : String
  sourceMeta : Body

def currentRecord (env : Env) (versions : List Reading) : Except String CurrentRecord := do
  let state ← (Sorting.sortByKey Reading.order versions).foldlM (foldReading env) {}
  match state.last with
  | none => .error "Missing retained reading"
  | some reading =>
      .ok
        { kind := reading.kind
          fields := state.fields
          identifiers := reading.identifiers
          crossReferences := reading.crossReferences
          details := reading.details
          profiles := reading.profiles
          profileFields := state.profileFields
          relationships := reading.relationships
          assertionId := reading.assertionId
          sourceMeta := reading.metadata.erase "assertion_id" }

def prepareCurrentRecords (env : Env) (readings : List Object) (asOf : String) (retired : List String) :
    Except String (SortedMap String CurrentRecord) := do
  let readings ← readings.mapM readReading
  let clock ← readTime env asOf
  let groups ← readings.foldlM (groupReading env clock retired) .empty
  groups.mapValuesM fun _ versions => currentRecord env versions

def countedOf (env : Env) (clock : Int) (retired : List String) (readings : List Reading) (subject : String) :
    List Reading :=
  readings.filter fun reading => reading.subject = subject ∧ reading.counts env clock retired matches .ok true

variable {env : Env} {clock : Int} {retired : List String}

theorem mem_countedOf {readings : List Reading} {subject : String} {reading : Reading} :
    reading ∈ countedOf env clock retired readings subject ↔
      reading ∈ readings ∧ reading.subject = subject ∧ reading.counts env clock retired = .ok true := by
  rw [countedOf, List.mem_filter, decide_eq_true_eq]
  refine and_congr_right fun _ => and_congr_right fun _ => ?_
  cases reading.counts env clock retired with
  | error e => simp
  | ok counted => cases counted <;> simp

theorem countedOf_append (front : List Reading) (reading : Reading) (subject : String) :
    countedOf env clock retired (front ++ [reading]) subject =
      countedOf env clock retired front subject ++
        if reading.subject = subject ∧ reading.counts env clock retired matches .ok true then [reading] else [] := by
  rw [countedOf, countedOf, List.filter_append, List.filter_cons, List.filter_nil]
  simp only [decide_eq_true_eq]

theorem groups_get? {readings : List Reading} {groups : Groups}
    (h : readings.foldlM (groupReading env clock retired) .empty = .ok groups) (subject : String) :
    groups.get? subject = if countedOf env clock retired readings subject = [] then none
      else some (countedOf env clock retired readings subject) := by
  refine Runs.run_invariant (fun front (mid : Groups) => mid.get? subject =
    if countedOf env clock retired front subject = [] then none else some (countedOf env clock retired front subject)) h ?_ ?_
  · rfl
  · intro front reading back mid next _ hmid hnext
    obtain ⟨counted, hcounted, hnext⟩ := Except.bind_eq_ok.1 hnext
    cases hnext
    rw [countedOf_append, hcounted]
    cases counted with
    | false => simpa using hmid
    | true =>
        simp only [if_true, addToGroup, SortedMap.get?_insert]
        by_cases hsubject : reading.subject = subject
        · subst hsubject
          rw [hmid]
          split_ifs with hempty <;> simp_all
        · simpa [hsubject, Ne.symm hsubject] using hmid

theorem foldReading_last {versions : List Reading} {state next : Folding}
    (h : versions.foldlM (foldReading env) state = .ok next) : next.last = versions.getLast?.or state.last := by
  refine Runs.run_invariant (fun front (mid : Folding) => mid.last = front.getLast?.or state.last) h ?_ ?_
  · rfl
  · intro front reading back mid next _ _ hnext
    rw [foldReading, Except.ite_error_eq_ok] at hnext
    obtain ⟨fields, _, hnext⟩ := Except.bind_eq_ok.1 hnext.2
    obtain ⟨profileFields, _, hnext⟩ := Except.bind_eq_ok.1 hnext
    cases hnext
    rw [List.getLast?_append]
    rfl

theorem currentRecord_newest {versions : List Reading} {record : CurrentRecord}
    (h : currentRecord env versions = .ok record) :
    ∃ newest ∈ versions, record.assertionId = newest.assertionId ∧ ∀ reading ∈ versions, reading.version ≤ newest.version := by
  obtain ⟨state, hstate, h⟩ := Except.bind_eq_ok.1 h
  have hlast := foldReading_last hstate
  rw [Option.or_none] at hlast
  cases hnewest : state.last with
  | none =>
      rw [hnewest] at h
      cases h
  | some newest =>
      rw [hnewest] at h hlast
      cases h
      obtain ⟨hmem, hle⟩ := Sorting.getLast?_sortByKey hlast.symm
      refine ⟨newest, hmem, rfl, fun reading hreading => ?_⟩
      obtain hlt | ⟨heq, _⟩ := (Prod.Lex.toLex_le_toLex).1 (hle reading hreading)
      · exact hlt.le
      · exact heq.le

end EdgarPlatform.Readings
