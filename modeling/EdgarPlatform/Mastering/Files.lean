import EdgarPlatform.Mastering.Masters
import EdgarPlatform.Matching.Plan

/-!
# Merging a file

One file of records is merged into the masters in one transaction. Its records are matched by their identifiers, which may merge masters, then by name comparisons, then by exact names; the records are stored with their masters, and every master the file touched is written again from its records. A file that is done is skipped unless it is delivered again. What comes from a query without an order, or out of a set, comes in an arrangement of its own.
-/

namespace EdgarPlatform.Mastering

open Records (Json Object readText readObject readArray readFields readOptionalValue)

structure Settings where
  policy : Object
  policyDigest : String
  kind : String
  asOf : String

/-- What a file is merged with besides the tables. -/
structure Env where
  matching : Records.Env
  readings : Readings.Env
  forms : Matching.TextForms
  test : Matching.RecordTest
  normalizers : IndexMap String Bool
  choose : ChooseFields
  profileKinds : IndexMap String (List String)
  /-- A rule of a kind is activated to bind. -/
  activated : Object → String → Object → Bool
  /-- A rule's comparison of a holder and a candidate: they match, and a flag refuses them. -/
  compare : Object → Object → Object → Except String (Bool × Bool)
  newId : Nat → String
  now : Int
  arrange : {α : Type} → List α → List α
  arrange_perm : ∀ {α : Type} (items : List α), (arrange items).Perm items

/-- What is delivered of a file. -/
structure Delivery where
  records : List Object
  again : Bool
  deferred : List Object
  /-- The reasons each source's records are set aside for without blocking. -/
  quiet : IndexMap String (List String)

def firstOf : Json → Except String Json
  | .arr [] => .error "list index out of range"
  | .arr (value :: _) => .ok value
  | value => .ok value

def childOf (value : Json) (key : String) : Json :=
  match value with
  | .obj fields => ((IndexMap.ofList fields).get? key).getD .null
  | _ => .null

/-- A text that is not empty. Any other value with content is no key. -/
def keyText : Json → Except String (Option String)
  | .str value => .ok (if value = "" then none else some value)
  | value => if Records.hasContent value then .error "A key is text" else .ok none

def nameId (record : Object) : Except String (Option String) := do
  let value ← firstOf (childOf (readOptionalValue record "cross_references") "name_id")
  keyText value

def textOrNone : Json → Option String
  | .str value => if value = "" then none else some value
  | _ => none

/-- The first entry of a name count: the first item of the first list. -/
def firstName : Json → Json
  | .arr (.arr (value :: _) :: _) => value
  | _ => .null

/-- The LEIs the record's name count found, and its name id, each under its role. -/
def nameKeys (record : Object) : Except String (List (String × String)) := do
  let found := childOf (childOf (readOptionalValue record "provenance") "matching") "name_count"
  let exact ← nameId record
  .ok ([("cascade", textOrNone (childOf (childOf found "cascade") "lei")), ("name_count", textOrNone (firstName (childOf found "leis"))),
    ("exact", exact)].filterMap fun key => key.2.map fun value => (key.1, value))

def leiOf (record : Object) : Except String (Option String) := do
  let identifiers ← readFields (readOptionalValue record "identifiers")
  let value ← firstOf (readOptionalValue identifiers "lei")
  match value with
  | .null => .ok none
  | value => (Records.readString value).map some

def stageRecord (record : Object) : Except String Staged := do
  let assertion ← readText record "assertion_id"
  let subject ← readText record "subject"
  let source ← readText record "source_code"
  let lei ← leiOf record
  .ok ⟨assertion, subject, source, lei, record⟩

/-- A file as it is staged: its records, their name keys and their name ids. -/
structure Stage where
  records : List Staged
  nameKeys : List (String × String × String)
  nameIds : IndexMap String String

def stageFile (records : List Object) : Except String Stage := do
  let staged ← records.mapM stageRecord
  let keys ← records.mapM nameKeys
  let ids ← records.mapM nameId
  .ok
    { records := staged
      nameKeys := (staged.zip keys).flatMap fun entry => entry.2.map fun key => (key.1, key.2, entry.1.subject)
      nameIds := .ofList ((staged.zip ids).filterMap fun entry => entry.2.map fun value => (entry.1.subject, value)) }

def Stage.subjects (stage : Stage) : List String := Sorting.distinct (stage.records.map Staged.subject)

def boundOf (env : Env) (db : Tables) (subjects : List String) : IndexMap String String :=
  .ofList (env.arrange (db.records.values.filterMap fun row =>
    if row.subject ∈ subjects then row.entity.map fun entity => (row.subject, entity) else none))

def membersOf (env : Env) (db : Tables) (entities : List String) : List RecordRow :=
  env.arrange (db.records.values.filter fun row => row.entity.any (· ∈ entities))

/-- The masters that hold each value looked up, with the kind they are taken to have. -/
def holdersOf (env : Env) (db : Tables) (kind : String) (wanted : List (String × String)) : Matching.Found :=
  (env.arrange (db.identifiers.filter fun row => (row.1, row.2.1) ∈ wanted)).foldl
    (fun found row => found.insert (row.1, row.2.1) (((found.get? (row.1, row.2.1)).getD .empty).insert row.2.2 kind)) .empty

def leisOf (db : Tables) (entity : String) : List String :=
  (db.identifiers.filter fun row => row.1 = "lei" ∧ row.2.2 = entity).map fun row => row.2.1

/-- Where a file's merges have come to. -/
structure Merging where
  db : Tables
  moved : IndexMap String String
  survivors : List String

def mergedAway (kind keep gone : String) : Object :=
  .ofList [("entity_id", .str gone), ("kind", .str kind), ("canonical_id", .str keep), ("status", .str "alias")]

/-- One master joins another: the one stored first is kept, or the lesser id where none is stored. -/
def mergePair (env : Env) (kind : String) (fileNo : Nat) (decision : Object) (id left right : String) (s : Merging) : Merging :=
  let stored := oldest s.db [left, right]
  let keep := stored.head?.getD (min left right)
  let gone := if keep = left then right else left
  let moved := repoint s.db keep gone
  let written := if gone ∈ stored then writeMasters env.now fileNo moved [(gone, mergedAway kind keep gone)] else moved
  { db := addDecision written id ⟨"merge", some keep, some gone, decision⟩
    moved := s.moved.insert gone keep
    survivors := addRow (s.survivors.filter (· ≠ gone)) keep }

def consolidate (env : Env) (kind : String) (fileNo : Nat) (s : Merging) (decision : Object) : Except String Merging := do
  let operation ← readText decision "operation"
  if operation ≠ "merge" then .ok s else do
    let left ← readText decision "left"
    let right ← readText decision "right"
    let id ← readText decision "decision_id"
    let left := Matching.resolve s.moved left
    let right := Matching.resolve s.moved right
    .ok (if left = right then s else mergePair env kind fileNo decision id left right s)

/-- Where a file's records have come to: the tables and the master of each subject. -/
structure Binding where
  db : Tables
  bound : IndexMap String String

def readWithheld (subject : String) (raw : Json) : Except String (String × String × String) := do
  let value ← readFields raw
  let idNamespace ← readText value "namespace"
  let raw ← readText value "raw"
  .ok (subject, idNamespace, raw)

def bindSubject (moved : IndexMap String String) (s : Binding) (decision : Object) : Except String Binding := do
  let operation ← readText decision "operation"
  if operation ≠ "bind" then .ok s else do
    let subject ← readText decision "subject"
    let entity ← readText decision "entity_id"
    let items ← readArray decision "withheld"
    let withheld ← items.mapM (readWithheld subject)
    .ok ⟨addWithheld s.db withheld, s.bound.insert subject (Matching.resolve moved entity)⟩

def reviewRow (db : Tables) (review : Object) : Except String Tables := do
  let reason ← readText review "reason"
  match textOrNone (readOptionalValue review "subject") with
  | none => .ok db
  | some subject => .ok (openReviews db reason [(subject, readOptionalValue review "assertion_id")])

/-- The masters a record's values are held by, where they are several. -/
def severalReached (found : Matching.Found) (items : List Matching.Match) : List String :=
  let hit := Sorting.distinct (items.flatMap fun item => ((found.get? item.key).getD .empty).keys)
  if 1 < hit.length then hit else []

def planInputs (env : Env) (settings : Settings) (db : Tables) (records : List Object) (bound : IndexMap String String) :
    Matching.MatchInputs where
  policy := settings.policy
  assertions := records
  decisions := []
  identities := []
  bound := bound.keys
  boundEntities := .ofList bound.entries
  withheld := withheldOf db bound.keys
  released := []
  normalizers := env.normalizers

/-- What the identifiers of a batch are linked from: the stored holders, and the decisions about the masters some record reaches several of. -/
def linkInputs (env : Env) (settings : Settings) (db : Tables) (plan : Matching.MatchPlan) : Matching.PreparedInputs :=
  let found := holdersOf env db settings.kind (plan.applicable.values.flatten.map Matching.Match.key)
  let reached := Sorting.distinct (plan.applicable.values.flatMap (severalReached found))
  { plan := plan.toPlan
    found := found.entries.map fun entry => ⟨entry.1.1, entry.1.2, entry.2⟩
    suspended := []
    newest := .ofList (plan.kinds.map fun kind => (kind, none))
    newIds := (List.range plan.applicable.size).map env.newId
    refused := []
    asOf := settings.asOf
    consolidations := if reached = [] then [] else decisionsAbout db reached }

/-- The tables and masters after the identifiers, and the masters that others joined. -/
structure Matched where
  db : Tables
  bound : IndexMap String String
  survivors : List String

/-- What the batch decided, carried out: the merges first, then the bindings and the reviews. -/
def carryOut (env : Env) (settings : Settings) (fileNo : Nat) (db : Tables) (bound : IndexMap String String)
    (made : Matching.Results) : Except String Matched := do
  let merging ← made.decisions.foldlM (consolidate env settings.kind fileNo) ⟨db, .empty, []⟩
  let binding ← made.decisions.foldlM (bindSubject merging.moved) ⟨merging.db, bound.mapValues (Matching.resolve merging.moved)⟩
  let reviewed ← made.reviews.foldlM reviewRow binding.db
  .ok ⟨reviewed, binding.bound, merging.survivors⟩

def matchIdentifiers (env : Env) (settings : Settings) (fileNo : Nat) (db : Tables) (records : List Object)
    (bound : IndexMap String String) : Except String Matched := do
  let plan ← Matching.planRecordMatches env.forms env.test (planInputs env settings db records bound)
  if plan.applicable.entries = [] then .ok ⟨db, bound, []⟩ else do
    let made ← Matching.linkMatchingRecords env.matching (linkInputs env settings db plan)
    carryOut env settings fileNo db bound made

/-- The rules of a kind in a family that are activated to bind. -/
def rulesOf (env : Env) (settings : Settings) (family : String) : Except String (List Object) := do
  let kinds ← readObject settings.policy "kinds"
  let block ← readObject kinds settings.kind
  let raw ← readArray block "rules"
  let rules ← raw.mapM readFields
  .ok (rules.filter fun rule => rule.get? "family" = some (.str family) && env.activated settings.policy settings.kind rule)

/-- What a rule is read for: its sources and whether one of its tests is named so. -/
structure NameRule where
  body : Object
  source : String
  holderSource : String
  cascades : Bool
  vetoes : Bool
  waits : Bool

def testName (raw : Json) : Except String String := do
  let test ← readFields raw
  readText test "primitive"

def readNameRule (rule : Object) : Except String NameRule := do
  let raw ← readArray rule "when"
  let tests ← raw.mapM testName
  let holderSource ← readText rule "holder_source"
  let source ← readText rule "source"
  .ok
    { body := rule
      source := source
      holderSource := holderSource
      cascades := "cascade_pass@1" ∈ tests
      vetoes := "holds_no_other_lei@1" ∈ tests
      waits := rule.get? "on_no_match" = some (.str "wait") }

/-- The records of a file or of the tables under a name key, with where they wait. -/
structure Named where
  subject : String
  source : String
  lei : Option String
  body : Object
  deriving DecidableEq

def stagedNamed (staged : Staged) : Named := ⟨staged.subject, staged.source, staged.lei, staged.body⟩

def storedNamed (row : RecordRow) : Named := ⟨row.subject, row.source, row.lei, row.body⟩

/-- The pairs of a candidate and a holder one of which is under a name key that is the other's LEI. -/
def pairsUnder (keys : List (String × String × String)) (role : String) (candidates holders : List Named) : List (Named × Named) :=
  candidates.flatMap fun candidate => (holders.filter fun holder =>
    candidate.lei.any fun lei => (role, lei, holder.subject) ∈ keys).map fun holder => (candidate, holder)

/-- A waiting candidate with a holder of the file, and a candidate of the file with any holder. -/
def namePairs (env : Env) (db : Tables) (stage : Stage) (rule : NameRule) : List (Named × Named) :=
  let role := if rule.cascades then "cascade" else "name_count"
  let candidates := stage.records.map stagedNamed |>.filter fun named => named.source = rule.source
  let holders := stage.records.map stagedNamed |>.filter fun named => named.source = rule.holderSource
  let waiting := (db.records.values.filter fun row => row.entity = none ∧ row.source = rule.source).map storedNamed
  let stored := (db.records.values.filter fun row => row.source = rule.holderSource).map storedNamed
  env.arrange (pairsUnder db.nameKeys role waiting holders ++ pairsUnder db.nameKeys role candidates holders
    ++ pairsUnder db.nameKeys role candidates stored).dedup

/-- Where the name rules have come to. -/
structure Naming where
  bound : IndexMap String String
  named : IndexMap String String
  /-- The LEI each record was named by. -/
  values : IndexMap String String
  /-- The LEIs each master has come to hold. -/
  held : List (String × String)

def reachNames (env : Env) (rule : NameRule) (bound : IndexMap String String) (reach : IndexMap String (List String × Option String))
    (pair : Named × Named) : Except String (IndexMap String (List String × Option String)) := do
  let outcome ← env.compare rule.body pair.2.body pair.1.body
  if outcome.1 = false then .ok reach else
    .ok (reach.insert pair.1.subject
      (addRow ((reach.get? pair.1.subject).elim [] Prod.fst) ((bound.get? pair.2.subject).getD ""), pair.1.lei))

/-- A candidate that reaches one master joins it, unless the master holds another LEI and the rule minds. -/
def nameSubject (db : Tables) (rule : NameRule) (s : Naming) (entry : String × (List String × Option String)) : Naming :=
  match entry.2.1, entry.2.2 with
  | [entity], some lei =>
      if rule.vetoes && ((leisOf db entity).any (· ≠ lei) || s.held.any fun row => row.1 = entity && row.2 ≠ lei) then s
      else { s with
        named := s.named.insert entry.1 entity
        values := s.values.insert entry.1 lei
        held := s.held ++ [(entity, lei)] }
  | _, _ => s

def matchRule (env : Env) (db : Tables) (stage : Stage) (s : Naming) (rule : NameRule) : Except String Naming := do
  let pairs := namePairs env db stage rule
  let involved := Sorting.distinct (pairs.flatMap fun pair => [pair.1.subject, pair.2.subject])
  let bound := s.bound.extend (boundOf env db (involved.filter fun subject => !s.bound.contains subject)).entries
  let open_ := pairs.filter fun pair => !bound.contains pair.1.subject && !s.named.contains pair.1.subject && bound.contains pair.2.subject
  let reach ← open_.foldlM (reachNames env rule bound) .empty
  .ok (reach.entries.foldl (nameSubject db rule) { s with bound, held := [] })

/-- The masters some records join by comparisons of names, and the subjects' masters as they are known then. -/
def matchNames (env : Env) (db : Tables) (stage : Stage) (rules : List NameRule) (bound : IndexMap String String) :
    Except String Naming :=
  rules.foldlM (matchRule env db stage) ⟨bound, .empty, .empty, []⟩

/-- A record under a name id, with its master where it has one. -/
structure Member where
  value : String
  subject : String
  source : String
  entity : Option String
  deriving DecidableEq

def membersUnder (db : Tables) (stage : Stage) : List Member :=
  let values := stage.nameIds.values
  (stage.records.filterMap fun staged => (stage.nameIds.get? staged.subject).map fun value =>
      (⟨value, staged.subject, staged.source, none⟩ : Member)) ++
    db.nameKeys.flatMap fun key =>
      if key.1 = "exact" ∧ key.2.1 ∈ values then
        (db.records.values.filter fun row => row.subject = key.2.2).map fun row => ⟨key.2.1, row.subject, row.source, row.entity⟩
      else []

/-- What an exact-name rule is read for. -/
structure ExactRule where
  source : String
  holderSources : List String

def readExactRule (rule : Object) : Except String ExactRule := do
  let raw ← readArray rule "holder_sources"
  let holderSources ← raw.mapM Records.readString
  let source ← readText rule "source"
  .ok ⟨source, holderSources⟩

/-- The masters that hold a name id by records of the rule's holder sources. -/
def holdingName (rule : ExactRule) (bound : IndexMap String String) (members : List Member) (value : String) : List String :=
  (members.filterMap fun member =>
    if member.value = value ∧ member.source ∈ rule.holderSources then member.entity.or (bound.get? member.subject) else none).dedup

/-- The records of the rule's source that no master holds, each under its name id. -/
def waitingNames (rule : ExactRule) (bound : IndexMap String String) (members : List Member) : IndexMap String String :=
  .ofList (members.filterMap fun member =>
    if (member.entity.or (bound.get? member.subject)).isNone ∧ ¬ (member.source ∈ rule.holderSources ∧
        (member.entity.or (bound.get? member.subject)).isSome) ∧ member.source = rule.source then some (member.subject, member.value)
    else none)

/-- A waiting record joins the one master holding its name id. Several send it to review. -/
def joinName (rule : ExactRule) (bound : IndexMap String String) (members : List Member) (assertionOf : String → Json)
    (s : Tables × IndexMap String String) (entry : String × String) : Tables × IndexMap String String :=
  match holdingName rule bound members entry.2 with
  | [] => s
  | [entity] => (s.1, s.2.insert entry.1 entity)
  | _ => (openReviews s.1 "ambiguous_name_match" [(entry.1, assertionOf entry.1)], s.2)

def matchExactNames (env : Env) (db : Tables) (stage : Stage) (rules : List ExactRule) (bound : IndexMap String String) :
    Tables × IndexMap String String :=
  let members := env.arrange (membersUnder db stage).dedup
  let assertionOf (subject : String) : Json :=
    ((stage.records.reverse.find? fun staged => staged.subject = subject ∧ stage.nameIds.contains subject).map
      fun staged => Json.str staged.assertion).getD .null
  rules.foldl (fun s rule => (waitingNames rule bound members).entries.foldl (joinName rule bound members assertionOf) s) (db, .empty)

def claimBody (record : Readings.CurrentRecord) : Object :=
  .ofList ([("kind", .str record.kind), ("fields", .obj (record.fields.entries.map fun entry => (entry.1, .obj entry.2.entries))),
      ("identifiers", record.identifiers)]
    ++ (if record.crossReferences.entries = [] then [] else [("cross_references", .obj record.crossReferences.entries)])
    ++ (if record.details.entries = [] then [] else [("details", .obj record.details.entries)])
    ++ [("profiles", .arr record.profiles),
      ("profile_fields", .obj (record.profileFields.entries.map fun profile =>
        (profile.1, .obj (profile.2.entries.map fun entry => (entry.1, .obj entry.2.entries))))),
      ("relationships", record.relationships), ("assertion_id", .str record.assertionId), ("source_meta", .obj record.sourceMeta.entries)])

def identityOf (settings : Settings) (entity : String) : Object :=
  .ofList [("entity_id", .str entity), ("kind", .str settings.kind), ("published_at", .str settings.asOf)]

def masterInputs (env : Env) (settings : Settings) (db : Tables) (entities : List String) (claims : IndexMap String Object) : MasterInputs :=
  let members := membersOf env db entities
  { identities := .ofList (entities.map fun entity => (entity, identityOf settings entity))
    canonical := .ofList (entities.map fun entity => (entity, entity))
    bindings := .ofList (members.filterMap fun row => row.entity.map fun entity => (row.subject, entity))
    quarantined := .empty
    claims := claims
    policy := settings.policy
    overrides := overridesOf db (members.map RecordRow.subject)
    decisions := []
    asOf := settings.asOf
    policyDigest := settings.policyDigest
    profileKinds := env.profileKinds
    withheld := withheldOf db (members.map RecordRow.subject) }

def valuesOf : Json → List String
  | .arr items => items.filterMap fun item => match item with
      | .str value => some value
      | _ => none
  | _ => []

def identifiersOf (body : Object) : List (String × String) :=
  match body.get? "identifiers" with
  | some (.obj fields) => (IndexMap.ofList fields).entries.flatMap fun entry => (valuesOf entry.2).map fun value => (entry.1, value)
  | _ => []

def heldBy (entry : String × Object) : List Held := (identifiersOf entry.2).map fun held => (held.1, held.2, entry.1)

/-- The masters touched are written from their records, and hold what their bodies do. -/
def writeTouched (env : Env) (settings : Settings) (fileNo : Nat) (db : Tables) (entities : List String) : Except String Tables := do
  let claims ← Readings.prepareCurrentRecords env.readings ((membersOf env db entities).map RecordRow.body) settings.asOf []
  let found ← prepareMasterRecords env.choose
    (masterInputs env settings db entities (.ofList (claims.entries.map fun entry => (entry.1, claimBody entry.2))))
  .ok (addIdentifiers (writeMasters env.now fileNo db found.masters.entries) (found.masters.entries.flatMap heldBy))

/-- The records that wait: those of a source whose rule lets them, bound to no master yet. -/
def waitingRows (stage : Stage) (rules : List NameRule) (bound : IndexMap String String) : List (String × Json) :=
  (stage.records.filter fun staged => (rules.any fun rule => rule.waits && rule.source = staged.source) && !bound.contains staged.subject).map
    fun staged => (staged.subject, .str staged.assertion)

/-- The master of each subject of the file that has one, and of each record that was named. -/
def heldOf (stage : Stage) (bound named : IndexMap String String) : IndexMap String String :=
  (IndexMap.ofList (stage.subjects.filterMap fun subject => (bound.get? subject).map fun entity => (subject, entity))).extend named.entries

def finishUnlessAgain (db : Tables) (key : String) (again : Bool) (count : Nat) : Except String Tables :=
  if again && fileDone db key then .ok db else finishFile db key count

/-- The records of a file with the masters found for them, stored and written. -/
def storeFile (env : Env) (settings : Settings) (fileNo : Nat) (db : Tables) (stage : Stage) (held : IndexMap String String)
    (survivors : List String) : Except String Tables :=
  let saved := saveRecords db stage.records held
  let touched := Sorting.distinct (held.values ++ survivors)
  if touched = [] then .ok saved else writeTouched env settings fileNo saved touched

def mergeRecords (env : Env) (settings : Settings) (db : Tables) (key : String) (delivery : Delivery) : Except String Tables := do
  let fileNo := lastFile db + 1
  let stage ← stageFile delivery.records
  let db := { db with nameKeys := addRows db.nameKeys stage.nameKeys }
  let matched ← matchIdentifiers env settings fileNo db delivery.records (boundOf env db stage.subjects)
  let raw ← rulesOf env settings "name_binding"
  let rules ← raw.mapM readNameRule
  let naming ← matchNames env matched.db stage rules matched.bound
  let db := addIdentifiers matched.db (naming.named.entries.filterMap fun entry =>
    (naming.values.get? entry.1).map fun lei => ("lei", lei, entry.2))
  let bound := naming.bound.extend naming.named.entries
  let raw ← rulesOf env settings "exact_name_binding"
  let exactRules ← raw.mapM readExactRule
  let exact := matchExactNames env db stage exactRules bound
  let bound := bound.extend exact.2.entries
  let named := naming.named.extend exact.2.entries
  let db := openReviews exact.1 "binding_required" (waitingRows stage rules bound)
  let db := closeReviews db "binding_required" named.keys
  let db ← storeFile env settings fileNo db stage (heldOf stage bound named) matched.survivors
  finishUnlessAgain db key delivery.again delivery.records.length

def fileKey (env : Env) (delivery : Delivery) : Except String String := do
  let assertions ← delivery.records.mapM (readText · "assertion_id")
  let deferred ← delivery.deferred.mapM (readText · "deferred_id")
  .ok (env.matching.digest (String.join (Sorting.sortByKey id (assertions ++ deferred))))

def deferredRow (quiet : IndexMap String (List String)) (record : Object) : Except String (String × Deferred) := do
  let id ← readText record "deferred_id"
  let source ← readText record "source_code"
  let reason ← readText record "reason"
  .ok (id, ⟨source, reason, reason ∉ (quiet.get? source).getD [], record⟩)

/-- What merging a file answers. -/
inductive Merged where
  | skipped
  | merged
  deriving DecidableEq

/-- One file is merged, or nothing where it is done. A file that fails leaves the tables as they were. -/
def mergeFile (env : Env) (settings : Settings) (db : Tables) (delivery : Delivery) : Except String (Merged × Tables) := do
  let key ← fileKey env delivery
  if fileDone db key && !delivery.again then .ok (.skipped, db) else do
    let deferred ← delivery.deferred.mapM (deferredRow delivery.quiet)
    let db := addDeferred db deferred
    let merged ← if delivery.records = [] then finishFile db key 0 else mergeRecords env settings db key delivery
    .ok (.merged, merged)

end EdgarPlatform.Mastering
