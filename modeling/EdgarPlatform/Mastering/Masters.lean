import EdgarPlatform.Matching.Rules

/-!
# Prepared masters

The records bound to a master are projected into its body: the identifiers they hold and do not keep back, the fields chosen from them, and their details. A master whose records hold more values of a namespace than its contract allows, or are of another kind, goes to review; a decision of the batch that touches it fails the batch. An identity that was merged away becomes an alias of its survivor.
-/

namespace EdgarPlatform.Mastering

open Records (Json Object readText readObject readArray readFields hasValue readOptionalValue)

/-- What the fields of one master are chosen from. -/
structure FieldInputs where
  kind : String
  subjects : List String
  claims : IndexMap String Object
  policy : Object
  overrides : List Object
  asOf : String
  policyDigest : String
  entityId : String
  profileKinds : IndexMap String (List String)

abbrev ChooseFields := FieldInputs → Except String (Object × List Object × List Object)

structure MasterInputs where
  identities : SortedMap String Object
  canonical : IndexMap String String
  bindings : IndexMap String String
  quarantined : IndexMap String String
  claims : IndexMap String Object
  policy : Object
  overrides : List Object
  decisions : List Object
  asOf : String
  policyDigest : String
  profileKinds : IndexMap String (List String)
  /-- The values each record's live bind keeps back from its master, by namespace and as the source wrote them. -/
  withheld : SortedMap String (List (String × String))

def operandsOf (operation : String) : List String :=
  if operation = "bind" then ["entity_id"] else if operation = "merge" then ["left", "right"] else []

/-- One of the operands named has the master as its survivor. Reading stops at the first that has. -/
def anyOperand (decision : Object) (record : String) (canonical : IndexMap String String) : List String → Except String Bool
  | [] => .ok false
  | key :: rest => do
      let operand ← readText decision key
      if canonical.get? operand = some record then .ok true else anyOperand decision record canonical rest

def decisionChangesRecord (decision : Object) (record : String) (canonical : IndexMap String String) : Except String Bool := do
  let operation ← readText decision "operation"
  anyOperand decision record canonical (operandsOf operation)

def readCount : Json → Except String Nat
  | .num lexeme => (lexeme.toNat?.filter (· < 2 ^ 64)).elim (.error "Invalid record value") .ok
  | _ => .error "Invalid record value"

/-- How many values a contract lets one master hold. None for any number. -/
def reverseLimit (claim : Object) : Except String (Option Nat) :=
  match claim.get? "reverse" with
  | none => .ok (some 1)
  | some .null => .ok none
  | some raw => (readCount raw).map some

/-- How many values of a namespace one master of the kind may hold. -/
def readReverseLimit (policy : Object) (kind idNamespace : String) : Except String (Option Nat) := do
  let kinds ← readObject policy "kinds"
  match kinds.get? kind with
  | none => .ok (some 1)
  | some block => do
      let block ← readFields block
      let contracts ← readObject block "identifiers"
      match contracts.get? idNamespace with
      | none => .ok (some 1)
      | some contract => do
          let contract ← readFields contract
          let claim ← readObject contract "claim"
          reverseLimit claim

/-- One detail row of a master: the source it is taken from, its body and every source that has it. -/
structure DetailRow where
  priority : Nat ×ₗ (String ×ₗ String)
  body : Object
  sources : List String

abbrev DetailRows := SortedMap String (SortedMap String DetailRow)

/-- A detail of a record joins the row under its key: its body is that of the source ranked first. -/
def addDetail (priority : Nat ×ₗ (String ×ₗ String)) (source name : String) (rows : DetailRows) (item : Object) :
    Except String DetailRows := do
  let key ← readText item "key"
  let keyed := (rows.get? name).getD .empty
  let row := (keyed.get? key).getD ⟨priority, item, []⟩
  let row := if priority < row.priority then { row with priority, body := item } else row
  .ok (rows.insert name (keyed.insert key { row with sources := Sorting.distinct (row.sources ++ [source]) }))

def readObjects : Json → Except String (List Object)
  | .arr items => items.mapM readFields
  | _ => .error "Invalid record value"

def addDetails (priority : Nat ×ₗ (String ×ₗ String)) (source : String) (rows : DetailRows) (entry : String × Json) :
    Except String DetailRows := do
  let items ← readObjects entry.2
  items.foldlM (addDetail priority source entry.1) rows

def addSubjectDetails (rank : SortedMap String Nat) (claims : IndexMap String Object) (rows : DetailRows) (subject : String) :
    Except String DetailRows :=
  match claims.get? subject with
  | none => .ok rows
  | some claim =>
      if hasValue claim "details" = false then .ok rows else do
        let metadata ← readObject claim "source_meta"
        let source ← readText metadata "source_code"
        let details ← readObject claim "details"
        details.entries.foldlM (addDetails (toLex ((rank.get? source).getD rank.size, toLex (source, subject))) source) rows

def DetailRow.written (row : DetailRow) : Object := row.body.insert "sources" (.arr (row.sources.map .str))

/-- One row for each detail key, in the approved order of the sources. -/
def selectDetailRows (kind : String) (subjects : List String) (claims : IndexMap String Object) (policy : Object) :
    Except String (SortedMap String (List Object)) := do
  let kinds ← readObject policy "kinds"
  let block ← (kinds.get? kind).elim (.ok .empty) readFields
  let defaults ← readObject block "defaults"
  let sources ← readArray defaults "sources"
  let sources ← sources.mapM Records.readString
  let rows ← subjects.foldlM (addSubjectDetails (.ofList (sources.zipIdx)) claims) .empty
  .ok (rows.mapValues fun _ keyed => keyed.values.map DetailRow.written)

abbrev Identifiers := IndexMap String (List String)

/-- The values of one identifier that the record does not keep back. -/
def addValue (kept : List (String × String)) (idNamespace : String) (found : Identifiers) (value : String) : Identifiers :=
  if (idNamespace, value) ∈ kept then found
  else found.insert idNamespace (Sorting.distinct ((found.get? idNamespace).getD [] ++ [value]))

def addIdentifier (kept : List (String × String)) (found : Identifiers) (entry : String × Json) : Except String Identifiers := do
  let values ← Matching.readIdentifierValues entry.2
  .ok (values.foldl (addValue kept entry.1) found)

/-- What a member adds to a master: its identifiers, and a conflict where it is of another kind. -/
def addMember (input : MasterInputs) (kind : String) (found : Identifiers × List Object) (subject : String) :
    Except String (Identifiers × List Object) :=
  match input.claims.get? subject with
  | none => .ok found
  | some claim => do
      let own ← readText claim "kind"
      let identifiers ← readObject claim "identifiers"
      let added ← identifiers.entries.foldlM (addIdentifier ((input.withheld.get? subject).getD [])) found.1
      .ok (added, if own = kind then found.2
        else found.2 ++ [.ofList [("reason", .str "kind_conflict"), ("subject", .str subject)]])

/-- A conflict where a master holds more values of a namespace than it may. -/
def checkLimit (policy : Object) (kind : String) (conflicts : List Object) (entry : String × List String) :
    Except String (List Object) := do
  let limit ← readReverseLimit policy kind entry.1
  .ok (if limit.all (entry.2.length ≤ ·) then conflicts
    else conflicts ++ [.ofList [("reason", .str "authoritative_identifier_conflict"), ("namespace", .str entry.1),
      ("values", .arr (entry.2.map .str))]])

def identifiersJson (identifiers : Identifiers) : Json :=
  .obj ((SortedMap.ofList identifiers.entries).entries.map fun entry => (entry.1, .arr (entry.2.map .str)))

def aliasBody (record kind root : String) : Object :=
  .ofList [("entity_id", .str record), ("kind", .str kind), ("canonical_id", .str root), ("status", .str "alias")]

/-- No decision of the batch touches a master that is not accepted. -/
def checkDecision (canonical : IndexMap String String) (record : String) (decision : Object) : Except String Unit := do
  let changed ← decisionChangesRecord decision record canonical
  if changed then .error "Identity decision has unresolved authoritative identifier or kind conflict" else .ok ()

def checkDecisions (input : MasterInputs) (record : String) (conflicts : List Object) : Except String Unit :=
  if conflicts = [] then .ok () else input.decisions.forM (checkDecision input.canonical record)

def masterBody (record kind : String) (accepted : Bool) (chosen : Object × List Object × List Object)
    (identifiers : Identifiers) (members : List String) : Object :=
  .ofList [("entity_id", .str record), ("kind", .str kind), ("canonical_id", .str record),
    ("status", .str (if accepted then "accepted" else "review")),
    ("fields", (if accepted then chosen.1 else .empty).toJson),
    ("profiles", .arr (if accepted then chosen.2.1.map Object.toJson else [])),
    ("identifiers", identifiersJson identifiers), ("subjects", .arr (members.map .str))]

def detailsJson (details : SortedMap String (List Object)) : Json :=
  .obj (details.entries.map fun entry => (entry.1, .arr (entry.2.map Object.toJson)))

/-- An accepted master's details join its body, where it has any. -/
def withDetails (input : MasterInputs) (kind : String) (members : List String) (accepted : Bool) (body : Object) :
    Except String Object :=
  if accepted = false then .ok body else do
    let details ← selectDetailRows kind members input.claims input.policy
    .ok (if details.entries = [] then body else body.insert "details" (detailsJson details))

structure Projected where
  masters : IndexMap String Object
  reviews : List Object
  /-- The subjects of each master, in the order they are bound. -/
  groups : IndexMap String (List String)

def projectMaster (choose : ChooseFields) (input : MasterInputs) (flagged : List String) (found : Projected) (record kind : String) :
    Except String Projected := do
  let group := (found.groups.get? record).getD []
  let members := Sorting.sortByKey id group
  let (identifiers, kinds) ← members.foldlM (addMember input kind) (.empty, [])
  let conflicts ← identifiers.entries.foldlM (checkLimit input.policy kind) kinds
  checkDecisions input record conflicts
  let chosen ← choose ⟨kind, members, input.claims, input.policy, input.overrides, input.asOf, input.policyDigest, record,
    input.profileKinds⟩
  let body ← withDetails input kind members (conflicts = []) (masterBody record kind (conflicts = []) chosen identifiers members)
  .ok
    { masters := found.masters.insert record (if record ∈ flagged then body.insert "quarantined" (.bool true) else body)
      reviews := found.reviews ++ (conflicts ++ chosen.2.2).map fun review => review.insert "entity_id" (.str record)
      groups := found.groups.insert record group }

def projectOne (choose : ChooseFields) (input : MasterInputs) (flagged : List String) (found : Projected)
    (entry : String × Object) : Except String Projected := do
  let root ← (input.canonical.get? entry.1).elim (.error "Unknown identity") .ok
  let kind ← readText entry.2 "kind"
  if root ≠ entry.1 then
    .ok { found with masters := found.masters.insert entry.1 (aliasBody entry.1 kind root) }
  else projectMaster choose input flagged found entry.1 kind

def groupSubject (canonical : IndexMap String String) (groups : IndexMap String (List String)) (entry : String × String) :
    Except String (IndexMap String (List String)) := do
  let root ← (canonical.get? entry.2).elim (.error "Unknown bound identity") .ok
  .ok (groups.insert root ((groups.get? root).getD [] ++ [entry.1]))

/-- A record that only links others needs no master of its own. -/
def onlyRelationships (claim : Object) (relationships : List Json) : Bool :=
  relationships ≠ [] && !hasValue claim "fields" && !hasValue claim "identifiers"
    && relationships.all fun raw => (readFields raw).toOption.any (hasValue · "source_subject")

def bindingReview (input : MasterInputs) (entry : String × Object) : Except String (List Object) :=
  if input.bindings.contains entry.1 then .ok [] else do
    let relationships ← readArray entry.2 "relationships"
    .ok (if onlyRelationships entry.2 relationships then []
      else [.ofList [("reason", .str "binding_required"), ("subject", .str entry.1),
        ("assertion_id", readOptionalValue entry.2 "assertion_id")]])

def overrideReviews (overrides : List Object) : List Object :=
  (overrides.filter fun decision => !hasValue decision "subject").map fun decision =>
    .ofList [("reason", .str "ambiguous_override_owner"), ("decision_id", readOptionalValue decision "decision_id")]

def prepareMasterRecords (choose : ChooseFields) (input : MasterInputs) : Except String Projected := do
  let flagged ← input.quarantined.values.mapM fun record =>
    (input.canonical.get? record).elim (.error "Unknown quarantined identity") .ok
  let groups ← input.bindings.entries.foldlM (groupSubject input.canonical) .empty
  let found ← input.identities.entries.foldlM (projectOne choose input flagged) ⟨.empty, [], groups⟩
  let waiting ← input.claims.entries.mapM (bindingReview input)
  .ok { found with reviews := found.reviews ++ waiting.flatten ++ overrideReviews input.overrides }

/-! ### The mastering tables

What mastering stores: the masters with the number of the file that last changed each, the identifiers they hold, the records with the master each is bound to now and was first bound to, the decisions, reviews and lookups. A body is stored as text; two texts are equal where the bodies are, since the text keeps the order of the fields. Each operation below is one statement of the store, or the few it runs together.
-/

open Records (Json Object)

structure MasterRow where
  body : Object
  changedFile : Nat
  createdAt : Int
  deriving DecidableEq

/-- One reading of a record, with the master it is bound to and the one it was first bound to. -/
structure RecordRow where
  subject : String
  entity : Option String
  bound : Option String
  source : String
  lei : Option String
  body : Object
  deriving DecidableEq

structure DecisionRow where
  operation : String
  left : Option String
  right : Option String
  body : Object
  deriving DecidableEq

structure Review where
  assertion : Json
  isOpen : Bool
  deriving DecidableEq

structure Deferred where
  source : String
  reason : String
  blocking : Bool
  body : Object
  deriving DecidableEq

/-- A value a master holds: its namespace, the value and the master. -/
abbrev Held := String × String × String

structure Tables where
  masters : IndexMap String MasterRow
  /-- The files that are done, each with how many records it held. -/
  files : IndexMap String Nat
  identifiers : List Held
  /-- By assertion. -/
  records : IndexMap String RecordRow
  /-- The name keys of records: a role, a value and the subject. -/
  nameKeys : List (String × String × String)
  reviews : IndexMap (String × String) Review
  decisions : IndexMap String DecisionRow
  withheld : List (String × String × String)
  deferred : IndexMap String Deferred
  /-- The tokens masters are found by. -/
  lookups : List (String × String)
  /-- How far the lookups of each configuration are built. -/
  progress : IndexMap String (Int × String)
  deriving DecidableEq

def Tables.empty : Tables := ⟨.empty, .empty, [], .empty, [], .empty, .empty, [], .empty, [], .empty⟩

def addRow {α : Type} [DecidableEq α] (rows : List α) (row : α) : List α := if row ∈ rows then rows else rows ++ [row]

def addRows {α : Type} [DecidableEq α] (rows added : List α) : List α := added.foldl addRow rows

@[simp] theorem mem_addRow {α : Type} [DecidableEq α] {rows : List α} {row other : α} :
    other ∈ addRow rows row ↔ other ∈ rows ∨ other = row := by
  rw [addRow]
  split_ifs with hrow
  · exact ⟨.inl, fun h => h.elim id fun heq => heq ▸ hrow⟩
  · rw [List.mem_append, List.mem_singleton]

@[simp] theorem mem_addRows {α : Type} [DecidableEq α] {rows added : List α} {other : α} :
    other ∈ addRows rows added ↔ other ∈ rows ∨ other ∈ added := by
  induction added generalizing rows with
  | nil => simp [addRows]
  | cons row rest ih =>
      show other ∈ addRows (addRow rows row) rest ↔ _
      rw [ih, mem_addRow, List.mem_cons, or_assoc]

/-- An insertion under a key that leaves the row that is there. -/
def insertNew {κ α : Type} [DecidableEq κ] (rows : IndexMap κ α) (key : κ) (row : α) : IndexMap κ α :=
  if rows.contains key then rows else rows.insert key row

theorem get?_insertNew {κ α : Type} [DecidableEq κ] (rows : IndexMap κ α) (key other : κ) (row : α) :
    (insertNew rows key row).get? other = if other = key then (rows.get? key).or (some row) else rows.get? other := by
  rw [insertNew, IndexMap.contains]
  cases hrow : rows.get? key with
  | none =>
      rw [if_neg (by simp), IndexMap.get?_insert]
      rfl
  | some old =>
      simp only [Option.isSome_some, if_true]
      split_ifs with hkey
      · rw [hkey, hrow]
        rfl
      · rfl

def lastFile (db : Tables) : Nat := (db.masters.values.map MasterRow.changedFile).foldl max 0

def fileDone (db : Tables) (key : String) : Bool := db.files.contains key

def finishFile (db : Tables) (key : String) (records : Nat) : Except String Tables :=
  if db.files.contains key then .error "duplicate key value violates unique constraint"
  else .ok { db with files := db.files.insert key records }

/-- A master's row as it is written. A body that is stored already changes nothing. -/
def writtenRow (now : Int) (fileNo : Nat) (old : Option MasterRow) (body : Object) : MasterRow :=
  match old with
  | none => ⟨body, fileNo, now⟩
  | some row => if row.body = body then row else { row with body, changedFile := fileNo }

def writeMaster (now : Int) (fileNo : Nat) (masters : IndexMap String MasterRow) (entry : String × Object) :
    IndexMap String MasterRow :=
  masters.insert entry.1 (writtenRow now fileNo (masters.get? entry.1) entry.2)

def writeMasters (now : Int) (fileNo : Nat) (db : Tables) (rows : List (String × Object)) : Tables :=
  { db with masters := rows.foldl (writeMaster now fileNo) db.masters }

def oldest (db : Tables) (entities : List String) : List String :=
  (Sorting.sortByKey (fun entry : String × MasterRow => toLex (entry.2.createdAt, entry.1))
    (db.masters.entries.filter fun entry => entry.1 ∈ entities)).map Prod.fst

def addIdentifiers (db : Tables) (rows : List Held) : Tables := { db with identifiers := addRows db.identifiers rows }

def repoint (db : Tables) (keep gone : String) : Tables :=
  { db with
    identifiers := addRows (db.identifiers.filter fun row => row.2.2 ≠ gone)
      ((db.identifiers.filter fun row => row.2.2 = gone).map fun row => (row.1, row.2.1, keep))
    records := db.records.mapValues fun row => if row.entity = some gone then { row with entity := some keep } else row }

/-- A merged-away master's records return to it: a record keeps the master it was first bound to. -/
def split (db : Tables) (keep gone : String) : Tables :=
  { db with
    records := db.records.mapValues fun row =>
      if row.entity = some keep ∧ row.bound = some gone then { row with entity := some gone } else row
    identifiers := db.identifiers.filter fun row => row.2.2 ≠ keep }

/-- A record of a file, as it is staged. -/
structure Staged where
  assertion : String
  subject : String
  source : String
  lei : Option String
  body : Object
  deriving DecidableEq

def stagedRow (held : IndexMap String String) (staged : Staged) : RecordRow :=
  ⟨staged.subject, held.get? staged.subject, held.get? staged.subject, staged.source, staged.lei, staged.body⟩

/-- A row follows its subject to another master; one that was never bound is first bound there. -/
def followSubject (held : IndexMap String String) (row : RecordRow) : RecordRow :=
  match held.get? row.subject with
  | none => row
  | some entity => if row.entity = some entity then row
      else { row with bound := row.bound.or (some entity), entity := some entity }

/-- A file's records with their masters. Older rows of the same subjects follow. -/
def saveRecords (db : Tables) (stage : List Staged) (held : IndexMap String String) : Tables :=
  { db with
    records := (stage.foldl (fun rows staged => insertNew rows staged.assertion (stagedRow held staged)) db.records).mapValues
      (followSubject held) }

def addDecision (db : Tables) (id : String) (row : DecisionRow) : Tables :=
  { db with decisions := insertNew db.decisions id row }

/-- The merges, exclusions and reversals stored about some masters. -/
def decisionsAbout (db : Tables) (entities : List String) : List Object :=
  (db.decisions.values.filter fun row => row.operation ∈ ["merge", "exclude", "reverse"] &&
    (row.left.any (· ∈ entities) || row.right.any (· ∈ entities))).map DecisionRow.body

def overridesOf (db : Tables) (subjects : List String) : List Object :=
  (db.decisions.entries.filter fun entry => entry.2.operation = "override" && entry.2.left.any (· ∈ subjects) &&
    !(db.decisions.values.any fun row => row.operation = "revoke" && row.right = some entry.1)).map fun entry => entry.2.body

def addWithheld (db : Tables) (rows : List (String × String × String)) : Tables :=
  { db with withheld := addRows db.withheld rows }

def withheldOf (db : Tables) (subjects : List String) : SortedMap String (List (String × String)) :=
  (db.withheld.filter fun row => row.1 ∈ subjects).foldl
    (fun found row => found.insert row.1 ((found.get? row.1).getD [] ++ [row.2])) .empty

def openReviews (db : Tables) (reason : String) (rows : List (String × Json)) : Tables :=
  { db with reviews := rows.foldl (fun reviews row => reviews.insert (row.1, reason) ⟨row.2, true⟩) db.reviews }

def closeReviews (db : Tables) (reason : String) (subjects : List String) : Tables :=
  { db with reviews := ⟨db.reviews.entries.map fun entry =>
      (entry.1, if entry.1.2 = reason ∧ entry.1.1 ∈ subjects then { entry.2 with isOpen := false } else entry.2), by
    rw [List.map_map]
    exact db.reviews.nodup⟩ }

def addDeferred (db : Tables) (rows : List (String × Deferred)) : Tables :=
  { db with deferred := rows.foldl (fun deferred row => insertNew deferred row.1 row.2) db.deferred }

end EdgarPlatform.Mastering
