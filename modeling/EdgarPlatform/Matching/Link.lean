import EdgarPlatform.Matching.Consolidations
import EdgarPlatform.Records.Decisions

/-!
# Linking a batch of records to masters

Each record of the batch takes one turn. It reaches the masters its values are held by, and its rules say what follows: a review, a bind to the master it reaches, a merge of the masters it reaches, or a new master. What a turn gives a master is found by the turns after it. The records that find a held master take their turns first, then those a rule may create a master from, then those that only wait.
-/

namespace EdgarPlatform.Matching

open Records (Calendar Env Json Object readText)

inductive OnNoMatch
  | mint | wait
  deriving DecidableEq

inductive OnSeveral
  | review | merge
  deriving DecidableEq

/-- What follows when a record's values reach two masters and do not merge them. -/
inductive OnConflict
  | review | first
  deriving DecidableEq

structure Outcomes where
  onNoMatch : OnNoMatch
  onSeveral : OnSeveral
  onConflict : OnConflict
  deriving DecidableEq

/-- One value of a record and the rule that matches on it. -/
structure Match where
  rule : Object
  outcomes : Outcomes
  idNamespace : String
  value : String
  raw : String
  /-- The record's source issues the namespace, so the record establishes the value for its master. -/
  issued : Bool
  /-- Read from the record's cross-reference: it finds, never is held. -/
  lookupOnly : Bool
  deriving DecidableEq

def Match.key (item : Match) : String × String := (item.idNamespace, item.value)

/-- The masters that hold a value, each with its kind. -/
structure Holder where
  idNamespace : String
  value : String
  records : IndexMap String String
  deriving DecidableEq

def Holder.key (holder : Holder) : String × String := (holder.idNamespace, holder.value)

structure Plan where
  records : IndexMap String Object
  applicable : IndexMap String (List Match)
  callerHolders : List Holder

structure PreparedInputs where
  plan : Plan
  found : List Holder
  suspended : List String
  newest : IndexMap String (Option String)
  newIds : List String
  refused : List (String × String × String)
  asOf : String
  /-- The stored merges, exclusions and their reversals. -/
  consolidations : List Object

abbrev Found := IndexMap (String × String) (IndexMap String String)

structure Results where
  identities : List Object
  decisions : List Object
  reviews : List Object
  mints : List Object
  joins : List Object
  deriving DecidableEq

def Results.empty : Results := ⟨[], [], [], [], []⟩

structure Linking where
  found : Found
  /-- The allocated identities not yet given. -/
  ids : List String
  /-- Per kind, when its new masters are published. -/
  floors : IndexMap String String
  consolidations : Consolidations
  /-- A master this batch merged away answers as the master it merged into. -/
  moved : IndexMap String String
  result : Results
  deriving DecidableEq

def hold (found : Found) (holder : Holder) : Found :=
  found.insert holder.key (((found.get? holder.key).getD .empty).extend holder.records.entries)

def mintBody (entity idNamespace raw : String) : Object :=
  .ofList [("entity_id", .str entity), ("namespace", .str idNamespace), ("raw", .str raw)]

/-- A value the caller gives its master. One that no stored master holds is minted to it. -/
def holdCaller (stored : Found) (acc : Found × List Object) (holder : Holder) : Found × List Object :=
  (hold acc.1 holder,
    if stored.contains holder.key then acc.2
    else acc.2 ++ holder.records.keys.map fun entity => mintBody entity holder.idNamespace holder.value)

def resolveLoop (moved : IndexMap String String) : Nat → String → String
  | 0, entity => entity
  | fuel + 1, entity =>
      match moved.get? entity with
      | none => entity
      | some next => resolveLoop moved fuel next

/-- Where the batch's merges lead. A walk that ends passes a key at most once. -/
def resolve (moved : IndexMap String String) (entity : String) : String := resolveLoop moved (moved.size + 1) entity

/-- A record's place in the batch. -/
inductive Phase
  | finds | creates | waits
  deriving DecidableEq

def Phase.rank : Phase → Nat
  | .finds => 0
  | .creates => 1
  | .waits => 2

def phase (found : Found) (items : List Match) : Phase :=
  if items.any fun item => found.contains item.key then .finds
  else if items.any fun item => item.outcomes.onNoMatch = .mint then .creates
  else .waits

structure Reach where
  matched : IndexMap String (List Match)
  /-- The masters reached through a rule that merges what it reaches. -/
  merging : List String
  problem : Option (String × String)

def Reach.start : Reach := ⟨.empty, [], none⟩

/-- One master that holds the value. The first problem ends the search. -/
def reachHolder (suspended : List String) (kind : String) (item : Match) (r : Reach) (held : String × String) : Reach :=
  if r.problem.isSome then r
  else if held.2 ≠ kind then { r with problem := some ("incompatible_identifier_kind", item.idNamespace) }
  else if held.1 ∈ suspended then { r with problem := some ("suspended_identifier", item.idNamespace) }
  else
    { r with
      matched := r.matched.insert held.1 ((r.matched.get? held.1).getD [] ++ [item])
      merging := if item.outcomes.onSeveral = .merge then r.merging ++ [held.1] else r.merging }

def heldBy (found : Found) (moved : IndexMap String String) (key : String × String) :
    Option (IndexMap String String) :=
  (found.get? key).map fun held => .ofList (held.entries.map fun entry => (resolve moved entry.1, entry.2))

def reachItem (found : Found) (moved : IndexMap String String) (suspended : List String) (kind : String) (r : Reach)
    (item : Match) : Reach :=
  if r.problem.isSome then r
  else
    match heldBy found moved item.key with
    | none => r
    | some held =>
        -- A lookup-only value two masters hold reaches both.
        if 1 < held.size ∧ item.outcomes.onSeveral ≠ .merge ∧ item.lookupOnly = false then
          { r with problem := some ("ambiguous_identifier", item.idNamespace) }
        else held.entries.foldl (reachHolder suspended kind item) r

def reach (found : Found) (moved : IndexMap String String) (suspended : List String) (kind : String)
    (items : List Match) : Reach :=
  items.foldl (reachItem found moved suspended kind) .start

def Reach.mergers (r : Reach) : List String :=
  let merging := Sorting.distinct r.merging
  if 1 < merging.length then merging else []

/-- The namespaces of the values that reached each master last. -/
def Reach.reached (r : Reach) : String :=
  ",".intercalate (Sorting.distinct (r.matched.values.filterMap fun items => items.getLast?.map (·.idNamespace)))

def isFirst (item : Match) : Bool := item.outcomes.onConflict = .first

def Reach.first (r : Reach) : Option String :=
  if r.problem = none ∧ r.mergers = [] ∧ 1 < r.matched.size then
    match r.matched.entries.filter fun entry => entry.2.any isFirst with
    | [only] => some only.1
    | _ => none
  else none

def Reach.review (r : Reach) (c : Consolidations) : Option (String × String) :=
  if r.problem = none ∧ 1 < r.matched.size ∧ r.first = none then
    if r.mergers = [] ∨ r.matched.keys.any (fun entity => entity ∉ r.mergers) then
      some ("conflicting_identifiers", r.reached)
    else if c.excluded r.mergers then some ("excluded_consolidation", r.reached)
    else none
  else r.problem

def reviewBody (record : Object) (subject : String) (problem : String × String) : Object :=
  .ofList [("reason", .str problem.1), ("namespace", .str problem.2), ("subject", .str subject),
    ("assertion_id", Records.readOptionalValue record "assertion_id")]

def joinBodies (stored : Found) (moved : IndexMap String String) (reached : String) (items : List Match) : List Object :=
  items.flatMap fun item =>
    ((stored.get? item.key).elim [] fun held => held.keys.filter fun holder => resolve moved holder = reached).map
      fun holder => mintBody holder item.idNamespace item.raw

/-- The master reached: the one a rule settles on, else the first of those it merges, else the first it reaches. -/
def Reach.target (r : Reach) : Option String := (r.first.or r.mergers.head?).or r.matched.keys.head?

def Reach.selected (r : Reach) (entity : String) : Option Match :=
  let matched := (r.matched.get? entity).getD []
  if r.first.isSome then matched.reverse.find? isFirst
  else if r.mergers = [] then matched.getLast?
  else matched.reverse.find? fun item => item.outcomes.onSeveral = .merge

def prepareDecisionTime (calendar : Calendar) (raw : String) : Except String String := do
  let time ← calendar.readTime raw
  .ok (calendar.write time)

/-- When a kind's new masters are published: at the batch's time, or just after the newest. -/
def publishedAt (calendar : Calendar) (input : PreparedInputs) (kind : String) : Except String String := do
  let time ← calendar.readTime input.asOf
  match (input.newest.get? kind).join with
  | none => .ok input.asOf
  | some newest => do
      let newest ← calendar.readTime newest
      if newest < time then .ok input.asOf
      else if calendar.last < newest + 1000 then .error "Publication time overflow"
      else prepareDecisionTime calendar (calendar.rfc3339 (newest + 1000))

def identityBody (entity kind published : String) : Object :=
  .ofList [("entity_id", .str entity), ("kind", .str kind), ("published_at", .str published)]

def floorOf (env : Env) (input : PreparedInputs) (floors : IndexMap String String) (kind : String) :
    Except String (IndexMap String String × String) :=
  match floors.get? kind with
  | some floor => .ok (floors, floor)
  | none => do
      let floor ← publishedAt env.calendar input kind
      .ok (floors.insert kind floor, floor)

def create (env : Env) (input : PreparedInputs) (s : Linking) (kind : String) : Except String (Linking × String) :=
  match s.ids with
  | [] => .error "Not enough allocated record identities"
  | entity :: ids => do
      let (floors, floor) ← floorOf env input s.floors kind
      .ok ({ s with
        ids, floors
        result := { s.result with identities := s.result.identities ++ [identityBody entity kind floor] } }, entity)

def bindReached (stored : Found) (s : Linking) (r : Reach) (entity : String) : Linking :=
  let reached := r.matched.entries.filter fun entry => r.first = none ∨ entry.1 = entity
  { s with
    result := { s.result with
      joins := s.result.joins ++ reached.flatMap fun entry => joinBodies stored s.moved entry.1 entry.2 } }

/-- The master a record binds to and the value the bind names. None where the record only waits. -/
def choose (env : Env) (input : PreparedInputs) (stored : Found) (s : Linking) (kind : String) (items : List Match)
    (r : Reach) : Except String (Option (Linking × String × Match)) :=
  match r.target with
  | some entity =>
      match r.selected entity with
      | none => .error "Missing matched rule"
      | some selected => .ok (some (bindReached stored s r entity, entity, selected))
  | none =>
      match items.find? fun item => item.outcomes.onNoMatch = .mint with
      | none => .ok none
      | some item => do
          let (s, entity) ← create env input s kind
          .ok (some (s, entity, item))

/-- What the decisions of one turn share: the rule, the value and the record they rest on, and when they take effect. -/
structure Basis where
  ruleId : String
  version : String
  idNamespace : String
  time : String
  assertion : String

def decisionBody (basis : Basis) (operation : String) (operands rest : List (String × Json)) : Object :=
  .ofList ([("operation", .str operation), ("actor", .str ("rule:" ++ basis.ruleId ++ "@" ++ basis.version)),
    ("reason", .str ("identifier_match " ++ basis.idNamespace)), ("at", .str basis.time)] ++ operands ++
    [("evidence", .arr [.str basis.assertion]), ("rule_id", .str basis.ruleId),
      ("rule_version", .str basis.version)] ++ rest)

def contentHash (digest : String → String) (body : Object) : String :=
  Records.calculateContentHash digest body.toJson

def withId (digest : String → String) (body : Object) : Object :=
  body.insert "decision_id" (.str (contentHash digest body))

/-- The merge of the master a record binds to with another it reaches. It names every live merge either side rests on. -/
def mergeBody (basis : Basis) (c : Consolidations) (entity other : String) : Object :=
  decisionBody basis "merge"
    [("left", .str entity), ("right", .str other), ("depends_on", .arr ((c.depends entity other).map .str))] []

def mergeOther (env : Env) (basis : Basis) (entity : String) (s : Linking) (other : String) : Linking :=
  let body := mergeBody basis s.consolidations entity other
  { s with
    consolidations := s.consolidations.join entity other (contentHash env.digest body)
    moved := s.moved.insert other entity
    result := { s.result with decisions := s.result.decisions ++ [withId env.digest body] } }

/-- A value no master held, from the source that issues it or the value a new master is created by, is the master's from now on. -/
def holdItem (created : Bool) (selected : Match) (entity kind : String) (s : Linking) (item : Match) : Linking :=
  if s.found.contains item.key ∨ ¬ (item.issued ∨ created ∧ item.key = selected.key) then s
  else
    { s with
      found := s.found.insert item.key (.ofList [(entity, kind)])
      result := { s.result with mints := s.result.mints ++ [mintBody entity item.idNamespace item.raw] } }

def Reach.withheld (r : Reach) (entity : String) : List (String × String) :=
  if r.first = none then []
  else Sorting.distinct ((r.matched.entries.filter fun entry => entry.1 ≠ entity).flatMap fun entry =>
    entry.2.map fun item => toLex (item.idNamespace, item.raw)) |>.map ofLex

def withheldJson (withheld : List (String × String)) : List (String × Json) :=
  if withheld = [] then []
  else [("withheld", .arr (withheld.map fun value => .obj [("namespace", .str value.1), ("raw", .str value.2)]))]

def bindBody (basis : Basis) (subject entity : String) (withheld : List (String × String)) : Object :=
  decisionBody basis "bind" [("subject", .str subject), ("entity_id", .str entity)] (withheldJson withheld)

def bindRecord (env : Env) (basis : Basis) (subject entity : String) (withheld : List (String × String)) (s : Linking) :
    Linking :=
  { s with
    result := { s.result with
      decisions := s.result.decisions ++ [withId env.digest (bindBody basis subject entity withheld)] } }

/-- The merges, the values and the bind of a record that binds. -/
def write (env : Env) (basis : Basis) (subject kind entity : String) (items : List Match) (selected : Match)
    (r : Reach) (s : Linking) : Linking :=
  let s := (r.mergers.filter (· ≠ entity)).foldl (mergeOther env basis entity) s
  let s := items.foldl (holdItem (r.matched.size = 0) selected entity kind) s
  bindRecord env basis subject entity (r.withheld entity) s

def turn (env : Env) (input : PreparedInputs) (stored : Found) (s : Linking) (entry : String × List Match) :
    Except String Linking := do
  -- The plan holds the record of each subject it applies; a missing one stops the program.
  let record ← (input.plan.records.get? entry.1).elim (.error "no entry found for key") .ok
  let kind ← readText record "kind"
  let r := reach s.found s.moved input.suspended kind entry.2
  match r.review s.consolidations with
  | some problem =>
      .ok { s with result := { s.result with reviews := s.result.reviews ++ [reviewBody record entry.1 problem] } }
  | none => do
      let chosen ← choose env input stored s kind entry.2 r
      match chosen with
      | none => .ok s
      | some (s, entity, selected) => do
          let ruleId ← readText selected.rule "rule_id"
          let version ← readText selected.rule "version"
          if (entry.1, ruleId, version) ∈ input.refused then .ok s
          else do
            let time ← prepareDecisionTime env.calendar input.asOf
            let assertion ← readText record "assertion_id"
            let basis : Basis := { ruleId, version, idNamespace := selected.idNamespace, time, assertion }
            .ok (write env basis entry.1 kind entity entry.2 selected r s)

def storedFound (input : PreparedInputs) : Found := input.found.foldl hold .empty

def start (input : PreparedInputs) (c : Consolidations) : Linking :=
  let (found, mints) := input.plan.callerHolders.foldl (holdCaller (storedFound input)) (storedFound input, [])
  { found, ids := input.newIds, floors := .empty, consolidations := c, moved := .empty
    result := { Results.empty with mints } }

def subjects (input : PreparedInputs) (found : Found) : List (String × List Match) :=
  Sorting.sortByKey (fun entry => toLex ((phase found entry.2).rank, entry.1)) input.plan.applicable.entries

def link (env : Env) (input : PreparedInputs) : Except String Linking := do
  let c ← Consolidations.read input.consolidations
  let s := start input c
  (subjects input s.found).foldlM (turn env input (storedFound input)) s

def linkMatchingRecords (env : Env) (input : PreparedInputs) : Except String Results := do
  let s ← link env input
  .ok s.result

end EdgarPlatform.Matching
