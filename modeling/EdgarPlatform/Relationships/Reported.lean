import EdgarPlatform.Relationships.Periods
import EdgarPlatform.Relationships.Types

/-!
# Reported relationships

Each record reports relationships by the subjects of their ends. A reported one goes to review or is added to the relationship it is a sighting or a period of, which is told by its type, ends, scope and capacity. A succession ends the parent links of what it succeeds.
-/

namespace EdgarPlatform.Relationships

open Records (Calendar Env Json Object readText hasValue hasContent readOptionalValue valuesMatch)

structure Command where
  claims : IndexMap String Object
  bindings : IndexMap String String
  canonical : IndexMap String String
  records : IndexMap String Object
  types : IndexMap String Object
  stored : IndexMap String Object
  asOf : String
  clock : String
  kinds : List String

structure Relationship where
  body : Object
  periods : List Object
  evidence : List Object
  sightings : Option (List Object)

abbrev Edges := IndexMap String Relationship

/-- The fields of a reported relationship that do not describe its period. -/
def notPeriod : List String :=
  ["type", "source_id", "target_id", "scope", "capacity", "source_subject", "target_subject", "relationship_id",
    "derived", "periods", "evidence", "last_seen", "on", "basis", "held", "title"]

def reviewBody (reason : String) (context : List (String × Json)) : Object :=
  (IndexMap.ofList [("reason", .str reason)]).extend context

def defaultText (body : Object) (field otherwise : String) : Except String String :=
  if body.contains field then readText body field else .ok otherwise

/-- Why a reported relationship is not added: the calculation fails, or it goes to review. -/
inductive Stop
  | failed (text : String)
  | review (body : Object)

def orFail {α : Type} : Except String α → Except Stop α
  | .ok a => .ok a
  | .error text => .error (.failed text)

def reviewWhen (condition : Prop) [Decidable condition] (reason : String) (context : List (String × Json)) :
    Except Stop Unit :=
  if condition then .error (.review (reviewBody reason context)) else .ok ()

def orReview {α : Type} (found : Option α) (reason : String) (context : List (String × Json)) : Except Stop α :=
  found.elim (.error (.review (reviewBody reason context))) .ok

def textsJson (texts : List String) : Json := .arr (texts.map .str)

def missingEnds (source target : Bool) : List String :=
  (if source then [] else ["source"]) ++ if target then [] else ["target"]

/-- A reported relationship that is added. -/
structure Accepted where
  kind : String
  rules : TypeRules
  /-- The subject the source end was reported by. -/
  start : String
  target : Option String
  sourceId : String
  targetId : String
  /-- It is a sighting on a day, not a period. -/
  sighting : Bool
  seen : Option Json
  period : Object

/-- A basis, where a period states one, is one of the two there are. -/
def isKnownBasis (period : Object) (field : String) : Bool :=
  match period.get? field with
  | none => true
  | some .null => true
  | some (.str basis) => basis = "observed" ∨ basis = "stated"
  | some _ => false

/-- A period with its start, and the basis of it: as stated, or the day its record was seen. -/
def withStart (period : Object) (seen : Option Json) (context : List (String × Json)) : Except Stop Object :=
  if hasValue period "valid_from" then
    .ok (if period.contains "valid_from_basis" then period else period.insert "valid_from_basis" (.str "stated"))
  else do
    let seen ← orReview (seen.filter hasContent) "unknown_relationship_start" context
    .ok ((period.insert "valid_from" seen).insert "valid_from_basis" (.str "observed"))

def withEndBasis (period : Object) : Object :=
  if hasValue period "valid_to" ∧ period.contains "valid_to_basis" = false then
    period.insert "valid_to_basis" (.str "stated")
  else period

def readPeriod (calendar : Calendar) (reported : Object) (seen : Option Json) (context : List (String × Json)) :
    Except Stop Object := do
  let period : Object := .ofList (reported.entries.filter fun entry => entry.1 ∉ notPeriod)
  reviewWhen (¬ (isKnownBasis period "valid_from_basis" = true ∧ isKnownBasis period "valid_to_basis" = true))
    "unknown_date_basis" context
  let period ← withStart period seen context
  let bounds ← orFail (interval calendar (withEndBasis period))
  reviewWhen (bounds.2 ≤ bounds.1) "invalid_relationship_interval" context
  .ok (withEndBasis period)

/-- What the profiles of the ends are checked over: the period, or the day of a sighting on. -/
def reportedPeriod (calendar : Calendar) (reported : Object) (seen : Option Json) (context : List (String × Json)) :
    Except Stop Object :=
  if hasValue reported "on" then .ok (.ofList [("valid_from", readOptionalValue reported "on")])
  else readPeriod calendar reported seen context

/-- An end's record has a profile of the role over the whole of the period. -/
def hasProfile (calendar : Calendar) (bounds : Int × Int) (role : String) : List Json → Except String Bool
  | [] => .ok false
  | raw :: rest => do
      let profile ← Records.readFields raw
      let found ← readText profile "role"
      if found = role then do
        let span ← interval calendar profile
        if span.1 ≤ bounds.1 ∧ bounds.2 ≤ span.2 then .ok true else hasProfile calendar bounds role rest
      else hasProfile calendar bounds role rest

def checkProfile (calendar : Calendar) (period : Object) (context : List (String × Json))
    (side : Object × Option String) : Except Stop Unit :=
  match side.2 with
  | none => .ok ()
  | some role => do
      let bounds ← orFail (interval calendar period)
      let profiles ← orFail (Records.readArray side.1 "profiles")
      let found ← orFail (hasProfile calendar bounds role profiles)
      reviewWhen (found = false) "missing_endpoint_profile" context

def isAccepted (record : Object) : Bool := isText record "status" "accepted"

def readSource (subject : String) (reported : Object) : Except String String :=
  if hasValue reported "source_subject" then readText reported "source_subject" else .ok subject

def readTarget (reported : Object) : Option String := (readText reported "target_subject").toOption

def reviewContext (subject : String) (record reported : Object) : List (String × Json) :=
  [("assertion_id", readOptionalValue record "assertion_id"), ("relationship", reported.toJson), ("subject", .str subject)]

/-- The declared type of a reported relationship, whose capacity, day and basis the type allows. -/
def readDeclared (rules : IndexMap String TypeRules) (reported : Object) (context : List (String × Json)) :
    Except Stop (String × TypeRules) := do
  let declared ← orReview
    ((readText reported "type").toOption.bind fun kind => (rules.get? kind).map fun rules => (kind, rules))
    "unsupported_relationship" context
  let capacities := declared.2.capacities.getD []
  reviewWhen (capacities ≠ [] ∧ (readText reported "capacity").toOption.any (· ∈ capacities) = false)
    "unsupported_capacity" context
  reviewWhen (capacities ≠ [] ∧ hasValue reported "on" = false) "unknown_relationship_start" context
  reviewWhen (hasValue reported "on" = true ∧
    (defaultText reported "basis" "observed").toOption.any (· ∈ ["observed", "stated"]) = false)
    "unknown_date_basis" context
  .ok declared

def resolveEnds (command : Command) (start : String) (target : Option String) (context : List (String × Json)) :
    Except Stop (String × String) := do
  let source := command.bindings.get? start
  let destination := target.bind command.bindings.get?
  let missing := ("missing", textsJson (missingEnds source.isSome destination.isSome))
  let source ← orReview source "unresolved_endpoint" (context ++ [missing])
  let destination ← orReview destination "unresolved_endpoint" (context ++ [missing])
  let sourceId ← orFail ((command.canonical.get? source).elim (.error "Missing canonical source record") .ok)
  let targetId ← orFail ((command.canonical.get? destination).elim (.error "Missing canonical target record") .ok)
  reviewWhen (sourceId = targetId) "self_relationship" context
  .ok (sourceId, targetId)

/-- The bodies of the two records, of kinds the type allows and both accepted. -/
def readEnds (command : Command) (rules : TypeRules) (ends : String × String) (context : List (String × Json)) :
    Except Stop (Object × Object) := do
  let source ← orFail ((command.records.get? ends.1).elim (.error "Missing relationship source") .ok)
  let destination ← orFail ((command.records.get? ends.2).elim (.error "Missing relationship target") .ok)
  let sourceKind ← orFail (readText source "kind")
  reviewWhen (sourceKind ∉ rules.fromKinds) "incompatible_endpoint" context
  let targetKind ← orFail (readText destination "kind")
  reviewWhen (targetKind ∉ rules.toKinds) "incompatible_endpoint" context
  let missing := missingEnds (isAccepted source) (isAccepted destination)
  reviewWhen (missing ≠ []) "unresolved_endpoint_identity" (context ++ [("missing", textsJson missing)])
  .ok (source, destination)

def examine (env : Env) (command : Command) (rules : IndexMap String TypeRules) (subject : String)
    (record reported : Object) : Except Stop Accepted := do
  let start ← orFail (readSource subject reported)
  let declared ← readDeclared rules reported (reviewContext subject record reported)
  let ends ← resolveEnds command start (readTarget reported) (reviewContext subject record reported)
  let records ← readEnds command declared.2 ends (reviewContext subject record reported)
  let sourceMeta ← orFail (Records.readObject record "source_meta")
  let period ← reportedPeriod env.calendar reported (sourceMeta.get? "effective_at") (reviewContext subject record reported)
  checkProfile env.calendar period (reviewContext subject record reported) (records.1, declared.2.fromProfile)
  checkProfile env.calendar period (reviewContext subject record reported) (records.2, declared.2.toProfile)
  .ok
    { kind := declared.1, rules := declared.2, start, target := readTarget reported, sourceId := ends.1
      targetId := ends.2, sighting := hasValue reported "on", seen := sourceMeta.get? "effective_at", period }

def identityFields (reported : Object) (a : Accepted) : List (String × Json) :=
  [("type", .str a.kind), ("source_id", .str a.sourceId), ("target_id", .str a.targetId),
    ("scope", (reported.get? "scope").getD (.str ""))] ++
  if hasValue reported "capacity" then [("capacity", readOptionalValue reported "capacity")] else []

def relationshipKey (env : Env) (reported : Object) (a : Accepted) : String :=
  Records.calculateContentHash env.digest (.arr ((identityFields reported a).map Prod.snd))

def newRelationship (key : String) (reported : Object) (a : Accepted) : Relationship where
  body := .ofList (identityFields reported a ++
    [("derived", .bool false), ("relationship_id", .str key), ("last_seen", .null)])
  periods := []
  evidence := []
  sightings := none

def sightingBody (subject : String) (record reported : Object) : Except String Object := do
  let basis ← defaultText reported "basis" "observed"
  .ok (.ofList [("on", readOptionalValue reported "on"), ("basis", .str basis),
    ("held", (reported.get? "held").getD (.bool true)), ("title", readOptionalValue reported "title"),
    ("assertion_id", readOptionalValue record "assertion_id"), ("subject", .str subject)])

/-- A period added to those reported before, unless one of them is the same or takes its start. -/
def addPeriod (calendar : Calendar) (rules : TypeRules) (periods : List Object) (period : Object) :
    Except String (List Object) :=
  if isText period "valid_from_basis" "observed" = true ∨ rules.isKeepingStart = true then do
    let kept ← keepEarlierStart calendar period rules.isKeepingStart periods
    .ok (kept.getD (periods ++ [period]))
  else .ok (if periods.any fun old => valuesMatch old.toJson period.toJson then periods else periods ++ [period])

/-- The day a relationship was last seen, or this one where it is later. -/
def seeLater (calendar : Calendar) (body : Object) (seen : Option Json) : Except String Object :=
  match seen.filter hasContent with
  | none => .ok body
  | some seen => do
      let raw ← Records.readString seen
      let time ← calendar.readTime raw
      if hasValue body "last_seen" then do
        let last ← readAt calendar body "last_seen" firstTime
        .ok (if last < Records.micros time then body.insert "last_seen" seen else body)
      else .ok (body.insert "last_seen" seen)

def addTo (env : Env) (subject : String) (record reported : Object) (a : Accepted) (edge : Relationship) :
    Except String Relationship :=
  if a.sighting then do
    let sighting ← sightingBody subject record reported
    .ok { edge with sightings := some (edge.sightings.getD [] ++ [sighting]) }
  else do
    let periods ← addPeriod env.calendar a.rules edge.periods a.period
    .ok { edge with periods }

def evidenceBody (record : Object) (a : Accepted) : Object :=
  .ofList [("assertion_id", readOptionalValue record "assertion_id"), ("source_subject", .str a.start),
    ("target_subject", a.target.elim .null .str)]

def addReported (env : Env) (subject : String) (record reported : Object) (a : Accepted) (edges : Edges) :
    Except String Edges := do
  let key := relationshipKey env reported a
  let edge ← addTo env subject record reported a ((edges.get? key).getD (newRelationship key reported a))
  let body ← seeLater env.calendar edge.body a.seen
  .ok (edges.insert key { edge with body, evidence := edge.evidence ++ [evidenceBody record a] })

/-- The relationships so far and the reviews. -/
structure Gathered where
  edges : Edges
  reviews : List Object

def gatherReported (env : Env) (command : Command) (rules : IndexMap String TypeRules) (subject : String)
    (record : Object) (found : Gathered) (raw : Json) : Except String Gathered := do
  let reported ← Records.readFields raw
  match examine env command rules subject record reported with
  | .error (.failed text) => .error text
  | .error (.review body) => .ok { found with reviews := found.reviews ++ [body] }
  | .ok accepted => do
      let edges ← addReported env subject record reported accepted found.edges
      .ok { found with edges }

def gatherRecord (env : Env) (command : Command) (rules : IndexMap String TypeRules) (found : Gathered)
    (entry : String × Object) : Except String Gathered := do
  let reported ← Records.readArray entry.2 "relationships"
  reported.foldlM (gatherReported env command rules entry.1 entry.2) found

def gatherClaims (env : Env) (command : Command) (rules : IndexMap String TypeRules) : Except String Gathered :=
  (Sorting.sortByKey Prod.fst command.claims.entries).foldlM (gatherRecord env command rules) ⟨.empty, []⟩

def endsOf (body : Object) : Except String (List String) := do
  let source ← readText body "source_id"
  let target ← readText body "target_id"
  .ok (Sorting.distinct [source, target])

/-- The review of a relationship seen after it is stated to have ended. -/
def contradictionReviews (entry : String × Relationship) (contradictions : List Object) : Except String (List Object) :=
  match contradictions.head? with
  | none => .ok []
  | some first => do
      let ends ← endsOf entry.2.body
      .ok [reviewBody "contradicts_stated_end"
        (((first.insert "relationship_id" (.str entry.1)).insert "entities" (textsJson ends)).entries)]

def combineEdge (calendar : Calendar) (found : Gathered) (entry : String × Relationship) : Except String Gathered :=
  match entry.2.sightings with
  | none => .ok { found with edges := found.edges.insert entry.1 entry.2 }
  | some sightings => do
      let (periods, contradictions) ← combinePeriods calendar sightings
      let reviews ← contradictionReviews entry contradictions
      .ok
        { edges := if periods = [] then found.edges
            else found.edges.insert entry.1 { entry.2 with periods, sightings := none }
          reviews := found.reviews ++ reviews }

def combineSightings (calendar : Calendar) (found : Gathered) : Except String Gathered :=
  found.edges.entries.foldlM (combineEdge calendar) { found with edges := .empty }

/-- The first period from which an entity is succeeded. -/
structure Succession where
  period : Object
  key : String
  on : Int

abbrev Ceased := IndexMap String Succession

def noteSuccession (calendar : Calendar) (key source : String) (ceased : Ceased) (period : Object) :
    Except String Ceased := do
  let bounds ← interval calendar period
  if (ceased.get? source).all fun prior => bounds.1 < prior.on then
    .ok (ceased.insert source ⟨period, key, bounds.1⟩)
  else .ok ceased

def noteSuccessions (calendar : Calendar) (rules : IndexMap String TypeRules) (ceased : Ceased)
    (entry : String × Relationship) : Except String Ceased := do
  let kind ← readText entry.2.body "type"
  if (rules.get? kind).any TypeRules.isEndingParentLinks then do
    let source ← readText entry.2.body "source_id"
    entry.2.periods.foldlM (noteSuccession calendar entry.1 source) ceased
  else .ok ceased

def findCeased (calendar : Calendar) (rules : IndexMap String TypeRules) (edges : Edges) : Except String Ceased :=
  (Sorting.sortByKey Prod.fst edges.entries).foldlM (noteSuccessions calendar rules) .empty

/-- A period of a link of an entity succeeded: one that begins after goes to review, one that goes on ends there. -/
def cutPeriod (calendar : Calendar) (key : String) (body : Object) (succession : Succession)
    (found : List Object × List Object) (period : Object) : Except String (List Object × List Object) := do
  let bounds ← interval calendar period
  if succession.on ≤ bounds.1 then do
    let ends ← endsOf body
    .ok (found.1, found.2 ++ [reviewBody "parent_link_after_succession"
      [("relationship_id", .str key), ("successor_link", .str succession.key), ("entities", textsJson ends)]])
  else if succession.on < bounds.2 then
    .ok (found.1 ++ [((period.insert "valid_to" (readOptionalValue succession.period "valid_from")).insert
      "valid_to_basis" ((succession.period.get? "valid_from_basis").getD (.str "stated"))).insert
      "ended_by" (.str succession.key)], found.2)
  else .ok (found.1 ++ [period], found.2)

/-- A link to what is succeeded that was seen after the succession goes on. -/
def isSeenAfter (calendar : Calendar) (body : Object) (succession : Succession) (side : String) : Except String Bool :=
  if side = "target_id" then do
    let seen ← readAt calendar body "last_seen" firstTime
    .ok (succession.on < seen)
  else .ok false

def cutAtEnd (calendar : Calendar) (ceased : Ceased) (key : String) (body : Object)
    (found : List Object × List Object) (side : String) : Except String (List Object × List Object) := do
  let endpoint ← readText body side
  match ceased.get? endpoint with
  | none => .ok found
  | some succession => do
      let seenAfter ← isSeenAfter calendar body succession side
      if seenAfter then .ok found
      else found.1.foldlM (cutPeriod calendar key body succession) ([], found.2)

def cutEdge (calendar : Calendar) (rules : IndexMap String TypeRules) (ceased : Ceased) (found : Gathered)
    (entry : String × Relationship) : Except String Gathered := do
  let kind ← readText entry.2.body "type"
  if ceased.size ≠ 0 ∧ (rules.get? kind).any TypeRules.isHierarchy = true then do
    let (periods, reviews) ← ["source_id", "target_id"].foldlM (cutAtEnd calendar ceased entry.1 entry.2.body)
      (entry.2.periods, found.reviews)
    .ok { edges := if periods = [] then found.edges else found.edges.insert entry.1 { entry.2 with periods }, reviews }
  else .ok { found with edges := found.edges.insert entry.1 entry.2 }

/-- The parent links of what is succeeded end where the succession starts. A link left without a period is dropped. -/
def finishAtSuccession (calendar : Calendar) (rules : IndexMap String TypeRules) (found : Gathered) :
    Except String Gathered := do
  let ceased ← findCeased calendar rules found.edges
  found.edges.entries.foldlM (cutEdge calendar rules ceased) { found with edges := .empty }

end EdgarPlatform.Relationships
