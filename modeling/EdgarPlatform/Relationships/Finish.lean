import EdgarPlatform.Library.Timeline
import EdgarPlatform.Relationships.Reported

/-!
# Relationship history

The relationships gathered are grouped by type and scope. In each group the links that give an entity two parents at once and those of a cycle are set aside, and the ultimate parents are derived from the rest. Last the starts that are already stored are put back where they are earlier.
-/

namespace EdgarPlatform.Relationships

open Records (Calendar Env Json Object readText readOptionalValue)

/-- One period of a link. -/
structure LinkPeriod where
  key : String
  source : String
  target : String
  start : Int
  stop : Int
  body : Object

abbrev Grouped := IndexMap (String × String) (List LinkPeriod)

/-- A relationship's periods by their bounds, then by their texts. -/
def orderPeriods (env : Env) (periods : List Object) : Except String (List ((Int × Int) × Object)) := do
  let timed ← periods.mapM fun period => do
    let bounds ← interval env.calendar period
    .ok (bounds, Records.calculateContentHash env.digest period.toJson, period)
  .ok ((Sorting.sortByKey (fun entry => toLex (entry.1.1, toLex (entry.1.2, entry.2.1))) timed).map
    fun entry => (entry.1, entry.2.2))

def readScope (body : Object) : Except String Json := (body.get? "scope").elim (.error "no entry found for key") .ok

def linkPeriod (key source target : String) (period : (Int × Int) × Object) : LinkPeriod :=
  { key, source, target, start := period.1.1, stop := period.1.2, body := period.2 }

/-- The relationships with their periods in order, and the periods of all of them by type and scope. -/
structure Grouping where
  edges : Edges
  grouped : Grouped

def groupEdge (env : Env) (found : Grouping) (entry : String × Relationship) : Except String Grouping := do
  let periods ← orderPeriods env entry.2.periods
  let kind ← readText entry.2.body "type"
  let scope ← readScope entry.2.body
  let group := (kind, Records.writeSortedJson scope)
  let source ← readText entry.2.body "source_id"
  let target ← readText entry.2.body "target_id"
  .ok
    { edges := found.edges.insert entry.1 { entry.2 with periods := periods.map Prod.snd }
      grouped := if periods = [] then found.grouped
        else found.grouped.insert group
          ((found.grouped.get? group).getD [] ++ periods.map (linkPeriod entry.1 source target)) }

def group (env : Env) (edges : Edges) : Except String Grouping :=
  edges.entries.foldlM (groupEdge env) ⟨.empty, .empty⟩

def pairsOf {α : Type} : List α → List (α × α)
  | [] => []
  | first :: rest => rest.map (first, ·) ++ pairsOf rest

def conflict (link other : LinkPeriod) : Bool :=
  link.source = other.source ∧ link.target ≠ other.target ∧
    max link.start other.start < min link.stop other.stop

def conflictsOf (group : List LinkPeriod) : List (LinkPeriod × LinkPeriod) :=
  (pairsOf group).filter fun pair => conflict pair.1 pair.2

def conflictReview (rules : TypeRules) (pair : LinkPeriod × LinkPeriod) : Object :=
  reviewBody (if rules.isOneParent then "conflicting_accounting_parents" else "conflicting_targets")
    [("edges", textsJson (Sorting.sortByKey id [pair.1.key, pair.2.key])),
      ("entities", textsJson (Sorting.distinct [pair.1.source, pair.1.target, pair.2.target]))]

def linksFrom (group : List LinkPeriod) (source : String) : List LinkPeriod :=
  group.filter fun link => link.source = source

/-- The entities links go out from, in the order they are first met. -/
def sources (group : List LinkPeriod) : List String :=
  (IndexMap.ofList (group.map fun link => (link.source, ()))).keys

/-- A cycle found: its keys in the order they were passed, and the link that closes it. -/
abbrev FoundCycle := List String × LinkPeriod

/-- The cycles through the start that go on with a link. The time left is that in which every link passed holds. An entity is passed once, so a search is no deeper than there are links. -/
def searchFrom (group : List LinkPeriod) (start : String) :
    Nat → List String → List String → Int → Int → LinkPeriod → List FoundCycle
  | 0, _, _, _, _, _ => []
  | fuel + 1, path, seen, startTime, stopTime, link =>
      let lo := max startTime link.start
      let hi := min stopTime link.stop
      if hi ≤ lo then []
      else if link.target = start then [(path ++ [link.key], link)]
      else if link.target ∈ seen then []
      else
        (linksFrom group link.target).flatMap
          (searchFrom group start fuel (path ++ [link.key]) (link.target :: seen) lo hi)

def cyclesOf (group : List LinkPeriod) : List FoundCycle :=
  (sources group).flatMap fun start =>
    (linksFrom group start).flatMap (searchFrom group start (group.length + 1) [] [start] firstTime lastTime)

def cycleReview (edges : Edges) (kind : String) (cycle : FoundCycle) : Except String Object := do
  let keys := Sorting.distinct cycle.1
  let ends ← keys.mapM fun key => do
    let edge ← (edges.get? key).elim (.error "no entry found for key") .ok
    let source ← readText edge.body "source_id"
    let target ← readText edge.body "target_id"
    .ok [source, target]
  let closing ← (edges.get? cycle.2.key).elim (.error "Missing hierarchy relationship") .ok
  let scope ← readScope closing.body
  .ok (reviewBody "hierarchy_cycle" [("type", .str kind), ("scope", scope), ("edges", textsJson keys),
    ("entities", textsJson (Sorting.distinct ends.flatten))])

/-- The keys set aside and the reviews. -/
structure SetAside where
  invalid : List String
  reviews : List Object

def checkConflicts (rules : TypeRules) (group : List LinkPeriod) (found : SetAside) : SetAside :=
  if rules.isOneParent ∨ rules.isOneTarget then
    { invalid := found.invalid ++ (conflictsOf group).flatMap fun pair => [pair.1.key, pair.2.key]
      reviews := found.reviews ++ (conflictsOf group).map (conflictReview rules) }
  else found

def checkCycles (edges : Edges) (kind : String) (rules : TypeRules) (group : List LinkPeriod) (found : SetAside) :
    Except String SetAside :=
  if rules.isHierarchy then do
    let reviews ← (cyclesOf group).mapM (cycleReview edges kind)
    .ok
      { invalid := if rules.cyclesAreInvalid then found.invalid ++ (cyclesOf group).flatMap Prod.fst else found.invalid
        reviews := found.reviews ++ reviews }
  else .ok found

def rulesOf (rules : IndexMap String TypeRules) (kind : String) : TypeRules := (rules.get? kind).getD .default

def checkGroup (edges : Edges) (rules : IndexMap String TypeRules) (found : SetAside)
    (entry : (String × String) × List LinkPeriod) : Except String SetAside :=
  let ruled := rulesOf rules entry.1.1
  checkCycles edges entry.1.1 ruled entry.2 (checkConflicts ruled entry.2 found)

def setAside (edges : Edges) (rules : IndexMap String TypeRules) (grouped : Grouped) (reviews : List Object) :
    Except String SetAside :=
  grouped.entries.foldlM (checkGroup edges rules) ⟨[], reviews⟩

def directBody (env : Env) (edge : Relationship) : Object :=
  let evidence := Sorting.sortByKey (fun item : Object => Records.calculateContentHash env.digest item.toJson) edge.evidence
  (edge.body.insert "periods" (.arr (edge.periods.map Object.toJson))).insert "evidence"
    (.arr (evidence.map Object.toJson))

def directLinks (env : Env) (edges : Edges) (invalid : List String) : List Object :=
  (edges.entries.filter fun entry => entry.1 ∉ invalid).map fun entry => directBody env entry.2

/-- The periods of a group that are not set aside, and those that are. -/
def validOf (group : List LinkPeriod) (invalid : List String) : List LinkPeriod :=
  group.filter fun link => link.key ∉ invalid

def disputedOf (group : List LinkPeriod) (invalid : List String) : List LinkPeriod :=
  group.filter fun link => link.key ∈ invalid

abbrev Parents := IndexMap String LinkPeriod

def parentsAt (links : List LinkPeriod) (time : Int) : Parents :=
  .ofList ((links.filter fun link => link.start ≤ time ∧ time < link.stop).map fun link => (link.source, link))

/-- Where following the parents has come to. -/
structure Walk where
  seen : List String
  path : List String
  node : String

/-- Follow the parents until there is none or an entity comes again. -/
def followLoop (parents : Parents) : Nat → Walk → Walk
  | 0, walk => walk
  | fuel + 1, walk =>
      match parents.get? walk.node with
      | none => walk
      | some link =>
          if walk.node ∈ walk.seen then walk
          else followLoop parents fuel ⟨walk.node :: walk.seen, walk.path ++ [link.key], link.target⟩

/-- Each move sees one more of the entities that have a parent. -/
def follow (parents : Parents) (source : String) : Walk := followLoop parents parents.size ⟨[], [], source⟩

def ultimateType (rules : TypeRules) : Except String String :=
  rules.ultimateType.elim (.error "An ultimate parent names its ultimate_type") .ok

def withRelationshipId (env : Env) (body : Object) : Object :=
  body.insert "relationship_id" (.str (Records.calculateContentHash env.digest body.toJson))

/-- The ultimate parent of an entity at a time. None in a cycle, or where the chain ends at a disputed link's source. -/
def ultimateAt (parents : Parents) (isDisputed : String → Bool) (source : String) : Option (String × List String) :=
  let walk := follow parents source
  if walk.node ∈ walk.seen ∨ isDisputed walk.node then none else some (walk.node, walk.path)

def deriveCurrentParents (env : Env) (command : Command) (group : List LinkPeriod) (invalid : List String)
    (rules : TypeRules) (scope : Json) : Except String (List Object) := do
  let time ← env.calendar.readTime command.clock
  let parents := parentsAt (validOf group invalid) (Records.micros time)
  let isDisputed (node : String) : Bool := group.any fun link => link.source = node ∧ link.key ∈ invalid
  let found := (Sorting.sortByKey id parents.keys).filterMap fun source =>
    (ultimateAt parents isDisputed source).map fun ultimate => (source, ultimate)
  found.mapM fun entry => do
    let kind ← ultimateType rules
    .ok (withRelationshipId env (.ofList [("type", .str kind), ("source_id", .str entry.1),
      ("target_id", .str entry.2.1), ("scope", scope), ("derived", .bool true),
      ("algorithm", .str UltimateParent.chainV1.name), ("as_of", .str command.asOf),
      ("path", textsJson entry.2.2)]))

/-- A time over which an ultimate parent is reached by one path. -/
abbrev Span := Timeline.Span Int (List String)

abbrev Spans := IndexMap (String × String) (List Span)

/-- The texts of the times at which a period of the links begins or ends, the first text of each. -/
def noteDate (dates : IndexMap Int Json) (date : Int × Json) : IndexMap Int Json :=
  if date.1 < lastTime ∧ dates.contains date.1 = false then dates.insert date.1 date.2 else dates

def datesOf (links : List LinkPeriod) : IndexMap Int Json :=
  (links.flatMap fun link => [(link.start, readOptionalValue link.body "valid_from"),
    (link.stop, readOptionalValue link.body "valid_to")]).foldl noteDate .empty

def disputedAt (disputed : List LinkPeriod) (time : Int) (node : String) : Bool :=
  disputed.any fun link => link.source = node ∧ link.start ≤ time ∧ time < link.stop

def extendSpan (parents : Parents) (isDisputed : String → Bool) (slice : Int × Int) (found : Spans) (source : String) :
    Spans :=
  match ultimateAt parents isDisputed source with
  | none => found
  | some (node, path) =>
      found.insert (source, node) (Timeline.join ((found.get? (source, node)).getD []) ⟨slice.1, slice.2, path⟩)

def deriveSlice (links disputed : List LinkPeriod) (found : Spans) (slice : Int × Int) : Spans :=
  let parents := parentsAt links slice.1
  (Sorting.sortByKey id parents.keys).foldl (extendSpan parents (disputedAt disputed slice.1) slice) found

def historySpans (group : List LinkPeriod) (invalid : List String) : Spans :=
  (Timeline.slices lastTime (Sorting.distinct (datesOf (validOf group invalid ++ disputedOf group invalid)).keys)).foldl
    (deriveSlice (validOf group invalid) (disputedOf group invalid)) .empty

def spanBody (dates : IndexMap Int Json) (span : Span) : Except String Object := do
  let start ← (dates.get? span.start).elim (.error "Missing parent-history start") .ok
  .ok (.ofList [("valid_from", start), ("valid_to", (dates.get? span.stop).getD .null), ("path", textsJson span.value)])

def deriveHistoryLink (env : Env) (rules : TypeRules) (scope : Json) (dates : IndexMap Int Json)
    (entry : (String × String) × List Span) : Except String Object := do
  let kind ← ultimateType rules
  let periods ← entry.2.mapM (spanBody dates)
  let body := withRelationshipId env (.ofList [("type", .str kind), ("source_id", .str entry.1.1),
    ("target_id", .str entry.1.2), ("scope", scope), ("derived", .bool true),
    ("algorithm", .str UltimateParent.chainV2.name)])
  .ok (body.insert "periods" (.arr (periods.map Object.toJson)))

def deriveParentHistory (env : Env) (group : List LinkPeriod) (invalid : List String) (rules : TypeRules)
    (scope : Json) : Except String (List Object) :=
  (Sorting.sortByKey (fun entry => toLex entry.1) (historySpans group invalid).entries).mapM
    (deriveHistoryLink env rules scope (datesOf (validOf group invalid ++ disputedOf group invalid)))

def deriveGroup (env : Env) (command : Command) (edges : Edges) (rules : IndexMap String TypeRules)
    (invalid : List String) (entry : (String × String) × List LinkPeriod) : Except String (List Object) := do
  let ruled := rulesOf rules entry.1.1
  let first ← (entry.2.head?.bind fun link => edges.get? link.key).elim (.error "Missing hierarchy scope") .ok
  let scope ← readScope first.body
  match ruled.ultimate with
  | some .chainV1 => deriveCurrentParents env command entry.2 invalid ruled scope
  | some .chainV2 => deriveParentHistory env entry.2 invalid ruled scope
  | none => .ok []

/-- The links calculated, the direct ones and those derived from them, before stored starts are put back. -/
structure Calculated where
  direct : List Object
  derived : List Object
  reviews : List Object

def calculate (env : Env) (command : Command) (rules : IndexMap String TypeRules) (found : Gathered) :
    Except String Calculated := do
  let grouping ← group env found.edges
  let aside ← setAside grouping.edges rules grouping.grouped found.reviews
  let derived ← grouping.grouped.entries.mapM (deriveGroup env command grouping.edges rules aside.invalid)
  .ok { direct := directLinks env grouping.edges aside.invalid, derived := derived.flatten, reviews := aside.reviews }

/-- One stored period's start, put back on the first calculated period it differs from only there. -/
def putBackStart (calendar : Calendar) (keepsStart : Bool) (periods : List Object) (raw : Json) :
    Except String (List Object) := do
  let period ← Records.readFields raw
  if keepsStart = true ∨ isText period "valid_from_basis" "observed" = true then do
    let kept ← keepEarlierStart calendar period keepsStart periods
    .ok (kept.getD periods)
  else .ok periods

def putBackStarts (env : Env) (command : Command) (rules : IndexMap String TypeRules) (link : Object) :
    Except String Object :=
  if link.contains "periods" then do
    let key ← readText link "relationship_id"
    let kind ← readText link "type"
    let keepsStart := (rules.get? kind).any TypeRules.isKeepingStart
    match command.stored.get? key with
    | none => .ok link
    | some stored => do
        let periods ← Records.readArray link "periods"
        let periods ← periods.mapM Records.readFields
        let raw ← Records.readArray stored "periods"
        let periods ← raw.foldlM (putBackStart env.calendar keepsStart) periods
        .ok (link.insert "periods" (.arr (periods.map Object.toJson)))
  else .ok link

def reviewKey (review : Object) : List (String × String) :=
  Sorting.sortByKey Prod.fst (review.entries.map fun entry => (entry.1, Records.writeJson false entry.2))

def distinctReviews (reviews : List Object) : List Object :=
  reviews.foldl (fun kept review =>
    if kept.any fun other => reviewKey other = reviewKey review then kept else kept ++ [review]) []

def orderLinks (links : List Object) : Except String (List Object) := do
  let keyed ← links.mapM fun link => do
    let key ← readText link "relationship_id"
    .ok (key, link)
  .ok ((Sorting.sortByKey Prod.fst keyed).map Prod.snd)

def finishRelationships (env : Env) (command : Command) (rules : IndexMap String TypeRules) (found : Gathered) :
    Except String (List Object × List Object) := do
  let calculated ← calculate env command rules found
  let links ← (calculated.direct ++ calculated.derived).mapM (putBackStarts env command rules)
  let ordered ← orderLinks links
  .ok (ordered, distinctReviews calculated.reviews)

/-- The relationships of a batch of records before they are grouped. -/
def gather (env : Env) (command : Command) (rules : IndexMap String TypeRules) : Except String Gathered := do
  let found ← gatherClaims env command rules
  let found ← combineSightings env.calendar found
  finishAtSuccession env.calendar rules found

/-- Direct links and derived history from a complete affected read set, and the reviews. -/
def prepareRelationships (env : Env) (command : Command) : Except String (List Object × List Object) := do
  let rules ← readTypes command.types command.kinds
  let found ← gather env command rules
  finishRelationships env command rules found

end EdgarPlatform.Relationships
