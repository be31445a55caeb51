import EdgarPlatform.Records.Decisions

/-!
# Relationship periods

A relationship holds over periods, each from its start up to its end. A period reported as such is kept; one seen again keeps its earlier start. Sightings, each of the relationship held or dropped on a day, are combined into periods in the order of their days.
-/

namespace EdgarPlatform.Relationships

open Records (Calendar Json Object readText hasValue readOptionalValue valuesMatch)

def firstTime : Int := -62135596800000000

def lastTime : Int := 253402300799999999

def readAt (calendar : Calendar) (body : Object) (field : String) (otherwise : Int) : Except String Int :=
  if hasValue body field then Records.readInstant calendar body field else .ok otherwise

def interval (calendar : Calendar) (body : Object) : Except String (Int × Int) := do
  let start ← readAt calendar body "valid_from" firstTime
  let stop ← readAt calendar body "valid_to" lastTime
  .ok (start, stop)

def isText (body : Object) (field value : String) : Bool := readText body field = .ok value

/-- What two periods that differ only in when they start share. -/
def withoutStart (anyBasis : Bool) (period : Object) : Json :=
  .obj (period.entries.filter fun entry => entry.1 ≠ "valid_from" ∧ (anyBasis = false ∨ entry.1 ≠ "valid_from_basis"))

def copyField (source : Object) (body : Object) (key : String) : Object :=
  (source.get? key).elim body (body.insert key)

def moveStart (anyBasis : Bool) (period stored : Object) : Object :=
  (if anyBasis then ["valid_from", "valid_from_basis"] else ["valid_from"]).foldl (copyField period) stored

/-- The first of the periods that differs from a period only in its start takes that start where it is earlier. None where there is no such period. -/
def keepEarlierStart (calendar : Calendar) (period : Object) (anyBasis : Bool) :
    List Object → Except String (Option (List Object))
  | [] => .ok none
  | stored :: rest =>
      if (anyBasis = true ∨ isText stored "valid_from_basis" "observed" = true) ∧
          valuesMatch (withoutStart anyBasis period) (withoutStart anyBasis stored) = true then do
        let start ← readAt calendar period "valid_from" firstTime
        let own ← readAt calendar stored "valid_from" firstTime
        .ok (some ((if start < own then moveStart anyBasis period stored else stored) :: rest))
      else do
        let found ← keepEarlierStart calendar period anyBasis rest
        .ok (found.map (stored :: ·))

/-- The order of two sightings of one day: whole numbers by value, then texts. -/
def readSightingOrder : Json → Except String (Nat × Nat × String)
  | .str value => .ok (2, 0, value)
  | .bool value => .ok (1, 1, if value then "1" else "0")
  | .num lexeme =>
      let negative := lexeme.toList.head? = some '-'
      let digits := if negative then lexeme.toList.tail else lexeme.toList
      if digits = [] ∨ digits.any (fun c => ¬ c.isDigit) then .error "Observation identity must be text or an integer"
      else if negative then
        .ok (0, 2 ^ 64 - 1 - digits.length,
          String.ofList (digits.map fun c => Char.ofNat ('9'.toNat - (c.toNat - '0'.toNat))))
      else .ok (1, digits.length, String.ofList digits)
  | _ => .error "Observation identity must be text or an integer"

def readOrder (body : Object) : Except String (Nat × Nat × String) :=
  (body.get? "assertion_id").elim (.error "Missing observation identity") readSightingOrder

/-- A sighting with what it is ordered by. -/
structure Sighting where
  time : Int
  dropped : Bool
  order : Nat × Nat × String
  body : Object

def readSighting (calendar : Calendar) (body : Object) : Except String Sighting := do
  let time ← readAt calendar body "on" firstTime
  let _ ← readText body "basis"
  let order ← readOrder body
  .ok { time, dropped := hasValue body "held" = false, order, body }

def Sighting.key (s : Sighting) : Int ×ₗ Nat ×ₗ Nat ×ₗ Nat ×ₗ String :=
  toLex (s.time, toLex (if s.dropped then 1 else 0, toLex (s.order.1, toLex (s.order.2.1, s.order.2.2))))

/-- What the sightings read so far have come to. -/
structure Combining where
  periods : List Object
  contradictions : List Object
  /-- The period that has begun and not ended. -/
  current : Option Object
  /-- The day the relationship is stated to have ended on. -/
  statedEnd : Option Json

def Combining.start : Combining := ⟨[], [], none, none⟩

def changeLast {α : Type} (change : α → α) : List α → List α
  | [] => []
  | [last] => [change last]
  | first :: rest => first :: changeLast change rest

def endedOn (s : Sighting) : Json := readOptionalValue s.body "on"

def withEnd (s : Sighting) (basis : String) (period : Object) : Object :=
  (period.insert "valid_to" (endedOn s)).insert "valid_to_basis" (.str basis)

/-- The periods after a relationship is dropped: its period has ended, or the end last observed is stated. -/
def endPeriod (calendar : Calendar) (found : Combining) (s : Sighting) (basis : String) : Except String (List Object) :=
  match found.current with
  | some period => do
      let start ← readAt calendar period "valid_from" firstTime
      .ok (if start < s.time then found.periods ++ [withEnd s basis period] else found.periods)
  | none =>
      if basis = "stated" ∧ found.periods.getLast?.any (isText · "valid_to_basis" "observed") = true then
        .ok (changeLast (withEnd s "stated") found.periods)
      else .ok found.periods

def drop (calendar : Calendar) (found : Combining) (s : Sighting) (basis : String) : Except String Combining := do
  let periods ← endPeriod calendar found s basis
  .ok { found with periods, current := none, statedEnd := if basis = "stated" then some (endedOn s) else none }

def beginPeriod (s : Sighting) (basis : String) : Object :=
  .ofList [("valid_from", readOptionalValue s.body "on"), ("valid_from_basis", .str basis), ("valid_to", .null),
    ("valid_to_basis", .null), ("last_observed", .null), ("titles", .arr [])]

def addTitle (period : Object) (s : Sighting) : Except String Object := do
  let titles ← Records.readArray period "titles"
  let titles ← titles.mapM Records.readFields
  let title := readOptionalValue s.body "title"
  let changed := hasValue s.body "title" ∧
    titles.getLast?.any (fun last => valuesMatch (readOptionalValue last "title") title) = false
  let added : List Object := if changed then [.ofList [("title", title), ("on", readOptionalValue s.body "on")]] else []
  .ok (period.insert "titles" (.arr ((titles ++ added).map Object.toJson)))

def goOn (found : Combining) (s : Sighting) (basis : String) (period : Object) : Except String Combining := do
  let period ← addTitle
    (if basis = "observed" then period.insert "last_observed" (readOptionalValue s.body "on") else period) s
  .ok { found with current := some period }

def contradiction (s : Sighting) (statedEnd : Json) : Object :=
  .ofList [("stated_end", statedEnd), ("on", readOptionalValue s.body "on"),
    ("assertion_id", readOptionalValue s.body "assertion_id"), ("subject", readOptionalValue s.body "subject")]

/-- A relationship held: its period goes on or begins. One only observed after a stated end begins none. -/
def observe (calendar : Calendar) (found : Combining) (s : Sighting) (basis : String) : Except String Combining :=
  match found.current, found.statedEnd with
  | some period, _ => goOn found s basis period
  | none, some statedEnd =>
      if basis = "observed" then do
        let raw ← Records.readString statedEnd
        let time ← calendar.readTime raw
        .ok (if Records.micros time < s.time then
            { found with contradictions := found.contradictions ++ [contradiction s statedEnd] }
          else found)
      else goOn { found with statedEnd := none } s basis (beginPeriod s basis)
  | none, none => goOn found s basis (beginPeriod s basis)

def combineSighting (calendar : Calendar) (statedTimes : List Int) (found : Combining) (s : Sighting) :
    Except String Combining := do
  let basis ← readText s.body "basis"
  if basis = "observed" ∧ s.time ∈ statedTimes then .ok found
  else if s.dropped then drop calendar found s basis
  else observe calendar found s basis

/-- The periods of a relationship and the sightings that contradict its stated ends. -/
def combinePeriods (calendar : Calendar) (sightings : List Object) : Except String (List Object × List Object) := do
  let read ← sightings.mapM (readSighting calendar)
  let statedTimes := (read.filter fun s => isText s.body "basis" "stated").map Sighting.time
  let found ← (Sorting.sortByKey Sighting.key read).foldlM (combineSighting calendar statedTimes) .start
  .ok (found.periods ++ found.current.toList, found.contradictions)

end EdgarPlatform.Relationships
