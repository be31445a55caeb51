import EdgarPlatform.Library.IndexMap
import EdgarPlatform.Library.Pairing
import EdgarPlatform.Library.Runs

/-!
# Places

An address as a pass compares it, the comparison of two of them part by part, and the two comparisons of codes it rests on. An address that too many entities share is compared by its country alone.
-/

namespace EdgarPlatform.Cascade

/-- What counts how many entities share an address: its first line, its postcode's first five characters and its country. -/
abbrev AddressKey := String × String × String

structure Place where
  street : List String
  city : String
  postcode : Option String
  country : Option String
  key : Option AddressKey

def countryPlace (country : Option String) : Place := ⟨[], "", none, country, none⟩

def firstPiece (text : List Char) : List Char := text.takeWhile (· ≠ '-')

def territories : List (List Char) := ["PR".toList, "GU".toList, "VI".toList, "MP".toList, "AS".toList]

section

-- Upper case under the pinned Unicode tables.
variable (uppercase : String → String)

def stated (text : Option String) : Option String := text.filter (· ≠ "")

def upperPlacesAgree (left right : List Char) : Bool :=
  if left = right then true
  else if "US-".toList.isPrefixOf left && territories.contains (left.drop 3) then right = left.drop 3
  else firstPiece left ≠ "US".toList && firstPiece left = firstPiece right && (!left.contains '-' || !right.contains '-')

def placesAgree (left right : Option String) : Bool :=
  match stated left, stated right with
  | some left, some right => upperPlacesAgree (uppercase left).toList (uppercase right).toList
  | _, _ => false

def placesConflict (left right businessCountry : Option String) : Bool :=
  match stated left, stated right with
  | some left, some right =>
      let left := uppercase left
      let right := uppercase right
      if placesAgree uppercase (some left) (some right) then false
      else
        let leftCountry := firstPiece left.toList
        let rightCountry := firstPiece right.toList
        if leftCountry = rightCountry && (!left.toList.contains '-' || !right.toList.contains '-') then false
        else
          !(leftCountry = "US".toList &&
            businessCountry.any fun country => country.toList ≠ "US".toList && country.toList = rightCountry)
  | _, _ => false

def preparePostalCode (text : String) : List Char :=
  let text := (uppercase text).toList.filter Char.isAlphanum
  if (text.length = 5 || text.length = 9) && text.all Char.isDigit then text.take 5 else text

def postalCodesAgree (left : Option String) (leftCountry : Option String) (right : Option String) (rightCountry : Option String) :
    Bool :=
  let left := preparePostalCode uppercase (left.getD "")
  let right := preparePostalCode uppercase (right.getD "")
  if left = [] || right = [] || (stated leftCountry).isNone || leftCountry ≠ rightCountry then false
  else
    left = right ||
      (leftCountry = some "NL" && left.length = 4 && left.all Char.isDigit && right.length = 6 && left.isPrefixOf right &&
        (right.drop 4).all Char.isUpper)

/-- A part a pass compares: one part of an address, or any one of several. -/
inductive Part where
  | one (name : String)
  | any (names : List String)

def Part.names : Part → List String
  | .one name => [name]
  | .any names => names

def partAgrees (sec gleif : Place) (part : String) : Except String Bool :=
  if part = "street" then .ok (sec.street.any gleif.street.contains)
  else if part = "city" then .ok (sec.city ≠ "" && sec.city = gleif.city)
  else if part = "postcode" then .ok (postalCodesAgree uppercase sec.postcode sec.country gleif.postcode gleif.country)
  else .error ("A pass compares an unknown address part: " ++ part)

/-- Whether two places agree on the parts of a pass. Without a list of parts the name alone decides; under an empty one the country alone does. -/
def agrees (sec gleif : Place) : Option (List Part) → Except String Bool
  | none => .ok true
  | some parts =>
      if (stated sec.country).isNone || sec.country ≠ gleif.country then .ok false
      else parts.allM fun part => part.names.anyM (partAgrees uppercase sec gleif)

end

/-- A place as it is compared: by its country alone when more entities than the threshold share its address. -/
def usable (counts : AddressKey → Nat) (overShared : Nat) (place : Place) : Place :=
  if place.key.any fun key => overShared < counts key then countryPlace place.country else place

/-! ### The cascade

Passes run in their order over both sources. A pass takes the filers and the eligible entities no earlier pass bound, asks which of them hold one name and agree on its parts, and binds a pair when the filer agrees with that entity alone and the entity with that filer alone.
-/

structure Filer where
  cik : String
  /-- The current name, legal form kept. -/
  key : String
  place : Place
  incorporated : Option String
  businessCountry : Option String

structure Entity where
  lei : String
  /-- The legal and other names, legal form kept. -/
  keys : List String
  place : Place
  jurisdiction : Option String
  eligible : Bool
  lastUpdate : String
  legal : String

structure Pass where
  name : String
  compare : Option (List Part)

structure Assignment where
  cik : String
  lei : String
  lastUpdate : String
  pass : String
  flags : List String
  key : String
  via : String
deriving DecidableEq

def conflictFlag : String := "incorporation conflicts"

def notUniqueFlag : String := "name held by another candidate"

/-- The rows of a source under their keys, the last row of a key in the place of its first. -/
def byId {α : Type} (id : α → String) (rows : List α) : List α := (IndexMap.ofList (rows.map fun row => (id row, row))).values

/-- What the passes read besides the two sources: the case tables, the order in which a set is iterated, and how many entities share each address. -/
structure Setting where
  uppercase : String → String
  arrange : List Entity → List Entity
  counts : AddressKey → Nat
  overShared : Nat

variable (setting : Setting)

def holders (entities : List Entity) (key : String) : List Entity :=
  setting.arrange (entities.filter fun entity => entity.keys.contains key)

def agreesAt (pass : Pass) (filer : Filer) (entity : Entity) : Except String Bool :=
  agrees setting.uppercase (usable setting.counts setting.overShared filer.place)
    (usable setting.counts setting.overShared entity.place) pass.compare

/-- The free entities a filer agrees with, of those that hold its name. -/
def proposals (pass : Pass) (taken : List String) (entities : List Entity) (filer : Filer) : Except String (List Entity) :=
  Runs.selectM (agreesAt setting pass filer)
    ((holders setting entities filer.key).filter fun entity => !taken.contains entity.lei && entity.eligible)

def assignment (pass : Pass) (filers : List Filer) (entities : List Entity) (filer : Filer) (entity : Entity) : Assignment where
  cik := filer.cik
  lei := entity.lei
  lastUpdate := entity.lastUpdate
  pass := pass.name
  flags :=
    (if placesConflict setting.uppercase filer.incorporated entity.jurisdiction filer.businessCountry then [conflictFlag] else []) ++
      if 1 < (filers.filter fun other => other.key = filer.key).length ∨
          1 < ((holders setting entities filer.key).filter Entity.eligible).length
      then [notUniqueFlag] else []
  key := filer.key
  via := if entity.legal = filer.key then "legal name" else "other name"

def claims (proposed : List (Filer × List Entity)) (entity : Entity) : Nat :=
  proposed.countP fun proposal => proposal.2.any fun other => other.lei = entity.lei

/-- A filer's assignment, if it proposed one entity that no other filer proposed. -/
def bindPair (pass : Pass) (filers : List Filer) (entities : List Entity) (proposed : List (Filer × List Entity))
    (proposal : Filer × List Entity) : Option Assignment :=
  match proposal.2 with
  | [entity] => if claims proposed entity = 1 then some (assignment setting pass filers entities proposal.1 entity) else none
  | _ => none

def runPass (filers : List Filer) (entities : List Entity) (found : List Assignment) (pass : Pass) :
    Except String (List Assignment) := do
  let free := (Sorting.sortByKey Filer.cik filers).filter fun filer =>
    !(found.map Assignment.cik).contains filer.cik && filer.key ≠ ""
  let proposed ← free.mapM fun filer =>
    do let agreed ← proposals setting pass (found.map Assignment.lei) entities filer; .ok (filer, agreed)
  .ok (found ++ proposed.filterMap (bindPair setting pass filers entities proposed))

def assign (filers : List Filer) (entities : List Entity) (passes : List Pass) : Except String (List Assignment) :=
  passes.foldlM (runPass setting (byId Filer.cik filers) (byId Entity.lei entities)) []

end EdgarPlatform.Cascade
