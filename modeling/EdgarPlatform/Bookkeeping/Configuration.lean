import EdgarPlatform.Bookkeeping.Completion
import EdgarPlatform.Library.Digits

/-!
# Configurations and worklists

A target's configuration lists steps, each naming the steps before it that it rests on, the template of its unit keys and the templates of the resources it leases. A manifest lists the units of every step, and freezes into the work a run is started with: each unit gets its key, its resources and its place in its step. An expansion's manifest freezes into the children of one parent in the same way, at places from the parent's base. Templates are already cut into text and fields.
-/

namespace EdgarPlatform.Bookkeeping

open Records (Json)

def isIdentifierChar (c : Char) : Bool := c.isLower || c.isDigit || c = '_' || c = '.' || c = '-'

/-- A lower-case letter, then letters, digits, underscores, dots and hyphens. -/
def isIdentifier (name : String) : Bool := name.toList.head?.any Char.isLower && name.toList.all isIdentifierChar

def isFieldName (name : String) : Bool :=
  name.toList.head?.any Char.isLower && name.toList.all fun c => c.isLower || c.isDigit || c = '_'

inductive Piece where
  | text (value : String)
  | field (name : String)
  deriving DecidableEq

abbrev Template := List Piece

structure StepConfig where
  name : String
  operation : String
  requires : List String
  key : Template
  leases : List Template
  checks : List String
  deriving DecidableEq

structure Config where
  steps : List StepConfig
  leaseSeconds : Int
  heartbeatSeconds : Int
  attempts : Int
  baseMs : Int
  capMs : Int
  allowZeroWork : Bool
  checks : List String
  deriving DecidableEq

def runChecks : List String := ["journal.delivered", "manifest.hash", "work.accounting"]

def blockUnless (condition : Bool) (message : String) : Except String Unit := if condition then .ok () else .error message

def checkInteger (value low high : Int) (name : String) : Except String Unit :=
  blockUnless (low ≤ value && value ≤ high) s!"{name} must be an integer in [{low}, {high}]"

def Piece.simple : Piece → Bool
  | .text _ => true
  | .field name => isFieldName name

def checkTemplate (template : Template) : Except String Unit := do
  blockUnless (template ≠ []) "Lease/key patterns must be nonempty text"
  blockUnless (template.all Piece.simple) "Templates support simple identifier fields only"

def checkName (check : String) : Except String Unit :=
  blockUnless (isIdentifier check && check ∉ runChecks) s!"Unsupported check: {check}"

def validateStep (seen : List String) (step : StepConfig) : Except String (List String) := do
  blockUnless (isIdentifier step.name && step.name ∉ seen) "Step names must be unique identifiers"
  blockUnless (isIdentifier step.operation) "A step's operation names a worker profile"
  blockUnless (step.requires.Nodup && step.requires.all (· ∈ seen)) "Prerequisites must name preceding steps"
  blockUnless (step.key ≠ []) "A step requires a work-unit key"
  blockUnless (step.leases ≠ []) "A step must declare its conflicting resources"
  (step.key :: step.leases).forM checkTemplate
  blockUnless step.checks.Nodup "Step checks must be a list of distinct check names"
  step.checks.forM checkName
  blockUnless (step.checks ≠ []) "Every step requires a check"
  .ok (seen ++ [step.name])

def validate (config : Config) : Except String Unit := do
  checkInteger config.leaseSeconds 2 86400 "lease_seconds"
  checkInteger config.heartbeatSeconds 1 (config.leaseSeconds - 1) "heartbeat_seconds"
  checkInteger config.attempts 1 100 "retry.attempts"
  checkInteger config.baseMs 1 60000 "retry.base_ms"
  checkInteger config.capMs config.baseMs 60000 "retry.cap_ms"
  blockUnless (config.steps ≠ []) "A target requires steps"
  let _ ← config.steps.foldlM validateStep []
  blockUnless (config.checks ≠ [] && config.checks.Nodup && config.checks.all (· ∈ runChecks))
    "A target requires supported final checks"

def exactFields (document : Json) (keys : List String) : Bool :=
  match document with
  | .obj fields => fields.all (fun field => field.1 ∈ keys) && keys.all (mentions document)
  | _ => false

def intOf : Json → Option Int
  | .num lexeme =>
      match lexeme.toList with
      | '-' :: digits => if digits ≠ [] ∧ digits.all Char.isDigit = true then some (-(Digits.value digits : Int)) else none
      | digits => if digits ≠ [] ∧ digits.all Char.isDigit = true then some (Digits.value digits) else none
  | _ => none

def isNonemptyText (value : Option Json) : Bool := isText value && value ≠ some (.str "")

def isReference (source : Json) : Bool :=
  exactFields source ["uri", "sha256"] && isNonemptyText (fieldOf source "uri") && isText (fieldOf source "sha256")
    && (textOf source "sha256").any Control.validHash

def isHexDigit (c : Char) : Bool := c.isDigit || ('a'.toNat ≤ c.toNat && c.toNat ≤ 'f'.toNat)

def isRunId (value : Option Json) : Bool :=
  match value with
  | some (.str text) =>
      text.toList.length = 36 && text.toList.zipIdx.all fun (c, i) => if i ∈ [8, 13, 18, 23] then c = '-' else isHexDigit c
  | _ => false

def dependencyFail : String := "Input must name an existing unit in a preceding prerequisite"

/-- A dependency names another run's unit, or a listed unit of a step this one requires. -/
def checkDependency (step : StepConfig) (identities : List (String × String)) (dependency : Json) : Except String Unit :=
  if exactFields dependency ["run", "step", "key"] then
    blockUnless (isNonemptyText (fieldOf dependency "step") && isNonemptyText (fieldOf dependency "key")
      && isRunId (fieldOf dependency "run")) (dependencyFail ++ " or another run")
  else
    blockUnless (exactFields dependency ["step", "key"] && isText (fieldOf dependency "step") && isText (fieldOf dependency "key")
      && (textOf dependency "step").any (fun name => name ∈ step.requires
        && (textOf dependency "key").any fun key => (name, key) ∈ identities)) dependencyFail

mutual
/-- The slots a template uses: every value that is exactly a slot's name. -/
def slotNames : Json → List Json
  | .obj fields => if fields.map Prod.fst = ["slot"] then fields.map Prod.snd else slotNamesFields fields
  | .arr items => slotNamesItems items
  | _ => []

def slotNamesItems : List Json → List Json
  | [] => []
  | item :: rest => slotNames item ++ slotNamesItems rest

def slotNamesFields : List (String × Json) → List Json
  | [] => []
  | (_, value) :: rest => slotNames value ++ slotNamesFields rest
end

def composeSlots : Nat := 16

def composeList : Nat := 256

def composeBytes : Nat := 1024 ^ 2

def isSlotName : Json → Bool
  | .str name => isFieldName name
  | _ => false

def checkSlot (step : StepConfig) (identities : List (String × String)) (nested : Json → Except String Unit) (value : Json) :
    Except String Unit :=
  match value with
  | .arr items => do
      blockUnless (1 ≤ items.length && items.length ≤ composeList) s!"A slot lists 1..{composeList} units"
      items.forM (checkDependency step identities)
  | value =>
      if exactFields value ["compose"] then nested ((fieldOf value "compose").getD .null)
      else checkDependency step identities value

def fieldsOf : Option Json → List (String × Json)
  | some (.obj fields) => fields
  | _ => []

/-- A composed input: its document uses exactly its slots, and every slot is filled by named units. -/
def checkComposition (step : StepConfig) (identities : List (String × String)) (nested : Json → Except String Unit) (body : Json) :
    Except String Unit := do
  blockUnless (exactFields body ["document", "slots"] && isObject (fieldOf body "document") && isObject (fieldOf body "slots")
    && 1 ≤ (fieldsOf (fieldOf body "slots")).length && (fieldsOf (fieldOf body "slots")).length ≤ composeSlots)
    s!"A composed input names a document and 1..{composeSlots} slots"
  blockUnless ((Records.writeSortedJson body).utf8ByteSize ≤ composeBytes) "A composed input exceeds its byte bound"
  blockUnless ((slotNames ((fieldOf body "document").getD .null)).all (fun name => isSlotName name
    && name ∈ (fieldsOf (fieldOf body "slots")).map fun slot => .str slot.1)
    && (fieldsOf (fieldOf body "slots")).all fun slot => .str slot.1 ∈ slotNames ((fieldOf body "document").getD .null))
    "A composed document uses exactly its declared slots"
  (fieldsOf (fieldOf body "slots")).forM fun slot => checkSlot step identities nested slot.2

def checkComposed (step : StepConfig) (identities : List (String × String)) : Nat → Json → Except String Unit
  | 0, body => checkComposition step identities (fun _ => .error "Composed documents nest at most once") body
  | depth + 1, body => checkComposition step identities (checkComposed step identities depth) body

def checkInput (planned : Bool) (step : StepConfig) (identities : List (String × String)) (source : Json) : Except String Unit :=
  if planned && exactFields source ["from"] then checkDependency step identities ((fieldOf source "from").getD .null)
  else if planned && exactFields source ["compose"] then checkComposed step identities 1 ((fieldOf source "compose").getD .null)
  else blockUnless (isReference source) Control.referenceFail

def isTexts : List Json → Bool
  | items => items.all fun item => isNonemptyText (some item)

/-- A unit's key is nonempty text; the columns a unit is distinct on are one to eight names. -/
def isKeyValue (field : String × Json) : Bool :=
  if field.1 = "distinct_on" then
    match field.2 with
    | .arr items => 1 ≤ items.length && items.length ≤ 8 && items.Nodup && isTexts items
    | _ => false
  else isNonemptyText (some field.2)

abbrev ListText := Json → String

def formatPiece (listText : ListText) (keys : Json) : Piece → Except String String
  | .text value => .ok value
  | .field name =>
      match fieldOf keys name with
      | none => .error s!"Missing configured key: '{name}'"
      | some (.str value) => .ok value
      | some value => .ok (listText value)

def format (listText : ListText) (keys : Json) (template : Template) : Except String String :=
  (template.mapM (formatPiece listText keys)).map String.join

/-- A unit that completes with a resource pins one it leases, with a revision and a position. -/
def pinsCheckpoint (resources : List String) (cursor : Json) : Bool :=
  match fieldOf cursor "resource_checkpoint" with
  | none => true
  | some .null => true
  | some checkpoint =>
      exactFields checkpoint ["resource", "revision", "position"]
        && (fieldOf checkpoint "resource").any (fun resource => resource ∈ resources.map Json.str)
        && ((fieldOf checkpoint "revision").bind intOf).any (fun revision => 0 ≤ revision)
        && ((fieldOf checkpoint "position").bind intOf).any (fun position => -1 ≤ position)

def identitiesOf (items : List WorkEntry) : List (String × String) := items.map fun item => (item.step, item.key)

def freezeUnit (listText : ListText) (planned : Bool) (step : StepConfig) (items : List WorkEntry) (unit : Json) (ordinal : Nat) :
    Except String WorkEntry := do
  blockUnless (exactFields unit ["keys", "input", "output", "cursor"])
    "Units contain keys, input/output references and an opaque cursor only"
  checkInput planned step (identitiesOf items) ((fieldOf unit "input").getD .null)
  blockUnless (isNonemptyText (fieldOf unit "output")) "Output reference missing"
  blockUnless (isObject (fieldOf unit "keys") && (fieldsOf (fieldOf unit "keys")).all isKeyValue) "Unit keys must be nonempty text"
  let key ← format listText ((fieldOf unit "keys").getD .null) step.key
  let leases ← step.leases.mapM (format listText ((fieldOf unit "keys").getD .null))
  blockUnless (pinsCheckpoint (Sorting.distinct leases) ((fieldOf unit "cursor").getD .null))
    "Resource checkpoint must pin leased resource, revision and prior position"
  blockUnless ((step.name, key) ∉ identitiesOf items) "Duplicate work-unit identity"
  .ok ⟨step.name, key, ordinal, Sorting.distinct leases, unit⟩

def addUnit (listText : ListText) (planned : Bool) (step : StepConfig) (items : List WorkEntry) (unit : Json × Nat) :
    Except String (List WorkEntry) := do
  let item ← freezeUnit listText planned step items unit.1 unit.2
  .ok (items ++ [item])

def addStep (listText : ListText) (planned : Bool) (stages : String → List Json) (items : List WorkEntry) (step : StepConfig) :
    Except String (List WorkEntry) :=
  (stages step.name).zipIdx.foldlM (addUnit listText planned step) items

/-- A manifest lists the same units for every step, or the units of each step. -/
inductive Manifest where
  | same (units : List Json)
  | steps (capture : Option Json) (stages : IndexMap String (List Json))

def Manifest.planned : Manifest → Bool
  | .same _ => false
  | .steps _ _ => true

def Manifest.stage : Manifest → String → List Json
  | .same units, _ => units
  | .steps _ stages, name => (stages.get? name).getD []

def checkManifest (config : Config) : Manifest → Except String Unit
  | .same _ => .ok ()
  | .steps capture stages => do
      blockUnless (capture.all fun capture => isNonemptyText (some capture)) "A manifest's capture is the capture's run id, as text"
      blockUnless (stages.keys.all (· ∈ config.steps.map StepConfig.name) && config.steps.all (fun step => stages.contains step.name))
        "Manifest must declare exactly the configured steps"

def worklist (listText : ListText) (manifest : Manifest) (config : Config) : Except String (List WorkEntry) := do
  checkManifest config manifest
  blockUnless (config.allowZeroWork || config.steps.all (fun step => manifest.stage step.name ≠ [])) "Zero work is not permitted"
  config.steps.foldlM (addStep listText manifest.planned manifest.stage) []

/-- An expansion's parent, as its manifest names it. -/
structure ParentRef where
  step : String
  key : String
  generatedStep : String
  ordinalBase : Option Json
  deriving DecidableEq

structure Expansion where
  parent : ParentRef
  children : List Json

/-- The configuration an expansion's children are frozen under: their step alone, resting on nothing. -/
def childConfig (config : Config) (selected : StepConfig) : Config :=
  { config with steps := [{ selected with requires := [] }], allowZeroWork := true }

def placeFrom (base : Int) (item : WorkEntry) : WorkEntry := { item with ordinal := base + item.ordinal }

def generatedWorklist (listText : ListText) (manifest : Expansion) (config : Config) (parent : ParentRef) :
    Except String (List WorkEntry) := do
  blockUnless (manifest.parent = parent && manifest.children.length ≤ 128) "Expansion manifest is unsealed or names another parent"
  let selected ← (config.steps.find? fun step => step.name = parent.generatedStep).elim
    (.error "Expansion names no configured child step") .ok
  let base ← (parent.ordinalBase.bind intOf).elim (.error "Expansion names no configured child step") .ok
  blockUnless (parent.step ∈ selected.requires && 0 ≤ base) "Expansion names no configured child step"
  let items ← worklist listText (.steps none (IndexMap.ofList [(selected.name, manifest.children)])) (childConfig config selected)
  .ok (items.map (placeFrom base))

end EdgarPlatform.Bookkeeping
