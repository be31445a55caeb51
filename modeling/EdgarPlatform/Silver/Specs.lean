import EdgarPlatform.Library.Digits
import EdgarPlatform.Library.Keyed
import EdgarPlatform.Records.Values

/-!
# Specs of silver tables

A spec names the columns a table takes from its source, the key, the links to masters and how deliveries are loaded. A column has a logical type, which lands as one of the types a store has. The writer adds columns of its own: the id of each link's master, the checks a row failed, and the time it was written where no source column holds it. A spec that is registered is checked: its names are told apart and its key is never empty.
-/

namespace EdgarPlatform.Silver

open Records (Json Object)

inductive LoadMode where
  | append
  | upsert
  | snapshot
  deriving DecidableEq

structure Column where
  name : String
  type : String
  nullable : Bool
  deriving DecidableEq

/-- A link from one column of a table, its source key, to the masters of a kind. -/
structure Link where
  columns : List String
  kind : String
  sourceCode : String
  sourceKey : String
  mdmIdColumn : String
  deriving DecidableEq

inductive OnFail where
  | flag
  | exception
  deriving DecidableEq

/-- A data quality check: what fails it is read from its body. -/
structure Check where
  id : String
  onFail : OnFail
  body : Object
  deriving DecidableEq

structure Spec where
  table : String
  columns : List Column
  key : List String
  links : List Link
  asAt : String
  loadMode : LoadMode
  checks : List Check
  deriving DecidableEq

/-- The types columns land as. -/
inductive Physical where
  | boolean
  | bigint
  | numeric (precision scale : Nat)
  | doublePrecision
  | text
  | uuid
  | bytea
  | date
  | time
  | timestamp
  | timestampTz
  | interval
  | jsonb
  deriving DecidableEq

def postgres : List (String × Physical) :=
  [("BOOLEAN", .boolean), ("TINYINT", .bigint), ("SMALLINT", .bigint), ("INTEGER", .bigint), ("BIGINT", .bigint), ("UTINYINT", .bigint),
    ("USMALLINT", .bigint), ("UINTEGER", .bigint), ("UBIGINT", .numeric 20 0), ("HUGEINT", .numeric 39 0), ("UHUGEINT", .numeric 39 0),
    ("FLOAT", .doublePrecision), ("DOUBLE", .doublePrecision), ("VARCHAR", .text), ("UUID", .uuid), ("BLOB", .bytea), ("DATE", .date),
    ("TIME", .time), ("TIMESTAMP", .timestamp), ("TIMESTAMP WITH TIME ZONE", .timestampTz), ("INTERVAL", .interval), ("JSON", .jsonb)]

def digits? (cs : List Char) : Option Nat := if cs ≠ [] ∧ cs.all Char.isDigit then some (Digits.value cs) else none

/-- A decimal type with its precision and its scale, however it is spaced. -/
def decimalType (logical : String) : Option Physical :=
  let cs := logical.toList.filter (· ≠ ' ')
  if "DECIMAL(".toList.isPrefixOf cs ∧ cs.getLast? = some ')' then
    let inner := (cs.drop 8).dropLast
    let whole := inner.takeWhile (· ≠ ',')
    match inner.drop whole.length with
    | ',' :: rest => (digits? whole).bind fun precision => (digits? rest).map fun scale => .numeric precision scale
    | _ => none
  else none

def isNested (logical : String) : Bool :=
  let cs := logical.toList
  (["STRUCT(", "MAP(", "UNION("].any fun name => name.toList.isPrefixOf cs) ||
    (cs.getLast? = some ']' && (cs.dropLast.reverse.dropWhile Char.isDigit).head? = some '[')

def postgresType (logical : String) : Option Physical :=
  (((postgres.find? fun entry => entry.1 = logical).map Prod.snd).or (decimalType logical)).or
    (if isNested logical then some .jsonb else none)

def loadedAt : String := "loaded_at"

def quality : String := "quality"

def Spec.names (spec : Spec) : List String := spec.columns.map Column.name

def mdmIdColumns (spec : Spec) : List String := spec.links.map Link.mdmIdColumn

/-- The column a flagged row's check ids are written to, when the spec has checks. -/
def qualityColumns (spec : Spec) : List String := if spec.checks = [] then [] else [quality]

/-- The time a row was written, where no source column holds it. -/
def addedTime (spec : Spec) : List String := if spec.asAt = loadedAt ∧ loadedAt ∉ spec.names then [loadedAt] else []

/-- The columns a delivery gives: those of the source, then those the writer fills beside them. -/
def staged (spec : Spec) : List String := spec.names ++ mdmIdColumns spec ++ qualityColumns spec

def isName (name : String) : Bool := name ≠ "" && name.utf8ByteSize ≤ 63 && !name.toList.contains '\x00'

/-- What a spec is checked for before any table is made from it. -/
structure Spec.Checked (spec : Spec) : Prop where
  named : isName spec.table ∧ ∀ name ∈ staged spec, isName name
  columns : spec.columns ≠ []
  typed : ∀ column ∈ spec.columns, postgresType column.type ≠ none
  keyed : spec.key ≠ [] ∧ spec.key.Nodup ∧ ∀ name ∈ spec.key, name ∈ spec.names
  /-- A key column is never empty. -/
  filled : ∀ column ∈ spec.columns, column.name ∈ spec.key → column.nullable = false
  linked : ∀ link ∈ spec.links, link.kind ≠ "" ∧ link.sourceCode ≠ "" ∧ link.columns = [link.sourceKey] ∧ link.sourceKey ∈ spec.names
  timed : spec.asAt ∈ spec.names ∨ spec.asAt = loadedAt
  /-- A snapshot table keeps no row out of a delivery: it would be deleted. -/
  kept : spec.loadMode = .snapshot → ∀ check ∈ spec.checks, check.onFail = .flag
  checked : (spec.checks.map Check.id).Nodup
  distinct : (staged spec ++ addedTime spec).Nodup

instance (spec : Spec) : Decidable spec.Checked :=
  decidable_of_iff ((isName spec.table ∧ ∀ name ∈ staged spec, isName name) ∧ spec.columns ≠ [] ∧
      (∀ column ∈ spec.columns, postgresType column.type ≠ none) ∧
      (spec.key ≠ [] ∧ spec.key.Nodup ∧ ∀ name ∈ spec.key, name ∈ spec.names) ∧
      (∀ column ∈ spec.columns, column.name ∈ spec.key → column.nullable = false) ∧
      (∀ link ∈ spec.links, link.kind ≠ "" ∧ link.sourceCode ≠ "" ∧ link.columns = [link.sourceKey] ∧ link.sourceKey ∈ spec.names) ∧
      (spec.asAt ∈ spec.names ∨ spec.asAt = loadedAt) ∧
      (spec.loadMode = .snapshot → ∀ check ∈ spec.checks, check.onFail = .flag) ∧ (spec.checks.map Check.id).Nodup ∧
      (staged spec ++ addedTime spec).Nodup)
    ⟨fun ⟨h1, h2, h3, h4, h5, h6, h7, h8, h9, h10⟩ => ⟨h1, h2, h3, h4, h5, h6, h7, h8, h9, h10⟩,
      fun ⟨h1, h2, h3, h4, h5, h6, h7, h8, h9, h10⟩ => ⟨h1, h2, h3, h4, h5, h6, h7, h8, h9, h10⟩⟩

/-- A spec as it is registered: one that was checked. -/
structure Registered where
  spec : Spec
  checked : spec.Checked

def check (spec : Spec) : Except String Registered :=
  if h : spec.Checked then .ok ⟨spec, h⟩ else .error "A silver table spec is checked before any table is made from it"

variable {spec : Spec}

variable {name : String}

theorem Spec.Checked.added_not_staged (h : spec.Checked) (hadded : name ∈ addedTime spec) : name ∉ staged spec :=
  fun hstaged => (List.nodup_append.1 h.distinct).2.2 name hstaged name hadded rfl

theorem Spec.Checked.added_not_key (h : spec.Checked) (hadded : name ∈ addedTime spec) : name ∉ spec.key := by
  intro hkey
  apply h.added_not_staged hadded
  rw [staged, List.append_assoc]
  exact List.mem_append_left _ (h.keyed.2.2 name hkey)

theorem names_staged (spec : Spec) (h : name ∈ spec.names) : name ∈ staged spec := by
  rw [staged, List.append_assoc]
  exact List.mem_append_left _ h

theorem mdmIds_staged (spec : Spec) (h : name ∈ mdmIdColumns spec) : name ∈ staged spec :=
  List.mem_append_left _ (List.mem_append_right _ h)

theorem quality_staged (spec : Spec) (h : name ∈ qualityColumns spec) : name ∈ staged spec :=
  List.mem_append_right _ h

example : postgresType "DECIMAL(18, 2)" = some (.numeric 18 2) := by decide

/-! ### Delivered values

A delivery holds values as they are transported: numbers, text in place of a date or a number, nested values. Each is bound to what its column's type takes, or the row is refused. A value carries the texts it is written as, and a number the integer it equals where it equals one; what is read out of a text is the library's.
-/

open Records (Json)

inductive Value where
  | bool (value : Bool)
  | int (value : Int)
  | float (repr : String) (finite : Bool) (whole : Option Int)
  /-- A decimal as text, without an exponent, and as an integer. -/
  | decimal (text plain : String) (whole : Option Int)
  | str (value : String)
  | bytes (hex text : String)
  | date (iso : String)
  | time (iso : String) (zoned : Bool)
  | datetime (iso text : String) (zoned : Bool)
  | timedelta (text : String)
  | nested (body : Json) (text : String)
  /-- Validated JSON text. -/
  | rawJSON (text : String)
  deriving DecidableEq

def Value.text : Value → String
  | .bool value => if value then "True" else "False"
  | .int value => toString value
  | .float repr _ _ => repr
  | .decimal text _ _ => text
  | .str value => value
  | .bytes _ text => text
  | .date iso => iso
  | .time iso _ => iso
  | .datetime _ text _ => text
  | .timedelta text => text
  | .nested _ text => text
  | .rawJSON text => text

abbrev Row := IndexMap String (Option Value)

def Row.cell (row : Row) (name : String) : Option Value := (row.get? name).join

/-- What the library reads out of a text or a value. -/
structure Python where
  date : String → Option Value
  time : String → Option Value
  datetime : String → Option Value
  elapsed : String → Option Value
  decimal : String → Option Value
  int : Value → Option Int
  float : Value → Option Value
  /-- JSON text with every number in one form. -/
  canonical : String → Option String

def Value.isText : Value → Option String
  | .str value => some value
  | .rawJSON text => some text
  | _ => none

def Value.isNested : Value → Bool
  | .nested _ _ => true
  | _ => false

def boundText : Value → Option Value
  | .bool value => some (.str (if value then "true" else "false"))
  | .bytes hex _ => some (.str ("\\x" ++ hex))
  | .date iso => some (.str iso)
  | .time iso _ => some (.str iso)
  | .datetime iso _ _ => some (.str iso)
  | .decimal _ plain _ => some (.str plain)
  | .float repr finite _ => if finite then some (.str repr) else none
  | value => some (.str value.text)

def boundInteger (python : Python) (value : Value) : Option Value := do
  let converted ← python.int value
  match python.decimal value.text with
  | some (.decimal _ _ whole) => if whole = some converted then some (.int converted) else none
  | _ => none

def boundFloat (python : Python) (value : Value) : Option Value := do
  match python.float value with
  | some (.float repr finite whole) => if finite then some (.float repr finite whole) else none
  | _ => none

def boundBoolean (text : String) : Option Value :=
  if text.toLower ∈ ["true", "false", "t", "f", "1", "0"] then some (.bool (text.toLower ∈ ["true", "t", "1"])) else none

/-- A value without a time zone. What has none at all is refused too. -/
def unzoned : Value → Option Value
  | .time iso false => some (.time iso false)
  | .datetime iso text false => some (.datetime iso text false)
  | _ => none

/-- A value as its column's type takes it. None where it is not of the type. -/
def convert (python : Python) (physical : Physical) (value : Value) : Option Value :=
  match physical with
  | .jsonb => match value.isText with
      | some text => (python.canonical text).map .rawJSON
      | none => some value
  | .text => boundText value
  | .interval => value.isText.elim (some value) python.elapsed
  | .date => value.isText.elim (some value) python.date
  | .time => (value.isText.elim (some value) python.time).bind unzoned
  | .timestamp => (value.isText.elim (some value) python.datetime).bind unzoned
  | .timestampTz => value.isText.elim (some value) python.datetime
  | .numeric _ _ => python.decimal value.text
  | .bigint => boundInteger python value
  | .doublePrecision => boundFloat python value
  | .boolean => value.isText.elim (some value) boundBoolean
  | .uuid => some value
  | .bytea => some value

def boundCell (python : Python) (spec : Spec) (column : Column) (value : Option Value) : Except String (Option Value) :=
  match value with
  | none => if column.nullable then .ok none
      else .error ("silver." ++ spec.table ++ ": column " ++ column.name ++ " is empty in some rows")
  | some value =>
      match postgresType column.type with
      | none => .error ("No silver type for " ++ column.type ++ ": name the logical type in the spec")
      | some physical =>
          if value.isNested ∧ physical ≠ .jsonb then .error ("Column " ++ column.name ++ " is not a nested value")
          else match convert python physical value with
            | none => .error ("silver." ++ spec.table ++ ": a value is not its column's type (" ++ column.name ++ ")")
            | some bound => .ok (some bound)

/-- A row whose columns are bound. Its other fields are as they were. -/
def boundRow (python : Python) (spec : Spec) (row : Row) : Except String Row :=
  spec.columns.foldlM (fun out column => do
    let cell ← boundCell python spec column (out.cell column.name)
    .ok (out.insert column.name cell)) row

/-- A value as a record key: a number that is whole is written as an integer. -/
def Value.key : Value → String
  | .decimal text _ whole => whole.elim text toString
  | .float repr _ whole => whole.elim repr toString
  | value => value.text

def keyOf (value : Option Value) : Option String := value.map Value.key

/-! ### Deliveries into a silver table

A delivery is one transaction. Its rows are bound and staged, a delivery that holds a key twice is refused, and so is an empty snapshot and an append that would change a landed row. Then the missing rows are inserted, the ids and the quality of the rows that match are brought up to date, the rows whose source columns differ are written again, and a snapshot deletes what it does not hold. A value that is stored is taken up to the equality of its column's type.
-/

open Records (Json)

abbrev Cells (α : Type) := String → Option α

/-- How a database holds values. -/
structure Database (α : Type) where
  /-- A value in a column of a type. None where the driver or the database refuses it. -/
  store : Physical → Value → Option α
  text : String → α
  /-- A text column holds the text it is given. -/
  store_text : ∀ value, store .text (.str value) = some (text value)
  text_injective : Function.Injective text
  /-- A stored value cast to text. -/
  asText : Physical → α → String

inductive Dialect where
  | postgresql
  | mysql
  deriving DecidableEq

structure Sink (α : Type) where
  dialect : Dialect
  /-- The session converts values strictly. -/
  strict : Bool
  registered : String → Except String Registered
  python : Python
  db : Database α
  /-- What the key of a row is told apart by where its columns can have no index. -/
  digest : List (Option α) → String

variable {α : Type} [DecidableEq α] (sink : Sink α) (spec : Spec)

def stagedColumns : List (String × Option Physical) :=
  spec.columns.map (fun column => (column.name, postgresType column.type))
    ++ (mdmIdColumns spec).map (fun name => (name, some .text)) ++ (qualityColumns spec).map (fun name => (name, some .jsonb))

def stageCell (physical : Option Physical) : Option Value → Except String (Option α)
  | none => .ok none
  | some value =>
      match physical.bind fun physical => sink.db.store physical value with
      | none => .error ("silver." ++ spec.table ++ ": a value is not its column's type or a storage constraint refused the delivery")
      | some stored => .ok (some stored)

def stageRow (row : Row) : Except String (Cells α) := do
  let prepared ← boundRow sink.python spec row
  let cells ← (stagedColumns spec).mapM fun column => do
    let cell ← stageCell sink spec column.2 (prepared.cell column.1)
    .ok (column.1, cell)
  .ok fun name => ((IndexMap.ofList cells).get? name).join

def keyCells (cells : Cells α) : List (Option α) := spec.key.map cells

def matchRows (landed delivered : Cells α) : Bool :=
  (match sink.dialect with
    | .postgresql => true
    | .mysql => decide (sink.digest (keyCells spec landed) = sink.digest (keyCells spec delivered)))
    && decide (keyCells spec landed = keyCells spec delivered)

theorem matchRows_iff (landed delivered : Cells α) :
    matchRows sink spec landed delivered = true ↔ keyCells spec landed = keyCells spec delivered := by
  rw [matchRows, Bool.and_eq_true, decide_eq_true_eq, and_iff_right_iff_imp]
  intro hsame
  cases sink.dialect with
  | postgresql => rfl
  | mysql => simp [hsame]

/-- The rows of a stage are grouped by their keys, each under one row. -/
def keysApart (stage : List (Cells α)) : Bool :=
  match sink.dialect with
  | .postgresql => decide (stage.map (keyCells spec)).Nodup
  | .mysql => decide (stage.map fun cells => sink.digest (keyCells spec cells)).Nodup

theorem nodup_of_keysApart {stage : List (Cells α)} (h : keysApart sink spec stage = true) : (stage.map (keyCells spec)).Nodup := by
  rw [keysApart] at h
  cases hdialect : sink.dialect with
  | postgresql =>
      rw [hdialect] at h
      exact of_decide_eq_true h
  | mysql =>
      rw [hdialect] at h
      have hdigests : ((stage.map (keyCells spec)).map sink.digest).Nodup := by
        rw [List.map_map]
        exact of_decide_eq_true h
      exact hdigests.of_map

def stageTable (stage : List (Cells α)) : Except String (Keyed.Table (keyCells (α := α) spec)) :=
  if h : keysApart sink spec stage = true then .ok ⟨stage, nodup_of_keysApart sink spec h⟩
  else .error ("silver." ++ spec.table ++ ": the delivery holds a key more than once")

/-- Two rows differ in some columns. An empty value is a value here. -/
def differs (columns : List String) (landed delivered : Cells α) : Bool := columns.any fun name => landed name ≠ delivered name

def withTime (now : α) (cells : Cells α) : Cells α := fun name => if name ∈ addedTime spec then some now else cells name

def setColumns (columns : List String) (landed delivered : Cells α) : Cells α :=
  fun name => if name ∈ columns then delivered name else landed name

def setDelivered (now : α) (landed delivered : Cells α) : Cells α := withTime spec now (setColumns (staged spec) landed delivered)

omit [DecidableEq α] in
theorem keyCells_eq_iff {left right : Cells α} : keyCells spec left = keyCells spec right ↔ ∀ name ∈ spec.key, left name = right name := by
  rw [keyCells, keyCells, List.map_inj_left]

omit [DecidableEq α] in
theorem keyCells_setColumns (columns : List String) {landed delivered : Cells α} (h : keyCells spec landed = keyCells spec delivered) :
    keyCells spec (setColumns columns landed delivered) = keyCells spec landed := by
  rw [keyCells_eq_iff] at h ⊢
  intro name hname
  rw [setColumns]
  split_ifs
  · exact (h name hname).symm
  · rfl

omit [DecidableEq α] in
theorem keyCells_withTime {spec : Spec} (hchecked : spec.Checked) (now : α) (cells : Cells α) :
    keyCells spec (withTime spec now cells) = keyCells spec cells := by
  rw [keyCells_eq_iff]
  intro name hname
  exact if_neg fun hadded => hchecked.added_not_key hadded hname

omit [DecidableEq α] in
theorem keyCells_setDelivered {spec : Spec} (hchecked : spec.Checked) (now : α) {landed delivered : Cells α}
    (h : keyCells spec landed = keyCells spec delivered) : keyCells spec (setDelivered spec now landed delivered) = keyCells spec landed :=
  (keyCells_withTime hchecked now _).trans (keyCells_setColumns spec _ h)

abbrev Landed (α : Type) [DecidableEq α] (spec : Spec) := Keyed.Table (keyCells (α := α) spec)

/-- Some columns of the rows that match are brought up to date, where there are any. -/
def updateColumns (columns : List String) (target stage : Landed α spec) : Nat × Landed α spec :=
  if columns = [] then (0, target)
  else (target.matching (matchRows sink spec) stage (differs columns),
    target.updateFrom (matchRows sink spec) (matchRows_iff sink spec) stage (differs columns) (setColumns columns)
      fun _ _ h => keyCells_setColumns spec columns h)

structure Report where
  rows : Nat
  inserted : Nat
  changed : Nat
  deleted : Nat
  mdmIdsUpdated : Nat
  qualityUpdated : Option Nat
  deriving DecidableEq

def applyStage (hchecked : spec.Checked) (now : α) (stage target : Landed α spec) : Except String (Report × Landed α spec) :=
  let changed := target.matching (matchRows sink spec) stage (differs spec.names)
  if changed ≠ 0 ∧ spec.loadMode = .append then
    .error ("silver." ++ spec.table ++ " is append only: delivered rows change rows already landed under the same key")
  else
    let inserted := target.insertMissing (matchRows sink spec) (matchRows_iff sink spec) stage (withTime spec now)
      (keyCells_withTime hchecked now)
    let (mdmIdsUpdated, linked) := updateColumns sink spec (mdmIdColumns spec) inserted stage
    let (qualityUpdated, told) := updateColumns sink spec (qualityColumns spec) linked stage
    let written := if changed = 0 then told
      else told.updateFrom (matchRows sink spec) (matchRows_iff sink spec) stage (differs spec.names) (setDelivered spec now)
        fun _ _ h => keyCells_setDelivered hchecked now h
    let (deleted, kept) := if spec.loadMode = .snapshot then
        (written.unmatched (matchRows sink spec) stage, written.deleteUnmatched (matchRows sink spec) stage)
      else (0, written)
    .ok (⟨stage.rows.length, target.missing (matchRows sink spec) stage, changed, deleted, mdmIdsUpdated,
      if qualityColumns spec = [] then none else some qualityUpdated⟩, kept)

/-- One delivery of rows into a table at a time. A refused one leaves the table as it was. -/
def write (now : α) (rows : List Row) (target : Landed α spec) : Except String (Report × Landed α spec) := do
  let registered ← sink.registered spec.table
  if h : spec = registered.spec then do
    if sink.dialect = .mysql ∧ sink.strict = false then .error "Silver requires strict MySQL value conversion" else do
      let staged ← rows.mapM (stageRow sink spec)
      if staged = [] ∧ spec.loadMode = .snapshot then
        .error ("silver." ++ spec.table ++ " is a snapshot: an empty delivery would empty it; refused")
      else do
        let stage ← stageTable sink spec staged
        applyStage sink spec (h ▸ registered.checked) now stage target
  else .error "Silver delivery spec differs from its registration"

end EdgarPlatform.Silver
