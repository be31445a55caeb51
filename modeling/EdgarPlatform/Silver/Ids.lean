import EdgarPlatform.Silver.Exact
import Mathlib.Data.List.Induction

/-!
# The ids of linked masters

A row lands with the id of the master each of its links names. The master is looked up by a key: landing writes the key from the delivered value, and refreshing casts the stored value to text. Refreshing right after landing so changes a row where the masters know the two spellings differently.
-/

namespace EdgarPlatform.Silver

open Records (Json)

def listText (ids : List String) : String := "[" ++ ", ".intercalate (ids.map fun id => "'" ++ id ++ "'") ++ "]"

/-- A delivery's rows with the checks each failed, without the rows an exception refuses. -/
def runChecks (fails : Check → List Row → List Nat) (spec : Spec) (rows : List Row) : List Row :=
  if spec.checks = [] then rows
  else rows.zipIdx.filterMap fun entry =>
    let failed := spec.checks.filter fun check => entry.2 ∈ fails check rows
    if failed.any fun check => check.onFail = .exception then none
    else
      let ids := Sorting.sortByKey id (failed.map Check.id)
      some (entry.1.insert quality (if ids = [] then none else some (.nested (.arr (ids.map .str)) (listText ids))))

variable {α : Type} [DecidableEq α]

def columnType (spec : Spec) (name : String) : Physical :=
  (((spec.columns.find? fun column => column.name = name).bind fun column => postgresType column.type)).getD .text

def keyText (db : Database α) (spec : Spec) (link : Link) (row : Cells α) : Option String :=
  (row link.sourceKey).map (db.asText (columnType spec link.sourceKey))

def batches {β : Type} (size : Nat) : Nat → List β → List (List β)
  | 0, _ => []
  | fuel + 1, items => if items = [] then [] else items.take size :: batches size fuel (items.drop size)

variable {sink : Sink α} {spec : Spec} {now : α}

/-- A spec's links fill columns of their own. -/
structure LinksApart (links : List Link) : Prop where
  columns : (links.map Link.mdmIdColumn).Nodup
  sources : ∀ link ∈ links, ∀ other ∈ links, link.sourceKey ≠ other.mdmIdColumn

theorem LinksApart.last {front : List Link} {link : Link} (h : LinksApart (front ++ [link])) {other : Link} (hother : other ∈ front) :
    other.mdmIdColumn ≠ link.mdmIdColumn := by
  have hcolumns := h.columns
  rw [List.map_append, List.nodup_append] at hcolumns
  exact hcolumns.2.2 _ (List.mem_map_of_mem hother) _ (by simp)

variable {link : Link}

variable {db : Database α}

end EdgarPlatform.Silver
