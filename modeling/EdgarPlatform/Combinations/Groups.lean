import EdgarPlatform.Combinations.Scalars
import EdgarPlatform.Library.Stable
import EdgarPlatform.Library.Firsts
import EdgarPlatform.Library.Parts

/-!
# Rows read and grouped

A selection reads the rows of one table of several sources, checks each one and keeps those its filters ask for. A group collects a column of the selected rows under their keys, in their order or in the order of other columns.

Which rows a selection keeps and which pairs a key has are said first without the run that finds them.
-/

namespace EdgarPlatform.Combinations

open PythonJson IndexMap

abbrev Row (F : Type) := List (Text × Value F)

structure Artifact (F : Type) where
  tables : List (Text × List (Row F))

abbrev Inputs (F : Type) := List (Text × List (Artifact F))

/-- Which rows are read: of which table, checked how and kept when. -/
structure Selection (F : Type) where
  sources : List Text
  table : Text
  checks : Row F
  filters : Row F

/-- What the interpreter supplies: the comparison of its floats and its canonical text of a value. -/
structure Env (F : Type) extends Numbers F where
  canonical : Value F → Except String Text

variable {F : Type}

def columnName (t : Text) : String := String.ofList (t.map Char.ofNat)

def item {α : Type} (row : List (Text × α)) (column : Text) : Except String α :=
  match lookupEntry column row with
  | some value => .ok value
  | none => .error ("Combination row has no column " ++ columnName column)

/-- Whether a column of the row has the canonical text of what is expected of it. -/
def agrees (env : Env F) (row : Row F) (expected : Text × Value F) : Except String Bool := do
  let value ← item row expected.1
  let text ← env.canonical value
  let wanted ← env.canonical expected.2
  return decide (text = wanted)

def check (env : Env F) (row : Row F) (expected : Text × Value F) : Except String Unit := do
  if ← agrees env row expected then .ok () else .error ("Combination row check failed: " ++ columnName expected.1)

/-- Whether a checked row is kept. Every filter is looked at, also after one that does not hold. -/
def selects (env : Env F) (sel : Selection F) (row : Row F) : Except String Bool := do
  sel.checks.forM (check env row)
  sel.filters.foldlM (fun kept expected => do
    let same ← agrees env row expected
    return kept && same) true

def tableOf (sel : Selection F) (artifact : Artifact F) : Except String (List (Row F)) :=
  match lookupEntry sel.table artifact.tables with
  | some records => .ok records
  | none => .error ("Combination reading has no table " ++ columnName sel.table)

def rows {σ : Type} (env : Env F) (inputs : Inputs F) (sel : Selection F) (consume : σ → Row F → Except String σ) (start : σ) : Except String σ :=
  sel.sources.foldlM (fun s source => do
    let artifacts ← item inputs source
    artifacts.foldlM (fun s artifact => do
      let records ← tableOf sel artifact
      records.foldlM (fun s row => do
        if ← selects env sel row then consume s row else .ok s) s) s) start

/-- The rows of the selection's table, in the order of its sources and their artifacts. -/
def recordsOf (inputs : Inputs F) (sel : Selection F) : List (Row F) :=
  sel.sources.flatMap fun source => ((lookupEntry source inputs).getD []).flatMap fun artifact =>
    (lookupEntry sel.table artifact.tables).getD []

/-- Whether a column of the row has the canonical text of what is expected of it. -/
def sameText (env : Env F) (row : Row F) (expected : Text × Value F) : Bool :=
  match lookupEntry expected.1 row with
  | none => false
  | some value =>
      match env.canonical value, env.canonical expected.2 with
      | .ok text, .ok wanted => decide (text = wanted)
      | _, _ => false

/-- The rows a selection keeps, in the order of its sources and their artifacts. -/
def selected (env : Env F) (inputs : Inputs F) (sel : Selection F) : List (Row F) :=
  (recordsOf inputs sel).filter fun row => sel.filters.all (sameText env row)

theorem item_eq_ok {α : Type} {row : List (Text × α)} {column : Text} {value : α} :
    item row column = .ok value ↔ lookupEntry column row = some value := by
  rw [item]
  cases lookupEntry column row <;> simp

variable {env : Env F} {row : Row F}

theorem agrees_eq_ok {expected : Text × Value F} {same : Bool} (h : agrees env row expected = .ok same) :
    same = sameText env row expected := by
  obtain ⟨value, hvalue, h⟩ := Except.bind_eq_ok.1 h
  obtain ⟨text, htext, h⟩ := Except.bind_eq_ok.1 h
  obtain ⟨wanted, hwanted, h⟩ := Except.bind_eq_ok.1 h
  rw [sameText, item_eq_ok.1 hvalue]
  simp only [htext, hwanted]
  exact (Except.ok.inj h).symm

theorem check_eq_ok {expected : Text × Value F} (h : check env row expected = .ok ()) :
    sameText env row expected = true := by
  obtain ⟨same, hsame, h⟩ := Except.bind_eq_ok.1 h
  rw [← agrees_eq_ok hsame]
  cases same with
  | true => rfl
  | false => cases h

theorem filters_eq_ok {filters : Row F} {start kept : Bool}
    (h : filters.foldlM (fun kept expected => do
      let same ← agrees env row expected
      return kept && same) start = .ok kept) : kept = (start && filters.all (sameText env row)) := by
  induction filters generalizing start with
  | nil =>
      rw [Runs.foldlM_nil_eq_ok] at h
      rw [← h, List.all_nil, Bool.and_true]
  | cons expected rest ih =>
      obtain ⟨mid, hmid, hrest⟩ := Runs.foldlM_cons_eq_ok.1 h
      obtain ⟨same, hsame, hmid⟩ := Except.bind_eq_ok.1 hmid
      rw [ih hrest, ← Except.ok.inj hmid, agrees_eq_ok hsame, List.all_cons, Bool.and_assoc]

variable {sel : Selection F}

theorem selects_eq_ok {kept : Bool} (h : selects env sel row = .ok kept) :
    (∀ expected ∈ sel.checks, sameText env row expected = true) ∧ kept = sel.filters.all (sameText env row) := by
  obtain ⟨_, hchecks, h⟩ := Except.bind_eq_ok.1 h
  refine ⟨fun expected hmem => check_eq_ok (Runs.forM_ok_of_mem hchecks expected hmem), ?_⟩
  rw [filters_eq_ok h, Bool.true_and]

theorem tableOf_eq_ok {artifact : Artifact F} {records : List (Row F)} (h : tableOf sel artifact = .ok records) :
    records = (lookupEntry sel.table artifact.tables).getD [] := by
  rw [tableOf] at h
  cases hfound : lookupEntry sel.table artifact.tables with
  | none =>
      rw [hfound] at h
      cases h
  | some found =>
      rw [hfound] at h
      exact (Except.ok.inj h).symm

def turn {σ : Type} (env : Env F) (sel : Selection F) (consume : σ → Row F → Except String σ) (s : σ) (row : Row F) : Except String σ := do
  if ← selects env sel row then consume s row else .ok s

theorem rows_records {σ : Type} {inputs : Inputs F} {consume : σ → Row F → Except String σ} {s t : σ}
    (h : rows env inputs sel consume s = .ok t) : (recordsOf inputs sel).foldlM (turn env sel consume) s = .ok t := by
  refine Runs.run_flatMap (fun source s s' hsource => ?_) h
  obtain ⟨artifacts, hartifacts, hsource⟩ := Except.bind_eq_ok.1 hsource
  rw [item_eq_ok.1 hartifacts, Option.getD_some]
  refine Runs.run_flatMap (fun artifact s s' hartifact => ?_) hsource
  obtain ⟨records, hrecords, hartifact⟩ := Except.bind_eq_ok.1 hartifact
  rw [← tableOf_eq_ok hrecords]
  exact hartifact

theorem rows_eq_ok {σ : Type} {inputs : Inputs F} {consume : σ → Row F → Except String σ} {s t : σ}
    (h : rows env inputs sel consume s = .ok t) : (selected env inputs sel).foldlM consume s = .ok t ∧
      ∀ row ∈ recordsOf inputs sel, ∀ expected ∈ sel.checks, sameText env row expected = true := by
  refine ⟨Runs.run_filter (fun row s s' hrow => ?_) (rows_records h), fun row hmem => ?_⟩
  · obtain ⟨kept, hkept, hrow⟩ := Except.bind_eq_ok.1 hrow
    rw [← (selects_eq_ok hkept).2]
    cases kept with
    | true => exact hrow
    | false => exact Except.ok.inj hrow
  · obtain ⟨front, back, hsplit⟩ := List.append_of_mem hmem
    have hrun := rows_records h
    rw [hsplit] at hrun
    obtain ⟨_, _, _, hrow, _⟩ := Runs.run_split hrun
    obtain ⟨_, hkept, _⟩ := Except.bind_eq_ok.1 hrow
    exact (selects_eq_ok hkept).1

inductive Mode where
  | one
  | first
  | last
  | collect
  | collectFlat
  deriving DecidableEq

def Mode.collects : Mode → Bool
  | .collect | .collectFlat => true
  | _ => false

structure GroupSpec (F : Type) extends Selection F where
  key : Text
  value : Text
  mode : Mode
  orderBy : List Text
  distinct : Bool
  skipNullValues : Bool
  skipEmptyText : Bool
  sortValues : Bool

/-- A value of a group with the scalars that order it. -/
structure Pair (F : Type) where
  order : List (Scalar F)
  payload : Value F

structure Grouping (F : Type) where
  grouped : IndexMap Key (List (Pair F))
  kinds : IndexMap Text Nat
  flattened : Nat

def wholeRow : Text := Text.ofString "."

def orderMessage : String := "Ordering columns must have one exact scalar type and no nulls"

def valueOf (spec : GroupSpec F) (row : Row F) : Except String (Value F) :=
  if spec.value = wholeRow then .ok (.dict row) else item row spec.value

def isNull : Value F → Bool
  | .null => true
  | _ => false

def addFlattened (spec : GroupSpec F) (maximum flattened : Nat) (value : Value F) : Except String Nat :=
  if spec.mode = .collectFlat then
    match value with
    | .list items =>
        if maximum < flattened + items.length then .error "collect_flat exceeds the declared element budget"
        else .ok (flattened + items.length)
    | _ => .error "collect_flat requires list values; it flattens exactly one level"
  else .ok flattened

/-- The scalar of an ordering column, which is of the one kind the column has. -/
def addOrder (row : Row F) (s : IndexMap Text Nat × List (Scalar F)) (column : Text) :
    Except String (IndexMap Text Nat × List (Scalar F)) := do
  let value ← scalarOf orderMessage (← item row column)
  let kind := (s.1.get? column).getD value.kind
  if kind ≠ value.kind then .error orderMessage
  else .ok (s.1.insert column kind, s.2 ++ [value])

def addRow (spec : GroupSpec F) (maximum : Nat) (s : Grouping F) (row : Row F) : Except String (Grouping F) := do
  match ← keyOf (← item row spec.key) with
  | none => .ok s
  | some key =>
      let value ← valueOf spec row
      if isNull value && spec.skipNullValues then .ok s
      else
        let flattened ← addFlattened spec maximum s.flattened value
        let (kinds, order) ← spec.orderBy.foldlM (addOrder row) (s.kinds, [])
        .ok ⟨s.grouped.insert key ((s.grouped.get? key).getD [] ++ [⟨order, value⟩]), kinds, flattened⟩

def pairOf (spec : GroupSpec F) (row : Row F) : Except String (Option (Key × Pair F)) := do
  match ← keyOf (← item row spec.key) with
  | none => .ok none
  | some key =>
      let value ← valueOf spec row
      if isNull value && spec.skipNullValues then .ok none
      else
        let order ← spec.orderBy.mapM fun column => do scalarOf orderMessage (← item row column)
        .ok (some (key, ⟨order, value⟩))

def members (spec : GroupSpec F) (rows : List (Row F)) (key : Key) : List (Pair F) :=
  rows.filterMap fun row =>
    match pairOf spec row with
    | .ok (some (found, pair)) => if found = key then some pair else none
    | _ => none

theorem addOrder_eq_ok {columns : List Text} {s t : IndexMap Text Nat × List (Scalar F)}
    (h : columns.foldlM (addOrder row) s = .ok t) :
    ∃ order, (columns.mapM fun column => do scalarOf orderMessage (← item row column)) = .ok order ∧ t.2 = s.2 ++ order := by
  induction columns generalizing s with
  | nil =>
      rw [Runs.foldlM_nil_eq_ok] at h
      exact ⟨[], rfl, by rw [h, List.append_nil]⟩
  | cons column rest ih =>
      obtain ⟨mid, hmid, hrest⟩ := Runs.foldlM_cons_eq_ok.1 h
      obtain ⟨order, horder, htail⟩ := ih hrest
      obtain ⟨found, hfound, hmid⟩ := Except.bind_eq_ok.1 hmid
      obtain ⟨value, hvalue, hmid⟩ := Except.bind_eq_ok.1 hmid
      rw [Except.ite_error_eq_ok] at hmid
      refine ⟨value :: order, ?_, ?_⟩
      · rw [List.mapM_cons, hfound]
        show (scalarOf orderMessage found >>= _) = _
        rw [hvalue, Except.bind_ok, horder]
        rfl
      · rw [htail, ← Except.ok.inj hmid.2, List.append_assoc, List.singleton_append]

theorem addRow_eq_ok {spec : GroupSpec F} {maximum : Nat} {s t : Grouping F} (h : addRow spec maximum s row = .ok t) :
    (pairOf spec row = .ok none ∧ t = s) ∨
      ∃ key pair, pairOf spec row = .ok (some (key, pair)) ∧
        t.grouped = s.grouped.insert key ((s.grouped.get? key).getD [] ++ [pair]) := by
  obtain ⟨found, hfound, h⟩ := Except.bind_eq_ok.1 h
  obtain ⟨key, hkey, h⟩ := Except.bind_eq_ok.1 h
  rw [pairOf, hfound, Except.bind_ok, hkey, Except.bind_ok]
  cases key with
  | none => exact .inl ⟨rfl, (Except.ok.inj h).symm⟩
  | some key =>
      obtain ⟨value, hvalue, h⟩ := Except.bind_eq_ok.1 h
      simp only [hvalue, Except.bind_ok]
      by_cases hnull : (isNull value && spec.skipNullValues) = true
      · rw [if_pos hnull] at h ⊢
        exact .inl ⟨rfl, (Except.ok.inj h).symm⟩
      · rw [if_neg hnull] at h ⊢
        obtain ⟨flattened, _, h⟩ := Except.bind_eq_ok.1 h
        obtain ⟨⟨kinds, order⟩, horder, h⟩ := Except.bind_eq_ok.1 h
        obtain ⟨scalars, hscalars, heq⟩ := addOrder_eq_ok horder
        rw [List.nil_append] at heq
        simp only [hscalars, Except.bind_ok]
        refine .inr ⟨key, ⟨scalars, value⟩, rfl, ?_⟩
        rw [← Except.ok.inj h, ← heq]

theorem members_append (spec : GroupSpec F) (front back : List (Row F)) (key : Key) :
    members spec (front ++ back) key = members spec front key ++ members spec back key :=
  List.filterMap_append

theorem grouped_of_run {spec : GroupSpec F} {maximum : Nat} {rows : List (Row F)} {t : Grouping F}
    (h : rows.foldlM (addRow spec maximum) ⟨.empty, .empty, 0⟩ = .ok t) (key : Key) :
    t.grouped.get? key = if members spec rows key = [] then none else some (members spec rows key) := by
  refine Runs.run_invariant (fun front s => s.grouped.get? key = if members spec front key = [] then none else some (members spec front key))
    h rfl fun front row _ s s' _ hheld hstep => ?_
  rw [members_append]
  obtain ⟨hnone, rfl⟩ | ⟨found, pair, hpair, hnext⟩ := addRow_eq_ok hstep
  · have hrow : members spec [row] key = [] := by rw [members, List.filterMap_cons, hnone]; rfl
    rw [hrow, List.append_nil, hheld]
  · by_cases hkey : key = found
    · subst hkey
      have hrow : members spec [row] key = [pair] := by
        rw [members, List.filterMap_cons, hpair]
        simp
      rw [hrow, hnext, IndexMap.get?_insert, if_pos rfl, if_neg (by simp), hheld]
      by_cases hnil : members spec front key = []
      · rw [if_pos hnil, hnil]
        rfl
      · rw [if_neg hnil]
        rfl
    · have hrow : members spec [row] key = [] := by
        rw [members, List.filterMap_cons, hpair]
        simp [Ne.symm hkey]
      rw [hrow, List.append_nil, hnext, IndexMap.get?_insert, if_neg hkey, hheld]

theorem order_length {spec : GroupSpec F} {rows : List (Row F)} {key : Key} {pair : Pair F} (h : pair ∈ members spec rows key) :
    pair.order.length = spec.orderBy.length := by
  obtain ⟨row, _, hrow⟩ := List.mem_filterMap.1 h
  cases hpair : pairOf spec row with
  | error e => simp [hpair] at hrow
  | ok made =>
      cases made with
      | none => simp [hpair] at hrow
      | some made =>
          simp only [hpair, Option.ite_none_right_eq_some, Option.some.injEq] at hrow
          obtain ⟨_, rfl⟩ := hrow
          obtain ⟨found, _, hpair⟩ := Except.bind_eq_ok.1 hpair
          obtain ⟨key, _, hpair⟩ := Except.bind_eq_ok.1 hpair
          cases key with
          | none => cases hpair
          | some key =>
              obtain ⟨value, _, hpair⟩ := Except.bind_eq_ok.1 hpair
              split_ifs at hpair
              · cases hpair
              · obtain ⟨order, horder, hpair⟩ := Except.bind_eq_ok.1 hpair
                rw [← Option.some.inj (Except.ok.inj hpair)]
                exact (Runs.mapM_eq_ok.1 horder).length_eq.symm

end EdgarPlatform.Combinations
