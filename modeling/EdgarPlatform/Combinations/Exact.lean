import EdgarPlatform.Combinations.Joins

/-!
# Tables combined

The groups are made first, each from the rows it selects. Then every table gives one row for each row it selects, in their order: the row with its joins done, those of shorter paths first, and its dropped columns gone.
-/

namespace EdgarPlatform.Combinations

open PythonJson IndexMap

variable {F : Type}

structure Plan (F : Type) where
  maxRows : Nat
  groups : IndexMap Text (GroupSpec F)
  tables : IndexMap Text (TableSpec F)

def addGroups (env : Env F) (inputs : Inputs F) (maximum : Nat) (s : Groups F) (entry : Text × GroupSpec F) : Except String (Groups F) := do
  let values ← group env inputs maximum entry.2
  return ⟨s.values.insert entry.1 values, if entry.2.mode.collects then s.collections ++ [entry.1] else s.collections⟩

/-- The rows of a table so far, and the rows of all tables so far. -/
structure Emitted (F : Type) where
  output : List (Row F)
  count : Nat

def emit (groups : Groups F) (joins : List Join) (drop : List Text) (maximum : Nat) (s : Emitted F) (row : Row F) : Except String (Emitted F) := do
  let output ← combineRow groups joins drop row
  if maximum < s.count + 1 then .error "Combination exceeds output row budget"
  else .ok ⟨s.output ++ [output], s.count + 1⟩

structure Combined (F : Type) where
  result : IndexMap Text (List (Row F))
  count : Nat

def addTable (env : Env F) (inputs : Inputs F) (groups : Groups F) (maximum : Nat) (s : Combined F) (entry : Text × TableSpec F) :
    Except String (Combined F) := do
  let joins ← orderJoins entry.2.joins
  let emitted ← rows env inputs entry.2.toSelection (emit groups joins entry.2.drop maximum) ⟨[], s.count⟩
  return ⟨s.result.insert entry.1 emitted.output, emitted.count⟩

def combineTables (env : Env F) (plan : Plan F) (inputs : Inputs F) : Except String (IndexMap Text (List (Row F))) :=
  if plan.maxRows = 0 ∨ 40000000 < plan.maxRows then .error "Combination max_rows must be 1..40000000"
  else do
    let groups ← plan.groups.entries.foldlM (addGroups env inputs plan.maxRows) ⟨.empty, []⟩
    let combined ← plan.tables.entries.foldlM (addTable env inputs groups plan.maxRows) ⟨.empty, 0⟩
    return combined.result

/-- Every key the selected rows give a group has the value of its pairs, and no other key is there. -/
def IsGroup (env : Env F) (inputs : Inputs F) (spec : GroupSpec F) (values : IndexMap Key (Value F)) : Prop :=
  ∀ key, (members spec (selected env inputs spec.toSelection) key = [] → values.get? key = none) ∧
    (members spec (selected env inputs spec.toSelection) key ≠ [] → ∃ value, values.get? key = some value ∧
      IsGroupValue env spec (members spec (selected env inputs spec.toSelection) key) value)

/-- The groups of a plan under their names, and which of them give lists. -/
structure AreGroups (env : Env F) (inputs : Inputs F) (plan : Plan F) (groups : Groups F) : Prop where
  missing : ∀ name, plan.groups.get? name = none → groups.values.get? name = none
  found : ∀ name spec, plan.groups.get? name = some spec → ∃ values, groups.values.get? name = some values ∧ IsGroup env inputs spec values
  collections : ∀ name, name ∈ groups.collections ↔ ∃ spec, plan.groups.get? name = some spec ∧ spec.mode.collects = true

def byLength (a b : Join) : Ordering := compare a.target.length b.target.length

/-- The output of a row. Its joins are done in the order of their paths' lengths and its dropped columns are gone. The path of a join that no other join goes on from or to holds the join's right side, or what the row has there, and every path apart from those joined holds what it holds in the row. -/
structure CombinedRow (groups : Groups F) (spec : TableSpec F) (row output : Row F) : Prop where
  joined : ∃ ordered all, Stable.Sorted byLength spec.joins ordered ∧ Joined groups row ordered row all ∧
    output = all.filter fun entry => decide (entry.1 ∉ spec.drop)
  value : ∀ join ∈ spec.joins, ∀ column rest, join.target = column :: rest → column ∉ spec.drop →
    (∀ other ∈ spec.joins, other ≠ join → Apart other.target join.target) →
    find output join.target = (rightSide groups row join).or (find row join.target)
  frame : ∀ column rest, column ∉ spec.drop → (∀ join ∈ spec.joins, Apart join.target (column :: rest)) →
    find output (column :: rest) = find row (column :: rest)
  gone : ∀ column ∈ spec.drop, lookupEntry column output = none

theorem orderJoins_eq_ok {joins ordered : List Join} (h : orderJoins joins = .ok ordered) : Stable.Sorted byLength joins ordered := by
  rw [orderJoins, Except.ite_error_eq_ok] at h
  rw [← Except.ok.inj h.2]
  exact Stable.sortBy_sorted (Stable.lawful_on inferInstance fun join : Join => join.target.length) joins

variable {groups : Groups F}

theorem combineRow_eq_ok {spec : TableSpec F} {joins : List Join} (hjoins : Stable.Sorted byLength spec.joins joins)
    {row output : Row F} (h : combineRow groups joins spec.drop row = .ok output) : CombinedRow groups spec row output := by
  obtain ⟨all, hall, h⟩ := Except.bind_eq_ok.1 h
  have hjoined := joined_of_run hall
  have hdropped := dropped_of_run h
  have hmem : ∀ join, join ∈ joins ↔ join ∈ spec.joins := fun join => hjoins.perm.mem_iff
  refine ⟨⟨joins, all, hjoins, hjoined, hdropped⟩, fun join hjoin column rest htarget hkept hapart => ?_,
    fun column rest hkept hapart => ?_, fun column hcolumn => ?_⟩
  · rw [htarget, hdropped, find_dropped hkept, ← htarget]
    exact hjoined.value ((hmem join).2 hjoin) fun other hother => hapart other ((hmem other).1 hother)
  · rw [hdropped, find_dropped hkept]
    exact hjoined.frame fun join hjoin => hapart join ((hmem join).1 hjoin)
  · rw [hdropped, lookupEntry_filter fun column => decide (column ∉ spec.drop), if_neg (by simp [hcolumn])]

theorem emitted_of_run {joins : List Join} {drop : List Text} {maximum : Nat} {selectedRows : List (Row F)} {count : Nat}
    {t : Emitted F} (h : selectedRows.foldlM (emit groups joins drop maximum) ⟨[], count⟩ = .ok t) :
    List.Forall₂ (fun row output => combineRow groups joins drop row = .ok output) selectedRows t.output := by
  refine Runs.run_invariant (fun front (s : Emitted F) => List.Forall₂ (fun row output => combineRow groups joins drop row = .ok output) front s.output)
    h .nil fun front row _ s s' _ hheld hstep => ?_
  obtain ⟨output, houtput, hstep⟩ := Except.bind_eq_ok.1 hstep
  rw [Except.ite_error_eq_ok] at hstep
  rw [← Except.ok.inj hstep.2]
  exact List.rel_append hheld (.cons houtput .nil)

variable {env : Env F} {inputs : Inputs F}

theorem addGroups_eq_ok {maximum : Nat} {s s' : Groups F} {entry : Text × GroupSpec F}
    (h : addGroups env inputs maximum s entry = .ok s') :
    ∃ values, s'.values = s.values.insert entry.1 values ∧ IsGroup env inputs entry.2 values := by
  obtain ⟨values, hvalues, h⟩ := Except.bind_eq_ok.1 h
  refine ⟨values, ?_, fun key => group_eq_ok hvalues key⟩
  rw [← Except.ok.inj h]

theorem collections_of_run {maximum : Nat} {entries : List (Text × GroupSpec F)}
    (h : entries.foldlM (addGroups env inputs maximum) ⟨.empty, []⟩ = .ok groups) :
    groups.collections = (entries.filter fun entry => entry.2.mode.collects).map Prod.fst := by
  refine Runs.run_invariant (fun front (s : Groups F) => s.collections = (front.filter fun entry => entry.2.mode.collects).map Prod.fst)
    h rfl fun front entry _ s s' _ hheld hstep => ?_
  obtain ⟨_, _, hstep⟩ := Except.bind_eq_ok.1 hstep
  rw [← Except.ok.inj hstep, List.filter_append, List.map_append, ← hheld, List.filter_cons]
  split_ifs
  · rfl
  · exact (List.append_nil _).symm

theorem areGroups_of_run {plan : Plan F}
    (h : plan.groups.entries.foldlM (addGroups env inputs plan.maxRows) ⟨.empty, []⟩ = .ok groups) : AreGroups env inputs plan groups := by
  have hfiled := (Runs.run_entries Groups.values (IsGroup env inputs) rfl (fun _ _ _ => addGroups_eq_ok) h).2
  refine ⟨fun name => (hfiled name).1, fun name => (hfiled name).2, fun name => ?_⟩
  rw [collections_of_run h, List.mem_map]
  refine ⟨fun ⟨entry, hentry, hname⟩ => ?_, fun ⟨spec, hspec, hcollects⟩ => ?_⟩
  · obtain ⟨hmem, hcollects⟩ := List.mem_filter.1 hentry
    refine ⟨entry.2, get?_eq_some_iff.2 ?_, hcollects⟩
    rw [← hname]
    exact hmem
  · exact ⟨(name, spec), List.mem_filter.2 ⟨get?_eq_some_iff.1 hspec, hcollects⟩, rfl⟩

theorem addTable_eq_ok {maximum : Nat} {s s' : Combined F} {entry : Text × TableSpec F}
    (h : addTable env inputs groups maximum s entry = .ok s') : ∃ output, s'.result = s.result.insert entry.1 output ∧
      List.Forall₂ (CombinedRow groups entry.2) (selected env inputs entry.2.toSelection) output := by
  obtain ⟨joins, hjoins, h⟩ := Except.bind_eq_ok.1 h
  obtain ⟨emitted, hemitted, h⟩ := Except.bind_eq_ok.1 h
  refine ⟨emitted.output, by rw [← Except.ok.inj h], ?_⟩
  exact (emitted_of_run (rows_eq_ok hemitted).1).imp fun _ _ hrow => combineRow_eq_ok (orderJoins_eq_ok hjoins) hrow

theorem combineTables_eq_ok {plan : Plan F} {result : IndexMap Text (List (Row F))}
    (h : combineTables env plan inputs = .ok result) : result.keys = plan.tables.keys ∧ ∃ groups, AreGroups env inputs plan groups ∧
      ∀ name spec, plan.tables.get? name = some spec → ∃ output, result.get? name = some output ∧
        List.Forall₂ (CombinedRow groups spec) (selected env inputs spec.toSelection) output := by
  rw [combineTables, Except.ite_error_eq_ok] at h
  obtain ⟨groups, hgroups, h⟩ := Except.bind_eq_ok.1 h.2
  obtain ⟨combined, hcombined, h⟩ := Except.bind_eq_ok.1 h
  rw [← Except.ok.inj h]
  obtain ⟨hkeys, hfiled⟩ := Runs.run_entries Combined.result
    (fun (spec : TableSpec F) output => List.Forall₂ (CombinedRow groups spec) (selected env inputs spec.toSelection) output) rfl
    (fun _ _ _ => addTable_eq_ok) hcombined
  exact ⟨hkeys, groups, areGroups_of_run hgroups, fun name => (hfiled name).2⟩

/-- Combining tables is an exact grouping and left join: integers of any length are compared as numbers, pairs are put in order and none changes places without need, a join changes its path and nothing else, and every table has one row for each row it selects, in their order, joined with groups that have each key's value and no other key. -/
theorem combineTables_exact (env : Env F) : (∀ m n : Int, integerCompare (intText m) (intText n) = compare m n) ∧
    (∀ (spec : GroupSpec F) pairs, (∀ pair ∈ pairs, pair.order.length = spec.orderBy.length) →
      Stable.Sorted (pairOrder env) pairs (sortPairs env spec pairs)) ∧
    (∀ replace (value : Value F) path before after, joinField replace value before path = .ok after → Placed path value before after) ∧
    ∀ plan inputs result, combineTables env plan inputs = .ok result → result.keys = plan.tables.keys ∧
      ∃ groups, AreGroups env inputs plan groups ∧ ∀ name spec, plan.tables.get? name = some spec → ∃ output, result.get? name = some output ∧
        List.Forall₂ (CombinedRow groups spec) (selected env inputs spec.toSelection) output :=
  ⟨integerCompare_intText, fun _ _ hlength => sortPairs_sorted env hlength, fun _ _ _ _ _ h => joinField_placed h,
    fun _ _ _ h => combineTables_eq_ok h⟩

def plainText : Value Int → Except String Text
  | .int value => .ok ((intText value).map Char.toNat)
  | .str value => .ok value
  | _ => .error "no text"

def sampleEnv : Env Int where
  compare := compare
  lawful := inferInstance
  canonical := plainText

def filing (cik : Int) : Row Int := [(.ofString "cik", .int cik)]

def form (cik : Int) (name : String) : Row Int := [(.ofString "cik", .int cik), (.ofString "form", .str (.ofString name))]

def sampleInputs : Inputs Int :=
  [(.ofString "s", [⟨[(.ofString "filers", [filing 2, filing 1]), (.ofString "forms", [form 1 "10-K", form 1 "8-K"])]⟩])]

def sampleGroup : GroupSpec Int where
  sources := [.ofString "s"]
  table := .ofString "forms"
  checks := []
  filters := []
  key := .ofString "cik"
  value := .ofString "form"
  mode := .collect
  orderBy := []
  distinct := false
  skipNullValues := false
  skipEmptyText := false
  sortValues := false

def sampleJoin : Join where
  field := .ofString "forms"
  path := some [.ofString "held", .ofString "forms"]
  group := .ofString "forms"
  key := .ofString "cik"
  onMissing := .empty
  replace := false

def sampleTable : TableSpec Int where
  sources := [.ofString "s"]
  table := .ofString "filers"
  checks := []
  filters := []
  joins := [sampleJoin]
  drop := []

def samplePlan : Plan Int where
  maxRows := 10
  groups := ⟨[(.ofString "forms", sampleGroup)], List.nodup_singleton _⟩
  tables := ⟨[(.ofString "out", sampleTable)], List.nodup_singleton _⟩

def joinedFiling (cik : Int) (names : List String) : Row Int :=
  [(.ofString "cik", .int cik), (.ofString "held", .dict [(.ofString "forms", .list (names.map fun name => .str (.ofString name)))])]

def sampleResult : IndexMap Text (List (Row Int)) :=
  ⟨[(.ofString "out", [joinedFiling 2 [], joinedFiling 1 ["10-K", "8-K"]])], List.nodup_singleton _⟩

theorem sample_combined : combineTables sampleEnv samplePlan sampleInputs = .ok sampleResult := by with_unfolding_all rfl

/-- A filer without forms keeps its row with no form, and one with two forms has both in its one row. -/
theorem filings_combined_exactly : integerCompare (intText (-10)) (intText (-9)) = .lt ∧
    Stable.Sorted (pairOrder sampleEnv) [⟨[], .int 2⟩, ⟨[], .int 1⟩] [⟨[], .int 2⟩, ⟨[], .int 1⟩] ∧
    Placed [.ofString "held", .ofString "cik"] (.int 1) [(.ofString "held", .null)] [(.ofString "held", .dict (filing 1))] ∧
    ∃ groups, AreGroups sampleEnv sampleInputs samplePlan groups ∧
      List.Forall₂ (CombinedRow groups sampleTable) [filing 2, filing 1] [joinedFiling 2 [], joinedFiling 1 ["10-K", "8-K"]] := by
  obtain ⟨hcompare, hsorted, hplaced, hcombined⟩ := combineTables_exact sampleEnv
  obtain ⟨_, groups, hgroups, hrows⟩ := hcombined samplePlan sampleInputs sampleResult sample_combined
  obtain ⟨output, houtput, hrow⟩ := hrows (.ofString "out") sampleTable rfl
  refine ⟨hcompare (-10) (-9), hsorted sampleGroup _ ?_, hplaced false _ _ _ _ rfl, groups, hgroups, ?_⟩
  · intro pair hpair
    obtain rfl | hpair := List.mem_cons.1 hpair
    · rfl
    · obtain rfl := List.mem_singleton.1 hpair
      rfl
  · have hfound : output = [joinedFiling 2 [], joinedFiling 1 ["10-K", "8-K"]] := (Option.some.inj houtput).symm
    rw [← hfound]
    exact hrow

end EdgarPlatform.Combinations
