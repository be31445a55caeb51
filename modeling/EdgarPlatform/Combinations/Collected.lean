import EdgarPlatform.Combinations.Groups

/-!
# The value of a group

The pairs of a key are put in order, their values flattened, cleared of empty texts and of repetitions, sorted where the group asks for it, and given as a list or as the one value the mode chooses.
-/

namespace EdgarPlatform.Combinations

open PythonJson IndexMap

variable {F : Type}

def pairOrder (env : Env F) (a b : Pair F) : Ordering := Stable.compareZip (Scalar.compare env.toNumbers) a.order b.order

def sortPairs (env : Env F) (spec : GroupSpec F) (pairs : List (Pair F)) : List (Pair F) :=
  if spec.orderBy = [] then pairs else Stable.sortBy (pairOrder env) pairs

def asList : Value F → Except String (List (Value F))
  | .list items => .ok items
  | _ => .error "object cannot be converted to 'PyList'"

def itemsOf (spec : GroupSpec F) (payload : Value F) : Except String (List (Value F)) :=
  if spec.mode = .collectFlat then asList payload else .ok [payload]

def isEmptyText : Value F → Bool
  | .str [] => true
  | _ => false

/-- The values collected so far and the canonical texts seen of them. -/
structure Collected (F : Type) where
  values : List (Value F)
  seen : List Text

def addItem (env : Env F) (spec : GroupSpec F) (s : Collected F) (value : Value F) : Except String (Collected F) :=
  if spec.skipEmptyText && isEmptyText value then .ok s
  else if spec.distinct then do
    let text ← env.canonical value
    if text ∈ s.seen then .ok s else .ok ⟨s.values ++ [value], s.seen ++ [text]⟩
  else .ok { s with values := s.values ++ [value] }

def addPair (env : Env F) (spec : GroupSpec F) (s : Collected F) (pair : Pair F) : Except String (Collected F) := do
  let items ← itemsOf spec pair.payload
  items.foldlM (addItem env spec) s

def sortMessage : String := "sort_values requires one exact scalar type and no nulls"

def scalarPair (value : Value F) : Except String (Scalar F × Value F) := do
  let scalar ← scalarOf sortMessage value
  return (scalar, value)

/-- The values in the order of their scalars, which are of one kind. -/
def sortedValues (env : Env F) (values : List (Value F)) : Except String (List (Value F)) := do
  let ordered ← values.mapM scalarPair
  if ordered.any (fun pair => some pair.1.kind ≠ ordered.head?.map fun first => first.1.kind) then .error sortMessage
  else .ok ((Stable.sortBy (fun a b => a.1.compare env.toNumbers b.1) ordered).map Prod.snd)

def choose (mode : Mode) (values : List (Value F)) : Except String (Value F) :=
  if mode = .one ∧ values.length ≠ 1 then .error "Group one requires exactly one value per key"
  else if mode.collects then .ok (.list values)
  else
    match values[if mode = .first then 0 else values.length - 1]? with
    | some value => .ok value
    | none => .error "Group requires a value"

def finish (env : Env F) (spec : GroupSpec F) (pairs : List (Pair F)) : Except String (Value F) := do
  let collected ← pairs.foldlM (addPair env spec) ⟨[], []⟩
  let values ← if spec.sortValues then sortedValues env collected.values else .ok collected.values
  choose spec.mode values

def addGroup (env : Env F) (spec : GroupSpec F) (result : IndexMap Key (Value F)) (entry : Key × List (Pair F)) :
    Except String (IndexMap Key (Value F)) := do
  let value ← finish env spec (sortPairs env spec entry.2)
  return result.insert entry.1 value

def group (env : Env F) (inputs : Inputs F) (maximum : Nat) (spec : GroupSpec F) : Except String (IndexMap Key (Value F)) := do
  let grouping ← rows env inputs spec.toSelection (addRow spec maximum) ⟨.empty, .empty, 0⟩
  grouping.grouped.entries.foldlM (addGroup env spec) .empty

def elements : Value F → List (Value F)
  | .list items => items
  | _ => []

/-- The values of a pair: of a list its elements where the group flattens lists. -/
def flat (spec : GroupSpec F) (pair : Pair F) : List (Value F) :=
  if spec.mode = .collectFlat then elements pair.payload else [pair.payload]

def identity (env : Env F) (value : Value F) : Option Text := (env.canonical value).toOption

/-- The values without the empty texts, where a group skips these. -/
def shown (spec : GroupSpec F) (values : List (Value F)) : List (Value F) :=
  if spec.skipEmptyText then values.filter fun value => !isEmptyText value else values

/-- The values that are kept: of every repeated value the first, where a group wants them distinct. -/
def kept (env : Env F) (spec : GroupSpec F) (values : List (Value F)) : List (Value F) :=
  if spec.distinct then (shown spec values).foldl (Firsts.keep (identity env)) [] else shown spec values

def valuesOf (env : Env F) (spec : GroupSpec F) (pairs : List (Pair F)) : List (Value F) := kept env spec (pairs.flatMap (flat spec))

def orderOf (value : Value F) : Scalar F :=
  match scalarOf sortMessage value with
  | .ok scalar => scalar
  | .error _ => .bool false

def valueOrder (env : Env F) (a b : Value F) : Ordering := (orderOf a).compare env.toNumbers (orderOf b)

/-- What a mode makes of the values: the only one, the first, the last, or the list of all. -/
def Chosen (mode : Mode) (values : List (Value F)) (value : Value F) : Prop :=
  match mode with
  | .one => values = [value]
  | .first => values.head? = some value
  | .last => values.getLast? = some value
  | .collect | .collectFlat => value = .list values

/-- The value of a key's pairs: chosen from the values kept of the pairs in their order. -/
def IsGroupValue (env : Env F) (spec : GroupSpec F) (pairs : List (Pair F)) (value : Value F) : Prop :=
  ∃ sorted ordered, Stable.Sorted (pairOrder env) pairs sorted ∧
    (if spec.sortValues then Stable.Sorted (valueOrder env) (valuesOf env spec sorted) ordered else ordered = valuesOf env spec sorted) ∧
    Chosen spec.mode ordered value

variable {spec : GroupSpec F}

theorem sortPairs_sorted (env : Env F) {pairs : List (Pair F)}
    (hlength : ∀ pair ∈ pairs, pair.order.length = spec.orderBy.length) : Stable.Sorted (pairOrder env) pairs (sortPairs env spec pairs) := by
  have hagree : ∀ a ∈ pairs, ∀ b ∈ pairs, pairOrder env a b = List.compareLex (Scalar.compare env.toNumbers) a.order b.order :=
    fun a ha b hb => Stable.compareZip_eq _ ((hlength a ha).trans (hlength b hb).symm)
  have hlawful := Scalar.compare_lawful env.toNumbers
  rw [sortPairs]
  split_ifs with hnone
  · apply Stable.sorted_self
    intro a ha b hb
    rw [hagree a ha b hb, List.length_eq_zero_iff.1 ((hlength a ha).trans (congrArg List.length hnone)),
      List.length_eq_zero_iff.1 ((hlength b hb).trans (congrArg List.length hnone))]
    rfl
  · have hlists : Std.TransCmp (List.compareLex (Scalar.compare env.toNumbers)) := inferInstance
    exact Stable.sortBy_sorted_of_keys hlists Pair.order hagree

/-- What is collected are the values kept so far, and of distinct ones the texts seen. -/
def Keeps (env : Env F) (spec : GroupSpec F) (front : List (Value F)) (s : Collected F) : Prop :=
  s.values = kept env spec front ∧ (spec.distinct = true → s.seen.map some = s.values.map (identity env))

variable {value : Value F}

theorem shown_append_empty (h : (spec.skipEmptyText && isEmptyText value) = true)
    (front : List (Value F)) : shown spec (front ++ [value]) = shown spec front := by
  obtain ⟨hskip, hempty⟩ := Bool.and_eq_true_iff.1 h
  rw [shown, shown, if_pos hskip, if_pos hskip, List.filter_append, List.filter_cons_of_neg (by simp [hempty]), List.filter_nil,
    List.append_nil]

theorem shown_append (h : ¬(spec.skipEmptyText && isEmptyText value) = true)
    (front : List (Value F)) : shown spec (front ++ [value]) = shown spec front ++ [value] := by
  rw [shown, shown]
  split_ifs with hskip
  · rw [hskip, Bool.true_and] at h
    rw [List.filter_append, List.filter_cons_of_pos (by simp [h]), List.filter_nil]
  · rfl

theorem Keeps.step {env : Env F} {spec : GroupSpec F} {front : List (Value F)} {s s' : Collected F} {value : Value F}
    (h : Keeps env spec front s) (hstep : addItem env spec s value = .ok s') : Keeps env spec (front ++ [value]) s' := by
  rw [addItem] at hstep
  by_cases hskip : (spec.skipEmptyText && isEmptyText value) = true
  · rw [if_pos hskip] at hstep
    rw [Keeps, kept, shown_append_empty hskip, ← Except.ok.inj hstep]
    exact h
  · rw [if_neg hskip] at hstep
    rw [Keeps, kept, shown_append hskip]
    have hvalues := h.1
    rw [kept] at hvalues
    split_ifs at hstep hvalues ⊢ with hdistinct
    · rw [List.foldl_append, List.foldl_cons, List.foldl_nil, ← hvalues]
      obtain ⟨text, htext, hstep⟩ := Except.bind_eq_ok.1 hstep
      have hkey : identity env value = some text := by rw [identity, htext]; rfl
      have hseen : (Firsts.held (identity env) s.values (identity env value)).isSome = true ↔ text ∈ s.seen := by
        rw [Option.isSome_iff_ne_none, Ne, Firsts.held_eq_none, not_not, ← h.2 hdistinct, hkey]
        simp
      rw [Firsts.keep]
      by_cases hmem : text ∈ s.seen
      · rw [if_pos hmem] at hstep
        rw [if_pos (hseen.2 hmem), ← Except.ok.inj hstep]
        exact ⟨rfl, fun _ => h.2 hdistinct⟩
      · rw [if_neg hmem] at hstep
        rw [if_neg (fun hheld => hmem (hseen.1 hheld)), ← Except.ok.inj hstep]
        refine ⟨rfl, fun _ => ?_⟩
        rw [List.map_append, List.map_append, h.2 hdistinct, List.map_singleton, List.map_singleton, hkey]
    · rw [← hvalues, ← Except.ok.inj hstep]
      exact ⟨rfl, fun hdist => absurd hdist hdistinct⟩

theorem asList_eq_ok {payload : Value F} {items : List (Value F)} (h : asList payload = .ok items) : items = elements payload := by
  cases payload with
  | list values => exact (Except.ok.inj h).symm
  | _ => cases h

variable {env : Env F}

theorem addPair_eq_ok {pair : Pair F} {s s' : Collected F} (h : addPair env spec s pair = .ok s') :
    (flat spec pair).foldlM (addItem env spec) s = .ok s' := by
  obtain ⟨items, hitems, h⟩ := Except.bind_eq_ok.1 h
  rw [itemsOf] at hitems
  rw [flat]
  split_ifs at hitems ⊢
  · rwa [asList_eq_ok hitems] at h
  · rwa [← Except.ok.inj hitems] at h

theorem collected_eq {pairs : List (Pair F)} {s : Collected F}
    (h : pairs.foldlM (addPair env spec) ⟨[], []⟩ = .ok s) : s.values = valuesOf env spec pairs := by
  have hrun := Runs.run_flatMap (fun _ _ _ => addPair_eq_ok) h
  have hstart : Keeps env spec [] ⟨[], []⟩ := by
    refine ⟨?_, fun _ => rfl⟩
    rw [kept, shown]
    split_ifs <;> rfl
  exact (Runs.run_invariant (Keeps env spec) hrun hstart fun _ _ _ _ _ _ hkeeps hstep => hkeeps.step hstep).1

theorem scalarPair_eq_ok {pair : Scalar F × Value F} (h : scalarPair value = .ok pair) :
    pair = (orderOf value, value) := by
  obtain ⟨scalar, hscalar, h⟩ := Except.bind_eq_ok.1 h
  rw [orderOf, hscalar]
  exact (Except.ok.inj h).symm

theorem sortedValues_sorted {values ordered : List (Value F)} (h : sortedValues env values = .ok ordered) :
    Stable.Sorted (valueOrder env) values ordered := by
  obtain ⟨pairs, hpairs, h⟩ := Except.bind_eq_ok.1 h
  rw [Except.ite_error_eq_ok] at h
  have heach := Runs.mapM_eq_ok.1 hpairs
  have hvalues : pairs.map Prod.snd = values := Runs.mapM_map_eq Prod.snd (fun _ _ hpair => congrArg Prod.snd (scalarPair_eq_ok hpair)) hpairs
  have hscalar : ∀ pair ∈ pairs, pair.1 = orderOf pair.2 := by
    intro pair hmem
    obtain ⟨value, _, hpair⟩ := Runs.forall₂_exists_left heach hmem
    rw [scalarPair_eq_ok hpair]
  have hsorted : (Stable.sortBy (fun a b => a.1.compare env.toNumbers b.1) pairs).map Prod.snd = Stable.sortBy (valueOrder env) (pairs.map Prod.snd) := by
    apply Stable.sortBy_map
    intro a ha b hb
    rw [hscalar a ha, hscalar b hb, valueOrder]
  rw [hsorted, hvalues] at h
  rw [← Except.ok.inj h.2]
  exact Stable.sortBy_sorted (Stable.lawful_on (Scalar.compare_lawful env.toNumbers) orderOf) values

theorem choose_eq_ok {mode : Mode} {values : List (Value F)} (h : choose mode values = .ok value) :
    Chosen mode values value := by
  rw [choose, Except.ite_error_eq_ok] at h
  obtain ⟨hone, h⟩ := h
  have hplace : ∀ i : Nat, (match values[i]? with
      | some value => Except.ok value
      | none => .error "Group requires a value") = Except.ok value → values[i]? = some value := by
    intro i hi
    cases hfound : values[i]? with
    | none =>
        rw [hfound] at hi
        cases hi
    | some found =>
        rw [hfound] at hi
        exact congrArg some (Except.ok.inj hi)
  cases mode with
  | one =>
      have hlength : values.length = 1 := by
        by_contra hne
        exact hone ⟨rfl, hne⟩
      obtain ⟨found, rfl⟩ := List.length_eq_one_iff.1 hlength
      exact congrArg (fun value => [value]) (Option.some.inj (hplace 0 h))
  | first =>
      show values.head? = some value
      rw [List.head?_eq_getElem?]
      exact hplace 0 h
  | last =>
      show values.getLast? = some value
      rw [List.getLast?_eq_getElem?]
      exact hplace _ h
  | collect => exact (Except.ok.inj h).symm
  | collectFlat => exact (Except.ok.inj h).symm

theorem finish_eq_ok {pairs : List (Pair F)}
    (hlength : ∀ pair ∈ pairs, pair.order.length = spec.orderBy.length) (h : finish env spec (sortPairs env spec pairs) = .ok value) :
    IsGroupValue env spec pairs value := by
  obtain ⟨collected, hcollected, h⟩ := Except.bind_eq_ok.1 h
  have hvalues := collected_eq hcollected
  by_cases hsort : spec.sortValues = true
  · rw [if_pos hsort] at h
    obtain ⟨ordered, hordered, h⟩ := Except.bind_eq_ok.1 h
    refine ⟨_, ordered, sortPairs_sorted env hlength, ?_, choose_eq_ok h⟩
    rw [if_pos hsort, ← hvalues]
    exact sortedValues_sorted hordered
  · rw [if_neg hsort] at h
    refine ⟨_, collected.values, sortPairs_sorted env hlength, ?_, choose_eq_ok h⟩
    rw [if_neg hsort]
    exact hvalues

theorem addGroup_eq_ok {r r' : IndexMap Key (Value F)} {entry : Key × List (Pair F)}
    (h : addGroup env spec r entry = .ok r') :
    ∃ value, r' = r.insert entry.1 value ∧ finish env spec (sortPairs env spec entry.2) = .ok value := by
  obtain ⟨value, hvalue, h⟩ := Except.bind_eq_ok.1 h
  exact ⟨value, (Except.ok.inj h).symm, hvalue⟩

theorem group_eq_ok {inputs : Inputs F} {maximum : Nat} {result : IndexMap Key (Value F)}
    (h : group env inputs maximum spec = .ok result) (key : Key) :
    (members spec (selected env inputs spec.toSelection) key = [] → result.get? key = none) ∧
      (members spec (selected env inputs spec.toSelection) key ≠ [] → ∃ value, result.get? key = some value ∧
        IsGroupValue env spec (members spec (selected env inputs spec.toSelection) key) value) := by
  obtain ⟨grouping, hgrouping, h⟩ := Except.bind_eq_ok.1 h
  obtain ⟨hmissing, hfound⟩ := (Runs.run_entries id (fun pairs value => finish env spec (sortPairs env spec pairs) = .ok value) rfl
    (fun _ _ _ => addGroup_eq_ok) h).2 key
  rw [grouped_of_run (rows_eq_ok hgrouping).1 key] at hmissing hfound
  refine ⟨fun hnone => hmissing (if_pos hnone), fun hsome => ?_⟩
  obtain ⟨value, hvalue, hfinish⟩ := hfound _ (if_neg hsome)
  exact ⟨value, hvalue, finish_eq_ok (fun _ => order_length) hfinish⟩

end EdgarPlatform.Combinations
