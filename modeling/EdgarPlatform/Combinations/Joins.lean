import EdgarPlatform.Combinations.Collected

/-!
# Rows joined with groups

Every join puts the value of one group at a path of the row, under the key the row has for it. The objects along the path are copied, never shared with the row the output was made of, so nothing but the path changes.
-/

namespace EdgarPlatform.Combinations

open PythonJson IndexMap

variable {F : Type}

def find : Row F → List Text → Option (Value F)
  | row, [] => some (.dict row)
  | row, [column] => lookupEntry column row
  | row, column :: next :: rest =>
      match lookupEntry column row with
      | some (.dict fields) => find fields (next :: rest)
      | _ => none

def Apart (path other : List Text) : Prop := ¬path <+: other ∧ ¬other <+: path

def overwriteMessage (column : Text) : String :=
  "Join would overwrite column " ++ columnName column ++ "; declare replace explicitly"

/-- The object a path goes on in: a copy of the one there, or a new one. -/
def child : Option (Value F) → Except String (Row F)
  | none => .ok []
  | some .null => .ok []
  | some (.dict fields) => .ok fields
  | some _ => .error "Nested join parent must be an object or null"

def joinField (replace : Bool) (value : Value F) : Row F → List Text → Except String (Row F)
  | _, [] => .error "Join path names 1..8 columns"
  | parent, [leaf] =>
      if (lookupEntry leaf parent).isSome && !replace then .error (overwriteMessage leaf)
      else .ok (setEntry leaf value parent)
  | parent, part :: next :: rest => do
      let fields ← child (lookupEntry part parent)
      let joined ← joinField replace value fields (next :: rest)
      return setEntry part (.dict joined) parent

/-- The row has the value at the path, and everything apart from the path is as it was. -/
def Placed (path : List Text) (value : Value F) (before after : Row F) : Prop :=
  find after path = some value ∧ ∀ other, Apart path other → find after other = find before other

theorem find_cons (row : Row F) (column : Text) (rest : List Text) : find row (column :: rest) =
    if rest = [] then lookupEntry column row
    else match lookupEntry column row with
      | some (.dict fields) => find fields rest
      | _ => none := by
  cases rest with
  | nil => rfl
  | cons next rest => rw [find, if_neg (List.cons_ne_nil _ _)]

theorem find_congr {row other : Row F} {column : Text} (h : lookupEntry column row = lookupEntry column other) (rest : List Text) :
    find row (column :: rest) = find other (column :: rest) := by
  rw [find_cons, find_cons, h]

theorem find_empty (column : Text) (rest : List Text) : find ([] : Row F) (column :: rest) = none := by
  rw [find_cons]
  split_ifs <;> rfl

theorem find_child {row fields : Row F} {part column : Text} {rest : List Text} (h : child (lookupEntry part row) = .ok fields) :
    find fields (column :: rest) = find row (part :: column :: rest) := by
  rw [find.eq_3]
  cases hfound : lookupEntry part row with
  | none =>
      rw [hfound] at h
      rw [← Except.ok.inj h]
      exact find_empty column rest
  | some value =>
      rw [hfound] at h
      cases value with
      | null =>
          rw [← Except.ok.inj h]
          exact find_empty column rest
      | dict found => rw [Except.ok.inj h]
      | _ => cases h

theorem Apart.ne_nil {path other : List Text} (h : Apart path other) : other ≠ [] := by
  rintro rfl
  exact h.2 List.nil_prefix

theorem Apart.of_cons {column : Text} {path other : List Text} (h : Apart (column :: path) (column :: other)) : Apart path other :=
  ⟨fun hpre => h.1 (List.cons_prefix_cons.2 ⟨rfl, hpre⟩), fun hpre => h.2 (List.cons_prefix_cons.2 ⟨rfl, hpre⟩)⟩

variable {before after : Row F}

theorem joinField_placed {replace : Bool} {value : Value F} {path : List Text}
    (h : joinField replace value before path = .ok after) : Placed path value before after := by
  induction path generalizing before after with
  | nil => cases h
  | cons part path ih =>
      cases path with
      | nil =>
          rw [joinField, Except.ite_error_eq_ok] at h
          rw [← Except.ok.inj h.2]
          refine ⟨?_, fun other hapart => ?_⟩
          · rw [find, lookupEntry_setEntry, if_pos rfl]
          · cases other with
            | nil => exact absurd rfl hapart.ne_nil
            | cons column rest =>
                apply find_congr
                rw [lookupEntry_setEntry, if_neg]
                rintro rfl
                exact hapart.1 (List.cons_prefix_cons.2 ⟨rfl, List.nil_prefix⟩)
      | cons next rest =>
          obtain ⟨fields, hfields, h⟩ := Except.bind_eq_ok.1 h
          obtain ⟨joined, hjoined, h⟩ := Except.bind_eq_ok.1 h
          obtain ⟨hvalue, hframe⟩ := ih hjoined
          have hpart : lookupEntry part (setEntry part (.dict joined) before) = some (.dict joined) := by
            rw [lookupEntry_setEntry, if_pos rfl]
          rw [← Except.ok.inj h]
          refine ⟨?_, fun other hapart => ?_⟩
          · rw [find, hpart]
            exact hvalue
          · cases other with
            | nil => exact absurd rfl hapart.ne_nil
            | cons column more =>
                by_cases hcolumn : column = part
                · subst hcolumn
                  have hmore := hapart.of_cons
                  cases more with
                  | nil => exact absurd rfl hmore.ne_nil
                  | cons column' more =>
                      rw [find, hpart]
                      show find joined _ = _
                      rw [hframe _ hmore, find_child hfields]
                · apply find_congr
                  rw [lookupEntry_setEntry, if_neg hcolumn]

inductive OnMissing where
  | empty
  | error
  | skip
  deriving DecidableEq

structure Join where
  field : Text
  path : Option (List Text)
  group : Text
  key : Text
  onMissing : OnMissing
  replace : Bool

def Join.target (join : Join) : List Text := join.path.getD [join.field]

/-- The groups by name, and whether each gives lists. -/
structure Groups (F : Type) where
  values : IndexMap Text (IndexMap Key (Value F))
  collections : List Text

def Groups.missing (groups : Groups F) (name : Text) : Value F := if name ∈ groups.collections then .list [] else .null

def valueAt (key : Option Key) (group : IndexMap Key (Value F)) : Option (Value F) := key.bind group.get?

def applyJoin (groups : Groups F) (row output : Row F) (join : Join) : Except String (Row F) := do
  if join.path = none ∧ join.onMissing ≠ .skip ∧ (lookupEntry join.field output).isSome ∧ join.replace = false then
    .error (overwriteMessage join.field)
  else
    let key ← keyOf (← item row join.key)
    match groups.values.get? join.group with
    | none => .error "Unknown combination group"
    | some group =>
        match valueAt key group with
        | some value => joinField join.replace value output join.target
        | none =>
            match join.onMissing with
            | .error => .error ("No combination group match for " ++ columnName join.field)
            | .skip => .ok output
            | .empty => joinField join.replace (groups.missing join.group) output join.target

def dropColumn (output : Row F) (column : Text) : Except String (Row F) :=
  if (lookupEntry column output).isSome then .ok (output.filter fun entry => entry.1 ≠ column)
  else .error ("Drop names missing output column " ++ columnName column)

structure TableSpec (F : Type) extends Selection F where
  joins : List Join
  drop : List Text

def orderJoins (joins : List Join) : Except String (List Join) :=
  if joins.any fun join => join.target = [] || 8 < join.target.length then .error "Join path names 1..8 columns"
  else .ok (Stable.sortBy (fun a b => compare a.target.length b.target.length) joins)

def combineRow (groups : Groups F) (joins : List Join) (drop : List Text) (row : Row F) : Except String (Row F) := do
  let output ← joins.foldlM (applyJoin groups row) row
  drop.foldlM dropColumn output

def rowKey (row : Row F) (column : Text) : Option Key :=
  match lookupEntry column row with
  | none => none
  | some value =>
      match keyOf value with
      | .ok key => key
      | .error _ => none

def matched (groups : Groups F) (row : Row F) (join : Join) : Option (Value F) :=
  (groups.values.get? join.group).bind (valueAt (rowKey row join.key))

/-- The right side of a join: the matched value, or where none is matched nothing, if the join leaves the row as it is, or what an empty match is given. -/
def rightSide (groups : Groups F) (row : Row F) (join : Join) : Option (Value F) :=
  match matched groups row join with
  | some value => some value
  | none => if join.onMissing = .empty then some (groups.missing join.group) else none

/-- The joins done one after another, each putting its right side at its path. -/
inductive Joined (groups : Groups F) (row : Row F) : List Join → Row F → Row F → Prop
  | done (output : Row F) : Joined groups row [] output output
  | placed {join : Join} {joins : List Join} {value : Value F} {before mid after : Row F} (hright : rightSide groups row join = some value)
      (hplaced : Placed join.target value before mid) (hrest : Joined groups row joins mid after) : Joined groups row (join :: joins) before after
  | skipped {join : Join} {joins : List Join} {before after : Row F} (hright : rightSide groups row join = none) (hskip : join.onMissing = .skip)
      (hrest : Joined groups row joins before after) : Joined groups row (join :: joins) before after

theorem applyJoin_eq_ok {groups : Groups F} {row before after : Row F} {join : Join} (h : applyJoin groups row before join = .ok after) :
    (∃ value, rightSide groups row join = some value ∧ Placed join.target value before after) ∨
      (rightSide groups row join = none ∧ join.onMissing = .skip ∧ after = before) := by
  rw [applyJoin, Except.ite_error_eq_ok] at h
  obtain ⟨found, hfound, h⟩ := Except.bind_eq_ok.1 h.2
  obtain ⟨key, hkey, h⟩ := Except.bind_eq_ok.1 h
  have hrow : rowKey row join.key = key := by
    rw [rowKey, item_eq_ok.1 hfound]
    simp only [hkey]
  cases hgroup : groups.values.get? join.group with
  | none =>
      rw [hgroup] at h
      cases h
  | some group =>
      rw [hgroup] at h
      have hmatched : matched groups row join = valueAt key group := by rw [matched, hgroup, hrow]; rfl
      rw [rightSide, hmatched]
      cases hvalue : valueAt key group with
      | some value =>
          simp only [hvalue] at h
          exact .inl ⟨value, rfl, joinField_placed h⟩
      | none =>
          simp only [hvalue] at h
          cases hmissing : join.onMissing with
          | error =>
              rw [hmissing] at h
              cases h
          | skip =>
              rw [hmissing] at h
              exact .inr ⟨rfl, rfl, (Except.ok.inj h).symm⟩
          | empty =>
              rw [hmissing] at h
              exact .inl ⟨_, rfl, joinField_placed h⟩

theorem joined_of_run {groups : Groups F} {row : Row F} {joins : List Join}
    (h : joins.foldlM (applyJoin groups row) before = .ok after) : Joined groups row joins before after := by
  induction joins generalizing before with
  | nil =>
      rw [Runs.foldlM_nil_eq_ok] at h
      rw [h]
      exact .done after
  | cons join rest ih =>
      obtain ⟨mid, hmid, hrest⟩ := Runs.foldlM_cons_eq_ok.1 h
      obtain ⟨value, hright, hplaced⟩ | ⟨hright, hskip, hsame⟩ := applyJoin_eq_ok hmid
      · exact .placed hright hplaced (ih hrest)
      · exact .skipped hright hskip (hsame ▸ ih hrest)

theorem Joined.frame {groups : Groups F} {row : Row F} {joins : List Join} (h : Joined groups row joins before after)
    {path : List Text} (hapart : ∀ join ∈ joins, Apart join.target path) : find after path = find before path := by
  induction h with
  | done => rfl
  | placed _ hplaced _ ih =>
      rw [ih fun join hmem => hapart join (List.mem_cons_of_mem _ hmem)]
      exact hplaced.2 path (hapart _ (List.mem_cons_self ..))
  | skipped _ _ _ ih => exact ih fun join hmem => hapart join (List.mem_cons_of_mem _ hmem)

/-- The path of a join that no other join goes on from or to holds the join's right side, or what it held where there is none. -/
theorem Joined.value {groups : Groups F} {row : Row F} {joins : List Join} {before after : Row F} (h : Joined groups row joins before after)
    {join : Join} (hmem : join ∈ joins) (hapart : ∀ other ∈ joins, other ≠ join → Apart other.target join.target) :
    find after join.target = (rightSide groups row join).or (find before join.target) := by
  induction h with
  | done => cases hmem
  | @placed head rest value before mid after hright hplaced hrest ih =>
      have htail : ∀ other ∈ rest, other ≠ join → Apart other.target join.target :=
        fun other hother => hapart other (List.mem_cons_of_mem _ hother)
      by_cases hhead : head = join
      · subst hhead
        rw [hright, Option.some_or]
        by_cases hagain : head ∈ rest
        · rw [ih hagain htail, hright, Option.some_or]
        · rw [hrest.frame fun other hother => htail other hother fun heq => hagain (heq ▸ hother)]
          exact hplaced.1
      · have hin : join ∈ rest := (List.mem_cons.1 hmem).resolve_left (Ne.symm hhead)
        rw [ih hin htail, hplaced.2 _ (hapart head (List.mem_cons_self ..) hhead)]
  | @skipped head rest before after hright hskip hrest ih =>
      have htail : ∀ other ∈ rest, other ≠ join → Apart other.target join.target :=
        fun other hother => hapart other (List.mem_cons_of_mem _ hother)
      by_cases hagain : join ∈ rest
      · exact ih hagain htail
      · obtain rfl := (List.mem_cons.1 hmem).resolve_right hagain
        rw [hright, Option.none_or]
        exact hrest.frame fun other hother => htail other hother fun heq => hagain (heq ▸ hother)

theorem lookupEntry_filter (keep : Text → Bool) (column : Text) (row : Row F) :
    lookupEntry column (row.filter fun entry => keep entry.1) = if keep column then lookupEntry column row else none := by
  induction row with
  | nil =>
      rw [List.filter_nil]
      split_ifs <;> rfl
  | cons entry rest ih =>
      rw [List.filter_cons, lookupEntry]
      by_cases hcolumn : entry.1 = column
      · rw [if_pos hcolumn]
        subst hcolumn
        by_cases hkeep : keep entry.1 = true
        · rw [if_pos hkeep, if_pos hkeep, lookupEntry, if_pos rfl]
        · rw [if_neg hkeep, if_neg hkeep, ih, if_neg hkeep]
      · rw [if_neg hcolumn, ← ih]
        split_ifs
        · rw [lookupEntry, if_neg hcolumn]
        · rfl

theorem dropped_of_run {drop : List Text} (h : drop.foldlM dropColumn before = .ok after) :
    after = before.filter fun entry => decide (entry.1 ∉ drop) := by
  induction drop generalizing before with
  | nil =>
      rw [Runs.foldlM_nil_eq_ok] at h
      rw [← h]
      exact (List.filter_eq_self.2 fun _ _ => rfl).symm
  | cons column rest ih =>
      obtain ⟨mid, hmid, hrest⟩ := Runs.foldlM_cons_eq_ok.1 h
      rw [dropColumn] at hmid
      split_ifs at hmid
      rw [ih hrest, ← Except.ok.inj hmid, List.filter_filter]
      apply List.filter_congr
      intro entry _
      simp [Bool.and_comm]

theorem find_dropped {drop : List Text} {column : Text} (h : column ∉ drop) (rest : List Text) (row : Row F) :
    find (row.filter fun entry => decide (entry.1 ∉ drop)) (column :: rest) = find row (column :: rest) := by
  apply find_congr
  rw [lookupEntry_filter fun column => decide (column ∉ drop), if_pos (decide_eq_true h)]

end EdgarPlatform.Combinations
