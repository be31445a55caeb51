import Mathlib.Data.List.Nodup
import Mathlib.Data.List.Count

/-!
# Tables under a unique key

A table is a list of rows no two of which have the same key. Three statements change a table by the rows of another one: the rows that are missing are inserted, the rows that match are updated where they meet a condition, and the rows that match nothing are deleted. What each statement leaves is told by what it leaves under every key.
-/

namespace Keyed

variable {ρ σ κ : Type} {key : ρ → κ} {key' : σ → κ}

/-- A table: its rows, no two under one key. -/
structure Table (key : ρ → κ) where
  rows : List ρ
  unique : (rows.map key).Nodup

def Table.empty : Table key := ⟨[], List.nodup_nil⟩

theorem Table.ext_rows {t u : Table key} (h : t.rows = u.rows) : t = u := by
  cases t
  cases u
  cases h
  rfl

variable (on : ρ → σ → Bool) (hon : ∀ row other, on row other = true ↔ key row = key' other)

def Table.insertMissing (t : Table key) (u : Table key') (make : σ → ρ) (hmake : ∀ other, key (make other) = key' other) : Table key where
  rows := t.rows ++ (u.rows.filter fun other => !t.rows.any fun row => on row other).map make
  unique := by
    have hkeys : ∀ others : List σ, (others.map make).map key = others.map key' := fun others => by
      rw [List.map_map]
      exact List.map_congr_left fun other _ => hmake other
    rw [List.map_append, hkeys]
    refine List.Nodup.append t.unique ((List.filter_sublist.map key').nodup u.unique) fun k hold hnew => ?_
    obtain ⟨other, hother, rfl⟩ := List.mem_map.1 hnew
    obtain ⟨row, hrow, heq⟩ := List.mem_map.1 hold
    have hany : (t.rows.any fun row => on row other) = true := List.any_eq_true.2 ⟨row, hrow, (hon row other).2 heq⟩
    have hmissing := (List.mem_filter.1 hother).2
    rw [hany] at hmissing
    cases hmissing

def Table.missing (t : Table key) (u : Table key') : Nat := u.rows.countP fun other => !t.rows.any fun row => on row other

/-- The rows that match one of another table and meet a condition with it are updated by it. -/
def Table.updateFrom (t : Table key) (u : Table key') (cond : ρ → σ → Bool) (set : ρ → σ → ρ)
    (hset : ∀ row other, key row = key' other → key (set row other) = key row) : Table key where
  rows := t.rows.map fun row => (u.rows.find? fun other => on row other && cond row other).elim row (set row)
  unique := by
    rw [List.map_map]
    have hkeys : ∀ row ∈ t.rows, (key ∘ fun row => (u.rows.find? fun other => on row other && cond row other).elim row (set row)) row =
        key row := fun row _ => by
      rw [Function.comp_apply]
      cases hfind : u.rows.find? fun other => on row other && cond row other with
      | none => simp only [Option.elim]
      | some other =>
          simp only [Option.elim]
          have hmatch := List.find?_some hfind
          rw [Bool.and_eq_true] at hmatch
          exact hset row other ((hon row other).1 hmatch.1)
    rw [List.map_congr_left hkeys]
    exact t.unique

/-- How many rows match one of another table and meet a condition with it. -/
def Table.matching (t : Table key) (u : Table key') (cond : ρ → σ → Bool) : Nat :=
  t.rows.countP fun row => u.rows.any fun other => on row other && cond row other

def Table.deleteUnmatched (t : Table key) (u : Table key') : Table key where
  rows := t.rows.filter fun row => u.rows.any (on row)
  unique := (List.filter_sublist.map key).nodup t.unique

def Table.unmatched (t : Table key) (u : Table key') : Nat := t.rows.countP fun row => !u.rows.any (on row)

variable {on} {hon}

variable {t : Table key} {u : Table key'}

theorem Table.insertMissing_none {make : σ → ρ} (hmake : ∀ other, key (make other) = key' other)
    (h : t.missing on u = 0) : t.insertMissing on hon u make hmake = t := by
  apply Table.ext_rows
  have hnone : (u.rows.filter fun other => !t.rows.any fun row => on row other) = [] :=
    List.eq_nil_of_length_eq_zero (List.countP_eq_length_filter.symm.trans h)
  show t.rows ++ List.map make _ = t.rows
  rw [hnone, List.map_nil, List.append_nil]

variable {cond : ρ → σ → Bool} {set : ρ → σ → ρ}

theorem Table.updateFrom_none
    (hset : ∀ row other, key row = key' other → key (set row other) = key row) (h : t.matching on u cond = 0) :
    t.updateFrom on hon u cond set hset = t := by
  apply Table.ext_rows
  show t.rows.map _ = t.rows
  refine (List.map_congr_left fun row hrow => ?_).trans (List.map_id _)
  have hnone := List.countP_eq_zero.1 h row hrow
  have hfind : (u.rows.find? fun other => on row other && cond row other) = none := by
    rw [List.find?_eq_none]
    exact fun other hother hmatch => hnone (List.any_eq_true.2 ⟨other, hother, hmatch⟩)
  rw [hfind]
  rfl

theorem Table.deleteUnmatched_none (h : t.unmatched on u = 0) : t.deleteUnmatched on u = t := by
  apply Table.ext_rows
  show t.rows.filter _ = t.rows
  rw [List.filter_eq_self]
  intro row hrow
  have hmatched := List.countP_eq_zero.1 h row hrow
  rwa [Bool.not_eq_true', Bool.not_eq_false] at hmatched

theorem any_on {rows : List σ} {row : ρ} (hon : ∀ row other, on row other = true ↔ key row = key' other) :
    rows.any (on row) = true ↔ key row ∈ rows.map key' := by
  simp only [List.any_eq_true, hon, List.mem_map]
  exact exists_congr fun other => and_congr_right fun _ => eq_comm

theorem any_on' {rows : List ρ} {other : σ} (hon : ∀ row other, on row other = true ↔ key row = key' other) :
    (rows.any fun row => on row other) = true ↔ key' other ∈ rows.map key := by
  simp only [List.any_eq_true, hon, List.mem_map]

variable [DecidableEq κ]

def Table.find (t : Table key) (k : κ) : Option ρ := t.rows.find? fun row => key row = k

theorem find_of_mem {rows : List ρ} (hunique : (rows.map key).Nodup) {row : ρ} (h : row ∈ rows) :
    rows.find? (fun other => key other = key row) = some row := by
  induction rows with
  | nil => exact (List.not_mem_nil h).elim
  | cons first rest ih =>
      rw [List.map_cons, List.nodup_cons] at hunique
      rw [List.find?_cons]
      obtain rfl | hrest := List.mem_cons.1 h
      · simp
      · have hne : key first ≠ key row := fun heq => hunique.1 (heq ▸ List.mem_map_of_mem hrest)
        rw [decide_eq_false hne]
        exact ih hunique.2 hrest

theorem Table.find_eq_some {k : κ} {row : ρ} : t.find k = some row ↔ row ∈ t.rows ∧ key row = k := by
  constructor
  · intro h
    exact ⟨List.mem_of_find?_eq_some h, by simpa using List.find?_some h⟩
  · rintro ⟨hrow, rfl⟩
    exact find_of_mem t.unique hrow

theorem Table.find_eq_none {k : κ} : t.find k = none ↔ k ∉ t.rows.map key := by
  simp [Table.find]

theorem Table.mem_keys {k : κ} : k ∈ t.rows.map key ↔ ∃ row, t.find k = some row := by
  rw [← Option.ne_none_iff_exists', ne_eq, Table.find_eq_none, not_not]

/-- A row is matched by the row of the other table under its key. -/
theorem find_on {row : ρ} (hon : ∀ row other, on row other = true ↔ key row = key' other) (cond : ρ → σ → Bool) :
    (u.rows.find? fun other => on row other && cond row other) = (u.find (key row)).filter (cond row) := by
  cases hfind : u.find (key row) with
  | none =>
      rw [Option.filter_none, List.find?_eq_none]
      intro other hother hmatch
      rw [Bool.and_eq_true, hon] at hmatch
      exact Table.find_eq_none.1 hfind (hmatch.1 ▸ List.mem_map_of_mem hother)
  | some other =>
      obtain ⟨hmem, hkey⟩ := Table.find_eq_some.1 hfind
      by_cases hcond : cond row other = true
      · rw [Option.filter_some, if_pos hcond]
        have hmatch : (on row other && cond row other) = true := by rw [(hon row other).2 hkey.symm, hcond]; rfl
        cases hfirst : u.rows.find? fun other => on row other && cond row other with
        | none => exact absurd hmatch (List.find?_eq_none.1 hfirst other hmem)
        | some first =>
            have hboth := List.find?_some hfirst
            rw [Bool.and_eq_true, hon] at hboth
            have hsame := Table.find_eq_some.2 ⟨List.mem_of_find?_eq_some hfirst, hboth.1.symm⟩
            exact hsame.symm.trans hfind
      · rw [Option.filter_some, if_neg hcond, List.find?_eq_none]
        intro found hfound hmatch
        rw [Bool.and_eq_true, hon] at hmatch
        have hsame := hfind.symm.trans (Table.find_eq_some.2 ⟨hfound, hmatch.1.symm⟩)
        cases hsame
        exact hcond hmatch.2

/-- What an insertion of the missing rows leaves under a key. -/
theorem Table.find_insertMissing {make : σ → ρ} (hmake : ∀ other, key (make other) = key' other) (k : κ) :
    (t.insertMissing on hon u make hmake).find k = (t.find k).or ((u.find k).map make) := by
  cases hold : t.find k with
  | some row =>
      rw [Option.some_or, Table.find_eq_some]
      obtain ⟨hrow, hkey⟩ := Table.find_eq_some.1 hold
      exact ⟨List.mem_append_left _ hrow, hkey⟩
  | none =>
      have hfree := Table.find_eq_none.1 hold
      rw [Option.none_or]
      cases hnew : u.find k with
      | none =>
          rw [Option.map_none, Table.find_eq_none]
          intro hmem
          obtain ⟨row, hrow, heq⟩ := List.mem_map.1 hmem
          obtain hrow | hrow := List.mem_append.1 hrow
          · exact hfree (heq ▸ List.mem_map_of_mem hrow)
          · obtain ⟨other, hother, rfl⟩ := List.mem_map.1 hrow
            rw [hmake] at heq
            exact Table.find_eq_none.1 hnew (heq ▸ List.mem_map_of_mem (List.mem_of_mem_filter hother))
      | some other =>
          obtain ⟨hother, rfl⟩ := Table.find_eq_some.1 hnew
          rw [Option.map_some, Table.find_eq_some]
          refine ⟨List.mem_append_right _ (List.mem_map_of_mem (List.mem_filter.2 ⟨hother, ?_⟩)), hmake other⟩
          rw [Bool.not_eq_true', Bool.eq_false_iff]
          exact fun hany => hfree ((any_on' hon).1 hany)

/-- What an update leaves under a key. -/
theorem Table.find_updateFrom
    (hset : ∀ row other, key row = key' other → key (set row other) = key row) (k : κ) :
    (t.updateFrom on hon u cond set hset).find k = (t.find k).map fun row => ((u.find k).filter (cond row)).elim row (set row) := by
  have hkeys : ∀ row, key ((u.rows.find? fun other => on row other && cond row other).elim row (set row)) = key row := fun row => by
    cases hfind : u.rows.find? fun other => on row other && cond row other with
    | none => rfl
    | some other =>
        have hmatch := List.find?_some hfind
        rw [Bool.and_eq_true] at hmatch
        exact hset row other ((hon row other).1 hmatch.1)
  cases hold : t.find k with
  | none =>
      rw [Option.map_none, Table.find_eq_none]
      intro hmem
      obtain ⟨row, hrow, rfl⟩ := List.mem_map.1 hmem
      obtain ⟨old, hmemOld, rfl⟩ := List.mem_map.1 hrow
      rw [hkeys] at hold
      exact Table.find_eq_none.1 hold (List.mem_map_of_mem hmemOld)
  | some row =>
      obtain ⟨hrow, rfl⟩ := Table.find_eq_some.1 hold
      rw [Option.map_some, ← find_on hon, Table.find_eq_some]
      exact ⟨List.mem_map_of_mem hrow, hkeys row⟩

theorem Table.find_deleteUnmatched (hon : ∀ row other, on row other = true ↔ key row = key' other) (k : κ) :
    (t.deleteUnmatched on u).find k = if (u.find k).isSome then t.find k else none := by
  have hany : ∀ row, u.rows.any (on row) = true ↔ (u.find (key row)).isSome = true := fun row => by
    rw [any_on hon, Table.mem_keys, Option.isSome_iff_exists]
  split_ifs with hsome
  · cases hold : t.find k with
    | none =>
        rw [Table.find_eq_none] at hold ⊢
        exact fun hmem => hold ((List.filter_sublist.map key).subset hmem)
    | some row =>
        obtain ⟨hrow, rfl⟩ := Table.find_eq_some.1 hold
        exact Table.find_eq_some.2 ⟨List.mem_filter.2 ⟨hrow, (hany row).2 hsome⟩, rfl⟩
  · rw [Table.find_eq_none]
    intro hmem
    obtain ⟨row, hrow, rfl⟩ := List.mem_map.1 hmem
    exact hsome ((hany row).1 (List.mem_filter.1 hrow).2)

theorem Table.keys_insertMissing (hon : ∀ row other, on row other = true ↔ key row = key' other)
    {make : σ → ρ} (hmake : ∀ other, key (make other) = key' other) :
    (t.insertMissing on hon u make hmake).rows.map key =
      t.rows.map key ++ (u.rows.map key').filter fun k => (t.find k).isNone := by
  show (t.rows ++ List.map make _).map key = _
  rw [List.map_append, List.map_map, List.filter_map, List.map_congr_left (f := key ∘ make) (g := key') fun other _ => hmake other]
  congr 2
  apply List.filter_congr
  intro other _
  rw [Bool.eq_iff_iff, Bool.not_eq_true', Bool.eq_false_iff, ne_eq, any_on' hon, Function.comp_apply, Option.isNone_iff_eq_none,
    Table.find_eq_none]

omit [DecidableEq κ] in
theorem Table.keys_updateFrom (hon : ∀ row other, on row other = true ↔ key row = key' other)
    (hset : ∀ row other, key row = key' other → key (set row other) = key row) :
    (t.updateFrom on hon u cond set hset).rows.map key = t.rows.map key := by
  show (t.rows.map _).map key = _
  rw [List.map_map]
  refine List.map_congr_left fun row _ => ?_
  rw [Function.comp_apply]
  cases hfind : u.rows.find? fun other => on row other && cond row other with
  | none => rfl
  | some other =>
      have hmatch := List.find?_some hfind
      rw [Bool.and_eq_true] at hmatch
      exact hset row other ((hon row other).1 hmatch.1)

theorem Table.keys_deleteUnmatched (hon : ∀ row other, on row other = true ↔ key row = key' other) :
    (t.deleteUnmatched on u).rows.map key = (t.rows.map key).filter fun k => (u.find k).isSome := by
  show (t.rows.filter _).map key = _
  rw [List.filter_map]
  congr 1
  apply List.filter_congr
  intro row _
  rw [Bool.eq_iff_iff, any_on hon, Function.comp_apply, Table.mem_keys, Option.isSome_iff_exists]

theorem Table.missing_eq (hon : ∀ row other, on row other = true ↔ key row = key' other) :
    t.missing on u = (u.rows.map key').countP fun k => (t.find k).isNone := by
  rw [Table.missing, List.countP_map]
  apply List.countP_congr
  intro other _
  rw [Bool.not_eq_true', Bool.eq_false_iff, ne_eq, any_on' hon, Function.comp_apply, Option.isNone_iff_eq_none, Table.find_eq_none]

theorem Table.unmatched_eq (hon : ∀ row other, on row other = true ↔ key row = key' other) :
    t.unmatched on u = (t.rows.map key).countP fun k => (u.find k).isNone := by
  rw [Table.unmatched, List.countP_map]
  apply List.countP_congr
  intro row _
  rw [Bool.not_eq_true', Bool.eq_false_iff, ne_eq, any_on hon, Function.comp_apply, Option.isNone_iff_eq_none, Table.find_eq_none]

theorem Table.matching_eq (hon : ∀ row other, on row other = true ↔ key row = key' other)
    (cond : ρ → σ → Bool) : t.matching on u cond = t.rows.countP fun row => (u.find (key row)).any (cond row) := by
  rw [Table.matching]
  apply List.countP_congr
  intro row _
  rw [List.any_eq_true, ← List.find?_isSome, find_on hon]
  cases u.find (key row) with
  | none => rfl
  | some other => by_cases hcond : cond row other = true <;> simp [hcond]

end Keyed
