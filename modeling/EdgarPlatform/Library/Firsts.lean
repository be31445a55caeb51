import EdgarPlatform.Library.Keyed
import Mathlib.Data.List.Infix

/-!
# Rows whose first stays

A list of rows, each under a key, that takes a row where its key is free and leaves the list as it is where it is not. No key ever has two rows, and the first row of a key is its row for good: what is found under a key is found there in every later list.
-/

namespace Firsts

variable {ρ κ : Type} [DecidableEq κ] (key : ρ → κ)

def held (rows : List ρ) (k : κ) : Option ρ := rows.find? fun row => key row = k

def keep (rows : List ρ) (row : ρ) : List ρ := if (held key rows (key row)).isSome then rows else rows ++ [row]

variable {key} {rows later : List ρ} {k : κ} {row other : ρ}

theorem held_eq_none : held key rows k = none ↔ k ∉ rows.map key := by simp [held]

theorem held_mem (h : held key rows k = some row) : row ∈ rows ∧ key row = k :=
  ⟨List.mem_of_find?_eq_some h, by simpa using List.find?_some h⟩

theorem held_eq_some (hrows : (rows.map key).Nodup) : held key rows k = some row ↔ row ∈ rows ∧ key row = k := by
  refine ⟨held_mem, fun ⟨hrow, hkey⟩ => ?_⟩
  rw [← hkey]
  exact Keyed.find_of_mem hrows hrow

theorem keep_of_held (h : held key rows (key row) = some other) : keep key rows row = rows := by
  rw [keep, h, Option.isSome_some, if_pos rfl]

theorem keep_of_free (h : held key rows (key row) = none) : keep key rows row = rows ++ [row] := by
  rw [keep, h, Option.isSome_none, if_neg Bool.false_ne_true]

theorem held_keep_of_free (h : held key rows (key row) = none) : held key (keep key rows row) (key row) = some row := by
  rw [keep_of_free h, held, List.find?_append]
  rw [held] at h
  rw [h, Option.none_or, List.find?_cons, decide_eq_true rfl]

theorem held_keep (rows : List ρ) (row : ρ) :
    held key (keep key rows row) (key row) = some ((held key rows (key row)).getD row) := by
  cases h : held key rows (key row) with
  | none => exact held_keep_of_free h
  | some other =>
      rw [keep_of_held h, h]
      rfl

theorem nodup_append_of_free (hrows : (rows.map key).Nodup) (h : held key rows (key row) = none) :
    ((rows ++ [row]).map key).Nodup := by
  rw [List.map_append, List.nodup_append_comm]
  exact List.nodup_cons.2 ⟨held_eq_none.1 h, hrows⟩

end Firsts
