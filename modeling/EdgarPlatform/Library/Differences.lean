import EdgarPlatform.Library.SortedMap

/-!
# Differences between maps

A store is brought from holding one map to holding another by the difference of the two: what the second holds that the first does not, and the keys of the first that the second has not. What the store holds under other keys stays.
-/

namespace Differences

variable {κ α : Type} [LinearOrder κ]

/-- One change of a store: a value written under a key, or the key removed. -/
abbrev Change (κ α : Type) := κ × Option α

def applyChange (store : SortedMap κ α) (change : Change κ α) : SortedMap κ α :=
  match change.2 with
  | some value => store.insert change.1 value
  | none => store.erase change.1

def applyChanges (store : SortedMap κ α) (changes : List (Change κ α)) : SortedMap κ α := changes.foldl applyChange store

theorem get?_applyChange (store : SortedMap κ α) (change : Change κ α) (key : κ) :
    (applyChange store change).get? key = if key = change.1 then change.2 else store.get? key := by
  obtain ⟨changed, value⟩ := change
  cases value with
  | none => exact store.get?_erase changed key
  | some value => exact store.get?_insert changed key value

variable {changes : List (Change κ α)}

theorem get?_applyChanges_of_not_mem {key : κ} (h : key ∉ changes.map Prod.fst)
    (store : SortedMap κ α) : (applyChanges store changes).get? key = store.get? key := by
  induction changes generalizing store with
  | nil => rfl
  | cons change rest ih =>
      simp only [List.map_cons, List.mem_cons, not_or] at h
      rw [applyChanges, List.foldl_cons, ← applyChanges, ih h.2, get?_applyChange, if_neg h.1]

theorem get?_applyChanges_of_mem (hnodup : (changes.map Prod.fst).Nodup)
    {change : Change κ α} (h : change ∈ changes) (store : SortedMap κ α) :
    (applyChanges store changes).get? change.1 = change.2 := by
  induction changes generalizing store with
  | nil => cases h
  | cons first rest ih =>
      rw [List.map_cons, List.nodup_cons] at hnodup
      rw [applyChanges, List.foldl_cons, ← applyChanges]
      rcases List.mem_cons.1 h with rfl | h
      · rw [get?_applyChanges_of_not_mem hnodup.1, get?_applyChange, if_pos rfl]
      · exact ih hnodup.2 h _

variable [DecidableEq α]

def written (before after : SortedMap κ α) : List (Change κ α) :=
  (after.entries.filter fun entry => before.get? entry.1 ≠ some entry.2).map fun entry => (entry.1, some entry.2)

def removed (before after : SortedMap κ α) : List (Change κ α) :=
  (before.entries.filter fun entry => !after.contains entry.1).map fun entry => (entry.1, none)

def differences (before after : SortedMap κ α) : List (Change κ α) := written before after ++ removed before after

theorem mem_written {before after : SortedMap κ α} {key : κ} {value : Option α} :
    (key, value) ∈ written before after ↔ ∃ held, value = some held ∧ after.get? key = some held ∧ before.get? key ≠ some held := by
  simp only [written, List.mem_map, List.mem_filter, decide_eq_true_eq, Prod.mk.injEq, Prod.exists]
  constructor
  · rintro ⟨_, held, ⟨hmem, hne⟩, rfl, rfl⟩
    exact ⟨held, rfl, SortedMap.get?_eq_some_iff.2 hmem, hne⟩
  · rintro ⟨held, rfl, hget, hne⟩
    exact ⟨key, held, ⟨SortedMap.get?_eq_some_iff.1 hget, hne⟩, rfl, rfl⟩

omit [DecidableEq α] in
theorem mem_removed {before after : SortedMap κ α} {key : κ} {value : Option α} :
    (key, value) ∈ removed before after ↔ value = none ∧ key ∈ before.keys ∧ key ∉ after.keys := by
  simp only [removed, List.mem_map, List.mem_filter, Bool.not_eq_true', ← Bool.not_eq_true, SortedMap.contains_iff,
    Prod.mk.injEq, Prod.exists]
  constructor
  · rintro ⟨_, held, ⟨hmem, hnot⟩, rfl, rfl⟩
    exact ⟨rfl, SortedMap.mem_keys_of_get? (SortedMap.get?_eq_some_iff.2 hmem), hnot⟩
  · rintro ⟨rfl, hkey, hnot⟩
    obtain ⟨held, hget⟩ := SortedMap.mem_keys_iff.1 hkey
    exact ⟨key, held, ⟨SortedMap.get?_eq_some_iff.1 hget, hnot⟩, rfl, rfl⟩

theorem differences_nodup (before after : SortedMap κ α) : ((differences before after).map Prod.fst).Nodup := by
  rw [differences, List.map_append, List.nodup_append]
  refine ⟨?_, ?_, ?_⟩
  · rw [written, List.map_map]
    exact after.keys_nodup.sublist (List.filter_sublist.map Prod.fst)
  · rw [removed, List.map_map]
    exact before.keys_nodup.sublist (List.filter_sublist.map Prod.fst)
  · rintro key hwritten _ hremoved rfl
    obtain ⟨⟨_, value⟩, hmem, rfl⟩ := List.mem_map.1 hwritten
    obtain ⟨⟨other, value'⟩, hmem', hkey⟩ := List.mem_map.1 hremoved
    simp only at hkey
    subst hkey
    obtain ⟨held, _, hget, _⟩ := mem_written.1 hmem
    exact (mem_removed.1 hmem').2.2 (SortedMap.mem_keys_of_get? hget)

/-- A store that holds a map is left holding the map it was changed to, and under other keys what it held. -/
theorem get?_applyChanges {store before after : SortedMap κ α}
    (hnodup : (changes.map Prod.fst).Nodup) (hstore : ∀ key value, before.get? key = some value → store.get? key = some value)
    {key : κ} (hchanges : ∀ value, (key, value) ∈ changes ↔ (key, value) ∈ differences before after) :
    (applyChanges store changes).get? key = (after.get? key).or (if before.contains key then none else store.get? key) := by
  have hmem : ∀ value, (key, value) ∈ changes → (applyChanges store changes).get? key = value :=
    fun value h => get?_applyChanges_of_mem hnodup h store
  have hnot : (∀ value, (key, value) ∉ changes) → (applyChanges store changes).get? key = store.get? key := by
    refine fun h => get?_applyChanges_of_not_mem (fun hkey => ?_) store
    obtain ⟨⟨_, value⟩, hvalue, rfl⟩ := List.mem_map.1 hkey
    exact h value hvalue
  simp only [hchanges, differences, List.mem_append, mem_written, mem_removed] at hmem hnot
  cases hafter : after.get? key with
  | some held =>
      rw [Option.some_or]
      by_cases hbefore : before.get? key = some held
      · rw [hnot ?_, hstore key held hbefore]
        rintro value (⟨other, _, hget, hne⟩ | ⟨_, _, hgone⟩)
        · cases hafter.symm.trans hget
          exact hne hbefore
        · exact hgone (SortedMap.mem_keys_of_get? hafter)
      · exact hmem _ (.inl ⟨held, rfl, hafter, hbefore⟩)
  | none =>
      have hgone : key ∉ after.keys := SortedMap.get?_eq_none_iff.1 hafter
      rw [Option.none_or]
      split_ifs with hkey
      · exact hmem _ (.inr ⟨rfl, SortedMap.contains_iff.1 hkey, hgone⟩)
      · refine hnot ?_
        rintro value (⟨other, _, hget, _⟩ | ⟨_, hheld, _⟩)
        · rw [hafter] at hget
          cases hget
        · exact hkey (SortedMap.contains_iff.2 hheld)

end Differences
