import EdgarPlatform.Library.IndexMap
import EdgarPlatform.Library.Forest

/-!
# Parent maps held in a finite map

A root is a key whose parent is itself or that has none. Putting one key under another in the map is linking it in the forest the map is.
-/

namespace ParentMap

variable {κ : Type} [DecidableEq κ] {parent : IndexMap κ κ}

/-- The next key on the way to the root: the parent, unless the key is its own. -/
def above (parent : IndexMap κ κ) (key : κ) : Option κ := (parent.get? key).filter (· ≠ key)

theorem above_eq_some {x y : κ} : above parent x = some y ↔ parent.get? x = some y ∧ y ≠ x := by
  simp [above, Option.filter_eq_some_iff]

theorem above_eq_none {x : κ} (hx : x ∈ parent.keys) : above parent x = none ↔ parent.get? x = some x := by
  obtain ⟨y, hy⟩ := IndexMap.mem_keys_iff.1 hx
  simp [above, hy, Option.filter_eq_none_iff]

theorem mem_keys_of_above {x : κ} (h : above parent x ≠ none) : x ∈ parent.keys := by
  obtain ⟨y, hy⟩ := Option.ne_none_iff_exists'.1 h
  exact IndexMap.mem_keys_of_get? (above_eq_some.1 hy).1

theorem above_insert {child survivor : κ} (hne : child ≠ survivor) :
    above (parent.insert child survivor) = Forest.link (above parent) child survivor := by
  funext x
  by_cases hx : x = child
  · subst hx
    rw [Forest.link_self, above_eq_some]
    exact ⟨IndexMap.get?_insert_self _ _ _, hne.symm⟩
  · rw [Forest.link_of_ne _ hx, above, above, IndexMap.get?_insert_of_ne _ _ hx]

end ParentMap
