import Mathlib.Data.List.Sort

/-!
# Stable sorting

A sort by a comparison puts a list in order and leaves in their order the elements that the comparison does not tell apart. What a sort has to be is said without naming one; the merge sort is one wherever the comparison orders the elements of the list.
-/

namespace Stable

variable {α β : Type} {cmp cmp' : α → α → Ordering} {items sorted : List α}

/-- The list is in the order of a comparison, and no two elements changed places without need. -/
structure Sorted (cmp : α → α → Ordering) (items sorted : List α) : Prop where
  perm : sorted.Perm items
  ordered : sorted.Pairwise fun a b => (cmp a b).isLE = true
  stable : ∀ a b, (cmp a b).isLE = true → [a, b].Sublist items → [a, b].Sublist sorted

theorem Sorted.congr (h : Sorted cmp items sorted) (hagree : ∀ a ∈ items, ∀ b ∈ items, cmp' a b = cmp a b) :
    Sorted cmp' items sorted where
  perm := h.perm
  ordered := h.ordered.imp_of_mem fun ha hb hle => by rwa [hagree _ (h.perm.mem_iff.1 ha) _ (h.perm.mem_iff.1 hb)]
  stable := fun a b hle hsub => by
    have hmem := hsub.subset
    rw [hagree a (hmem (List.mem_cons_self ..)) b (hmem (List.mem_cons_of_mem _ (List.mem_singleton.2 rfl)))] at hle
    exact h.stable a b hle hsub

theorem sorted_self (h : ∀ a ∈ items, ∀ b ∈ items, (cmp a b).isLE = true) : Sorted cmp items items where
  perm := .refl _
  ordered := List.pairwise_of_forall_mem_list h
  stable := fun _ _ _ hsub => hsub

def sortBy (cmp : α → α → Ordering) (items : List α) : List α := items.mergeSort fun a b => (cmp a b).isLE

theorem sortBy_sorted (h : Std.TransCmp cmp) (items : List α) : Sorted cmp items (sortBy cmp items) := by
  have htotal : ∀ a b, ((cmp a b).isLE || (cmp b a).isLE) = true := by
    intro a b
    have hswap : cmp b a = (cmp a b).swap := h.toOrientedCmp.eq_swap
    rw [hswap]
    cases cmp a b <;> rfl
  have htrans : ∀ a b c, (cmp a b).isLE = true → (cmp b c).isLE = true → (cmp a c).isLE = true := fun _ _ _ => h.isLE_trans
  exact ⟨List.mergeSort_perm items _, List.pairwise_mergeSort htrans htotal items,
    fun _ _ hle hsub => List.pair_sublist_mergeSort htrans htotal hle hsub⟩

variable {compare : β → β → Ordering}

theorem sortBy_map (carry : α → β)
    (hagree : ∀ a ∈ items, ∀ b ∈ items, cmp a b = compare (carry a) (carry b)) :
    (sortBy cmp items).map carry = sortBy compare (items.map carry) := by
  apply List.map_mergeSort
  exact fun a ha b hb => congrArg Ordering.isLE (hagree a ha b hb)

theorem sortBy_congr (hagree : ∀ a ∈ items, ∀ b ∈ items, cmp' a b = cmp a b) : sortBy cmp' items = sortBy cmp items := by
  have h : (sortBy cmp' items).map id = sortBy cmp (items.map id) := sortBy_map id hagree
  rwa [List.map_id, List.map_id] at h

theorem lawful_on (h : Std.TransCmp compare) (key : α → β) :
    Std.TransCmp fun a b => compare (key a) (key b) where
  eq_swap := h.toOrientedCmp.eq_swap
  isLE_trans := h.isLE_trans

theorem sortBy_sorted_of_keys (h : Std.TransCmp compare) (key : α → β)
    (hagree : ∀ a ∈ items, ∀ b ∈ items, cmp a b = compare (key a) (key b)) : Sorted cmp items (sortBy cmp items) := by
  rw [sortBy_congr hagree]
  exact (sortBy_sorted (lawful_on h key) items).congr hagree

/-- The first comparison of two lists' elements that tells them apart. -/
def compareZip (cmp : α → α → Ordering) (a b : List α) : Ordering :=
  (((a.zip b).map fun pair => cmp pair.1 pair.2).find? fun order => order ≠ .eq).getD .eq

theorem compareZip_eq (cmp : α → α → Ordering) {a b : List α} (hlength : a.length = b.length) :
    compareZip cmp a b = List.compareLex cmp a b := by
  induction a generalizing b with
  | nil =>
      rw [List.length_eq_zero_iff.1 hlength.symm]
      rfl
  | cons x rest ih =>
      cases b with
      | nil => cases hlength
      | cons y rest' =>
          rw [List.compareLex_cons_cons, ← ih (Nat.succ.inj hlength)]
          rw [compareZip, List.zip_cons_cons, List.map_cons, List.find?_cons]
          cases horder : cmp x y <;> rfl

end Stable
