import EdgarPlatform.Library.Runs
import Mathlib.Data.List.Induction

/-!
# Heaps that keep the least

A heap whose greatest element is taken out first, as the ascending list it is unloaded into. Pushing every element of a list, and taking the greatest out whenever the heap grows past a limit, keeps the least of the list, as many as the limit allows.
-/

namespace Heaps

variable {κ : Type} [LinearOrder κ]

def push (heap : List κ) (a : κ) : List κ := heap.orderedInsert (· ≤ ·) a

def pop (heap : List κ) : List κ := heap.dropLast

def keep (limit : Nat) (heap : List κ) (a : κ) : List κ :=
  if limit < (push heap a).length then pop (push heap a) else push heap a

theorem take_push (limit : Nat) (heap : List κ) (a : κ) :
    (push (heap.take limit) a).take limit = (push heap a).take limit := by
  induction heap generalizing limit with
  | nil => rw [List.take_nil]
  | cons b rest ih =>
      cases limit with
      | zero => rw [List.take_zero, List.take_zero]
      | succ limit =>
          rw [List.take_succ_cons, push, push]
          by_cases hle : a ≤ b
          · rw [List.orderedInsert_cons_of_le _ _ hle, List.orderedInsert_cons_of_le _ _ hle, List.take_succ_cons,
              List.take_succ_cons]
            refine congrArg (a :: ·) ?_
            rw [← List.take_succ_cons, List.take_take, min_eq_left (Nat.le_succ limit)]
          · rw [List.orderedInsert_of_not_le _ _ hle, List.orderedInsert_of_not_le _ _ hle, List.take_succ_cons,
              List.take_succ_cons]
            exact congrArg (b :: ·) (ih limit)

theorem keep_eq_take {limit : Nat} {heap : List κ} (h : heap.length ≤ limit) (a : κ) :
    keep limit heap a = (push heap a).take limit := by
  have hlength : (push heap a).length = heap.length + 1 := List.orderedInsert_length _ heap a
  rw [keep]
  split_ifs with hlimit
  · rw [pop, List.dropLast_eq_take]
    congr 1
    omega
  · rw [List.take_of_length_le (by omega)]

theorem push_sortByKey (items : List κ) (a : κ) :
    push (Sorting.sortByKey id items) a = Sorting.sortByKey id (items ++ [a]) := by
  have hperm : (push (Sorting.sortByKey id items) a).Perm (Sorting.sortByKey id (items ++ [a])) := by
    refine (List.perm_orderedInsert _ a _).trans ?_
    refine ((Sorting.sortByKey_perm id items).cons a).trans ?_
    exact (List.perm_append_comm.trans (Sorting.sortByKey_perm id (items ++ [a])).symm : ([a] ++ items).Perm _)
  refine hperm.eq_of_pairwise (fun b c _ _ hbc hcb => le_antisymm hbc hcb) ?_ (Sorting.sortByKey_sorted id (items ++ [a]))
  exact (Sorting.sortByKey_sorted id items).orderedInsert a _

theorem foldl_keep (limit : Nat) (items : List κ) :
    items.foldl (keep limit) [] = (Sorting.sortByKey id items).take limit := by
  induction items using List.reverseRecOn with
  | nil => exact List.take_nil.symm
  | append_singleton front a ih =>
      rw [List.foldl_append, ih, List.foldl_cons, List.foldl_nil, keep_eq_take (List.length_take_le ..), take_push,
        push_sortByKey]

end Heaps
