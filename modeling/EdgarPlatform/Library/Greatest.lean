import Mathlib.Data.List.Induction
import Mathlib.Data.Prod.Lex

/-!
# The last of the greatest

The greatest of a list by a rank, the last of them where several rank alike. Over a list in the order of its keys it is the greatest by rank and key together, so it does not depend on how the list came about.
-/

namespace Greatest

variable {α β κ ι : Type} [LinearOrder κ]

def better (rank : α → κ) (best : Option α) (a : α) : Option α :=
  match best with
  | none => some a
  | some b => if rank a < rank b then some b else some a

def lastMax (rank : α → κ) (items : List α) : Option α := items.foldl (better rank) none

variable {rank : α → κ}

theorem lastMax_append (items : List α) (a : α) : lastMax rank (items ++ [a]) = better rank (lastMax rank items) a := by
  rw [lastMax, List.foldl_append]
  rfl

theorem lastMax_eq_none {items : List α} : lastMax rank items = none ↔ items = [] := by
  induction items using List.reverseRecOn with
  | nil => exact iff_of_true rfl rfl
  | append_singleton items b ih =>
      rw [lastMax_append]
      refine iff_of_false ?_ (by simp)
      cases lastMax rank items with
      | none => exact Option.some_ne_none b
      | some best =>
          intro h
          rw [better] at h
          split_ifs at h

variable [LinearOrder ι]

def place (rank : α → κ) (key : α → ι) (a : α) : κ ×ₗ ι := toLex (rank a, key a)

/-- Over a list in the order of its keys it is the one of the greatest place. -/
theorem lastMax_eq_some {key : α → ι} {items : List α} (hsorted : items.Pairwise fun a b => key a < key b) {a : α} :
    lastMax rank items = some a ↔ a ∈ items ∧ ∀ b ∈ items, b ≠ a → place rank key b < place rank key a := by
  induction items using List.reverseRecOn generalizing a with
  | nil => simp [lastMax]
  | append_singleton items c ih =>
      obtain ⟨hitems, _, hlast⟩ := List.pairwise_append.1 hsorted
      have hbelow : ∀ b ∈ items, key b < key c := fun b hb => hlast b hb c (List.mem_singleton.2 rfl)
      have hne : c ∉ items := fun hc => lt_irrefl _ (hbelow c hc)
      rw [lastMax_append]
      cases hbest : lastMax rank items with
      | none =>
          obtain rfl := lastMax_eq_none.1 hbest
          rw [better, List.nil_append, Option.some_inj]
          constructor
          · rintro rfl
            exact ⟨List.mem_singleton.2 rfl, fun b hb hba => absurd (List.mem_singleton.1 hb) hba⟩
          · rintro ⟨ha, _⟩
            exact (List.mem_singleton.1 ha).symm
      | some best =>
          obtain ⟨hmem, hgreatest⟩ := (ih hitems).1 hbest
          have hle : ∀ b ∈ items, place rank key b ≤ place rank key best := by
            intro b hb
            by_cases hb' : b = best
            · rw [hb']
            · exact (hgreatest b hb hb').le
          have hplace : place rank key c < place rank key best ↔ rank c < rank best := by
            rw [place, place, Prod.Lex.toLex_lt_toLex]
            refine ⟨fun h => h.resolve_right fun h => ?_, .inl⟩
            exact absurd h.2 (hbelow best hmem).not_gt
          have hchosen : ∀ chosen ∈ items ++ [c], (∀ b ∈ items ++ [c], b ≠ chosen → place rank key b < place rank key chosen) →
              (some chosen = some a ↔ a ∈ items ++ [c] ∧ ∀ b ∈ items ++ [c], b ≠ a → place rank key b < place rank key a) := by
            intro chosen hchosen hmax
            rw [Option.some_inj]
            constructor
            · rintro rfl
              exact ⟨hchosen, hmax⟩
            · rintro ⟨ha, hamax⟩
              by_contra hne
              exact lt_asymm (hmax a ha fun h => hne h.symm) (hamax chosen hchosen hne)
          rw [better]
          split_ifs with hlt
          · refine hchosen best (List.mem_append_left _ hmem) fun b hb hbbest => ?_
            rcases List.mem_append.1 hb with hb | hb
            · exact hgreatest b hb hbbest
            · rw [List.mem_singleton.1 hb]
              exact hplace.2 hlt
          · have habove : place rank key best < place rank key c := by
              refine lt_of_le_of_ne (not_lt.1 fun h => hlt (hplace.1 h)) fun heq => ?_
              have hkeys : key best = key c := (Prod.mk.inj (toLex.injective heq)).2
              exact absurd hkeys (hbelow best hmem).ne
            refine hchosen c (by simp) fun b hb hbc => ?_
            rcases List.mem_append.1 hb with hb | hb
            · exact lt_of_le_of_lt (hle b hb) habove
            · exact absurd (List.mem_singleton.1 hb) hbc

end Greatest
