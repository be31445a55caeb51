import Mathlib.Data.List.Nodup
import Mathlib.Data.List.Perm.Subperm
import Mathlib.Order.WellFoundedSet

/-!
# Heights over a finite acyclic relation

Each node lists the nodes directly below it. A height is a number for each node that is one more than the greatest below it, and zero where nothing is. Where the relation has no cycle a height exists, it falls along the relation, and no height exceeds the number of nodes that have something below them.
-/

namespace Heights

variable {κ : Type}

/-- One more than the greatest height of the items, or the number given. -/
def tallest (height : κ → Nat) (items : List κ) (found : Nat) : Nat :=
  items.foldl (fun found y => max found (1 + height y)) found

def Of (below : κ → List κ) (height : κ → Nat) : Prop := ∀ x, height x = tallest height (below x) 0

theorem le_tallest (height : κ → Nat) (items : List κ) (found : Nat) : found ≤ tallest height items found := by
  induction items generalizing found with
  | nil => exact Nat.le_refl _
  | cons y rest ih => exact Nat.le_trans (Nat.le_max_left _ _) (ih _)

theorem lt_tallest {height : κ → Nat} {items : List κ} {y : κ} (hy : y ∈ items) (found : Nat) :
    height y < tallest height items found := by
  induction items generalizing found with
  | nil => simp at hy
  | cons z rest ih =>
      rcases List.mem_cons.1 hy with rfl | hy
      · have := le_tallest height rest (max found (1 + height y))
        simp only [tallest, List.foldl_cons] at this ⊢
        omega
      · exact ih hy _

theorem tallest_reached (height : κ → Nat) (items : List κ) (found : Nat) :
    tallest height items found = found ∨ ∃ y ∈ items, tallest height items found = 1 + height y := by
  induction items generalizing found with
  | nil => exact .inl rfl
  | cons z rest ih =>
      have hunfold : tallest height (z :: rest) found = tallest height rest (max found (1 + height z)) := rfl
      rcases ih (max found (1 + height z)) with h | ⟨y, hy, h⟩
      · rcases Nat.le_total found (1 + height z) with hle | hle
        · exact .inr ⟨z, by simp, by rw [hunfold, h, Nat.max_eq_right hle]⟩
        · exact .inl (by rw [hunfold, h, Nat.max_eq_left hle])
      · exact .inr ⟨y, by simp [hy], by rw [hunfold, h]⟩

variable {below : κ → List κ} {height : κ → Nat}

theorem Of.lt (h : Of below height) {x y : κ} (hy : y ∈ below x) : height y < height x := by
  rw [h x]
  exact lt_tallest hy 0

theorem Of.step (h : Of below height) {x : κ} {n : Nat} (hx : height x = n + 1) : ∃ y ∈ below x, height y = n := by
  rw [h x] at hx
  rcases tallest_reached height (below x) 0 with hzero | ⟨y, hy, hreached⟩
  · omega
  · exact ⟨y, hy, by omega⟩

theorem exists_of_wellFounded (hwf : WellFounded fun y x => y ∈ below x) : ∃ height, Of below height := by
  refine ⟨hwf.fix fun x ih => (below x).attach.foldl (fun found y => max found (1 + ih y.1 y.2)) 0, fun x => ?_⟩
  rw [WellFounded.fix_eq, tallest]
  conv_rhs => rw [← List.attach_map_subtype_val (below x), List.foldl_map]

theorem wellFounded_of_acyclic {keys : List κ} (hkeys : ∀ x y, y ∈ below x → x ∈ keys)
    (hacyclic : ∀ x, ¬ Relation.TransGen (fun y x => y ∈ below x) x x) : WellFounded fun y x => y ∈ below x := by
  have : Std.Irrefl (Relation.TransGen fun y x => y ∈ below x) := ⟨hacyclic⟩
  have : IsStrictOrder κ (Relation.TransGen fun y x => y ∈ below x) := {}
  have hfinite : {x | x ∈ keys}.WellFoundedOn (Relation.TransGen fun y x => y ∈ below x) :=
    (List.finite_toSet keys).wellFoundedOn
  have houtside : ∀ x, x ∉ keys → Acc (fun y x => y ∈ below x) x := fun x hx =>
    Acc.intro x fun y hy => absurd (hkeys x y hy) hx
  refine ⟨fun x => ?_⟩
  by_cases hx : x ∈ keys
  · refine hfinite.induction hx fun y _ ih => Acc.intro y fun z hz => ?_
    by_cases hz' : z ∈ keys
    · exact ih z hz' (.single hz)
    · exact houtside z hz'
  · exact houtside x hx

theorem Of.levels (h : Of below height) {keys : List κ} (hkeys : ∀ x y, y ∈ below x → x ∈ keys) {n : Nat} {x : κ}
    (hx : height x = n) : ∀ m, m < n → ∃ z ∈ keys, height z = m + 1 := by
  induction n generalizing x with
  | zero => intro m hm; omega
  | succ n ih =>
      intro m hm
      obtain ⟨y, hy, hheight⟩ := h.step hx
      rcases Nat.lt_succ_iff_lt_or_eq.1 hm with hlt | rfl
      · exact ih hheight m hlt
      · exact ⟨x, hkeys x y hy, hx⟩

theorem Of.le_length (h : Of below height) {keys : List κ} (hkeys : ∀ x y, y ∈ below x → x ∈ keys) (x : κ) :
    height x ≤ keys.length := by
  have hsub : (List.range (height x)).map (· + 1) ⊆ keys.map height := by
    intro level hlevel
    obtain ⟨m, hm, rfl⟩ := List.mem_map.1 hlevel
    obtain ⟨z, hz, hheight⟩ := h.levels hkeys rfl m (List.mem_range.1 hm)
    exact List.mem_map.2 ⟨z, hz, hheight⟩
  have hnodup : ((List.range (height x)).map (· + 1)).Nodup :=
    List.nodup_range.map fun a b hab => by simpa using hab
  simpa using (hnodup.subperm hsub).length_le

end Heights
