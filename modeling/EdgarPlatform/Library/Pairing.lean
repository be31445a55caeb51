import Mathlib.Data.List.Induction

/-!
# Pairing in rounds

Two sides are paired in rounds. A round has a relation of its own, looks only at what no earlier round took, and binds a pair when neither of the two is related to anything else that is free. Whatever the relations are, no member of either side is ever bound twice.
-/

namespace Pairing

variable {α β : Type}

/-- A round binds a pair of free members that are related to nothing else free. -/
structure Binds (agree bound : α → β → Prop) (a : α) (b : β) : Prop where
  agreed : agree a b
  left_free : ∀ b', ¬ bound a b'
  right_free : ∀ a', ¬ bound a' b
  left_only : ∀ a', agree a' b → (∀ b', ¬ bound a' b') → a' = a
  right_only : ∀ b', agree a b' → (∀ a', ¬ bound a' b') → b' = b

def extend (bound agree : α → β → Prop) : α → β → Prop := fun a b => bound a b ∨ Binds agree bound a b

def after (rounds : List (α → β → Prop)) : α → β → Prop := rounds.foldl extend fun _ _ => False

structure OneToOne (bound : α → β → Prop) : Prop where
  left : ∀ {a b b'}, bound a b → bound a b' → b = b'
  right : ∀ {a a' b}, bound a b → bound a' b → a = a'

theorem OneToOne.extend {bound : α → β → Prop} (h : OneToOne bound) (agree : α → β → Prop) : OneToOne (extend bound agree) where
  left := by
    intro a b b' hb hb'
    rcases hb with hb | hb
    · rcases hb' with hb' | hb'
      · exact h.left hb hb'
      · exact absurd hb (hb'.left_free b)
    · rcases hb' with hb' | hb'
      · exact absurd hb' (hb.left_free b')
      · exact hb'.right_only b hb.agreed hb.right_free
  right := by
    intro a a' b ha ha'
    rcases ha with ha | ha
    · rcases ha' with ha' | ha'
      · exact h.right ha ha'
      · exact absurd ha (ha'.right_free a)
    · rcases ha' with ha' | ha'
      · exact absurd ha' (ha.right_free a')
      · exact ha'.left_only a ha.agreed ha.left_free

theorem after_append (front : List (α → β → Prop)) (agree : α → β → Prop) :
    after (front ++ [agree]) = extend (after front) agree := by
  simp only [after, List.foldl_append, List.foldl_cons, List.foldl_nil]

theorem after_oneToOne (rounds : List (α → β → Prop)) : OneToOne (after rounds) := by
  induction rounds using List.reverseRecOn with
  | nil => exact ⟨fun h => h.elim, fun h => h.elim⟩
  | append_singleton front agree ih =>
      rw [after_append]
      exact ih.extend agree

end Pairing
