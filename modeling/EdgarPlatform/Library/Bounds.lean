import EdgarPlatform.Library.Runs

/-!
# Runs under a bound

A program that refuses what exceeds a bound is compared with itself under a looser one. The two do the same until the tighter one refuses, and what it refused for can be seen in what the looser one goes on with.
-/

namespace Bounds

variable {ε α β σ ι : Type} {refused : ε → Prop} {exceeds : α → Prop} {exceeds' : β → Prop}

/-- The first of two computations comes to the same as the second, or refuses where the second comes to nothing or to something over the bound. -/
def Tighter (refused : ε → Prop) (exceeds : α → Prop) (x y : Except ε α) : Prop :=
  x = y ∨ (∃ e, refused e ∧ x = .error e) ∧ ∀ a, y = .ok a → exceeds a

theorem Tighter.refl (x : Except ε α) : Tighter refused exceeds x x := .inl rfl

theorem Tighter.refuse {e : ε} {y : Except ε α} (he : refused e) (hover : ∀ a, y = .ok a → exceeds a) : Tighter refused exceeds (.error e) y :=
  .inr ⟨⟨e, he, rfl⟩, hover⟩

theorem Tighter.check {size tight loose : Nat} {e : ε} {x y : Except ε α} (hle : tight ≤ loose) (he : refused e)
    (hover : tight < size → ∀ a, y = .ok a → exceeds a) (h : size ≤ tight → Tighter refused exceeds x y) :
    Tighter refused exceeds (if tight < size then .error e else x) (if loose < size then .error e else y) := by
  by_cases hsize : tight < size
  · rw [if_pos hsize]
    refine .refuse he fun a ha => ?_
    exact hover hsize a (Except.ite_error_eq_ok.1 ha).2
  · rw [if_neg hsize, if_neg (by omega)]
    exact h (by omega)

theorem Tighter.bind {x y : Except ε α} {f g : α → Except ε β} (h : Tighter refused exceeds x y)
    (hover : ∀ a, y = .ok a → exceeds a → ∀ b, g a = .ok b → exceeds' b) (hnext : ∀ a, y = .ok a → Tighter refused exceeds' (f a) (g a)) :
    Tighter refused exceeds' (x >>= f) (y >>= g) := by
  obtain rfl | ⟨⟨e, he, rfl⟩, hy⟩ := h
  · cases x with
    | error e => exact .refl _
    | ok a => exact hnext a rfl
  · refine .refuse he fun b hb => ?_
    obtain ⟨a, ha, hb⟩ := Except.bind_eq_ok.1 hb
    exact hover a ha (hy a ha) b hb

theorem Tighter.bind_same {x : Except ε α} {f g : α → Except ε β} (hnext : ∀ a, x = .ok a → Tighter refused exceeds' (f a) (g a)) :
    Tighter refused exceeds' (x >>= f) (x >>= g) := by
  cases x with
  | error e => exact .refl _
  | ok a => exact hnext a rfl

theorem Tighter.ite {c : Prop} [Decidable c] {x x' y y' : Except ε α} (h : c → Tighter refused exceeds x y)
    (h' : ¬ c → Tighter refused exceeds x' y') : Tighter refused exceeds (if c then x else x') (if c then y else y') := by
  split_ifs with hc
  · exact h hc
  · exact h' hc

theorem Tighter.foldlM {tight loose : σ → ι → Except ε σ} (kept : σ → Prop) {exceeds : σ → Prop} {items : List ι}
    (hkept : ∀ s a t, kept s → loose s a = .ok t → kept t) (hover : ∀ s a t, kept s → exceeds s → loose s a = .ok t → exceeds t)
    (hstep : ∀ s a, kept s → Tighter refused exceeds (tight s a) (loose s a)) {s : σ} (hs : kept s) :
    Tighter refused exceeds (items.foldlM tight s) (items.foldlM loose s) := by
  induction items generalizing s with
  | nil => exact .refl _
  | cons a rest ih =>
      rw [List.foldlM_cons, List.foldlM_cons]
      refine (hstep s a hs).bind ?_ fun mid hmid => ih (hkept s a mid hs hmid)
      intro mid hmid hmover t ht
      have hrun : kept t ∧ exceeds t := by
        refine Runs.run_invariant (fun _ next => kept next ∧ exceeds next) ht ⟨hkept s a mid hs hmid, hmover⟩ ?_
        intro _ b _ next after _ hnext hb
        exact ⟨hkept next b after hnext.1 hb, hover next b after hnext.1 hnext.2 hb⟩
      exact hrun.2

end Bounds
