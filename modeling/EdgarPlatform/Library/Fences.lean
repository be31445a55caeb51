import Mathlib.Order.Monotone.Basic

/-!
# Fencing tokens

Who holds a resource, and under which token. A resource's holding advances when its token grows, or when it stays as it is: a new holder always comes with a larger token. This is a partial order, so what only advances can be compared at any two times. Grants are logged in the order they are issued, and no grant is ahead of what is held. A guard elsewhere keeps the last holding it admitted and admits only what that advances to; it then refuses every grant of another holder that was issued before the one it admitted, however late it is shown.
-/

/-- A token and who holds the resource under it, nobody where it was never held. -/
structure Holding (ι : Type) where
  token : Nat
  holder : Option ι
  deriving DecidableEq

namespace Holding

variable {ι : Type} {a b c : Holding ι}

instance : LE (Holding ι) := ⟨fun a b => a.token < b.token ∨ a = b⟩

theorem token_le (h : a ≤ b) : a.token ≤ b.token := by
  obtain h | rfl := h
  · omega
  · exact le_rfl

instance : PartialOrder (Holding ι) where
  le_refl a := .inr rfl
  le_trans a b c hab hbc := by
    obtain hab | rfl := hab
    · exact .inl (Nat.lt_of_lt_of_le hab (token_le hbc))
    · exact hbc
  le_antisymm a b hab hba := by
    obtain hab | hab := hab
    · have := token_le hba
      omega
    · exact hab

theorem lt_of_holder_ne (h : a ≤ b) (hne : a.holder ≠ b.holder) : a.token < b.token :=
  h.resolve_right fun heq => hne (heq ▸ rfl)

def free : Holding ι := ⟨0, none⟩

theorem free_le (h : 0 < a.token) : free ≤ a := .inl h

end Holding

namespace Fences

variable {ρ ι : Type}

/-- A grant: a resource, a token and the holder it was given to. -/
structure Grant (ρ ι : Type) where
  resource : ρ
  token : Nat
  holder : ι

def Grant.holding (g : Grant ρ ι) : Holding ι := ⟨g.token, some g.holder⟩

def Grant.Given (before after : ρ → Holding ι) (g : Grant ρ ι) : Prop :=
  before g.resource ≤ g.holding ∧ g.holding ≤ after g.resource

/-- A log of grants as they were issued: the holding of a resource advances from each grant of it to the later ones, and to what is held. -/
structure Logged (log : List (List (Grant ρ ι))) (held : ρ → Holding ι) : Prop where
  ordered : log.Pairwise fun front back => ∀ g ∈ front, ∀ g' ∈ back, g.resource = g'.resource → g.holding ≤ g'.holding
  behind : ∀ grants ∈ log, ∀ g ∈ grants, g.holding ≤ held g.resource

variable {log : List (List (Grant ρ ι))} {held before after : ρ → Holding ι}

theorem logged_nil (held : ρ → Holding ι) : Logged [] held := ⟨.nil, by simp⟩

theorem Logged.advance (h : Logged log before) (hle : before ≤ after) : Logged log after :=
  ⟨h.ordered, fun grants hgrants g hg => (h.behind grants hgrants g hg).trans (hle g.resource)⟩

theorem Logged.issue {grants : List (Grant ρ ι)} (h : Logged log before) (hle : before ≤ after)
    (hgiven : ∀ g ∈ grants, g.Given before after) : Logged (log ++ [grants]) after := by
  refine ⟨List.pairwise_append.2 ⟨h.ordered, List.pairwise_singleton _ _, ?_⟩, ?_⟩
  · intro front hfront back hback g hg g' hg' hresource
    rw [List.mem_singleton.1 hback] at hg'
    have hbehind := h.behind front hfront g hg
    rw [hresource] at hbehind
    exact hbehind.trans (hgiven g' hg').1
  · intro front hfront g hg
    obtain hfront | hfront := List.mem_append.1 hfront
    · exact (h.advance hle).behind front hfront g hg
    · rw [List.mem_singleton.1 hfront] at hg
      exact (hgiven g hg).2

theorem Logged.refused {row : Holding ι} {i j : Nat} {grants others : List (Grant ρ ι)} {g g' : Grant ρ ι}
    (h : Logged log held) (hgrants : log[i]? = some grants) (hothers : log[j]? = some others) (hearlier : j < i)
    (hg : g ∈ grants) (hg' : g' ∈ others) (hresource : g'.resource = g.resource) (hother : g'.holder ≠ g.holder)
    (hrow : g.holding ≤ row) : ¬ row ≤ g'.holding := by
  intro hadmits
  obtain ⟨hi, rfl⟩ := List.getElem?_eq_some_iff.1 hgrants
  obtain ⟨hj, rfl⟩ := List.getElem?_eq_some_iff.1 hothers
  have hbefore : g'.holding ≤ g.holding := List.pairwise_iff_getElem.1 h.ordered j i hj hi hearlier g' hg' g hg hresource
  have hsame : g'.holding = g.holding := le_antisymm hbefore (hrow.trans hadmits)
  exact hother (Option.some.inj (congrArg Holding.holder hsame))

end Fences
