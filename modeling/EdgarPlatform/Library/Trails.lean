import Mathlib.Data.List.Nodup
import Mathlib.Logic.Relation

/-!
# Trails

A trail follows labelled steps from one node to another and keeps the nodes it leaves and the labels it takes. Any cycle has one that leaves no node twice, and where each node has one next node the trails to an end all pass the same nodes.
-/

namespace Trails

variable {κ ℓ : Type} {step : κ → ℓ → κ → Prop}

/-- Steps from a node to another, with the nodes left and the labels taken. -/
inductive Trail (step : κ → ℓ → κ → Prop) : κ → List κ → List ℓ → κ → Prop
  | stop (x : κ) : Trail step x [] [] x
  | move {x y z : κ} {l : ℓ} {nodes : List κ} {labels : List ℓ} : step x l y → Trail step y nodes labels z →
      Trail step x (x :: nodes) (l :: labels) z

def Final (step : κ → ℓ → κ → Prop) (x : κ) : Prop := ∀ l y, ¬ step x l y

/-- Following the steps from a node ends at another after at least one, no node met twice. -/
def EndsAt (step : κ → ℓ → κ → Prop) (x : κ) (labels : List ℓ) (z : κ) : Prop :=
  ∃ nodes, Trail step x nodes labels z ∧ (nodes ++ [z]).Nodup ∧ labels ≠ [] ∧ Final step z

def Acyclic (step : κ → ℓ → κ → Prop) : Prop := ∀ x, ¬ Relation.TransGen (fun x y => ∃ l, step x l y) x x

variable {step' : κ → ℓ → κ → Prop}

theorem Acyclic.mono (h : Acyclic step) (hsub : ∀ x l y, step' x l y → step x l y) :
    Acyclic step' := by
  intro x hcycle
  refine h x (Relation.TransGen.mono (fun a b hstep => ?_) _ _ hcycle)
  obtain ⟨l, hl⟩ := hstep
  exact ⟨l, hsub a l b hl⟩

variable {nodes : List κ} {labels : List ℓ}

theorem Trail.concat {x y z : κ} {l : ℓ} (h : Trail step x nodes labels y)
    (hstep : step y l z) : Trail step x (nodes ++ [y]) (labels ++ [l]) z := by
  induction h with
  | stop x => exact .move hstep (.stop z)
  | move hfirst _ ih => exact .move hfirst (ih hstep)

theorem Trail.mono (hsub : ∀ x l y, step x l y → step' x l y) {x z : κ}
    (h : Trail step x nodes labels z) : Trail step' x nodes labels z := by
  induction h with
  | stop x => exact .stop x
  | move hfirst _ ih => exact .move (hsub _ _ _ hfirst) ih

theorem Trail.eq_of_nil {x z : κ} (h : Trail step x nodes labels z)
    (hlabels : labels = []) : x = z := by
  cases h with
  | stop _ => rfl
  | move _ _ => cases hlabels

theorem Trail.exists_step {x z : κ} (h : Trail step x nodes labels z) :
    ∀ y ∈ nodes, ∃ l w, step y l w := by
  induction h with
  | stop x => simp
  | move hfirst _ ih =>
      intro y hy
      rcases List.mem_cons.1 hy with rfl | hy
      · exact ⟨_, _, hfirst⟩
      · exact ih y hy

theorem Trail.lead {x y z : κ} (h : Trail step x nodes labels z) (hy : y ∈ nodes)
    (hnodup : nodes.Nodup) : ∃ front taken, Trail step x front taken y ∧ front ⊆ nodes ∧ front.Nodup ∧ y ∉ front := by
  induction h with
  | stop x => simp at hy
  | @move x w z l nodes labels hstep htail ih =>
      obtain ⟨hnot, hnodup⟩ := List.nodup_cons.1 hnodup
      by_cases hyx : y = x
      · subst hyx
        exact ⟨[], [], .stop y, by simp, List.nodup_nil, by simp⟩
      · obtain ⟨front, taken, hto, hsub, hfront, hout⟩ := ih ((List.mem_cons.1 hy).resolve_left hyx) hnodup
        refine ⟨x :: front, l :: taken, .move hstep hto, List.cons_subset_cons _ hsub, ?_, by simp [hyx, hout]⟩
        exact List.nodup_cons.2 ⟨fun hx => hnot (hsub hx), hfront⟩

theorem Trail.nodup_or_cycle {x z : κ} (h : Trail step x nodes labels z) :
    nodes.Nodup ∨ ∃ y passed taken, taken ≠ [] ∧ Trail step y passed taken y ∧ passed.Nodup := by
  induction h with
  | stop x => exact .inl List.nodup_nil
  | @move x w z l nodes labels hfirst htail ih =>
      rcases ih with hnodup | hcycle
      · by_cases hx : x ∈ nodes
        · -- The trail comes back to where it started: what it left on the way is a cycle.
          obtain ⟨front, taken, hto, _, hfront, hout⟩ := htail.lead hx hnodup
          exact .inr ⟨x, x :: front, l :: taken, by simp, .move hfirst hto, List.nodup_cons.2 ⟨hout, hfront⟩⟩
        · exact .inl (List.nodup_cons.2 ⟨hx, hnodup⟩)
      · exact .inr hcycle

theorem trail_of_transGen {x y : κ} (h : Relation.TransGen (fun x y => ∃ l, step x l y) x y) :
    ∃ nodes labels, labels ≠ [] ∧ Trail step x nodes labels y := by
  induction h with
  | single hstep =>
      obtain ⟨l, hl⟩ := hstep
      exact ⟨[x], [l], by simp, .move hl (.stop _)⟩
  | tail _ hstep ih =>
      obtain ⟨nodes, labels, _, htrail⟩ := ih
      obtain ⟨l, hl⟩ := hstep
      exact ⟨nodes ++ [_], labels ++ [l], by simp, htrail.concat hl⟩

theorem exists_cycle {x : κ} (h : Relation.TransGen (fun x y => ∃ l, step x l y) x x) :
    ∃ y nodes labels, labels ≠ [] ∧ Trail step y nodes labels y ∧ nodes.Nodup := by
  obtain ⟨nodes, labels, hlabels, htrail⟩ := trail_of_transGen h
  rcases htrail.nodup_or_cycle with hnodup | hcycle
  · exact ⟨x, nodes, labels, hlabels, htrail, hnodup⟩
  · exact hcycle

end Trails
