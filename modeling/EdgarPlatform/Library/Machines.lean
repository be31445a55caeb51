import EdgarPlatform.Library.Runs

/-!
# Machines whose refused calls change nothing

A machine answers each call with a new state or refuses it, and a refused call leaves the state as it was. A run makes calls one after another from a state. What one accepted call keeps, a run keeps, also where the calls of the run only meet a condition that looks at the state each of them is made in.
-/

namespace Machines

universe u

variable {σ : Type} {κ : Type u} {ε ω : Type} (perform : σ → κ → Except ε (ω × σ))

/-- The state after a call: the new state where the call is accepted, the same state where it is refused. -/
def after (s : σ) (call : κ) : σ :=
  match perform s call with
  | .ok (_, next) => next
  | .error _ => s

def run (s : σ) (calls : List κ) : σ := calls.foldl (after perform) s

/-- Every call of a run meets a condition in the state it is made in. -/
def Meets (cond : σ → κ → Prop) : σ → List κ → Prop
  | _, [] => True
  | s, call :: rest => cond s call ∧ Meets cond (after perform s call) rest

instance decidableMeets (cond : σ → κ → Prop) [∀ s call, Decidable (cond s call)] :
    (s : σ) → (calls : List κ) → Decidable (Meets perform cond s calls)
  | _, [] => isTrue trivial
  | s, call :: rest => @instDecidableAnd _ _ _ (decidableMeets cond (after perform s call) rest)

variable {perform}

theorem after_of_ok {s next : σ} {call : κ} {answer : ω} (h : perform s call = .ok (answer, next)) :
    after perform s call = next := by
  rw [after, h]

theorem after_cases (perform : σ → κ → Except ε (ω × σ)) (s : σ) (call : κ) :
    after perform s call = s ∨ ∃ answer, perform s call = .ok (answer, after perform s call) := by
  rw [after]
  cases h : perform s call with
  | error e => exact .inl rfl
  | ok result => exact .inr ⟨result.1, rfl⟩

theorem run_nil (s : σ) : run perform s [] = s := rfl

theorem run_cons (s : σ) (call : κ) (rest : List κ) :
    run perform s (call :: rest) = run perform (after perform s call) rest := rfl

theorem run_append (s : σ) (front back : List κ) :
    run perform s (front ++ back) = run perform (run perform s front) back := List.foldl_append

variable {cond : σ → κ → Prop}

theorem meets_append {s : σ} {front back : List κ} :
    Meets perform cond s (front ++ back) ↔ Meets perform cond s front ∧ Meets perform cond (run perform s front) back := by
  induction front generalizing s with
  | nil => simp [Meets, run_nil]
  | cons call rest ih => rw [List.cons_append, Meets, ih, Meets, run_cons, and_assoc]

variable {calls : List κ}

theorem run_keeps {holds : σ → Prop} {s : σ}
    (hstep : ∀ s call answer next, holds s → cond s call → perform s call = .ok (answer, next) → holds next)
    (hstart : holds s) (hcalls : Meets perform cond s calls) : holds (run perform s calls) := by
  induction calls generalizing s with
  | nil => exact hstart
  | cons call rest ih =>
      refine ih ?_ hcalls.2
      obtain hsame | ⟨answer, hok⟩ := after_cases perform s call
      · rw [hsame]
        exact hstart
      · exact hstep s call answer _ hstart hcalls.1 hok

theorem run_relates {holds : σ → Prop} {rel : σ → σ → Prop} {s : σ}
    (hrefl : ∀ s, rel s s) (htrans : ∀ s t u, rel s t → rel t u → rel s u)
    (hkeeps : ∀ s call answer next, holds s → cond s call → perform s call = .ok (answer, next) → holds next)
    (hstep : ∀ s call answer next, holds s → cond s call → perform s call = .ok (answer, next) → rel s next)
    (hstart : holds s) (hcalls : Meets perform cond s calls) : rel s (run perform s calls) := by
  induction calls generalizing s with
  | nil => exact hrefl s
  | cons call rest ih =>
      obtain hsame | ⟨answer, hok⟩ := after_cases perform s call
      · have hrest := hcalls.2
        rw [run_cons, hsame]
        rw [hsame] at hrest
        exact ih hstart hrest
      · exact htrans _ _ _ (hstep s call answer _ hstart hcalls.1 hok)
          (ih (hkeeps s call answer _ hstart hcalls.1 hok) hcalls.2)

theorem meets_true (s : σ) (calls : List κ) : Meets perform (fun _ _ => True) s calls := by
  induction calls generalizing s with
  | nil => trivial
  | cons call rest ih => exact ⟨trivial, ih _⟩

variable {β : Type}

/-- What is read off the calls of a run, each in the state it is made in. -/
def log (perform : σ → κ → Except ε (ω × σ)) (read : σ → κ → Option β) : σ → List κ → List β
  | _, [] => []
  | s, call :: rest => (read s call).toList ++ log perform read (after perform s call) rest

theorem run_logs {read : σ → κ → Option β} {holds : List β → σ → Prop} {s : σ}
    (hstep : ∀ done s call, holds done s → cond s call → holds (done ++ (read s call).toList) (after perform s call))
    (hstart : holds [] s) (hcalls : Meets perform cond s calls) : holds (log perform read s calls) (run perform s calls) := by
  suffices hrun : ∀ done, holds done s → holds (done ++ log perform read s calls) (run perform s calls) from hrun [] hstart
  clear hstart
  induction calls generalizing s with
  | nil =>
      intro done hdone
      rwa [log, List.append_nil]
  | cons call rest ih =>
      intro done hdone
      rw [log, ← List.append_assoc]
      exact ih hcalls.2 _ (hstep done s call hdone hcalls.1)

end Machines
