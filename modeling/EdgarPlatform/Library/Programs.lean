import EdgarPlatform.Library.Runs

/-!
# Programs whose writes outlive their failures

A program runs over a store: it answers or fails, and either way leaves a store. What it wrote before it failed stays written. A program that calls another one fails where that one does, in the store it left.
-/

def Program (σ ε α : Type) : Type := σ → Except ε α × σ

namespace Program

variable {σ ε α β : Type}

instance : Monad (Program σ ε) where
  pure a := fun s => (.ok a, s)
  bind x f := fun s =>
    match x s with
    | (.ok a, t) => f a t
    | (.error e, t) => (.error e, t)

def fail (e : ε) : Program σ ε α := fun s => (.error e, s)

def read (f : σ → α) : Program σ ε α := fun s => (.ok (f s), s)

def given (x : Except ε α) : Program σ ε α := fun s => (x, s)

def handle (x : Program σ ε α) (f : ε → Program σ ε α) : Program σ ε α := fun s =>
  match x s with
  | (.ok a, t) => (.ok a, t)
  | (.error e, t) => f e t

variable {f : α → Program σ ε β}

theorem bind_of_ok {x : Program σ ε α} {s t : σ} {a : α} (h : x s = (.ok a, t)) : (x >>= f) s = f a t := by
  show (match x s with | (.ok a, t) => f a t | (.error e, t) => (.error e, t)) = f a t
  rw [h]

theorem bind_of_error {x : Program σ ε α} {s t : σ} {e : ε} (h : x s = (.error e, t)) :
    (x >>= f) s = (.error e, t) := by
  show (match x s with | (.ok a, t) => f a t | (.error e, t) => (.error e, t)) = (.error e, t)
  rw [h]

theorem bind_leaves {x : Program σ ε α} {s : σ} (hx : (x s).2 = s) (hf : ∀ a, x s = (.ok a, s) → (f a s).2 = s) :
    ((x >>= f) s).2 = s := by
  cases h : x s with
  | mk result t =>
      rw [h] at hx
      have ht : t = s := hx
      subst ht
      cases result with
      | ok a =>
          rw [bind_of_ok h]
          exact hf a h
      | error e => rw [bind_of_error h]

theorem foldlM_idle {γ : Type} {f : β → γ → Program σ ε β} {items : List γ} {b : β} {s : σ}
    (h : ∀ item ∈ items, f b item s = (.ok b, s)) : (items.foldlM f b) s = (.ok b, s) := by
  induction items with
  | nil => rfl
  | cons item rest ih =>
      rw [List.foldlM_cons, bind_of_ok (h item (by simp))]
      exact ih fun other hother => h other (List.mem_cons_of_mem _ hother)

end Program
