import Mathlib.Data.List.Basic
import Mathlib.Data.List.Dedup
import Mathlib.Data.List.Perm.Basic
import Mathlib.Data.List.Sort
import Mathlib.Data.Prod.Lex
import Mathlib.Data.String.Basic

/-!
# Runs of fallible steps

A loop that may refuse is a left fold of a step into `Except`. A run that succeeds succeeded at every step, so an invariant of the step that may look at what was already read is an invariant of the run. The second half is about the order a loop reads in: sorting by a key that tells the elements apart gives one list whatever order they came in.
-/

namespace Except

variable {ε α β : Type}

variable {x : Except ε α}

variable {f : α → Except ε β}

theorem bind_eq_ok {b : β} :
    x >>= f = .ok b ↔ ∃ a, x = .ok a ∧ f a = .ok b := by
  cases x with
  | error e =>
      constructor
      · intro h
        cases h
      · rintro ⟨_, h, _⟩
        cases h
  | ok a =>
      constructor
      · exact fun h => ⟨a, rfl, h⟩
      · rintro ⟨_, h, hf⟩
        cases h
        exact hf

theorem bind_eq_error {e : ε} :
    x >>= f = .error e ↔ x = .error e ∨ ∃ a, x = .ok a ∧ f a = .error e := by
  cases x with
  | error e' =>
      constructor
      · intro h
        cases h
        exact .inl rfl
      · rintro (h | ⟨_, h, _⟩) <;> cases h
        rfl
  | ok a =>
      constructor
      · exact fun h => .inr ⟨a, rfl, h⟩
      · rintro (h | ⟨_, h, hf⟩) <;> cases h
        exact hf

@[simp] theorem bind_ok (a : α) (f : α → Except ε β) : (Except.ok a >>= f) = f a := rfl

@[simp] theorem bind_error (e : ε) (f : α → Except ε β) :
    ((Except.error e : Except ε α) >>= f) = .error e := rfl

@[simp] theorem ite_error_eq_ok {c : Prop} [Decidable c] {e : ε} {a : α} :
    (if c then .error e else x) = .ok a ↔ ¬ c ∧ x = .ok a := by
  split_ifs with h <;> simp [h]

theorem eq_ok_or_error (x : Except ε α) : (∃ a, x = .ok a) ∨ ∃ e, x = .error e := by
  cases x with
  | error e => exact .inr ⟨e, rfl⟩
  | ok a => exact .inl ⟨a, rfl⟩

theorem exists_of_any {check : α → Bool} (h : x.toOption.any check = true) :
    ∃ a, x = .ok a ∧ check a = true := by
  cases x with
  | error e => simp [Except.toOption] at h
  | ok a => exact ⟨a, rfl, by simpa [Except.toOption] using h⟩

/-- What holds of the result of a computation is decided by running it. -/
instance decidableExistsOk (x : Except ε α) (holds : α → Prop) [DecidablePred holds] :
    Decidable (∃ a, x = .ok a ∧ holds a) :=
  match x with
  | .error _ => isFalse fun h => by
      obtain ⟨_, heq, _⟩ := h
      cases heq
  | .ok a => decidable_of_iff (holds a) ⟨fun h => ⟨a, rfl, h⟩, fun h => by
      obtain ⟨_, heq, h⟩ := h
      cases heq
      exact h⟩

/-- Two computations agree: both refuse with one error, or both succeed with related results. -/
def Agree {γ : Type} (related : α → γ → Prop) : Except ε α → Except ε γ → Prop
  | .ok a, .ok c => related a c
  | .error e, .error e' => e = e'
  | _, _ => False

theorem Agree.bind {γ δ : Type} {related : α → γ → Prop} {after : β → δ → Prop} {y : Except ε γ}
    {g : γ → Except ε δ} (h : Agree related x y)
    (hnext : ∀ a c, x = .ok a → y = .ok c → related a c → Agree after (f a) (g c)) :
    Agree after (x >>= f) (y >>= g) := by
  cases x <;> cases y <;> simp only [Agree] at h
  · exact h
  · exact hnext _ _ rfl rfl h

theorem Agree.bind_same {δ : Type} {after : β → δ → Prop}
    {g : α → Except ε δ} (hnext : ∀ a, Agree after (f a) (g a)) : Agree after (x >>= f) (x >>= g) := by
  cases x with
  | error e => rfl
  | ok a => exact hnext a

theorem Agree.ite {γ : Type} {related : α → γ → Prop} {c : Prop} [Decidable c] {x x' : Except ε α}
    {y y' : Except ε γ} (h : c → Agree related x y) (h' : ¬ c → Agree related x' y') :
    Agree related (if c then x else x') (if c then y else y') := by
  split_ifs with hc
  · exact h hc
  · exact h' hc

end Except

namespace Runs

variable {ε α σ : Type} {step : σ → α → Except ε σ}

variable {s t : σ}

theorem foldlM_nil_eq_ok : ([] : List α).foldlM step s = .ok t ↔ s = t := by
  simp only [List.foldlM_nil]
  exact ⟨fun h => by cases h; rfl, fun h => by rw [h]; rfl⟩

theorem foldlM_cons_eq_ok {a : α} {rest : List α} :
    (a :: rest).foldlM step s = .ok t ↔ ∃ mid, step s a = .ok mid ∧ rest.foldlM step mid = .ok t := by
  rw [List.foldlM_cons, Except.bind_eq_ok]

theorem foldlM_append_eq_ok {front back : List α} :
    (front ++ back).foldlM step s = .ok t ↔
      ∃ mid, front.foldlM step s = .ok mid ∧ back.foldlM step mid = .ok t := by
  rw [List.foldlM_append, Except.bind_eq_ok]

variable {items : List α}

theorem run_invariant (holds : List α → σ → Prop)
    (hrun : items.foldlM step s = .ok t) (hstart : holds [] s)
    (hstep : ∀ front a back mid next, items = front ++ a :: back → holds front mid →
      step mid a = .ok next → holds (front ++ [a]) next) : holds items t := by
  suffices h : ∀ back front mid, items = front ++ back → holds front mid →
      back.foldlM step mid = .ok t → holds items t from h items [] s rfl hstart hrun
  intro back
  induction back with
  | nil =>
      intro front mid hitems hmid hrest
      rw [List.append_nil] at hitems
      rw [foldlM_nil_eq_ok] at hrest
      rwa [hitems, ← hrest]
  | cons a back ih =>
      intro front mid hitems hmid hrest
      obtain ⟨next, hnext, hrest⟩ := foldlM_cons_eq_ok.1 hrest
      exact ih (front ++ [a]) next (by simpa using hitems) (hstep front a back mid next hitems hmid hnext) hrest

theorem run_split {front back : List α} {a : α}
    (hrun : (front ++ a :: back).foldlM step s = .ok t) :
    ∃ mid next, front.foldlM step s = .ok mid ∧ step mid a = .ok next ∧ back.foldlM step next = .ok t := by
  obtain ⟨mid, hmid, hrest⟩ := foldlM_append_eq_ok.1 hrun
  obtain ⟨next, hnext, hback⟩ := foldlM_cons_eq_ok.1 hrest
  exact ⟨mid, next, hmid, hnext, hback⟩

theorem run_error {s : σ} {e : ε} (hrun : items.foldlM step s = .error e) :
    ∃ front a back mid, items = front ++ a :: back ∧ front.foldlM step s = .ok mid ∧ step mid a = .error e := by
  induction items generalizing s with
  | nil => cases hrun
  | cons a rest ih =>
      rw [List.foldlM_cons, Except.bind_eq_error] at hrun
      rcases hrun with h | ⟨mid, hmid, hrest⟩
      · exact ⟨[], a, rest, s, rfl, rfl, h⟩
      · obtain ⟨front, b, back, last, hitems, hfront, hlast⟩ := ih hrest
        refine ⟨a :: front, b, back, last, by rw [hitems, List.cons_append], ?_, hlast⟩
        exact foldlM_cons_eq_ok.2 ⟨mid, hmid, hfront⟩

theorem foldlM_ok_of_forall (h : ∀ a ∈ items, ∀ s, ∃ s', step s a = .ok s') (s : σ) :
    ∃ s', items.foldlM step s = .ok s' := by
  induction items generalizing s with
  | nil => exact ⟨s, rfl⟩
  | cons a rest ih =>
      obtain ⟨mid, hmid⟩ := h a (List.mem_cons_self ..) s
      obtain ⟨next, hnext⟩ := ih (fun b hb => h b (List.mem_cons_of_mem _ hb)) mid
      exact ⟨next, foldlM_cons_eq_ok.2 ⟨mid, hmid, hnext⟩⟩

/-- A step that can be taken from one state can be taken from each. -/
def StateFree (step : σ → α → Except ε σ) (a : α) : Prop :=
  ∀ s t, (∃ s', step s a = .ok s') → ∃ t', step t a = .ok t'

theorem foldlM_stateFree (h : ∀ a ∈ items, StateFree step a) {s s' : σ}
    (hrun : items.foldlM step s = .ok s') (t : σ) : ∃ t', items.foldlM step t = .ok t' := by
  apply foldlM_ok_of_forall
  intro a ha t
  obtain ⟨front, back, rfl⟩ := List.append_of_mem ha
  obtain ⟨mid, next, _, hstep, _⟩ := run_split hrun
  exact h a ha mid t ⟨next, hstep⟩

variable {β : Type}

theorem run_keeps (read : σ → β)
    (hrun : items.foldlM step s = .ok t)
    (hstep : ∀ a ∈ items, ∀ mid next, step mid a = .ok next → read next = read mid) : read t = read s := by
  refine run_invariant (fun _ mid => read mid = read s) hrun rfl ?_
  intro front a back mid next hitems hmid hnext
  rw [hstep a (by simp [hitems]) mid next hnext, hmid]

theorem forall₂_of_map_eq {β γ : Type} {carry : α → γ} {carry' : β → γ} {holds : α → Prop} {holds' : β → Prop}
    {others : List β} (h : items.map carry = others.map carry') (hitems : ∀ a ∈ items, holds a)
    (hothers : ∀ b ∈ others, holds' b) :
    List.Forall₂ (fun a b => carry a = carry' b ∧ holds a ∧ holds' b) items others := by
  induction items generalizing others with
  | nil =>
      cases others with
      | nil => exact .nil
      | cons b rest => simp at h
  | cons a rest ih =>
      cases others with
      | nil => simp at h
      | cons b rest' =>
          rw [List.map_cons, List.map_cons, List.cons.injEq] at h
          exact .cons ⟨h.1, hitems a (by simp), hothers b (by simp)⟩
            (ih h.2 (fun c hc => hitems c (by simp [hc])) fun c hc => hothers c (by simp [hc]))

theorem forall₂_append_left {rel : α → β → Prop} {front back : List α} {others : List β}
    (h : List.Forall₂ rel (front ++ back) others) :
    ∃ front' back', others = front' ++ back' ∧ List.Forall₂ rel front front' ∧ List.Forall₂ rel back back' := by
  induction front generalizing others with
  | nil => exact ⟨[], others, rfl, .nil, h⟩
  | cons a front ih =>
      cases h with
      | cons hhead htail =>
          obtain ⟨front', back', rfl, hfront, hback⟩ := ih htail
          exact ⟨_ :: front', back', rfl, .cons hhead hfront, hback⟩

theorem forall₂_comp {β γ : Type} {rel : α → β → Prop} {rel' : β → γ → Prop} {rel'' : α → γ → Prop}
    (hcomp : ∀ a b c, rel a b → rel' b c → rel'' a c) {xs : List α} {ys : List β} {zs : List γ}
    (h : List.Forall₂ rel xs ys) (h' : List.Forall₂ rel' ys zs) : List.Forall₂ rel'' xs zs := by
  induction h generalizing zs with
  | nil =>
      cases h'
      exact .nil
  | cons hhead _ ih =>
      cases h' with
      | cons hhead' htail' => exact .cons (hcomp _ _ _ hhead hhead') (ih htail')

theorem forall₂_imp_of_mem {rel rel' : α → β → Prop} {others : List β}
    (h : List.Forall₂ rel items others) (himp : ∀ a b, a ∈ items → rel a b → rel' a b) :
    List.Forall₂ rel' items others := by
  induction h with
  | nil => exact .nil
  | cons hhead _ ih =>
      exact .cons (himp _ _ (by simp) hhead) (ih fun a b ha hrel => himp a b (List.mem_cons_of_mem _ ha) hrel)

theorem forall₂_exists_left {rel : α → β → Prop} {others : List β}
    (h : List.Forall₂ rel items others) {b : β} (hb : b ∈ others) : ∃ a ∈ items, rel a b := by
  induction h with
  | nil => simp at hb
  | @cons a c _ _ hhead _ ih =>
      rcases List.mem_cons.1 hb with rfl | hb
      · exact ⟨a, by simp, hhead⟩
      · obtain ⟨a', ha', hrel⟩ := ih hb
        exact ⟨a', List.mem_cons_of_mem _ ha', hrel⟩

theorem forall₂_exists_right {rel : α → β → Prop} {others : List β}
    (h : List.Forall₂ rel items others) {a : α} (ha : a ∈ items) : ∃ b ∈ others, rel a b :=
  forall₂_exists_left h.flip ha

theorem pairwise_of_forall₂ {rel : α → β → Prop} {apart : α → α → Prop} {apart' : β → β → Prop}
    (hapart : ∀ a b a' b', rel a b → rel a' b' → apart a a' → apart' b b') {others : List β}
    (h : List.Forall₂ rel items others) (hitems : items.Pairwise apart) : others.Pairwise apart' := by
  induction h with
  | nil => exact .nil
  | cons hhead htail ih =>
      obtain ⟨hfirst, hrest⟩ := List.pairwise_cons.1 hitems
      refine List.pairwise_cons.2 ⟨fun b hb => ?_, ih hrest⟩
      obtain ⟨a, ha, hrel⟩ := forall₂_exists_left htail hb
      exact hapart _ _ _ _ hhead hrel (hfirst a ha)

theorem foldlM_agree {τ β : Type} {step' : τ → β → Except ε τ} {alike : σ → τ → Prop} (paired : α → β → Prop)
    (hstep : ∀ s t a b, alike s t → paired a b → Except.Agree alike (step s a) (step' t b))
    {others : List β} (hitems : List.Forall₂ paired items others) {s : σ} {t : τ} (h : alike s t) :
    Except.Agree alike (items.foldlM step s) (others.foldlM step' t) := by
  induction hitems generalizing s t with
  | nil => exact h
  | cons hhead _ ih =>
      rw [List.foldlM_cons, List.foldlM_cons]
      exact (hstep _ _ _ _ h hhead).bind fun _ _ _ _ hnext => ih hnext

variable {f : α → Except ε σ} {results : List σ}

theorem mapM_eq_ok :
    items.mapM f = .ok results ↔ List.Forall₂ (fun a b => f a = .ok b) items results := by
  induction items generalizing results with
  | nil =>
      rw [List.mapM_nil, List.forall₂_nil_left_iff]
      exact ⟨fun h => by cases h; rfl, fun h => by rw [h]; rfl⟩
  | cons a rest ih =>
      simp only [List.mapM_cons, Except.bind_eq_ok, ih, List.forall₂_cons_left_iff]
      constructor
      · rintro ⟨b, hb, bs, hbs, h⟩
        cases h
        exact ⟨b, bs, hb, hbs, rfl⟩
      · rintro ⟨b, bs, hb, hbs, rfl⟩
        exact ⟨b, hb, bs, hbs, rfl⟩

theorem mapM_exists_of_mem
    (h : items.mapM f = .ok results) {b : σ} (hb : b ∈ results) : ∃ a ∈ items, f a = .ok b := by
  rw [mapM_eq_ok] at h
  induction h with
  | nil => simp at hb
  | @cons a c _ _ hhead _ ih =>
      rcases List.mem_cons.1 hb with rfl | hb
      · exact ⟨a, by simp, hhead⟩
      · obtain ⟨a', ha', heq⟩ := ih hb
        exact ⟨a', List.mem_cons_of_mem _ ha', heq⟩

theorem mapM_map_congr {γ : Type} (carry : σ → γ) (carried : α → γ) (hcarry : ∀ a b, f a = .ok b → carry b = carried a)
    (h : items.mapM f = .ok results) : results.map carry = items.map carried := by
  rw [mapM_eq_ok] at h
  induction h with
  | nil => rfl
  | cons hhead _ ih => rw [List.map_cons, List.map_cons, ih, hcarry _ _ hhead]

theorem mapM_map_eq (carry : σ → α) (hcarry : ∀ a b, f a = .ok b → carry b = a)
    (h : items.mapM f = .ok results) : results.map carry = items :=
  (mapM_map_congr carry id hcarry h).trans (List.map_id items)

theorem mapM_eq_map {g : α → σ} (h : ∀ a ∈ items, f a = .ok (g a)) :
    items.mapM f = .ok (items.map g) := by
  rw [mapM_eq_ok, List.forall₂_map_right_iff, List.forall₂_same]
  exact h

theorem forM_ok_of_mem {f : α → Except ε Unit} (h : items.forM f = .ok ()) :
    ∀ a ∈ items, f a = .ok () := by
  induction items with
  | nil => simp
  | cons a rest ih =>
      have hrun : (f a >>= fun _ => rest.forM f) = .ok () := h
      obtain ⟨_, hhead, htail⟩ := Except.bind_eq_ok.1 hrun
      intro b hb
      rcases List.mem_cons.1 hb with rfl | hb
      · exact hhead
      · exact ih htail b hb

theorem mapM_ok_of_mem
    (h : items.mapM f = .ok results) : ∀ a ∈ items, ∃ b, f a = .ok b := by
  rw [mapM_eq_ok] at h
  induction h with
  | nil => simp
  | @cons a b _ _ hhead _ ih =>
      intro c hc
      rcases List.mem_cons.1 hc with rfl | hc
      · exact ⟨b, hhead⟩
      · exact ih c hc

theorem mapM_ok_of_forall (h : ∀ a ∈ items, ∃ b, f a = .ok b) :
    ∃ results, items.mapM f = .ok results := by
  simp only [mapM_eq_ok]
  induction items with
  | nil => exact ⟨[], .nil⟩
  | cons a rest ih =>
      obtain ⟨b, hb⟩ := h a (by simp)
      obtain ⟨bs, hbs⟩ := ih fun c hc => h c (by simp [hc])
      exact ⟨b :: bs, .cons hb hbs⟩

theorem mapM_error {e : ε} (h : items.mapM f = .error e) :
    ∃ a ∈ items, f a = .error e := by
  induction items with
  | nil => cases h
  | cons a rest ih =>
      rw [List.mapM_cons, Except.bind_eq_error] at h
      rcases h with h | ⟨b, _, h⟩
      · exact ⟨a, List.mem_cons_self .., h⟩
      · rcases Except.bind_eq_error.1 h with h | ⟨_, _, h⟩
        · obtain ⟨c, hc, hfailed⟩ := ih h
          exact ⟨c, List.mem_cons_of_mem _ hc, hfailed⟩
        · cases h

theorem mapM_perm {items others : List α} (hperm : items.Perm others)
    (h : items.mapM f = .ok results) : ∃ results', others.mapM f = .ok results' ∧ results.Perm results' := by
  obtain ⟨results', hothers, hresults⟩ := List.perm_comp_forall₂ hperm.symm (mapM_eq_ok.1 h)
  exact ⟨results', mapM_eq_ok.2 hothers, hresults.symm⟩

theorem mem_flatten_mapM {f : α → Except ε (List σ)} {parts : List (List σ)}
    (h : items.mapM f = .ok parts) {b : σ} : b ∈ parts.flatten ↔ ∃ a ∈ items, ∃ part, f a = .ok part ∧ b ∈ part := by
  rw [List.mem_flatten]
  constructor
  · rintro ⟨part, hpart, hb⟩
    obtain ⟨a, ha, hf⟩ := mapM_exists_of_mem h hpart
    exact ⟨a, ha, part, hf, hb⟩
  · rintro ⟨a, ha, part, hf, hb⟩
    obtain ⟨part', hpart', hf'⟩ := forall₂_exists_right (mapM_eq_ok.1 h) ha
    cases hf.symm.trans hf'
    exact ⟨part, hpart', hb⟩

theorem mapM_paired_eq_ok {results : List (α × σ)}
    (h : items.mapM (fun a => do let b ← f a; Except.ok (a, b)) = .ok results) :
    results.map Prod.fst = items ∧ ∀ a b, (a, b) ∈ results ↔ a ∈ items ∧ f a = .ok b := by
  rw [mapM_eq_ok] at h
  induction h with
  | nil => simp
  | @cons a result rest results hhead _ ih =>
      obtain ⟨b, hb, heq⟩ := Except.bind_eq_ok.1 hhead
      cases heq
      refine ⟨by rw [List.map_cons, ih.1], fun c d => ?_⟩
      simp only [List.mem_cons, Prod.mk.injEq, ih.2]
      constructor
      · rintro (⟨rfl, rfl⟩ | ⟨hc, hd⟩)
        · exact ⟨.inl rfl, hb⟩
        · exact ⟨.inr hc, hd⟩
      · rintro ⟨rfl | hc, hd⟩
        · cases hb.symm.trans hd
          exact .inl ⟨rfl, rfl⟩
        · exact .inr ⟨hc, hd⟩

theorem mapM_zip (h : items.mapM f = .ok results) :
    items.mapM (fun a => do let b ← f a; Except.ok (a, b)) = .ok (items.zip results) := by
  rw [mapM_eq_ok] at h ⊢
  induction h with
  | nil => exact .nil
  | cons hhead _ ih => exact .cons (by rw [hhead]; rfl) ih

theorem mapM_zip_perm {items others : List α} (hperm : items.Perm others) (h : items.mapM f = .ok results) :
    ∃ results', others.mapM f = .ok results' ∧ (items.zip results).Perm (others.zip results') := by
  obtain ⟨pairs, hpairs, hzip⟩ := mapM_perm hperm (mapM_zip h)
  obtain ⟨hfirst, hmem⟩ := mapM_paired_eq_ok hpairs
  refine ⟨pairs.map Prod.snd, ?_, by rwa [← List.zip_of_prod hfirst rfl]⟩
  rw [mapM_eq_ok, ← hfirst, List.forall₂_map_left_iff, List.forall₂_map_right_iff, List.forall₂_same]
  exact fun pair hpair => ((hmem pair.1 pair.2).1 hpair).2

/-- The items a check that can fail accepts, every item checked in turn. -/
def selectM (f : α → Except ε Bool) : List α → Except ε (List α)
  | [] => .ok []
  | a :: rest => do
      let accepted ← f a
      let others ← selectM f rest
      .ok (if accepted then a :: others else others)

theorem selectM_eq_ok {f : α → Except ε Bool} {items kept : List α} :
    selectM f items = .ok kept ↔
      (∀ a ∈ items, ∃ accepted, f a = .ok accepted) ∧ kept = items.filter fun a => (f a).toOption = some true := by
  induction items generalizing kept with
  | nil => simp [selectM, eq_comm]
  | cons a rest ih =>
      simp only [selectM, Except.bind_eq_ok, ih, List.forall_mem_cons]
      constructor
      · rintro ⟨accepted, ha, others, ⟨hrest, rfl⟩, h⟩
        refine ⟨⟨⟨accepted, ha⟩, hrest⟩, ?_⟩
        rw [← Except.ok.inj h, List.filter_cons, ha]
        simp [Except.toOption]
      · rintro ⟨⟨⟨accepted, ha⟩, hrest⟩, rfl⟩
        refine ⟨accepted, ha, _, ⟨hrest, rfl⟩, ?_⟩
        rw [List.filter_cons, ha]
        simp [Except.toOption]

end Runs

namespace Sorting

variable {α κ : Type} [LinearOrder κ]

/-- Sorting by a key, stable, as a loop that inserts each element. -/
def sortByKey (key : α → κ) (items : List α) : List α :=
  items.insertionSort (fun a b => key a ≤ key b)

theorem sortByKey_perm (key : α → κ) (items : List α) : (sortByKey key items).Perm items :=
  List.perm_insertionSort _ items

theorem mem_sortByKey {key : α → κ} {items : List α} {a : α} : a ∈ sortByKey key items ↔ a ∈ items :=
  (sortByKey_perm key items).mem_iff

theorem sortByKey_sorted (key : α → κ) (items : List α) :
    (sortByKey key items).Pairwise (fun a b => key a ≤ key b) := by
  have : Std.Total (fun a b : α => key a ≤ key b) := ⟨fun a b => le_total (key a) (key b)⟩
  have : IsTrans α (fun a b => key a ≤ key b) := ⟨fun _ _ _ => le_trans⟩
  exact List.pairwise_insertionSort _ items

/-- The elements of a list once each, in order: what a sorted set of them is iterated as. -/
def distinct (items : List κ) : List κ := sortByKey id items.dedup

theorem mem_distinct {items : List κ} {a : κ} : a ∈ distinct items ↔ a ∈ items := by
  rw [distinct, mem_sortByKey, List.mem_dedup]

theorem distinct_nodup (items : List κ) : (distinct items).Nodup :=
  (sortByKey_perm id items.dedup).nodup_iff.2 (List.nodup_dedup items)

theorem distinct_sorted (items : List κ) : (distinct items).Pairwise (· < ·) :=
  ((sortByKey_sorted id items.dedup).and (distinct_nodup items)).imp fun h => lt_of_le_of_ne h.1 h.2

theorem eq_distinct {items others : List κ} (hsorted : others.Pairwise (· < ·)) (hmem : ∀ a, a ∈ others ↔ a ∈ items) :
    others = distinct items := by
  have hperm : others.Perm (distinct items) := by
    refine (List.perm_ext_iff_of_nodup (hsorted.imp ne_of_lt) (distinct_nodup items)).2 fun a => ?_
    rw [hmem, mem_distinct]
  exact hperm.eq_of_pairwise (fun a b _ _ hab hba => absurd hba (lt_asymm hab)) hsorted (distinct_sorted items)

theorem distinct_congr {items others : List κ} (h : ∀ a, a ∈ items ↔ a ∈ others) : distinct items = distinct others :=
  eq_distinct (distinct_sorted items) fun a => by rw [mem_distinct, h]

theorem key_le_of_split (key : α → κ) {items front back : List α} {a b : α}
    (h : sortByKey key items = front ++ a :: back) (hb : b ∈ front) : key b ≤ key a := by
  have hsorted := sortByKey_sorted key items
  rw [h, List.pairwise_append] at hsorted
  exact hsorted.2.2 b hb a (by simp)

theorem getLast?_sortByKey {key : α → κ} {items : List α} {a : α} (h : (sortByKey key items).getLast? = some a) :
    a ∈ items ∧ ∀ b ∈ items, key b ≤ key a := by
  obtain ⟨front, hfront⟩ := List.getLast?_eq_some_iff.1 h
  refine ⟨mem_sortByKey.1 (by rw [hfront]; simp), fun b hb => ?_⟩
  have hmem : b ∈ front ++ [a] := hfront ▸ mem_sortByKey.2 hb
  rcases List.mem_append.1 hmem with hmem | hmem
  · exact key_le_of_split key hfront hmem
  · exact (congrArg key (List.mem_singleton.1 hmem)).le

theorem getLast?_sortByKey_exists {key : α → κ} {items : List α} (h : items ≠ []) :
    ∃ a, (sortByKey key items).getLast? = some a := by
  refine Option.ne_none_iff_exists'.1 fun hnone => h ?_
  exact (List.getLast?_eq_none_iff.1 hnone ▸ (sortByKey_perm key items).symm).eq_nil

theorem sortByKey_map_eq {β γ : Type} {key : α → κ} {key' : β → κ} {carry : α → γ} {carry' : β → γ}
    (rank : γ → κ) {items : List α} {others : List β} (hperm : (items.map carry).Perm (others.map carry'))
    (hkey : ∀ a ∈ items, key a = rank (carry a)) (hkey' : ∀ b ∈ others, key' b = rank (carry' b))
    (hinj : ∀ a ∈ items.map carry, ∀ b ∈ items.map carry, rank a = rank b → a = b) :
    (sortByKey key items).map carry = (sortByKey key' others).map carry' := by
  have hp : ((sortByKey key items).map carry).Perm ((sortByKey key' others).map carry') :=
    (((sortByKey_perm key items).map carry).trans hperm).trans ((sortByKey_perm key' others).map carry').symm
  have hmem : ∀ c, c ∈ (sortByKey key items).map carry ↔ c ∈ items.map carry :=
    fun c => ((sortByKey_perm key items).map carry).mem_iff
  have hsorted : ((sortByKey key items).map carry).Pairwise fun a b => rank a ≤ rank b := by
    refine List.pairwise_map.2 ((sortByKey_sorted key items).imp_of_mem fun ha hb hle => ?_)
    rwa [← hkey _ (mem_sortByKey.1 ha), ← hkey _ (mem_sortByKey.1 hb)]
  have hsorted' : ((sortByKey key' others).map carry').Pairwise fun a b => rank a ≤ rank b := by
    refine List.pairwise_map.2 ((sortByKey_sorted key' others).imp_of_mem fun ha hb hle => ?_)
    rwa [← hkey' _ (mem_sortByKey.1 ha), ← hkey' _ (mem_sortByKey.1 hb)]
  refine hp.eq_of_pairwise ?_ hsorted hsorted'
  intro a b ha hb hab hba
  exact hinj a ((hmem a).1 ha) b ((hmem b).1 (hp.mem_iff.2 hb)) (le_antisymm hab hba)

end Sorting
