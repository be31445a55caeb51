import EdgarPlatform.Library.Runs
import EdgarPlatform.Library.IndexMap

/-!
# Runs over parts and over maps

A run whose steps are runs themselves is one run over the parts joined. A run over the entries of a map that files one value for each entry makes a map of the same keys.
-/

namespace Runs

variable {ε α β κ ρ σ : Type}

theorem run_flatMap {outer : σ → β → Except ε σ} {step : σ → α → Except ε σ} {parts : β → List α} {items : List β}
    {s t : σ} (h : ∀ b s s', outer s b = .ok s' → (parts b).foldlM step s = .ok s') (hrun : items.foldlM outer s = .ok t) :
    (items.flatMap parts).foldlM step s = .ok t := by
  induction items generalizing s with
  | nil => exact hrun
  | cons b rest ih =>
      obtain ⟨mid, hmid, hrest⟩ := Runs.foldlM_cons_eq_ok.1 hrun
      rw [List.flatMap_cons]
      exact Runs.foldlM_append_eq_ok.2 ⟨mid, h b s mid hmid, ih hrest⟩

theorem run_filter {outer step : σ → α → Except ε σ} {keep : α → Bool} {items : List α} {s t : σ}
    (h : ∀ a s s', outer s a = .ok s' → if keep a = true then step s a = .ok s' else s = s') (hrun : items.foldlM outer s = .ok t) :
    (items.filter keep).foldlM step s = .ok t := by
  induction items generalizing s with
  | nil => exact hrun
  | cons a rest ih =>
      obtain ⟨mid, hmid, hrest⟩ := Runs.foldlM_cons_eq_ok.1 hrun
      have hstep := h a s mid hmid
      rw [List.filter_cons]
      split_ifs at hstep ⊢ with hkeep
      · exact Runs.foldlM_cons_eq_ok.2 ⟨mid, hstep, ih hrest⟩
      · rw [hstep]
        exact ih hrest

/-- A run over the entries of a map that files a value for each makes a map of the same keys, in the same order, with the values made of theirs. -/
theorem run_entries [DecidableEq κ] {step : σ → κ × α → Except ε σ} (filed : σ → IndexMap κ ρ) (made : α → ρ → Prop) {m : IndexMap κ α} {s t : σ}
    (hstart : filed s = .empty)
    (hstep : ∀ s entry s', step s entry = .ok s' → ∃ value, filed s' = (filed s).insert entry.1 value ∧ made entry.2 value)
    (h : m.entries.foldlM step s = .ok t) : (filed t).keys = m.keys ∧ ∀ key, (m.get? key = none → (filed t).get? key = none) ∧
      ∀ a, m.get? key = some a → ∃ value, (filed t).get? key = some value ∧ made a value := by
  refine run_invariant (fun front s => (filed s).keys = front.map Prod.fst ∧ ∀ key, (IndexMap.lookupEntry key front = none → (filed s).get? key = none) ∧
    ∀ a, IndexMap.lookupEntry key front = some a → ∃ value, (filed s).get? key = some value ∧ made a value)
    h ?_ fun front entry back s s' hentries hheld hnext => ?_
  · rw [hstart]
    exact ⟨rfl, fun key => ⟨fun _ => rfl, fun _ hnone => nomatch hnone⟩⟩
  · obtain ⟨value, hfiled, hmade⟩ := hstep s entry s' hnext
    have hfresh : entry.1 ∉ front.map Prod.fst := by
      have hnodup := m.nodup
      rw [hentries, List.map_append, List.map_cons, List.nodup_append] at hnodup
      exact fun hmem => hnodup.2.2 _ hmem _ (List.mem_cons_self ..) rfl
    rw [hfiled]
    refine ⟨?_, fun key => ?_⟩
    · rw [IndexMap.keys_insert, hheld.1, if_neg hfresh, List.map_append, List.map_singleton]
    · have hentry : IndexMap.lookupEntry key [entry] = if entry.1 = key then some entry.2 else none := rfl
      rw [IndexMap.get?_insert, IndexMap.lookupEntry_append, hentry]
      by_cases hkey : key = entry.1
      · have hfree : IndexMap.lookupEntry key front = none := by
          cases hfound : IndexMap.lookupEntry key front with
          | none => rfl
          | some a => exact absurd (List.mem_map_of_mem (f := Prod.fst) (IndexMap.lookupEntry_eq_some hfound)) (hkey ▸ hfresh)
        rw [if_pos hkey, if_pos hkey.symm, hfree, Option.none_or]
        refine ⟨fun hnone => (nomatch hnone), fun a ha => ⟨value, rfl, ?_⟩⟩
        rw [← Option.some.inj ha]
        exact hmade
      · rw [if_neg hkey, if_neg (Ne.symm hkey), Option.or_none]
        exact hheld.2 key

end Runs
