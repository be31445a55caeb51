import EdgarPlatform.Matching.Reaching

/-!
# What a turn that binds writes

The merges of a turn, the values it holds for its master and its bind each write some fields of the state and leave the others. The decisions are read back by their fields.
-/

namespace EdgarPlatform.Matching

open Records (Env Json Object readText)

theorem mergeBody_get? (basis : Basis) (c : Consolidations) (entity other key : String) :
    (mergeBody basis c entity other).get? key = IndexMap.lookupEntry key
      [("operation", .str "merge"), ("actor", .str ("rule:" ++ basis.ruleId ++ "@" ++ basis.version)),
        ("reason", .str ("identifier_match " ++ basis.idNamespace)), ("at", .str basis.time),
        ("left", .str entity), ("right", .str other), ("depends_on", .arr ((c.depends entity other).map .str)),
        ("evidence", .arr [.str basis.assertion]), ("rule_id", .str basis.ruleId),
        ("rule_version", .str basis.version)] :=
  IndexMap.get?_ofList_eq (by simp only [List.map_append, List.map_cons, List.map_nil]; decide) key

theorem bindBody_get? (basis : Basis) (subject entity : String) (withheld : List (String × String)) (key : String) :
    (bindBody basis subject entity withheld).get? key = IndexMap.lookupEntry key
      ([("operation", .str "bind"), ("actor", .str ("rule:" ++ basis.ruleId ++ "@" ++ basis.version)),
        ("reason", .str ("identifier_match " ++ basis.idNamespace)), ("at", .str basis.time),
        ("subject", .str subject), ("entity_id", .str entity),
        ("evidence", .arr [.str basis.assertion]), ("rule_id", .str basis.ruleId),
        ("rule_version", .str basis.version)] ++ withheldJson withheld) := by
  refine IndexMap.get?_ofList_eq ?_ key
  unfold withheldJson
  split_ifs <;> (simp only [List.map_append, List.map_cons, List.map_nil]; decide)

theorem withId_get? (digest : String → String) (body : Object) (key : String) :
    (withId digest body).get? key =
      if key = "decision_id" then some (.str (contentHash digest body)) else body.get? key :=
  IndexMap.get?_insert _ _ _ _

theorem readText_of_get? {body : Object} {key value : String} (h : body.get? key = some (.str value)) :
    readText body key = .ok value := by
  simp [readText, h]

def BindsTo (body : Object) (entity : String) : Prop :=
  readText body "operation" = .ok "bind" ∧ readText body "entity_id" = .ok entity

theorem bindBody_bindsTo (digest : String → String) (basis : Basis) (subject entity : String)
    (withheld : List (String × String)) : BindsTo (withId digest (bindBody basis subject entity withheld)) entity := by
  constructor <;>
    exact readText_of_get? (by simp [withId_get?, bindBody_get?, IndexMap.lookupEntry])

theorem mergeBody_operation (digest : String → String) (basis : Basis) (c : Consolidations) (entity other : String) :
    readText (withId digest (mergeBody basis c entity other)) "operation" = .ok "merge" :=
  readText_of_get? (by simp [withId_get?, mergeBody_get?, IndexMap.lookupEntry])

def MergesInto (body : Object) (kept other : String) : Prop :=
  readText body "operation" = .ok "merge" ∧ readText body "left" = .ok kept ∧ readText body "right" = .ok other

theorem mergeBody_mergesInto (digest : String → String) (basis : Basis) (c : Consolidations) (entity other : String) :
    MergesInto (withId digest (mergeBody basis c entity other)) entity other := by
  refine ⟨mergeBody_operation _ _ _ _ _, ?_, ?_⟩ <;>
    exact readText_of_get? (by simp [withId_get?, mergeBody_get?, IndexMap.lookupEntry])

theorem MergesInto.eq {body : Object} {kept other kept' other' : String} (h : MergesInto body kept other)
    (h' : MergesInto body kept' other') : kept' = kept ∧ other' = other :=
  ⟨Except.ok.inj (h'.2.1.symm.trans h.2.1), Except.ok.inj (h'.2.2.symm.trans h.2.2)⟩

theorem BindsTo.not_merges {body : Object} {entity kept other : String} (h : BindsTo body entity) :
    ¬ MergesInto body kept other := by
  intro hmerges
  have hop := Except.ok.inj (h.1.symm.trans hmerges.1)
  revert hop
  decide

/-- The values a bind withholds from its master, as their sources wrote them. -/
def Withholds (body : Object) (value : String × String) : Prop :=
  ∃ withheld, body.get? "withheld" = some (.arr withheld) ∧
    .obj [("namespace", .str value.1), ("raw", .str value.2)] ∈ withheld

theorem bindBody_withholds (digest : String → String) (basis : Basis) (subject entity : String)
    {withheld : List (String × String)} {value : String × String} (h : value ∈ withheld) :
    Withholds (withId digest (bindBody basis subject entity withheld)) value := by
  have hne : withheld ≠ [] := by
    intro hnil
    simp [hnil] at h
  refine ⟨withheld.map fun value => .obj [("namespace", .str value.1), ("raw", .str value.2)], ?_, ?_⟩
  · simp [withId_get?, bindBody_get?, IndexMap.lookupEntry, withheldJson, hne]
  · exact List.mem_map.2 ⟨value, h, rfl⟩

theorem bindBody_subject (digest : String → String) (basis : Basis) (subject entity : String)
    (withheld : List (String × String)) :
    readText (withId digest (bindBody basis subject entity withheld)) "subject" = .ok subject :=
  readText_of_get? (by simp [withId_get?, bindBody_get?, IndexMap.lookupEntry])

section Merges

variable (env : Env) (basis : Basis) (entity : String)

theorem mergeOthers_frame (others : List String) (s : Linking) :
    (others.foldl (mergeOther env basis entity) s).found = s.found ∧
      (others.foldl (mergeOther env basis entity) s).ids = s.ids ∧
      (others.foldl (mergeOther env basis entity) s).result.identities = s.result.identities := by
  induction others generalizing s with
  | nil => exact ⟨rfl, rfl, rfl⟩
  | cons other rest ih => exact ih _

theorem mergeOthers_moved (others : List String) (s : Linking) (x : String) :
    (others.foldl (mergeOther env basis entity) s).moved.get? x =
      if x ∈ others then some entity else s.moved.get? x := by
  induction others generalizing s with
  | nil => simp
  | cons other rest ih =>
      rw [List.foldl_cons, ih]
      simp only [mergeOther, IndexMap.get?_insert, List.mem_cons]
      split_ifs <;> simp_all

theorem mergeOthers_decisions (others : List String) (s : Linking) :
    ∃ added, (others.foldl (mergeOther env basis entity) s).result.decisions = s.result.decisions ++ added ∧
      ∀ body ∈ added, readText body "operation" = .ok "merge" := by
  induction others generalizing s with
  | nil => exact ⟨[], by simp, by simp⟩
  | cons other rest ih =>
      obtain ⟨added, hadded, hmerges⟩ := ih (mergeOther env basis entity s other)
      refine ⟨withId env.digest (mergeBody basis s.consolidations entity other) :: added, ?_, ?_⟩
      · rw [List.foldl_cons, hadded]
        simp [mergeOther]
      · intro body hbody
        rcases List.mem_cons.1 hbody with rfl | hbody
        · exact mergeBody_operation _ _ _ _ _
        · exact hmerges body hbody

theorem mergeOthers_merged (others : List String) (s : Linking) (kept other : String) :
    (∃ body ∈ (others.foldl (mergeOther env basis entity) s).result.decisions, MergesInto body kept other) ↔
      (∃ body ∈ s.result.decisions, MergesInto body kept other) ∨ kept = entity ∧ other ∈ others := by
  induction others generalizing s with
  | nil => simp
  | cons first rest ih =>
      have hfirst := mergeBody_mergesInto env.digest basis s.consolidations entity first
      have hstep : (∃ body ∈ (mergeOther env basis entity s first).result.decisions, MergesInto body kept other) ↔
          (∃ body ∈ s.result.decisions, MergesInto body kept other) ∨ kept = entity ∧ other = first := by
        constructor
        · intro h
          obtain ⟨body, hbody, hmerges⟩ := h
          rcases List.mem_append.1 hbody with hold | hnew
          · exact .inl ⟨body, hold, hmerges⟩
          · obtain rfl := List.mem_singleton.1 hnew
            exact .inr (hfirst.eq hmerges)
        · intro h
          rcases h with ⟨body, hold, hmerges⟩ | ⟨rfl, rfl⟩
          · exact ⟨body, List.mem_append_left _ hold, hmerges⟩
          · exact ⟨_, List.mem_append_right _ (List.mem_singleton_self _), hfirst⟩
      rw [List.foldl_cons, ih, hstep, List.mem_cons, and_or_left, or_assoc]

end Merges

section Holds

variable (created : Bool) (selected : Match) (entity kind : String)

theorem holdItems_frame (items : List Match) (s : Linking) :
    (items.foldl (holdItem created selected entity kind) s).ids = s.ids ∧
      (items.foldl (holdItem created selected entity kind) s).consolidations = s.consolidations ∧
      (items.foldl (holdItem created selected entity kind) s).moved = s.moved ∧
      (items.foldl (holdItem created selected entity kind) s).result.identities = s.result.identities ∧
      (items.foldl (holdItem created selected entity kind) s).result.decisions = s.result.decisions := by
  induction items generalizing s with
  | nil => exact ⟨rfl, rfl, rfl, rfl, rfl⟩
  | cons item rest ih =>
      rw [List.foldl_cons]
      have hstep : (holdItem created selected entity kind s item).ids = s.ids ∧
          (holdItem created selected entity kind s item).consolidations = s.consolidations ∧
          (holdItem created selected entity kind s item).moved = s.moved ∧
          (holdItem created selected entity kind s item).result.identities = s.result.identities ∧
          (holdItem created selected entity kind s item).result.decisions = s.result.decisions := by
        unfold holdItem
        split_ifs <;> exact ⟨rfl, rfl, rfl, rfl, rfl⟩
      obtain ⟨h₁, h₂, h₃, h₄, h₅⟩ := ih (holdItem created selected entity kind s item)
      obtain ⟨g₁, g₂, g₃, g₄, g₅⟩ := hstep
      exact ⟨h₁.trans g₁, h₂.trans g₂, h₃.trans g₃, h₄.trans g₄, h₅.trans g₅⟩

def Gives (created : Bool) (selected : Match) (items : List Match) (key : String × String) : Prop :=
  ∃ item ∈ items, item.key = key ∧ (item.issued = true ∨ created = true ∧ key = selected.key)

theorem holdItems_found (items : List Match) (s : Linking) (key : String × String) :
    (s.found.get? key ≠ none →
      (items.foldl (holdItem created selected entity kind) s).found.get? key = s.found.get? key) ∧
    (s.found.get? key = none → Gives created selected items key →
      (items.foldl (holdItem created selected entity kind) s).found.get? key = some (.ofList [(entity, kind)])) ∧
    (s.found.get? key = none → ¬ Gives created selected items key →
      (items.foldl (holdItem created selected entity kind) s).found.get? key = none) := by
  induction items generalizing s with
  | nil => simp [Gives]
  | cons item rest ih =>
      obtain ⟨hheld, hgiven, hnot⟩ := ih (holdItem created selected entity kind s item)
      rw [List.foldl_cons]
      have hstep : (holdItem created selected entity kind s item).found.get? key =
          if key = item.key ∧ s.found.get? key = none ∧ (item.issued = true ∨ created = true ∧ key = selected.key) then
            some (.ofList [(entity, kind)])
          else s.found.get? key := by
        unfold holdItem
        by_cases hkey : key = item.key
        · subst hkey
          cases hget : s.found.get? item.key with
          | none => simp [IndexMap.contains, hget]; split_ifs <;> simp_all
          | some held => simp [IndexMap.contains, hget]
        · split_ifs <;> simp_all [IndexMap.get?_insert]
      have hgives : Gives created selected (item :: rest) key ↔
          (key = item.key ∧ (item.issued = true ∨ created = true ∧ key = selected.key)) ∨
            Gives created selected rest key := by
        unfold Gives
        simp only [List.mem_cons, or_and_right, exists_or, exists_eq_left, eq_comm (a := item.key)]
      refine ⟨fun hsome => ?_, fun hnone hgive => ?_, fun hnone hnever => ?_⟩
      · rw [if_neg fun h => hsome h.2.1] at hstep
        rw [hheld (by rwa [hstep]), hstep]
      · by_cases hhere : key = item.key ∧ (item.issued = true ∨ created = true ∧ key = selected.key)
        · rw [if_pos ⟨hhere.1, hnone, hhere.2⟩] at hstep
          rw [hheld (by simp [hstep]), hstep]
        · rw [if_neg fun h => hhere ⟨h.1, h.2.2⟩, hnone] at hstep
          exact hgiven hstep ((hgives.1 hgive).resolve_left hhere)
      · rw [hgives, not_or] at hnever
        rw [if_neg fun h => hnever.1 ⟨h.1, h.2.2⟩, hnone] at hstep
        exact hnot hstep hnever.2

end Holds

section Write

variable (env : Env) (basis : Basis) (subject kind entity : String) (items : List Match) (selected : Match) (r : Reach)
  (s : Linking)

theorem write_ids : (write env basis subject kind entity items selected r s).ids = s.ids := by
  unfold write bindRecord
  exact (holdItems_frame _ _ _ _ _ _).1.trans (mergeOthers_frame _ _ _ _ _).2.1

theorem write_identities :
    (write env basis subject kind entity items selected r s).result.identities = s.result.identities := by
  unfold write bindRecord
  exact (holdItems_frame _ _ _ _ _ _).2.2.2.1.trans (mergeOthers_frame _ _ _ _ _).2.2

theorem write_moved (x : String) :
    (write env basis subject kind entity items selected r s).moved.get? x =
      if x ∈ r.mergers ∧ x ≠ entity then some entity else s.moved.get? x := by
  have hmoved : (write env basis subject kind entity items selected r s).moved =
      ((r.mergers.filter (· ≠ entity)).foldl (mergeOther env basis entity) s).moved :=
    (holdItems_frame _ _ _ _ _ _).2.2.1
  rw [hmoved, mergeOthers_moved]
  simp [List.mem_filter]

theorem write_decisions :
    (write env basis subject kind entity items selected r s).result.decisions =
      ((r.mergers.filter (· ≠ entity)).foldl (mergeOther env basis entity) s).result.decisions ++
        [withId env.digest (bindBody basis subject entity (r.withheld entity))] :=
  congrArg (· ++ [withId env.digest (bindBody basis subject entity (r.withheld entity))])
    (holdItems_frame _ _ _ _ _ _).2.2.2.2

theorem write_found (key : String × String) :
    (s.found.get? key ≠ none →
      (write env basis subject kind entity items selected r s).found.get? key = s.found.get? key) ∧
    (s.found.get? key = none → Gives (r.matched.size = 0) selected items key →
      (write env basis subject kind entity items selected r s).found.get? key = some (.ofList [(entity, kind)])) ∧
    (s.found.get? key = none → ¬ Gives (r.matched.size = 0) selected items key →
      (write env basis subject kind entity items selected r s).found.get? key = none) := by
  have h := holdItems_found (r.matched.size = 0) selected entity kind items
    ((r.mergers.filter (· ≠ entity)).foldl (mergeOther env basis entity) s) key
  rw [(mergeOthers_frame env basis entity _ s).1] at h
  exact h

end Write

end EdgarPlatform.Matching
