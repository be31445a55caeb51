import EdgarPlatform.Matching.Link

/-!
# What a record reaches

Reaching reads a record's values one after another, and each value's masters one after another, until there is a problem. What it met is the list of all these pairs in order. A master it matched was met by the value; where there was no problem every master met is matched, has the record's kind and is not suspended.
-/

namespace EdgarPlatform.Matching

/-- A value, a master that holds it and the kind the master is held under. -/
structure Met where
  item : Match
  entity : String
  kind : String

def merges (item : Match) : Prop := item.outcomes.onSeveral = .merge

instance (item : Match) : Decidable (merges item) := inferInstanceAs (Decidable (_ = _))

/-- What a search that met these masters says. -/
structure Reach.Of (suspended : List String) (kind : String) (met : List Met) (r : Reach) : Prop where
  sound : ∀ entity item, item ∈ (r.matched.get? entity).getD [] → ∃ held, ⟨item, entity, held⟩ ∈ met
  nonempty : ∀ entity, r.matched.get? entity ≠ some []
  merging : ∀ entity ∈ r.merging, ∃ item ∈ (r.matched.get? entity).getD [], merges item
  complete : r.problem = none → ∀ m ∈ met, m.kind = kind ∧ m.entity ∉ suspended ∧
    m.item ∈ (r.matched.get? m.entity).getD [] ∧ (merges m.item → m.entity ∈ r.merging)

section Search

variable {suspended : List String} {kind : String} {met : List Met} {r : Reach}

theorem Reach.Of.start (suspended : List String) (kind : String) : Reach.Of suspended kind [] .start := by
  constructor <;> simp [Reach.start]

theorem Reach.Of.stopped (h : Reach.Of suspended kind met r) (hproblem : r.problem ≠ none) (more : List Met) :
    Reach.Of suspended kind (met ++ more) r where
  sound := fun entity item hitem => by
    obtain ⟨held, hmem⟩ := h.sound entity item hitem
    exact ⟨held, by simp [hmem]⟩
  nonempty := h.nonempty
  merging := h.merging
  complete := fun hnone => absurd hnone hproblem

theorem Reach.Of.problem (h : Reach.Of suspended kind met r) (problem : String × String) (more : List Met) :
    Reach.Of suspended kind (met ++ more) { r with problem := some problem } where
  sound := fun entity item hitem => by
    obtain ⟨held, hmem⟩ := h.sound entity item hitem
    exact ⟨held, by simp [hmem]⟩
  nonempty := h.nonempty
  merging := h.merging
  complete := fun hnone => by simp at hnone

theorem mem_matched_insert {matched : IndexMap String (List Match)} {entity other : String} {item x : Match} :
    x ∈ ((matched.insert entity ((matched.get? entity).getD [] ++ [item])).get? other).getD [] ↔
      x ∈ (matched.get? other).getD [] ∨ other = entity ∧ x = item := by
  rw [IndexMap.get?_insert]
  split_ifs with heq
  · subst heq
    simp
  · simp [heq]

theorem Reach.Of.meet (h : Reach.Of suspended kind met r) (item : Match) (held : String × String) :
    Reach.Of suspended kind (met ++ [⟨item, held.1, held.2⟩]) (reachHolder suspended kind item r held) := by
  unfold reachHolder
  by_cases hproblem : r.problem = none
  · rw [if_neg (by simp [hproblem])]
    split_ifs with hkind hsuspended hmerge
    · exact h.problem _ _
    · exact h.problem _ _
    · constructor
      · intro entity x hx
        rcases mem_matched_insert.1 hx with hx | ⟨rfl, rfl⟩
        · obtain ⟨k, hmem⟩ := h.sound entity x hx
          exact ⟨k, by simp [hmem]⟩
        · exact ⟨held.2, by simp⟩
      · intro entity
        simp only [IndexMap.get?_insert]
        split_ifs
        · simp
        · exact h.nonempty entity
      · intro entity hentity
        rcases List.mem_append.1 hentity with hold | hnew
        · obtain ⟨x, hx, hm⟩ := h.merging entity hold
          exact ⟨x, mem_matched_insert.2 (.inl hx), hm⟩
        · exact ⟨item, mem_matched_insert.2 (.inr ⟨by simpa using hnew, rfl⟩), hmerge⟩
      · intro _ m hm
        rcases List.mem_append.1 hm with hold | hnew
        · obtain ⟨hk, hs, hmatched, hmerging⟩ := h.complete hproblem m hold
          exact ⟨hk, hs, mem_matched_insert.2 (.inl hmatched), fun hmm => by simp [hmerging hmm]⟩
        · obtain rfl : m = ⟨item, held.1, held.2⟩ := by simpa using hnew
          exact ⟨not_not.1 hkind, hsuspended, mem_matched_insert.2 (.inr ⟨rfl, rfl⟩), fun _ => by simp⟩
    · constructor
      · intro entity x hx
        rcases mem_matched_insert.1 hx with hx | ⟨rfl, rfl⟩
        · obtain ⟨k, hmem⟩ := h.sound entity x hx
          exact ⟨k, by simp [hmem]⟩
        · exact ⟨held.2, by simp⟩
      · intro entity
        simp only [IndexMap.get?_insert]
        split_ifs
        · simp
        · exact h.nonempty entity
      · intro entity hentity
        obtain ⟨x, hx, hm⟩ := h.merging entity hentity
        exact ⟨x, mem_matched_insert.2 (.inl hx), hm⟩
      · intro _ m hm
        rcases List.mem_append.1 hm with hold | hnew
        · obtain ⟨hk, hs, hmatched, hmerging⟩ := h.complete hproblem m hold
          exact ⟨hk, hs, mem_matched_insert.2 (.inl hmatched), hmerging⟩
        · obtain rfl : m = ⟨item, held.1, held.2⟩ := by simpa using hnew
          exact ⟨not_not.1 hkind, hsuspended, mem_matched_insert.2 (.inr ⟨rfl, rfl⟩), fun hmm => absurd hmm hmerge⟩
  · rw [if_pos (by simpa [Option.isSome_iff_ne_none] using hproblem)]
    exact h.stopped hproblem _

theorem Reach.Of.meetAll (h : Reach.Of suspended kind met r) (item : Match) (holders : List (String × String)) :
    Reach.Of suspended kind (met ++ holders.map fun held => ⟨item, held.1, held.2⟩)
      (holders.foldl (reachHolder suspended kind item) r) := by
  induction holders generalizing met r with
  | nil => simpa using h
  | cons held rest ih =>
      rw [List.foldl_cons, List.map_cons]
      have hrest := ih (h.meet item held)
      rwa [List.append_assoc] at hrest

end Search

def metBy (found : Found) (moved : IndexMap String String) (item : Match) : List Met :=
  ((heldBy found moved item.key).elim [] IndexMap.entries).map fun held => ⟨item, held.1, held.2⟩

def metAll (found : Found) (moved : IndexMap String String) (items : List Match) : List Met :=
  items.flatMap (metBy found moved)

variable {found : Found} {moved : IndexMap String String} {suspended : List String} {kind : String}

theorem Reach.Of.reachItem {met : List Met} {r : Reach} (h : Reach.Of suspended kind met r) (item : Match) :
    Reach.Of suspended kind (met ++ metBy found moved item) (reachItem found moved suspended kind r item) := by
  unfold Matching.reachItem metBy
  split_ifs with hproblem
  · exact h.stopped (by simpa [Option.isSome_iff_ne_none] using hproblem) _
  · cases hheld : heldBy found moved item.key with
    | none => simpa using h
    | some held =>
        simp only [Option.elim]
        split_ifs with hseveral
        · exact h.problem _ _
        · exact h.meetAll item held.entries

theorem reach_of (found : Found) (moved : IndexMap String String) (suspended : List String) (kind : String)
    (items : List Match) :
    Reach.Of suspended kind (metAll found moved items) (reach found moved suspended kind items) := by
  have hrun : ∀ (items : List Match) (met : List Met) (r : Reach), Reach.Of suspended kind met r →
      Reach.Of suspended kind (met ++ metAll found moved items)
        (items.foldl (reachItem found moved suspended kind) r) := by
    intro items
    induction items with
    | nil =>
        intro met r h
        simpa [metAll] using h
    | cons item rest ih =>
        intro met r h
        have hnext : Reach.Of suspended kind (met ++ metBy found moved item) (reachItem found moved suspended kind r item) :=
          h.reachItem item
        have hrest := ih _ _ hnext
        rwa [List.append_assoc] at hrest
  exact hrun items [] .start (.start suspended kind)

variable {items : List Match}

theorem mem_metAll {m : Met} :
    m ∈ metAll found moved items ↔
      m.item ∈ items ∧ ∃ held, heldBy found moved m.item.key = some held ∧ held.get? m.entity = some m.kind := by
  obtain ⟨item, entity, k⟩ := m
  simp only [metAll, List.mem_flatMap, metBy, List.mem_map, Met.mk.injEq]
  constructor
  · intro h
    obtain ⟨x, hx, held, hheld, rfl, rfl, rfl⟩ := h
    refine ⟨hx, ?_⟩
    cases hget : heldBy found moved x.key with
    | none => simp [hget] at hheld
    | some m => exact ⟨m, rfl, IndexMap.get?_eq_some_iff.2 (by simpa [hget] using hheld)⟩
  · intro h
    obtain ⟨hitem, held, hget, hentry⟩ := h
    exact ⟨item, hitem, (entity, k), by simpa [hget] using IndexMap.get?_eq_some_iff.1 hentry, rfl, rfl, rfl⟩

theorem exists_met_of_key {entity : String}
    (h : entity ∈ (reach found moved suspended kind items).matched.keys) :
    ∃ item ∈ items, ∃ held, heldBy found moved item.key = some held ∧ entity ∈ held.keys := by
  have hof := reach_of found moved suspended kind items
  obtain ⟨matched, hmatched⟩ := IndexMap.mem_keys_iff.1 h
  cases matched with
  | nil => exact absurd hmatched (hof.nonempty entity)
  | cons item rest =>
      obtain ⟨k, hmet⟩ := hof.sound entity item (by simp [hmatched])
      obtain ⟨hitem, held, hheld, hget⟩ := mem_metAll.1 hmet
      exact ⟨item, hitem, held, hheld, IndexMap.mem_keys_of_get? hget⟩

theorem mem_matched_of_held {item : Match} {held : IndexMap String String} {entity : String}
    (hnone : (reach found moved suspended kind items).problem = none) (hitem : item ∈ items)
    (hheld : heldBy found moved item.key = some held) (hentity : entity ∈ held.keys) :
    item ∈ ((reach found moved suspended kind items).matched.get? entity).getD [] := by
  obtain ⟨k, hk⟩ := IndexMap.mem_keys_iff.1 hentity
  exact ((reach_of found moved suspended kind items).complete hnone ⟨item, entity, k⟩
    (mem_metAll.2 ⟨hitem, held, hheld, hk⟩)).2.2.1

/-! ### What one turn can do

A turn that succeeds ends in one of four ways: the record goes to review, it waits, its rule is refused, or it binds. The inversion lemma lists what each demanded and left; the runs of a batch are reasoned about through it.
-/

open Records (Calendar Env Json Object readText)

variable {env : Env} {input : PreparedInputs} {stored : Found} {s s' : Linking} {entry : String × List Match}

def HasKind (input : PreparedInputs) (subject kind : String) : Prop :=
  ∃ record, input.plan.records.get? subject = some record ∧ readText record "kind" = .ok kind

def Refused (input : PreparedInputs) (subject : String) (selected : Match) : Prop :=
  ∃ ruleId version, readText selected.rule "rule_id" = .ok ruleId ∧ readText selected.rule "version" = .ok version ∧
    (subject, ruleId, version) ∈ input.refused

def reachAt (input : PreparedInputs) (s : Linking) (kind : String) (items : List Match) : Reach :=
  reach s.found s.moved input.suspended kind items

def mintItem (items : List Match) : Option Match := items.find? fun item => item.outcomes.onNoMatch = .mint

def Linking.created (s : Linking) (entity kind floor : String) (ids : List String) (floors : IndexMap String String) :
    Linking :=
  { s with ids, floors, result := { s.result with identities := s.result.identities ++ [identityBody entity kind floor] } }

/-- How a record that goes on has chosen its master. -/
inductive Chosen (input : PreparedInputs) (stored : Found) (s : Linking) (kind : String) (items : List Match) (r : Reach) :
    Linking → String → Match → Prop
  | reached {entity : String} {selected : Match} : r.target = some entity → r.selected entity = some selected →
      Chosen input stored s kind items r (bindReached stored s r entity) entity selected
  | created {entity floor : String} {ids : List String} {floors : IndexMap String String} {selected : Match} :
      r.target = none → mintItem items = some selected → s.ids = entity :: ids →
      Chosen input stored s kind items r (s.created entity kind floor ids floors) entity selected

/-- What the decisions of a turn rest on, read from the rule, the record and the batch. -/
structure Basis.Of (env : Env) (input : PreparedInputs) (subject : String) (selected : Match) (basis : Basis) : Prop where
  ruleId : readText selected.rule "rule_id" = .ok basis.ruleId
  version : readText selected.rule "version" = .ok basis.version
  idNamespace : basis.idNamespace = selected.idNamespace
  time : prepareDecisionTime env.calendar input.asOf = .ok basis.time
  assertion : ∃ record, input.plan.records.get? subject = some record ∧ readText record "assertion_id" = .ok basis.assertion
  allowed : (subject, basis.ruleId, basis.version) ∉ input.refused

/-- The ways a turn ends. -/
inductive Turned (env : Env) (input : PreparedInputs) (stored : Found) (s : Linking) (entry : String × List Match) :
    Linking → Prop
  | reviewed {kind : String} {problem : String × String} {body : Object} : HasKind input entry.1 kind →
      (reachAt input s kind entry.2).review s.consolidations = some problem →
      Turned env input stored s entry { s with result := { s.result with reviews := s.result.reviews ++ [body] } }
  | waited {kind : String} : HasKind input entry.1 kind →
      (reachAt input s kind entry.2).review s.consolidations = none → (reachAt input s kind entry.2).target = none →
      mintItem entry.2 = none → Turned env input stored s entry s
  | refused {kind entity : String} {t : Linking} {selected : Match} : HasKind input entry.1 kind →
      (reachAt input s kind entry.2).review s.consolidations = none →
      Chosen input stored s kind entry.2 (reachAt input s kind entry.2) t entity selected →
      Refused input entry.1 selected → Turned env input stored s entry t
  | bound {kind entity : String} {t : Linking} {selected : Match} {basis : Basis} : HasKind input entry.1 kind →
      (reachAt input s kind entry.2).review s.consolidations = none →
      Chosen input stored s kind entry.2 (reachAt input s kind entry.2) t entity selected →
      Basis.Of env input entry.1 selected basis →
      Turned env input stored s entry
        (write env basis entry.1 kind entity entry.2 selected (reachAt input s kind entry.2) t)

theorem create_eq_ok {kind entity : String} {t : Linking} (h : create env input s kind = .ok (t, entity)) :
    ∃ ids floors floor, s.ids = entity :: ids ∧ t = s.created entity kind floor ids floors := by
  unfold create at h
  cases hids : s.ids with
  | nil =>
      rw [hids] at h
      cases h
  | cons first ids =>
      rw [hids] at h
      obtain ⟨⟨floors, floor⟩, _, h⟩ := Except.bind_eq_ok.1 h
      cases h
      exact ⟨ids, floors, floor, rfl, rfl⟩

theorem choose_eq_ok {kind : String} {r : Reach} {chosen : Option (Linking × String × Match)}
    (h : choose env input stored s kind items r = .ok chosen) :
    (chosen = none ∧ r.target = none ∧ mintItem items = none) ∨
      ∃ t entity selected, chosen = some (t, entity, selected) ∧
        Chosen input stored s kind items r t entity selected := by
  unfold choose at h
  cases htarget : r.target with
  | some entity =>
      simp only [htarget] at h
      cases hselected : r.selected entity with
      | none =>
          rw [hselected] at h
          cases h
      | some selected =>
          rw [hselected] at h
          cases h
          exact .inr ⟨_, entity, selected, rfl, .reached htarget hselected⟩
  | none =>
      simp only [htarget] at h
      cases hmint : mintItem items with
      | none =>
          rw [← mintItem, hmint] at h
          cases h
          exact .inl ⟨rfl, rfl, rfl⟩
      | some selected =>
          rw [← mintItem, hmint] at h
          obtain ⟨⟨t, entity⟩, hcreate, h⟩ := Except.bind_eq_ok.1 h
          cases h
          obtain ⟨ids, floors, floor, hids, rfl⟩ := create_eq_ok hcreate
          exact .inr ⟨_, entity, selected, rfl, .created htarget hmint hids⟩

theorem turn_eq_ok (h : turn env input stored s entry = .ok s') : Turned env input stored s entry s' := by
  unfold turn at h
  obtain ⟨record, hrecord, h⟩ := Except.bind_eq_ok.1 h
  obtain ⟨kind, hkind, h⟩ := Except.bind_eq_ok.1 h
  have hrecord' : input.plan.records.get? entry.1 = some record := by
    cases hget : input.plan.records.get? entry.1 with
    | none =>
        rw [hget] at hrecord
        cases hrecord
    | some found =>
        rw [hget] at hrecord
        cases hrecord
        rfl
  have hkind' : HasKind input entry.1 kind := ⟨record, hrecord', hkind⟩
  have hreach : reach s.found s.moved input.suspended kind entry.2 = reachAt input s kind entry.2 := rfl
  simp only [hreach] at h
  cases hreview : (reachAt input s kind entry.2).review s.consolidations with
  | some problem =>
      rw [hreview] at h
      cases h
      exact .reviewed hkind' hreview
  | none =>
      rw [hreview] at h
      obtain ⟨chosen, hchosen, h⟩ := Except.bind_eq_ok.1 h
      rcases choose_eq_ok hchosen with ⟨rfl, htarget, hmint⟩ | ⟨t, entity, selected, rfl, hchose⟩
      · cases h
        exact .waited hkind' hreview htarget hmint
      · obtain ⟨ruleId, hruleId, h⟩ := Except.bind_eq_ok.1 h
        obtain ⟨version, hversion, h⟩ := Except.bind_eq_ok.1 h
        by_cases hrefused : (entry.1, ruleId, version) ∈ input.refused
        · rw [if_pos hrefused] at h
          cases h
          exact .refused hkind' hreview hchose ⟨ruleId, version, hruleId, hversion, hrefused⟩
        · rw [if_neg hrefused] at h
          obtain ⟨time, htime, h⟩ := Except.bind_eq_ok.1 h
          obtain ⟨assertion, hassertion, h⟩ := Except.bind_eq_ok.1 h
          cases h
          exact .bound hkind' hreview hchose
            ⟨hruleId, hversion, rfl, htime, ⟨record, hrecord', hassertion⟩, hrefused⟩

end EdgarPlatform.Matching
