import EdgarPlatform.Matching.Written

/-!
# The masters a batch knows

A master is known to a batch when some value is held by it or some master has moved to it. What a record reaches is known, and a turn makes no other master known than the one it creates.
-/

namespace EdgarPlatform.Matching

open Records (Env Object readText)

def Holds (found : Found) (key : String × String) (entity : String) : Prop :=
  ∃ held, found.get? key = some held ∧ entity ∈ held.keys

def Named (input : PreparedInputs) (entity : String) : Prop :=
  ∃ holder ∈ input.found ++ input.plan.callerHolders, entity ∈ holder.records.keys

variable {key : String × String}

theorem holds_hold {found : Found} {holder : Holder} {entity : String} :
    Holds (hold found holder) key entity ↔
      Holds found key entity ∨ holder.key = key ∧ entity ∈ holder.records.keys := by
  unfold Holds hold
  simp only [IndexMap.get?_insert]
  by_cases hkey : key = holder.key
  · subst hkey
    simp only [if_true, Option.some.injEq, exists_eq_left', IndexMap.mem_keys_extend, true_and]
    refine or_congr ?_ Iff.rfl
    cases found.get? holder.key with
    | none => simp
    | some held => simp
  · simp [hkey, Ne.symm hkey]

theorem holds_holdAll {holders : List Holder} {found : Found} {entity : String} :
    Holds (holders.foldl hold found) key entity ↔
      Holds found key entity ∨ ∃ holder ∈ holders, holder.key = key ∧ entity ∈ holder.records.keys := by
  induction holders generalizing found with
  | nil => simp
  | cons holder rest ih =>
      rw [List.foldl_cons, ih, holds_hold]
      simp only [List.mem_cons, or_and_right, exists_or, exists_eq_left, or_assoc]

theorem contains_holdAll {holders : List Holder} {found : Found} :
    (holders.foldl hold found).get? key ≠ none ↔
      found.get? key ≠ none ∨ ∃ holder ∈ holders, holder.key = key := by
  induction holders generalizing found with
  | nil => simp
  | cons holder rest ih =>
      rw [List.foldl_cons, ih, hold, IndexMap.get?_insert]
      simp only [List.mem_cons, or_and_right, exists_or, exists_eq_left]
      split_ifs with hkey
      · simp [hkey]
      · simp [Ne.symm hkey]

theorem holdCallers_found (stored : Found) (holders : List Holder) (acc : Found × List Object) :
    (holders.foldl (holdCaller stored) acc).1 = holders.foldl hold acc.1 := by
  induction holders generalizing acc with
  | nil => rfl
  | cons holder rest ih => exact ih _

theorem start_found (input : PreparedInputs) (c : Consolidations) :
    (start input c).found = (input.found ++ input.plan.callerHolders).foldl hold .empty := by
  rw [List.foldl_append]
  exact holdCallers_found _ _ _

variable {c : Consolidations} {input : PreparedInputs}

theorem holds_start {entity : String} :
    Holds (start input c).found key entity ↔
      ∃ holder ∈ input.found ++ input.plan.callerHolders, holder.key = key ∧ entity ∈ holder.records.keys := by
  rw [start_found, holds_holdAll]
  simp [Holds]

theorem resolveLoop_cases (moved : IndexMap String String) (fuel : Nat) (x : String) :
    resolveLoop moved fuel x = x ∨ ∃ y, moved.get? y = some (resolveLoop moved fuel x) := by
  induction fuel generalizing x with
  | zero => exact .inl rfl
  | succ fuel ih =>
      rw [resolveLoop]
      cases hnext : moved.get? x with
      | none => exact .inl rfl
      | some next =>
          rcases ih next with h | h
          · exact .inr ⟨x, by simpa [h] using hnext⟩
          · exact .inr h

variable {moved : IndexMap String String}

theorem mem_heldBy {found : Found}
    {held : IndexMap String String} (h : heldBy found moved key = some held) {entity : String} :
    entity ∈ held.keys ↔ ∃ holder, Holds found key holder ∧ resolve moved holder = entity := by
  unfold heldBy at h
  obtain ⟨holders, hget, rfl⟩ := Option.map_eq_some_iff.1 h
  rw [IndexMap.mem_keys_ofList, List.map_map, List.mem_map]
  constructor
  · intro h
    obtain ⟨entry, hentry, rfl⟩ := h
    exact ⟨entry.1, ⟨holders, hget, List.mem_map.2 ⟨entry, hentry, rfl⟩⟩, rfl⟩
  · intro h
    obtain ⟨holder, ⟨holders', hget', hmem⟩, rfl⟩ := h
    cases hget.symm.trans hget'
    obtain ⟨entry, hentry, rfl⟩ := List.mem_map.1 hmem
    exact ⟨entry, hentry, rfl⟩

/-- A master some value is held by, or one some master has moved to. -/
def Known (s : Linking) (entity : String) : Prop :=
  (∃ key, Holds s.found key entity) ∨ ∃ x, s.moved.get? x = some entity

theorem known_start {entity : String}
    (h : Known (start input c) entity) : Named input entity := by
  rcases h with ⟨key, hholds⟩ | ⟨x, hx⟩
  · obtain ⟨holder, hmem, _, hentity⟩ := holds_start.1 hholds
    exact ⟨holder, hmem, hentity⟩
  · cases hx

theorem known_resolve {s : Linking} {holder : String} (h : Holds s.found key holder) :
    Known s (resolve s.moved holder) := by
  rcases resolveLoop_cases s.moved (s.moved.size + 1) holder with hself | ⟨y, hy⟩
  · refine .inl ⟨key, ?_⟩
    rw [resolve, hself]
    exact h
  · exact .inr ⟨y, hy⟩

variable {kind : String}

theorem known_of_matched {s : Linking} {items : List Match} {entity : String}
    (h : entity ∈ (reachAt input s kind items).matched.keys) : Known s entity := by
  obtain ⟨item, _, held, hheld, hentity⟩ := exists_met_of_key h
  obtain ⟨holder, hholds, rfl⟩ := (mem_heldBy hheld).1 hentity
  exact known_resolve hholds

theorem Reach.mergers_eq (r : Reach) :
    r.mergers = if 1 < (Sorting.distinct r.merging).length then Sorting.distinct r.merging else [] := rfl

theorem Reach.mem_mergers {r : Reach} {entity : String} (h : entity ∈ r.mergers) : entity ∈ r.merging := by
  rw [Reach.mergers_eq] at h
  split_ifs at h
  · exact Sorting.mem_distinct.1 h
  · simp at h

variable {suspended : List String} {met : List Met}

theorem Reach.Of.mergers_matched {r : Reach}
    (h : Reach.Of suspended kind met r) {entity : String} (hentity : entity ∈ r.mergers) :
    entity ∈ r.matched.keys := by
  obtain ⟨item, hitem, _⟩ := h.merging entity (Reach.mem_mergers hentity)
  cases hget : r.matched.get? entity with
  | none => simp [hget] at hitem
  | some items => exact IndexMap.mem_keys_of_get? hget

theorem Reach.first_matched {r : Reach} {entity : String} (h : r.first = some entity) : entity ∈ r.matched.keys := by
  unfold Reach.first at h
  split_ifs at h
  split at h
  · next only honly =>
      cases h
      have hmem : only ∈ r.matched.entries.filter fun entry => entry.2.any isFirst := by simp [honly]
      exact List.mem_map.2 ⟨only, (List.mem_filter.1 hmem).1, rfl⟩
  · cases h

theorem Reach.Of.target_matched {r : Reach}
    (h : Reach.Of suspended kind met r) {entity : String} (htarget : r.target = some entity) :
    entity ∈ r.matched.keys := by
  unfold Reach.target at htarget
  rcases Option.or_eq_some_iff.1 htarget with hsome | ⟨_, hkeys⟩
  · rcases Option.or_eq_some_iff.1 hsome with hfirst | ⟨_, hmergers⟩
    · exact Reach.first_matched hfirst
    · exact h.mergers_matched (List.mem_of_mem_head? hmergers)
  · exact List.mem_of_mem_head? hkeys

theorem Reach.Of.target_eq_none {r : Reach}
    (h : Reach.Of suspended kind met r) : r.target = none ↔ r.matched.size = 0 := by
  have hsize : r.matched.size = 0 ↔ r.matched.keys = [] := by
    rw [← IndexMap.length_keys, List.length_eq_zero_iff]
  rw [hsize]
  constructor
  · intro hnone
    have hkeys := (Option.or_eq_none_iff.1 hnone).2
    exact List.head?_eq_none_iff.1 hkeys
  · intro hkeys
    cases htarget : r.target with
    | none => rfl
    | some entity =>
        have hmem := h.target_matched htarget
        rw [hkeys] at hmem
        simp at hmem

theorem Reach.review_of_unmatched {r : Reach} (h : r.matched.size = 0) (c : Consolidations) : r.review c = r.problem := by
  unfold Reach.review
  rw [if_neg (by omega)]

section Turn

variable {env : Env} {input : PreparedInputs} {stored : Found} {s s' : Linking} {entry : String × List Match}

theorem Chosen.entity {kind entity : String} {items : List Match} {t : Linking} {selected : Match}
    (h : Chosen input stored s kind items (reachAt input s kind items) t entity selected) :
    t.found = s.found ∧ t.moved = s.moved ∧ t.consolidations = s.consolidations ∧
      t.result.decisions = s.result.decisions ∧
      ((entity ∈ (reachAt input s kind items).matched.keys ∧ t.ids = s.ids ∧
          t.result.identities = s.result.identities) ∨
        ((reachAt input s kind items).matched.size = 0 ∧ s.ids = entity :: t.ids ∧
          ∃ floor, t.result.identities = s.result.identities ++ [identityBody entity kind floor])) := by
  have hof := reach_of s.found s.moved input.suspended kind items
  cases h with
  | reached htarget _ => exact ⟨rfl, rfl, rfl, rfl, .inl ⟨hof.target_matched htarget, rfl, rfl⟩⟩
  | created htarget _ hids =>
      exact ⟨rfl, rfl, rfl, rfl, .inr ⟨hof.target_eq_none.1 htarget, hids, _, rfl⟩⟩

theorem Chosen.mintItem {kind entity : String} {items : List Match} {t : Linking} {selected : Match}
    (h : Chosen input stored s kind items (reachAt input s kind items) t entity selected)
    (hsize : (reachAt input s kind items).matched.size = 0) : Matching.mintItem items = some selected := by
  cases h with
  | reached htarget _ =>
      have hmatched := (reach_of s.found s.moved input.suspended kind items).target_matched htarget
      exact absurd hmatched (IndexMap.not_mem_keys_of_size hsize _)
  | created _ hmint _ => exact hmint

theorem holds_write {env : Env} {basis : Basis} {subject kind entity : String} {items : List Match} {selected : Match}
    {r : Reach} {key : String × String} {x : String}
    (h : Holds (write env basis subject kind entity items selected r s).found key x) :
    Holds s.found key x ∨ x = entity := by
  obtain ⟨held, hget, hx⟩ := h
  obtain ⟨hkept, hgiven, hnot⟩ := write_found env basis subject kind entity items selected r s key
  by_cases hheld : s.found.get? key = none
  · by_cases hgives : Gives (r.matched.size = 0) selected items key
    · rw [hgiven hheld hgives] at hget
      cases hget
      right
      simpa [IndexMap.mem_keys_ofList] using hx
    · rw [hnot hheld hgives] at hget
      cases hget
  · rw [hkept hheld] at hget
    exact .inl ⟨held, hget, hx⟩

end Turn

/-! ### Where a batch's merges lead

The masters a turn merges are roots of the moves made so far, so moving them to one of them keeps every walk ending, and a walk after the turn goes on from where it ended before. A record that goes on either binds to the one master it reaches, or has it settled by a rule, or merges all it reaches.
-/

open Records (Env Object readText)

theorem resolve_of_climbs {x r : String} (h : Forest.Climbs moved.get? x r) :
    resolve moved x = r := by
  have hclimb := h.climb_of_keys (fun z hz => IndexMap.mem_keys_iff.2 (Option.ne_none_iff_exists'.1 hz))
    (Nat.le_of_eq (IndexMap.length_keys moved))
  have hloop : ∀ fuel x, Forest.climb moved.get? fuel x = some r → resolveLoop moved (fuel + 1) x = r := by
    intro fuel
    induction fuel with
    | zero =>
        intro x hx
        simp only [Forest.climb] at hx
        split_ifs at hx with hnone
        have hnext : moved.get? x = none := by simpa using hnone
        simpa [resolveLoop, hnext] using hx
    | succ fuel ih =>
        intro x hx
        rw [resolveLoop]
        simp only [Forest.climb] at hx
        cases hnext : moved.get? x with
        | none =>
            rw [hnext] at hx
            exact Option.some.inj hx
        | some y =>
            rw [hnext] at hx
            exact ih y hx
  exact hloop moved.size x hclimb

theorem climbs_resolve (hends : Forest.Ends moved.get?) (x : String) :
    Forest.Climbs moved.get? x (resolve moved x) := by
  obtain ⟨r, hr⟩ := hends x
  rwa [resolve_of_climbs hr]

theorem resolve_root (hends : Forest.Ends moved.get?) (x : String) :
    moved.get? (resolve moved x) = none := (climbs_resolve hends x).root_next

/-- A record goes on exactly when it met no problem, and reaches one master, or several with one settled by a rule, or several that it merges and nobody keeps apart. -/
theorem Reach.review_eq_none {r : Reach} :
    r.review c = none ↔ r.problem = none ∧ (1 < r.matched.size → r.first = none →
      r.mergers ≠ [] ∧ (∀ entity ∈ r.matched.keys, entity ∈ r.mergers) ∧ c.excluded r.mergers = false) := by
  unfold Reach.review
  by_cases hproblem : r.problem = none
  · by_cases hmany : 1 < r.matched.size ∧ r.first = none
    · rw [if_pos ⟨hproblem, hmany⟩]
      split_ifs with hapart hexcluded
      · refine ⟨fun h => by simp at h, fun h => ?_⟩
        obtain ⟨hmergers, hall, _⟩ := h.2 hmany.1 hmany.2
        rcases hapart with hnil | hout
        · exact absurd hnil hmergers
        · simp only [List.any_eq_true, decide_eq_true_eq] at hout
          obtain ⟨entity, hentity, hnot⟩ := hout
          exact absurd (hall entity hentity) hnot
      · refine ⟨fun h => by simp at h, fun h => ?_⟩
        rw [(h.2 hmany.1 hmany.2).2.2] at hexcluded
        cases hexcluded
      · simp only [not_or, List.any_eq_true, decide_eq_true_eq, not_exists, not_and, not_not] at hapart
        exact ⟨fun _ => ⟨hproblem, fun _ _ => ⟨hapart.1, hapart.2, by simpa using hexcluded⟩⟩, fun _ => rfl⟩
    · rw [if_neg fun h => hmany h.2]
      exact ⟨fun h => ⟨h, fun hsize hfirst => absurd ⟨hsize, hfirst⟩ hmany⟩, fun h => h.1⟩
  · rw [if_neg fun h => hproblem h.1]
    exact ⟨fun h => absurd h hproblem, fun h => absurd h.1 hproblem⟩

/-- Every master reached is the one bound to, or passed over by the rule that settled it, or merged with it. -/
theorem Reach.Of.reached_cases {r : Reach}
    {entity x : String} (h : Reach.Of suspended kind met r) (hreview : r.review c = none)
    (htarget : r.target = some entity) (hx : x ∈ r.matched.keys) :
    x = entity ∨ r.first = some entity ∨ (x ∈ r.mergers ∧ entity ∈ r.mergers) := by
  cases hfirst : r.first with
  | some settled =>
      have heq : r.target = some settled := by simp [Reach.target, hfirst]
      cases htarget.symm.trans heq
      exact .inr (.inl rfl)
  | none =>
      by_cases hsize : 1 < r.matched.size
      · obtain ⟨hmergers, hall, _⟩ := (Reach.review_eq_none.1 hreview).2 hsize hfirst
        have hhead : r.target = r.mergers.head? := by
          cases hlist : r.mergers with
          | nil => exact absurd hlist hmergers
          | cons first rest => simp [Reach.target, hfirst, hlist]
        exact .inr (.inr ⟨hall x hx, List.mem_of_mem_head? (hhead ▸ htarget)⟩)
      · -- With one master at most there is only one to bind to.
        left
        have hentity := h.target_matched htarget
        have hlength : r.matched.keys.length ≤ 1 := by
          rw [IndexMap.length_keys]
          omega
        generalize r.matched.keys = keys at hx hentity hlength
        match keys with
        | [] => simp at hx
        | [only] => rw [List.mem_singleton.1 hx, List.mem_singleton.1 hentity]
        | _ :: _ :: _ => simp at hlength

theorem Reach.mem_withheld {r : Reach} {entity : String} {value : String × String} :
    value ∈ r.withheld entity ↔ r.first ≠ none ∧ ∃ x items, r.matched.get? x = some items ∧ x ≠ entity ∧
      ∃ item ∈ items, (item.idNamespace, item.raw) = value := by
  unfold Reach.withheld
  by_cases hfirst : r.first = none
  · simp [hfirst]
  · simp only [hfirst, if_false, List.mem_map, Sorting.mem_distinct, List.mem_flatMap, List.mem_filter,
      decide_eq_true_eq, ne_eq, not_false_eq_true, true_and]
    constructor
    · intro h
      obtain ⟨lex, ⟨entry, ⟨hentry, hne⟩, item, hitem, rfl⟩, rfl⟩ := h
      exact ⟨entry.1, entry.2, IndexMap.get?_eq_some_iff.2 hentry, hne, item, hitem, rfl⟩
    · intro h
      obtain ⟨x, items, hget, hne, item, hitem, rfl⟩ := h
      exact ⟨toLex (item.idNamespace, item.raw),
        ⟨(x, items), ⟨IndexMap.get?_eq_some_iff.1 hget, hne⟩, item, hitem, rfl⟩, rfl⟩

section Turn

variable {input : PreparedInputs} {s : Linking} {kind : String} {items : List Match}

theorem reachAt_of (input : PreparedInputs) (s : Linking) (kind : String) (items : List Match) :
    Reach.Of input.suspended kind (metAll s.found s.moved items) (reachAt input s kind items) :=
  reach_of s.found s.moved input.suspended kind items

theorem matched_root (hends : Forest.Ends s.moved.get?) {x : String}
    (hx : x ∈ (reachAt input s kind items).matched.keys) : s.moved.get? x = none := by
  obtain ⟨item, _, held, hheld, hmem⟩ := exists_met_of_key hx
  obtain ⟨holder, _, rfl⟩ := (mem_heldBy hheld).1 hmem
  exact resolve_root hends holder

theorem reached_of_holds {item : Match} {x : String} (hproblem : (reachAt input s kind items).problem = none)
    (hitem : item ∈ items) (hholds : Holds s.found item.key x) :
    ∃ matched, (reachAt input s kind items).matched.get? (resolve s.moved x) = some matched ∧ item ∈ matched := by
  obtain ⟨held, hget, hx⟩ := hholds
  have hheld : heldBy s.found s.moved item.key =
      some (.ofList (held.entries.map fun entry => (resolve s.moved entry.1, entry.2))) := by
    simp [heldBy, hget]
  have hmem := mem_matched_of_held hproblem hitem hheld ((mem_heldBy hheld).2 ⟨x, ⟨held, hget, hx⟩, rfl⟩)
  cases hmatched : (reachAt input s kind items).matched.get? (resolve s.moved x) with
  | none =>
      have hnone : (reach s.found s.moved input.suspended kind items).matched.get? (resolve s.moved x) = none := hmatched
      rw [hnone] at hmem
      simp at hmem
  | some matched =>
      have hsome : (reach s.found s.moved input.suspended kind items).matched.get? (resolve s.moved x) = some matched :=
        hmatched
      rw [hsome] at hmem
      exact ⟨matched, rfl, hmem⟩

theorem write_moved_eq_gather {env : Env} {basis : Basis} {subject entity : String} {selected : Match} {r : Reach} :
    (write env basis subject kind entity items selected r s).moved.get? =
      Forest.gather s.moved.get? (r.mergers.filter (· ≠ entity)) entity := by
  funext x
  rw [write_moved, Forest.gather]
  simp [List.mem_filter]

end Turn

end EdgarPlatform.Matching
