import EdgarPlatform.Relationships.Edges

/-!
# Groups of links

A group holds each period of each relationship of its type and scope, and nothing else. A direct link says of an instant what the periods of its relationship say, so a statement about the links of a type and scope at an instant is one about the periods of their group.
-/

namespace EdgarPlatform.Relationships

open Records (Calendar Env Json Object readText hasValue readOptionalValue)

def PeriodAt (calendar : Calendar) (period : Object) (t : Int) : Prop :=
  ∃ start stop, interval calendar period = .ok (start, stop) ∧ start ≤ t ∧ t < stop

instance (calendar : Calendar) (period : Object) (t : Int) : Decidable (PeriodAt calendar period t) :=
  decidable_of_iff (∃ bounds, interval calendar period = .ok bounds ∧ bounds.1 ≤ t ∧ t < bounds.2)
    ⟨fun h => h.elim fun bounds h => ⟨bounds.1, bounds.2, h⟩, fun h => h.elim fun start h => h.elim fun stop h =>
      ⟨(start, stop), h⟩⟩

def InForce (calendar : Calendar) (link : Object) (t : Int) : Prop :=
  ∃ periods, Records.readArray link "periods" = .ok periods ∧
    ∃ raw ∈ periods, ∃ period, Records.readFields raw = .ok period ∧ PeriodAt calendar period t

instance (calendar : Calendar) (link : Object) (t : Int) : Decidable (InForce calendar link t) :=
  inferInstanceAs (Decidable (∃ periods, Records.readArray link "periods" = .ok periods ∧
    ∃ raw ∈ periods, ∃ period, Records.readFields raw = .ok period ∧ PeriodAt calendar period t))

/-- A link of a type and a scope, by the scope's canonical text, from one entity to another. -/
structure LinkIs (link : Object) (kind scope source target : String) : Prop where
  kind : readText link "type" = .ok kind
  scope : ∃ value, link.get? "scope" = some value ∧ Records.writeSortedJson value = scope
  source : readText link "source_id" = .ok source
  target : readText link "target_id" = .ok target

instance (link : Object) (kind scope source target : String) : Decidable (LinkIs link kind scope source target) :=
  decidable_of_iff (readText link "type" = .ok kind ∧ (link.get? "scope").map Records.writeSortedJson = some scope ∧
      readText link "source_id" = .ok source ∧ readText link "target_id" = .ok target)
    ⟨fun h => ⟨h.1, Option.map_eq_some_iff.1 h.2.1, h.2.2.1, h.2.2.2⟩,
      fun h => ⟨h.kind, Option.map_eq_some_iff.2 h.scope, h.source, h.target⟩⟩

theorem LinkIs.unique {link : Object} {kind kind' scope scope' source source' target target' : String}
    (h : LinkIs link kind scope source target) (h' : LinkIs link kind' scope' source' target') :
    kind = kind' ∧ scope = scope' ∧ source = source' ∧ target = target' := by
  obtain ⟨value, hvalue, rfl⟩ := h.scope
  obtain ⟨value', hvalue', rfl⟩ := h'.scope
  cases hvalue.symm.trans hvalue'
  exact ⟨Except.ok.inj (h.kind.symm.trans h'.kind), rfl, Except.ok.inj (h.source.symm.trans h'.source),
    Except.ok.inj (h.target.symm.trans h'.target)⟩

theorem LinkIs.congr {link other : Object} {kind scope source target : String} (h : LinkIs link kind scope source target)
    (hsame : ∀ field ∈ ["type", "scope", "source_id", "target_id"], other.get? field = link.get? field) :
    LinkIs other kind scope source target := by
  have htext : ∀ field ∈ ["type", "scope", "source_id", "target_id"], readText other field = readText link field := by
    intro field hfield
    unfold readText
    rw [hsame field hfield]
  exact ⟨(htext _ (by simp)).trans h.kind, by rw [hsame _ (by simp)]; exact h.scope,
    (htext _ (by simp)).trans h.source, (htext _ (by simp)).trans h.target⟩

theorem readFields_toJson (body : Object) : Records.readFields body.toJson = .ok body :=
  congrArg Except.ok (IndexMap.ofList_entries body)

theorem inForce_iff {calendar : Calendar} {link : Object} {periods : List Object} {t : Int}
    (h : link.get? "periods" = some (.arr (periods.map Object.toJson))) :
    InForce calendar link t ↔ ∃ period ∈ periods, PeriodAt calendar period t := by
  have hread : Records.readArray link "periods" = .ok (periods.map Object.toJson) := by
    unfold Records.readArray
    rw [h]
  constructor
  · intro hforce
    obtain ⟨raws, hraws, raw, hmem, period, hperiod, hat⟩ := hforce
    cases hread.symm.trans hraws
    obtain ⟨body, hbody, rfl⟩ := List.mem_map.1 hmem
    cases (readFields_toJson body).symm.trans hperiod
    exact ⟨period, hbody, hat⟩
  · intro hexists
    obtain ⟨period, hmem, hat⟩ := hexists
    exact ⟨_, hread, period.toJson, List.mem_map_of_mem hmem, period, readFields_toJson period, hat⟩

theorem orderPeriods_eq_ok {env : Env} {periods : List Object} {ordered : List ((Int × Int) × Object)}
    (h : orderPeriods env periods = .ok ordered) :
    (ordered.map Prod.snd).Perm periods ∧ ∀ entry ∈ ordered, interval env.calendar entry.2 = .ok entry.1 := by
  obtain ⟨timed, htimed, h⟩ := Except.bind_eq_ok.1 h
  cases h
  constructor
  · rw [List.map_map]
    refine ((Sorting.sortByKey_perm _ timed).map _).trans (List.Perm.of_eq ?_)
    refine Runs.mapM_map_eq (fun entry => entry.2.2) (fun period entry hentry => ?_) htimed
    obtain ⟨bounds, _, hentry⟩ := Except.bind_eq_ok.1 hentry
    cases hentry
    rfl
  · intro entry hentry
    obtain ⟨timedEntry, hmem, rfl⟩ := List.mem_map.1 hentry
    obtain ⟨period, _, hperiod⟩ := Runs.mapM_exists_of_mem htimed (Sorting.mem_sortByKey.1 hmem)
    obtain ⟨bounds, hbounds, hperiod⟩ := Except.bind_eq_ok.1 hperiod
    cases hperiod
    exact hbounds

/-- A period of a relationship as its group holds it. -/
structure PeriodOf (env : Env) (edge : Relationship) (group : String × String) (link : LinkPeriod) : Prop where
  ends : LinkIs edge.body group.1 group.2 link.source link.target
  mem : link.body ∈ edge.periods
  bounds : interval env.calendar link.body = .ok (link.start, link.stop)

/-- The relationships are those given with their periods in order, and the groups hold their periods. -/
structure GroupingOf (env : Env) (entries : List (String × Relationship)) (found : Grouping) : Prop where
  keys : found.edges.keys = entries.map Prod.fst
  edges : ∀ entry ∈ entries, ∃ edge, found.edges.get? entry.1 = some edge ∧ edge.body = entry.2.body ∧
    edge.periods.Perm entry.2.periods ∧ ∀ period ∈ edge.periods, ∃ bounds, interval env.calendar period = .ok bounds
  group : ∀ group link, link ∈ (found.grouped.get? group).getD [] ↔
    ∃ edge, found.edges.get? link.key = some edge ∧ PeriodOf env edge group link
  nonempty : ∀ group, found.grouped.get? group ≠ some []

theorem groupEdge_eq_ok {env : Env} {entries : List (String × Relationship)} {found next : Grouping}
    {entry : String × Relationship} (h : groupEdge env found entry = .ok next) (hof : GroupingOf env entries found)
    (hnew : entry.1 ∉ entries.map Prod.fst) : GroupingOf env (entries ++ [entry]) next := by
  obtain ⟨ordered, hordered, h⟩ := Except.bind_eq_ok.1 h
  obtain ⟨kind, hkind, h⟩ := Except.bind_eq_ok.1 h
  obtain ⟨scope, hscope, h⟩ := Except.bind_eq_ok.1 h
  obtain ⟨source, hsource, h⟩ := Except.bind_eq_ok.1 h
  obtain ⟨target, htarget, h⟩ := Except.bind_eq_ok.1 h
  obtain ⟨hperm, hbounds⟩ := orderPeriods_eq_ok hordered
  have hscope' : entry.2.body.get? "scope" = some scope := by
    unfold readScope at hscope
    cases hget : entry.2.body.get? "scope" with
    | none =>
        rw [hget] at hscope
        cases hscope
    | some value =>
        rw [hget] at hscope
        cases hscope
        rfl
  have hlink : LinkIs entry.2.body kind (Records.writeSortedJson scope) source target :=
    ⟨hkind, ⟨scope, hscope', rfl⟩, hsource, htarget⟩
  have hkeys : entry.1 ∉ found.edges.keys := by rwa [hof.keys]
  have hedge : ∀ key edge, (found.edges.insert entry.1 { entry.2 with periods := ordered.map Prod.snd }).get? key = some edge ↔
      (key = entry.1 ∧ edge = { entry.2 with periods := ordered.map Prod.snd }) ∨ found.edges.get? key = some edge := by
    intro key edge
    rw [IndexMap.get?_insert]
    split_ifs with heq
    · subst heq
      rw [IndexMap.get?_eq_none_iff.2 hkeys]
      simp [eq_comm]
    · simp [heq]
  cases h
  constructor
  · show (found.edges.insert entry.1 _).keys = _
    rw [IndexMap.keys_insert, if_neg hkeys, hof.keys, List.map_append, List.map_cons, List.map_nil]
  · intro other hother
    rcases List.mem_append.1 hother with hold | hlast
    · obtain ⟨edge, hget, hrest⟩ := hof.edges other hold
      exact ⟨edge, (hedge _ _).2 (.inr hget), hrest⟩
    · obtain rfl := List.mem_singleton.1 hlast
      refine ⟨_, (hedge _ _).2 (.inl ⟨rfl, rfl⟩), rfl, hperm, fun period hperiod => ?_⟩
      obtain ⟨timed, htimed, rfl⟩ := List.mem_map.1 hperiod
      exact ⟨_, hbounds timed htimed⟩
  · intro group link
    have hnewLinks : link ∈ ordered.map (linkPeriod entry.1 source target) ↔
        link.key = entry.1 ∧ link.source = source ∧ link.target = target ∧ link.body ∈ ordered.map Prod.snd ∧
          interval env.calendar link.body = .ok (link.start, link.stop) := by
      constructor
      · intro hmem
        obtain ⟨timed, htimed, rfl⟩ := List.mem_map.1 hmem
        exact ⟨rfl, rfl, rfl, List.mem_map_of_mem htimed, hbounds timed htimed⟩
      · intro hlinkOf
        obtain ⟨hkey, hsource, htarget, hbody, hinterval⟩ := hlinkOf
        obtain ⟨timed, htimed, hbody⟩ := List.mem_map.1 hbody
        have hsame := hbounds timed htimed
        rw [hbody, hinterval] at hsame
        refine List.mem_map.2 ⟨timed, htimed, ?_⟩
        cases link
        obtain ⟨⟨start, stop⟩, body⟩ := timed
        cases hsame
        simp_all [linkPeriod]
    have hgroup : link ∈ ((if ordered = [] then found.grouped else found.grouped.insert (kind, Records.writeSortedJson scope)
        ((found.grouped.get? (kind, Records.writeSortedJson scope)).getD [] ++
          ordered.map (linkPeriod entry.1 source target))).get? group).getD [] ↔
        link ∈ (found.grouped.get? group).getD [] ∨ group = (kind, Records.writeSortedJson scope) ∧
          link ∈ ordered.map (linkPeriod entry.1 source target) := by
      split_ifs with hempty
      · simp [hempty]
      · rw [IndexMap.get?_insert]
        split_ifs with heq
        · subst heq
          simp
        · simp [heq]
    show link ∈ ((if ordered = [] then found.grouped else _).get? group).getD [] ↔
      ∃ edge, (found.edges.insert entry.1 _).get? link.key = some edge ∧ _
    simp only [hgroup, hof.group, hnewLinks, hedge, or_and_right, exists_or]
    rw [or_comm]
    refine or_congr_left ?_
    constructor
    · intro hmem
      obtain ⟨rfl, hkey, rfl, rfl, hbody, hinterval⟩ := hmem
      exact ⟨_, ⟨hkey, rfl⟩, hlink, hbody, hinterval⟩
    · intro hmem
      obtain ⟨_, ⟨hkey, rfl⟩, hperiod⟩ := hmem
      obtain ⟨hkind, hscope, hsource, htarget⟩ := hlink.unique hperiod.ends
      exact ⟨Prod.ext hkind.symm hscope.symm, hkey, hsource.symm, htarget.symm, hperiod.mem, hperiod.bounds⟩
  · intro group
    show (if ordered = [] then found.grouped else _).get? group ≠ some []
    split_ifs with hempty
    · exact hof.nonempty group
    · rw [IndexMap.get?_insert]
      split_ifs
      · simp [hempty]
      · exact hof.nonempty group

theorem group_eq_ok {env : Env} {edges : Edges} {found : Grouping} (h : group env edges = .ok found) :
    GroupingOf env edges.entries found := by
  refine Runs.run_invariant (fun front mid => GroupingOf env front mid) h ?_ ?_
  · exact ⟨rfl, by simp, fun group link => by simp, fun group => by simp⟩
  · intro front entry back mid next hsplit hmid hstep
    refine groupEdge_eq_ok hstep hmid fun hmem => ?_
    have hnodup := edges.nodup
    rw [hsplit, List.map_append, List.map_cons, List.nodup_append] at hnodup
    exact hnodup.2.2 _ hmem _ (by simp) rfl

end EdgarPlatform.Relationships
