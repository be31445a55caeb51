import EdgarPlatform.Relationships.History

/-!
# The current parents and their history

The current parents are read off the links of one instant. They are what the history says of that instant, but that an entity with a link set aside ends no current chain, whether or not that link holds at the instant.
-/

namespace EdgarPlatform.Relationships

open Records (Calendar Env Json Object readText)

variable {env : Env} {command : Command} {group : List LinkPeriod} {invalid : List String} {rules : TypeRules} {scope : Json}

/-- A derived link leads from an entity to its ultimate parent by a path. -/
structure CurrentParent (link : Object) (source target : String) (path : List String) : Prop where
  source : readText link "source_id" = .ok source
  target : readText link "target_id" = .ok target
  path : link.get? "path" = some (textsJson path)

/-- A link of the history has a period at a time, in which it leads from an entity to another by a path. -/
structure HistoryParent (calendar : Calendar) (link : Object) (source target : String) (path : List String) (time : Int) : Prop where
  source : readText link "source_id" = .ok source
  target : readText link "target_id" = .ok target
  period : ∃ (periods : List Object) (period : Object), link.get? "periods" = some (.arr (periods.map Object.toJson)) ∧ period ∈ periods ∧
    period.get? "path" = some (textsJson path) ∧ PeriodAt calendar period time

theorem textsJson_injective {texts others : List String} (h : textsJson texts = textsJson others) : texts = others :=
  List.map_injective_iff.2 (fun _ _ h => Json.str.inj h) (Json.arr.inj h)

variable {path : List String}

theorem ultimateAt_eq_some_iff {parents : Parents} {isDisputed : String → Bool} {source node : String} :
    ultimateAt parents isDisputed source = some (node, path) ↔
      ultimateAt parents (fun _ => false) source = some (node, path) ∧ isDisputed node = false := by
  rw [ultimateAt, ultimateAt]
  generalize follow parents source = walk
  by_cases hseen : walk.node ∈ walk.seen
  · simp [hseen]
  · simp only [hseen, false_or, Bool.false_eq_true, if_false, Option.ite_none_left_eq_some, Option.some.injEq, Prod.mk.injEq]
    constructor
    · rintro ⟨hdisputed, hnode, hpath⟩
      exact ⟨⟨hnode, hpath⟩, by rw [← hnode]; simpa using hdisputed⟩
    · rintro ⟨⟨hnode, hpath⟩, hdisputed⟩
      exact ⟨by rw [hnode, hdisputed]; simp, hnode, hpath⟩

/-- An entity is the source of a link that is set aside, at whatever time. -/
def isSetAside (group : List LinkPeriod) (invalid : List String) (node : String) : Bool :=
  group.any fun link => link.source = node ∧ link.key ∈ invalid

variable {source target : String}

theorem chainAt_eq_some_iff {links disputed : List LinkPeriod} {time : Int} :
    chainAt links disputed (source, target) time = some path ↔ source ∈ (parentsAt links time).keys ∧
      ultimateAt (parentsAt links time) (fun _ => false) source = some (target, path) ∧ disputedAt disputed time target = false := by
  rw [chainAt, ← ultimateAt_eq_some_iff]
  split_ifs with hkey
  · rw [Option.bind_eq_some_iff]
    constructor
    · rintro ⟨ultimate, hultimate, hpath⟩
      obtain ⟨htarget, hpath⟩ := Option.ite_none_right_eq_some.1 hpath
      cases hpath
      cases htarget
      exact ⟨hkey, hultimate⟩
    · rintro ⟨_, hultimate⟩
      exact ⟨(target, path), hultimate, if_pos rfl⟩
  · exact ⟨fun h => (by cases h), fun h => absurd h.1 hkey⟩

theorem deriveCurrentParents_eq_ok {current : List Object} {now : Int}
    (h : deriveCurrentParents env command group invalid rules scope = .ok current)
    (hclock : env.calendar.readTime command.clock = .ok now) :
    List.Forall₂ (fun (entry : String × String × List String) link => CurrentParent link entry.1 entry.2.1 entry.2.2)
      ((Sorting.sortByKey id (parentsAt (validOf group invalid) (Records.micros now)).keys).filterMap fun source =>
        (ultimateAt (parentsAt (validOf group invalid) (Records.micros now)) (isSetAside group invalid) source).map fun ultimate =>
          (source, ultimate))
      current := by
  obtain ⟨time, htime, h⟩ := Except.bind_eq_ok.1 h
  cases hclock.symm.trans htime
  refine (Runs.mapM_eq_ok.1 h).imp fun entry link hlink => ?_
  obtain ⟨kind, _, hlink⟩ := Except.bind_eq_ok.1 hlink
  cases hlink
  have hget : ∀ field, field ≠ "relationship_id" → (withRelationshipId env (.ofList [("type", .str kind), ("source_id", .str entry.1),
      ("target_id", .str entry.2.1), ("scope", scope), ("derived", .bool true), ("algorithm", .str UltimateParent.chainV1.name),
      ("as_of", .str command.asOf), ("path", textsJson entry.2.2)])).get? field =
      IndexMap.lookupEntry field [("type", .str kind), ("source_id", .str entry.1), ("target_id", .str entry.2.1), ("scope", scope),
        ("derived", .bool true), ("algorithm", .str UltimateParent.chainV1.name), ("as_of", .str command.asOf),
        ("path", textsJson entry.2.2)] := by
    intro field hfield
    rw [withRelationshipId_get? _ _ hfield, IndexMap.get?_ofList_eq (by simp only [List.map_cons, List.map_nil]; decide)]
  refine ⟨readText_eq_ok.2 ?_, readText_eq_ok.2 ?_, ?_⟩
  · rw [hget _ (by decide)]
    simp [IndexMap.lookupEntry]
  · rw [hget _ (by decide)]
    simp [IndexMap.lookupEntry]
  · rw [hget _ (by decide)]
    simp [IndexMap.lookupEntry]

/-- The chains of the current parents are those found at the clock, but for entities with a link set aside. -/
theorem current_iff {current : List Object} {now : Int} (h : deriveCurrentParents env command group invalid rules scope = .ok current)
    (hclock : env.calendar.readTime command.clock = .ok now) :
    (∃ link ∈ current, CurrentParent link source target path) ↔
      source ∈ (parentsAt (validOf group invalid) (Records.micros now)).keys ∧
        ultimateAt (parentsAt (validOf group invalid) (Records.micros now)) (fun _ => false) source = some (target, path) ∧
        isSetAside group invalid target = false := by
  have hlinks := deriveCurrentParents_eq_ok h hclock
  rw [← ultimateAt_eq_some_iff]
  constructor
  · intro ⟨link, hlink, hparent⟩
    obtain ⟨entry, hentry, hof⟩ := Runs.forall₂_exists_left hlinks hlink
    obtain ⟨source', hsource, hmapped⟩ := List.mem_filterMap.1 hentry
    obtain ⟨ultimate, hultimate, heq⟩ := Option.map_eq_some_iff.1 hmapped
    subst heq
    cases hof.source.symm.trans hparent.source
    cases hof.target.symm.trans hparent.target
    cases textsJson_injective (Option.some.inj (hof.path.symm.trans hparent.path))
    exact ⟨Sorting.mem_sortByKey.1 hsource, hultimate⟩
  · intro ⟨hsource, hultimate⟩
    have hfound : (ultimateAt (parentsAt (validOf group invalid) (Records.micros now)) (isSetAside group invalid) source).map
        (fun ultimate => (source, ultimate)) = some (source, target, path) := by
      rw [hultimate]
      rfl
    exact Runs.forall₂_exists_right hlinks (List.mem_filterMap.2 ⟨source, Sorting.mem_sortByKey.2 hsource, hfound⟩)

theorem history_iff {history : List Object} (h : deriveParentHistory env group invalid rules scope = .ok history)
    (hdated : ∀ link ∈ group, Dated env.calendar link) {kind : String} (hkind : rules.ultimateType = some kind) {time : Int}
    (htime : time < lastTime) :
    (∃ link ∈ history, HistoryParent env.calendar link source target path time) ↔
      chainAt (validOf group invalid) (disputedOf group invalid) (source, target) time = some path := by
  have hlinks := deriveParentHistory_eq_ok h hdated hkind
  have hspans := historySpans_spansOf group invalid (source, target)
  have hchain : chainAt (validOf group invalid) (disputedOf group invalid) (source, target) time = some path ↔
      Timeline.At (((historySpans group invalid).get? (source, target)).getD []) time path := by
    rw [hspans.chain time path]
    exact ⟨fun h => ⟨htime, h⟩, fun h => h.2⟩
  rw [hchain]
  constructor
  · intro ⟨link, hlink, hparent⟩
    obtain ⟨entry, hentry, hof⟩ := Runs.forall₂_exists_left hlinks hlink
    have hpair : entry.1 = (source, target) :=
      Prod.ext (Except.ok.inj (hof.ends.source.symm.trans hparent.source)) (Except.ok.inj (hof.ends.target.symm.trans hparent.target))
    rw [← hpair, IndexMap.get?_eq_some_iff.2 (Sorting.mem_sortByKey.1 hentry), Option.getD_some]
    obtain ⟨periods, period, hperiods, hperiod, hpath, start, stop, hbounds, hstart, hstop⟩ := hparent.period
    obtain ⟨periods', hperiods', hof⟩ := hof.periods
    have hsame := Json.arr.inj (Option.some.inj (hperiods'.symm.trans hperiods))
    have hmem : period.toJson ∈ periods'.map Object.toJson := hsame ▸ List.mem_map_of_mem hperiod
    obtain ⟨period', hperiod', heq⟩ := List.mem_map.1 hmem
    have hbody : period' = period :=
      Except.ok.inj ((readFields_toJson period').symm.trans ((congrArg Records.readFields heq).trans (readFields_toJson period)))
    subst hbody
    obtain ⟨span, hspan, his⟩ := Runs.forall₂_exists_left hof hperiod'
    cases his.bounds.symm.trans hbounds
    exact ⟨span, hspan, hstart, hstop, textsJson_injective (Option.some.inj (his.path.symm.trans hpath))⟩
  · intro ⟨span, hspan, hstart, hstop, hpath⟩
    cases hget : (historySpans group invalid).get? (source, target) with
    | none =>
        rw [hget] at hspan
        exact absurd hspan List.not_mem_nil
    | some spans =>
        rw [hget, Option.getD_some] at hspan
        have hentry : ((source, target), spans) ∈ Sorting.sortByKey (fun entry => toLex entry.1) (historySpans group invalid).entries :=
          Sorting.mem_sortByKey.2 (IndexMap.get?_eq_some_iff.1 hget)
        obtain ⟨link, hlink, hof⟩ := Runs.forall₂_exists_right hlinks hentry
        obtain ⟨periods, hperiods, hof'⟩ := hof.periods
        obtain ⟨period, hperiod, his⟩ := Runs.forall₂_exists_right hof' hspan
        exact ⟨link, hlink, hof.ends.source, hof.ends.target, periods, period, hperiods, hperiod, hpath ▸ his.path, span.start, span.stop,
          his.bounds, hstart, hstop⟩

theorem current_kind {current : List Object} (h : deriveCurrentParents env command group invalid rules scope = .ok current)
    {link : Object} (hlink : link ∈ current) : ∃ kind, rules.ultimateType = some kind := by
  obtain ⟨time, _, h⟩ := Except.bind_eq_ok.1 h
  obtain ⟨entry, _, hlink⟩ := Runs.mapM_exists_of_mem h hlink
  obtain ⟨kind, hkind, _⟩ := Except.bind_eq_ok.1 hlink
  exact ⟨kind, ultimateType_eq_ok.1 hkind⟩

theorem history_kind {history : List Object} (h : deriveParentHistory env group invalid rules scope = .ok history)
    {link : Object} (hlink : link ∈ history) : ∃ kind, rules.ultimateType = some kind := by
  obtain ⟨entry, _, hlink⟩ := Runs.mapM_exists_of_mem h hlink
  obtain ⟨kind, hkind, _⟩ := Except.bind_eq_ok.1 hlink
  exact ⟨kind, ultimateType_eq_ok.1 hkind⟩

theorem isSetAside_eq_false {node : String} :
    isSetAside group invalid node = false ↔ ∀ link ∈ group, link.source = node → link.key ∉ invalid := by
  rw [isSetAside, ← Bool.not_eq_true, List.any_eq_true]
  simp only [decide_eq_true_eq, not_exists, not_and]

theorem disputedAt_eq_false {node : String} {time : Int} : disputedAt (disputedOf group invalid) time node = false ↔
    ∀ link ∈ group, link.source = node → link.key ∈ invalid → ¬ (link.start ≤ time ∧ time < link.stop) := by
  rw [disputedAt, disputedOf, ← Bool.not_eq_true, List.any_eq_true]
  simp only [List.mem_filter, decide_eq_true_eq, not_exists, not_and]
  exact ⟨fun h link hlink hsource hinvalid => h link ⟨hlink, hinvalid⟩ hsource, fun h link hlink hsource => h link hlink.1 hsource hlink.2⟩

/-- Each current parent has a period of the history at the clock with its path, and each such period is that of a current parent, but where its last entity has a link set aside that does not hold at the clock. -/
theorem current_parents_agree_with_history {current history : List Object} {now : Int} (hdated : ∀ link ∈ group, Dated env.calendar link)
    (hcurrent : deriveCurrentParents env command group invalid rules scope = .ok current)
    (hhistory : deriveParentHistory env group invalid rules scope = .ok history)
    (hclock : env.calendar.readTime command.clock = .ok now) (hnow : Records.micros now < lastTime) :
    (∀ link ∈ current, ∃ source target path, CurrentParent link source target path ∧
      ∃ other ∈ history, HistoryParent env.calendar other source target path (Records.micros now)) ∧
    ∀ other ∈ history, ∀ source target path, HistoryParent env.calendar other source target path (Records.micros now) →
      ((∃ link ∈ current, CurrentParent link source target path) ↔
        ¬ ∃ link ∈ group, link.source = target ∧ link.key ∈ invalid ∧ ¬ (link.start ≤ Records.micros now ∧ Records.micros now < link.stop)) := by
  constructor
  · intro link hlink
    obtain ⟨kind, hkind⟩ := current_kind hcurrent hlink
    obtain ⟨entry, _, hparent⟩ := Runs.forall₂_exists_left (deriveCurrentParents_eq_ok hcurrent hclock) hlink
    refine ⟨entry.1, entry.2.1, entry.2.2, hparent, (history_iff hhistory hdated hkind hnow).2 ?_⟩
    obtain ⟨hsource, hultimate, haside⟩ := (current_iff hcurrent hclock).1 ⟨link, hlink, hparent⟩
    refine chainAt_eq_some_iff.2 ⟨hsource, hultimate, disputedAt_eq_false.2 fun other hother htarget hinvalid => ?_⟩
    exact absurd hinvalid (isSetAside_eq_false.1 haside other hother htarget)
  · intro other hother source target path hparent
    obtain ⟨kind, hkind⟩ := history_kind hhistory hother
    obtain ⟨hsource, hultimate, hdisputed⟩ :=
      chainAt_eq_some_iff.1 ((history_iff hhistory hdated hkind hnow).1 ⟨other, hother, hparent⟩)
    rw [current_iff hcurrent hclock, isSetAside_eq_false]
    constructor
    · intro ⟨_, _, haside⟩ ⟨link, hlink, htarget, hinvalid, _⟩
      exact haside link hlink htarget hinvalid
    · intro hnone
      refine ⟨hsource, hultimate, fun link hlink htarget hinvalid => hnone ⟨link, hlink, htarget, hinvalid, ?_⟩⟩
      exact disputedAt_eq_false.1 hdisputed link hlink htarget hinvalid

private def instants : Env where
  calendar := .ofTable [("2010-01-01T00:00:00Z", 1262304000000000000), ("2018-01-01T00:00:00Z", 1514764800000000000),
    ("2020-01-01T00:00:00Z", 1577836800000000000), ("2012-01-01T00:00:00Z", 1325376000000000000)]
  digest := id

private def periodOf (key source target : String) (start stop : Int) (valid_from valid_to : Json) : LinkPeriod :=
  ⟨key, source, target, start, stop, .ofList [("valid_from", valid_from), ("valid_to", valid_to)]⟩

/-- A chain of two links, of which the second ends before a link set aside of its source begins. -/
private def twoLinks : List LinkPeriod :=
  [periodOf "p" "a" "b" 1262304000000000 lastTime (.str "2010-01-01T00:00:00Z") .null,
    periodOf "q" "b" "c" 1262304000000000 1514764800000000 (.str "2010-01-01T00:00:00Z") (.str "2018-01-01T00:00:00Z"),
    periodOf "x" "b" "d" 1577836800000000 lastTime (.str "2020-01-01T00:00:00Z") .null]

private def chainRules : TypeRules := { TypeRules.default with ultimateType := some "ultimate" }

private def atClock : Command :=
  ⟨.empty, .empty, .empty, .empty, .empty, .empty, "2012-01-01T00:00:00Z", "2012-01-01T00:00:00Z", []⟩

theorem current_parents_agree_with_history_twoLinks :
    ∃ current history, deriveCurrentParents instants atClock twoLinks ["x"] chainRules (.str "") = .ok current ∧
      deriveParentHistory instants twoLinks ["x"] chainRules (.str "") = .ok history ∧ current.length = 2 ∧
      ∀ link ∈ current, ∃ source target path, CurrentParent link source target path ∧
        ∃ other ∈ history, HistoryParent instants.calendar other source target path 1325376000000000 := by
  obtain ⟨current, hcurrent, hlength⟩ : ∃ current, deriveCurrentParents instants atClock twoLinks ["x"] chainRules (.str "") = .ok current ∧
      current.length = 2 := by decide +kernel
  obtain ⟨history, hhistory, _⟩ : ∃ history, deriveParentHistory instants twoLinks ["x"] chainRules (.str "") = .ok history ∧
      history.length = 3 := by decide +kernel
  have hclock : instants.calendar.readTime atClock.clock = .ok 1325376000000000000 := by decide +kernel
  have hdated : ∀ link ∈ twoLinks, Dated instants.calendar link := by
    simp only [twoLinks, List.forall_mem_cons]
    refine ⟨⟨?_, ?_⟩, ⟨?_, ?_⟩, ⟨?_, ?_⟩, fun link hlink => absurd hlink List.not_mem_nil⟩ <;> decide +kernel
  exact ⟨current, history, hcurrent, hhistory, hlength,
    (current_parents_agree_with_history hdated hcurrent hhistory hclock (by decide)).1⟩

end EdgarPlatform.Relationships
