import EdgarPlatform.Relationships.Spans

/-!
# The history of ultimate parents

A derived link has a period for each span of its pair, and the texts of its bounds read back as the span's bounds. So the derived links of a type whose entities have one parent say of every instant what following the direct links calculated says, and putting stored starts back changes none of them.
-/

namespace EdgarPlatform.Relationships

open Records (Calendar Env Json Object readText hasValue readOptionalValue)

variable {calendar : Calendar}

theorem readAt_of_value {body other : Object} {field field' : String} {otherwise time : Int}
    (h : other.get? field' = body.get? field) (hvalue : hasValue body field = true)
    (htime : readAt calendar body field otherwise = .ok time) (otherwise' : Int) :
    readAt calendar other field' otherwise' = .ok time := by
  have hvalue' : hasValue other field' = true := by
    unfold hasValue at hvalue ⊢
    rwa [h]
  rw [readAt, if_pos hvalue] at htime
  rw [readAt, if_pos hvalue']
  obtain ⟨raw, hraw, htime⟩ := Except.bind_eq_ok.1 htime
  have hraw' : readText other field' = .ok raw := by
    rw [readText_eq_ok] at hraw ⊢
    rwa [h]
  unfold Records.readInstant
  rw [hraw']
  exact htime

/-- A period of a group whose bounds are read from its fields, the start from a value. -/
def Dated (calendar : Calendar) (link : LinkPeriod) : Prop :=
  interval calendar link.body = .ok (link.start, link.stop) ∧ hasValue link.body "valid_from" = true

theorem interval_eq_ok {body : Object} {start stop : Int} :
    interval calendar body = .ok (start, stop) ↔
      readAt calendar body "valid_from" firstTime = .ok start ∧ readAt calendar body "valid_to" lastTime = .ok stop := by
  constructor
  · intro h
    obtain ⟨_, hstart, h⟩ := Except.bind_eq_ok.1 h
    obtain ⟨_, hstop, h⟩ := Except.bind_eq_ok.1 h
    cases h
    exact ⟨hstart, hstop⟩
  · intro h
    unfold interval
    rw [h.1, h.2]
    rfl

theorem get?_of_hasValue {body : Object} {field : String} (h : hasValue body field = true) :
    body.get? field = some (readOptionalValue body field) := by
  obtain ⟨value, hget, _⟩ := hasValue_iff.1 h
  rw [readOptionalValue, hget]
  rfl

variable {links : List LinkPeriod}

theorem datesOf_reads (hdated : ∀ link ∈ links, Dated calendar link)
    {c : Int} {text : Json} (h : (datesOf links).get? c = some text) :
    ∃ body field otherwise, body.get? field = some text ∧ hasValue body field = true ∧
      readAt calendar body field otherwise = .ok c := by
  obtain ⟨hlast, link, hlink, hbound⟩ := get?_datesOf h
  obtain ⟨hinterval, hfrom⟩ := hdated link hlink
  obtain ⟨hstart, hstop⟩ := interval_eq_ok.1 hinterval
  rcases hbound with ⟨rfl, rfl⟩ | ⟨rfl, rfl⟩
  · exact ⟨link.body, "valid_from", firstTime, get?_of_hasValue hfrom, hfrom, hstart⟩
  · -- An end before the last time is stated.
    have hto : hasValue link.body "valid_to" = true := by
      by_contra hnone
      rw [readAt, if_neg hnone] at hstop
      exact hlast.ne (Except.ok.inj hstop).symm
    exact ⟨link.body, "valid_to", lastTime, get?_of_hasValue hto, hto, hstop⟩

/-- The period of a span: its bounds are read back as the span's, and it has the span's path and no basis. -/
structure PeriodIs (calendar : Calendar) (span : Span) (period : Object) : Prop where
  bounds : interval calendar period = .ok (span.start, span.stop)
  path : period.get? "path" = some (textsJson span.value)
  basis : period.get? "valid_from_basis" = none

theorem spanBody_eq_ok (hdated : ∀ link ∈ links, Dated calendar link)
    {span : Span} {period : Object} (h : spanBody (datesOf links) span = .ok period)
    (hstop : span.stop ∈ (datesOf links).keys ∨ span.stop = lastTime) : PeriodIs calendar span period := by
  obtain ⟨start, hstart, h⟩ := Except.bind_eq_ok.1 h
  cases h
  generalize hto : ((datesOf links).get? span.stop).getD .null = stop
  have hget : ∀ field, (IndexMap.ofList [("valid_from", start), ("valid_to", stop), ("path", textsJson span.value)] :
      Object).get? field = IndexMap.lookupEntry field [("valid_from", start), ("valid_to", stop),
        ("path", textsJson span.value)] :=
    IndexMap.get?_ofList_eq (by simp only [List.map_cons, List.map_nil]; decide)
  refine ⟨interval_eq_ok.2 ⟨?_, ?_⟩, ?_, ?_⟩
  · cases hdate : (datesOf links).get? span.start with
    | none =>
        rw [hdate] at hstart
        cases hstart
    | some text =>
        rw [hdate] at hstart
        cases hstart
        obtain ⟨body, field, otherwise, hfield, hvalue, hread⟩ := datesOf_reads hdated hdate
        refine readAt_of_value ?_ hvalue hread firstTime
        rw [hget, hfield]
        simp [IndexMap.lookupEntry]
  · cases hdate : (datesOf links).get? span.stop with
    | none =>
        rw [hdate] at hto
        subst hto
        have hlast := hstop.resolve_left (IndexMap.get?_eq_none_iff.1 hdate)
        rw [readAt, if_neg, hlast]
        rw [hasValue, hget]
        simp [IndexMap.lookupEntry, Records.hasContent]
    | some text =>
        rw [hdate] at hto
        subst hto
        obtain ⟨body, field, otherwise, hfield, hvalue, hread⟩ := datesOf_reads hdated hdate
        refine readAt_of_value ?_ hvalue hread lastTime
        rw [hget, hfield]
        simp [IndexMap.lookupEntry]
  · rw [hget]
    simp [IndexMap.lookupEntry]
  · rw [hget]
    simp [IndexMap.lookupEntry]

/-- The derived link of a pair of entities, by its spans. -/
structure HistoryLink (calendar : Calendar) (kind scope : String) (entry : (String × String) × List Span) (link : Object) :
    Prop where
  ends : LinkIs link kind scope entry.1.1 entry.1.2
  periods : ∃ periods, link.get? "periods" = some (.arr (periods.map Object.toJson)) ∧
    List.Forall₂ (PeriodIs calendar) entry.2 periods

variable {entry : (String × String) × List Span}

theorem HistoryLink.inForce_iff {kind scope : String}
    {link : Object} (h : HistoryLink calendar kind scope entry link) {t : Int} :
    InForce calendar link t ↔ ∃ path, Timeline.At entry.2 t path := by
  obtain ⟨periods, hperiods, hspans⟩ := h.periods
  rw [Relationships.inForce_iff hperiods]
  constructor
  · intro hforce
    obtain ⟨period, hperiod, start, stop, hbounds, hat⟩ := hforce
    obtain ⟨span, hspan, his⟩ := Runs.forall₂_exists_left hspans hperiod
    cases his.bounds.symm.trans hbounds
    exact ⟨span.value, span, hspan, hat.1, hat.2, rfl⟩
  · intro hat
    obtain ⟨_, span, hspan, hstart, hstop, _⟩ := hat
    obtain ⟨period, hperiod, his⟩ := Runs.forall₂_exists_right hspans hspan
    exact ⟨period, hperiod, span.start, span.stop, his.bounds, hstart, hstop⟩

theorem mapM_readFields (periods : List Object) : (periods.map Object.toJson).mapM Records.readFields = .ok periods := by
  rw [Runs.mapM_eq_ok, List.forall₂_map_left_iff, List.forall₂_same]
  exact fun period _ => readFields_toJson period

theorem PeriodIs.moved {calendar : Calendar} {stored : Object → Prop} {span : Span} {period moved : Object}
    (h : PeriodIs calendar span period) (hmoved : Moved calendar false stored period moved) :
    PeriodIs calendar span moved := by
  have hstart : moved.get? "valid_from" = period.get? "valid_from" := by
    rcases hmoved.start with hsame | ⟨hbasis | hbasis, _⟩
    · exact hsame
    · cases hbasis
    · rw [isText, decide_eq_true_eq, readText_eq_ok, h.basis] at hbasis
      cases hbasis
  obtain ⟨hfrom, hto⟩ := interval_eq_ok.1 h.bounds
  refine ⟨interval_eq_ok.2 ⟨?_, ?_⟩, ?_, ?_⟩
  · rwa [readAt_congr hstart]
  · rwa [readAt_congr (hmoved.fields "valid_to" (by decide) (by decide))]
  · rw [hmoved.fields "path" (by decide) (by decide)]
    exact h.path
  · rw [hmoved.fields "valid_from_basis" (by decide) fun _ => rfl]
    exact h.basis

variable {command : Command} {rules : IndexMap String TypeRules}

theorem HistoryLink.putBack
    {kind scope : String} {link put : Object}
    (h : HistoryLink calendar kind scope entry link) (hkeeps : keepsStartOf rules kind = false)
    (hput : PutBackOf calendar command rules link put) : HistoryLink calendar kind scope entry put := by
  obtain ⟨periods, hperiods, hspans⟩ := h.periods
  rcases hput with rfl | ⟨_, kind', stored, raws, periods', moved, _, hkind', _, hraws, hperiods', rfl, hmoved⟩
  · exact h
  · cases h.ends.kind.symm.trans hkind'
    rw [hkeeps] at hmoved
    have hread : Records.readArray link "periods" = .ok (periods.map Object.toJson) := by
      unfold Records.readArray
      rw [hperiods]
    cases hraws.symm.trans hread
    cases hperiods'.symm.trans (mapM_readFields periods)
    refine ⟨h.ends.congr fun field hfield => IndexMap.get?_insert_of_ne _ _ ?_, moved, IndexMap.get?_insert_self _ _ _, ?_⟩
    · rintro rfl
      revert hfield
      decide
    · exact Runs.forall₂_comp (fun _ _ _ his hmove => his.moved hmove) hspans hmoved

theorem ultimateType_eq_ok {rules : TypeRules} {kind : String} :
    ultimateType rules = .ok kind ↔ rules.ultimateType = some kind := by
  unfold ultimateType
  cases rules.ultimateType <;> simp

variable {env : Env}

theorem deriveHistoryLink_eq_ok {rules : TypeRules} {scope : Json}
    {kind : String} {link : Object}
    (h : deriveHistoryLink env rules scope (datesOf links) entry = .ok link)
    (hdated : ∀ link ∈ links, Dated env.calendar link) (hkind : rules.ultimateType = some kind)
    (hstop : ∀ span ∈ entry.2, span.stop ∈ (datesOf links).keys ∨ span.stop = lastTime) :
    HistoryLink env.calendar kind (Records.writeSortedJson scope) entry link := by
  obtain ⟨kind', hkind', h⟩ := Except.bind_eq_ok.1 h
  obtain ⟨periods, hperiods, h⟩ := Except.bind_eq_ok.1 h
  cases h
  cases (ultimateType_eq_ok.1 hkind').symm.trans hkind
  have hget : ∀ field, field ≠ "periods" → field ≠ "relationship_id" → ((withRelationshipId env (.ofList
      [("type", .str kind), ("source_id", .str entry.1.1), ("target_id", .str entry.1.2), ("scope", scope),
        ("derived", .bool true), ("algorithm", .str UltimateParent.chainV2.name)])).insert "periods"
          (.arr (periods.map Object.toJson))).get? field = IndexMap.lookupEntry field
      [("type", .str kind), ("source_id", .str entry.1.1), ("target_id", .str entry.1.2), ("scope", scope),
        ("derived", .bool true), ("algorithm", .str UltimateParent.chainV2.name)] := by
    intro field hfield hid
    rw [IndexMap.get?_insert_of_ne _ _ hfield, withRelationshipId_get? _ _ hid,
      IndexMap.get?_ofList_eq (by simp only [List.map_cons, List.map_nil]; decide)]
  refine ⟨⟨?_, ⟨scope, ?_, rfl⟩, ?_, ?_⟩, periods, IndexMap.get?_insert_self _ _ _, ?_⟩
  · rw [readText_eq_ok, hget _ (by decide) (by decide)]
    simp [IndexMap.lookupEntry]
  · rw [hget _ (by decide) (by decide)]
    simp [IndexMap.lookupEntry]
  · rw [readText_eq_ok, hget _ (by decide) (by decide)]
    simp [IndexMap.lookupEntry]
  · rw [readText_eq_ok, hget _ (by decide) (by decide)]
    simp [IndexMap.lookupEntry]
  · exact Runs.forall₂_imp_of_mem (Runs.mapM_eq_ok.1 hperiods) fun span period hspan hbody =>
      spanBody_eq_ok hdated hbody (hstop span hspan)

theorem deriveParentHistory_eq_ok {group : List LinkPeriod} {invalid : List String} {rules : TypeRules}
    {scope : Json} {kind : String} {derived : List Object}
    (h : deriveParentHistory env group invalid rules scope = .ok derived)
    (hdated : ∀ link ∈ group, Dated env.calendar link) (hkind : rules.ultimateType = some kind) :
    List.Forall₂ (HistoryLink env.calendar kind (Records.writeSortedJson scope))
      (Sorting.sortByKey (fun entry => toLex entry.1) (historySpans group invalid).entries) derived := by
  have hall : ∀ link ∈ validOf group invalid ++ disputedOf group invalid, Dated env.calendar link := by
    intro link hlink
    rcases List.mem_append.1 hlink with hlink | hlink
    · exact hdated link (List.mem_filter.1 hlink).1
    · exact hdated link (List.mem_filter.1 hlink).1
  refine Runs.forall₂_imp_of_mem (Runs.mapM_eq_ok.1 h) fun entry link hentry hlink => ?_
  refine deriveHistoryLink_eq_ok hlink hall hkind fun span hspan => ?_
  have hspans := historySpans_spansOf group invalid entry.1
  rw [IndexMap.get?_eq_some_iff.2 (Sorting.mem_sortByKey.1 hentry)] at hspans
  exact hspans.stop span hspan

theorem deriveGroup_type {edges : Edges}
    {invalid : List String} {entry : (String × String) × List LinkPeriod} {derived : List Object}
    (h : deriveGroup env command edges rules invalid entry = .ok derived) {link : Object} (hlink : link ∈ derived)
    {kind scope source target : String} (hends : LinkIs link kind scope source target) :
    (rulesOf rules entry.1.1).ultimateType = some kind := by
  obtain ⟨_, kind', hkind', htype⟩ := deriveGroup_fields h link hlink
  have hkind := readText_eq_ok.1 hends.kind
  rw [htype] at hkind
  cases hkind
  exact ultimateType_eq_ok.1 hkind'

theorem GroupingOf.dated {edges : Edges} {found : Grouping} (h : GroupingOf env edges.entries found)
    (hedges : EdgesOf edges) (group : String × String) :
    ∀ link ∈ (found.grouped.get? group).getD [], Dated env.calendar link := by
  intro link hlink
  obtain ⟨edge, hget, hof⟩ := (h.group group link).1 hlink
  exact ⟨hof.bounds, (h.described hedges hget).2 link.body hof.mem⟩

variable {grouping : Grouping}

theorem deriveGroup_history {edges : Edges}
    {invalid : List String} {kind scope derivedKind : String}
    {derived : List Object} (hgroups : GroupingOf env edges.entries grouping)
    (hedges : EdgesOf edges) (hgroup : grouping.grouped.get? (kind, scope) = some links)
    (halgorithm : (rulesOf rules kind).ultimate = some .chainV2)
    (hnames : (rulesOf rules kind).ultimateType = some derivedKind)
    (h : deriveGroup env command grouping.edges rules invalid ((kind, scope), links) = .ok derived) :
    List.Forall₂ (HistoryLink env.calendar derivedKind scope)
      (Sorting.sortByKey (fun entry => toLex entry.1) (historySpans links invalid).entries) derived := by
  obtain ⟨first, hfirst, h⟩ := Except.bind_eq_ok.1 h
  obtain ⟨value, hvalue, h⟩ := Except.bind_eq_ok.1 h
  simp only [halgorithm] at h
  have hdated := hgroups.dated hedges (kind, scope)
  rw [hgroup] at hdated
  have hscope : Records.writeSortedJson value = scope := by
    cases hhead : links.head? with
    | none =>
        rw [hhead] at hfirst
        cases hfirst
    | some link =>
        have hmem : link ∈ (grouping.grouped.get? (kind, scope)).getD [] := by
          rw [hgroup]
          exact List.mem_of_head? hhead
        obtain ⟨edge, hget, hof⟩ := (hgroups.group (kind, scope) link).1 hmem
        have hedge : first = edge := by
          rw [hhead, Option.bind_some, hget] at hfirst
          exact (Except.ok.inj hfirst).symm
        subst hedge
        obtain ⟨value', hvalue', heq⟩ := hof.ends.scope
        have hsame : value = value' := by
          rw [readScope, hvalue'] at hvalue
          exact (Except.ok.inj hvalue).symm
        rw [hsame]
        exact heq
  rw [← hscope]
  exact deriveParentHistory_eq_ok h hdated hnames

/-- A relationship gathered that is no direct link, so one set aside, leads from an entity at an instant. -/
def SetAsideAt (calendar : Calendar) (found : Gathered) (direct : List Object) (kind scope : String) (t : Int)
    (source : String) : Prop :=
  ∃ key edge target, found.edges.get? key = some edge ∧ (∀ link ∈ direct, readText link "relationship_id" ≠ .ok key) ∧
    LinkIs edge.body kind scope source target ∧ ∃ period ∈ edge.periods, PeriodAt calendar period t

/-- Following the direct links from an entity at an instant ends at another, by the keys of a chain, and no link of that one is set aside. -/
def UltimateAt (calendar : Calendar) (found : Gathered) (direct : List Object) (kind scope : String) (t : Int)
    (source : String) (keys : List String) (node : String) : Prop :=
  Trails.EndsAt (LinkAt calendar direct kind scope t) source keys node ∧
    ¬ SetAsideAt calendar found direct kind scope t node

variable {found : Gathered} {calculated : Calculated}

variable {derived : List (List Object)}

theorem Stages.disputedAt_iff
    {aside : SetAside}
    (h : Stages env command rules found calculated grouping aside derived) (hedges : EdgesOf found.edges)
    {kind scope node : String} {t : Int} :
    disputedAt (disputedOf ((grouping.grouped.get? (kind, scope)).getD []) aside.invalid) t node = true ↔
      SetAsideAt env.calendar found calculated.direct kind scope t node := by
  have hid : ∀ {key : String} {edge : Relationship}, grouping.edges.get? key = some edge →
      readText (directBody env edge) "relationship_id" = .ok key := by
    intro key edge hget
    unfold readText
    rw [directBody_get? (by decide) (by decide)]
    exact (h.groups.described hedges hget).1.id
  have hset : ∀ {key : String} {edge : Relationship}, grouping.edges.get? key = some edge →
      ((∀ link ∈ calculated.direct, readText link "relationship_id" ≠ .ok key) ↔ key ∈ aside.invalid) := by
    intro key edge hget
    rw [h.result]
    constructor
    · intro hnone
      by_contra hvalid
      exact hnone _ (mem_directLinks.2 ⟨key, edge, hget, hvalid, rfl⟩) (hid hget)
    · intro hinvalid link hlink heq
      obtain ⟨key', edge', hget', hvalid, rfl⟩ := mem_directLinks.1 hlink
      cases (hid hget').symm.trans heq
      exact hvalid hinvalid
  simp only [disputedAt, disputedOf, List.any_eq_true, List.mem_filter, decide_eq_true_eq]
  constructor
  · intro hlink
    obtain ⟨link, ⟨hmem, hinvalid⟩, rfl, hstart, hstop⟩ := hlink
    obtain ⟨edge, hget, hof⟩ := (h.groups.group _ _).1 hmem
    obtain ⟨entry, hentry, hkey⟩ := List.mem_map.1 (h.groups.keys ▸ IndexMap.mem_keys_of_get? hget)
    obtain ⟨edge', hget', hbody, hperm, _⟩ := h.groups.edges entry hentry
    rw [hkey] at hget'
    cases hget.symm.trans hget'
    refine ⟨link.key, entry.2, link.target, ?_, (hset hget).2 hinvalid, hbody ▸ hof.ends, link.body,
      hperm.mem_iff.1 hof.mem, link.start, link.stop, hof.bounds, hstart, hstop⟩
    rw [← hkey]
    exact IndexMap.get?_eq_some_iff.2 hentry
  · intro haside
    obtain ⟨key, edge, target, hget, hnone, hends, period, hperiod, start, stop, hbounds, hstart, hstop⟩ := haside
    obtain ⟨edge', hget', hbody, hperm, _⟩ := h.groups.edges (key, edge) (IndexMap.get?_eq_some_iff.1 hget)
    refine ⟨⟨key, node, target, start, stop, period⟩, ⟨(h.groups.group _ _).2 ⟨edge', hget', ?_⟩, (hset hget').1 hnone⟩,
      rfl, hstart, hstop⟩
    exact ⟨hbody ▸ hends, hperm.mem_iff.2 hperiod, hbounds⟩

/-- A type that gives an entity one parent and has its history derived as links of a type that no other type names and that keeps no start. -/
structure DerivesHistory (rules : IndexMap String TypeRules) (kind derivedKind : String) : Prop where
  oneParent : (rulesOf rules kind).isOneParent = true
  algorithm : (rulesOf rules kind).ultimate = some .chainV2
  names : (rulesOf rules kind).ultimateType = some derivedKind
  alone : ∀ other, (rulesOf rules other).ultimateType = some derivedKind → other = kind
  restarts : keepsStartOf rules derivedKind = false

/-- The history derived agrees with the direct links: a pair of entities has a link in force exactly when following ends from the one at the other, its periods are in order, disjoint, and no two that touch have one path, each period's path is a chain followed at each of its instants, and no pair has two links. -/
structure HistoryOf (calendar : Calendar) (found : Gathered) (direct derived : List Object) (kind derivedKind : String) :
    Prop where
  agrees : ∀ scope source node t, t < lastTime →
    ((∃ link ∈ derived, LinkIs link derivedKind scope source node ∧ InForce calendar link t) ↔
      ∃ keys, UltimateAt calendar found direct kind scope t source keys node)
  periods : ∀ link ∈ derived, ∀ scope source node, LinkIs link derivedKind scope source node →
    ∃ spans periods, link.get? "periods" = some (.arr (periods.map Object.toJson)) ∧
      List.Forall₂ (PeriodIs calendar) spans periods ∧ Timeline.Joined spans ∧
      ∀ t keys, Timeline.At spans t keys → UltimateAt calendar found direct kind scope t source keys node
  single : derived.Pairwise fun link other => ∀ scope source node, LinkIs link derivedKind scope source node →
    ¬ LinkIs other derivedKind scope source node

/-- The links of a type and scope as they are derived: one for each pair that has spans. -/
structure DerivedFrom (calendar : Calendar) (derivedKind : String) (spansOf : String → Spans) (derived : List Object) :
    Prop where
  link : ∀ link ∈ derived, ∀ scope source node, LinkIs link derivedKind scope source node →
    ∃ spans, (spansOf scope).get? (source, node) = some spans ∧
      HistoryLink calendar derivedKind scope ((source, node), spans) link
  spans : ∀ scope source node spans, (spansOf scope).get? (source, node) = some spans →
    ∃ link ∈ derived, HistoryLink calendar derivedKind scope ((source, node), spans) link
  single : derived.Pairwise fun link other => ∀ scope source node, LinkIs link derivedKind scope source node →
    ¬ LinkIs other derivedKind scope source node

theorem HistoryLink.unique {kind kind' scope scope' source node : String}
    {link : Object} (h : HistoryLink calendar kind scope entry link)
    (hends : LinkIs link kind' scope' source node) : kind = kind' ∧ scope = scope' ∧ entry.1 = (source, node) := by
  obtain ⟨hkind, hscope, hsource, hnode⟩ := h.ends.unique hends
  exact ⟨hkind, hscope, Prod.ext hsource hnode⟩

theorem Stages.derivedFrom
    {aside : SetAside}
    (h : Stages env command rules found calculated grouping aside derived) (hedges : EdgesOf found.edges)
    {kind derivedKind : String} (hderives : DerivesHistory rules kind derivedKind) :
    DerivedFrom env.calendar derivedKind
      (fun scope => historySpans ((grouping.grouped.get? (kind, scope)).getD []) aside.invalid) calculated.derived := by
  have hrun := Runs.mapM_eq_ok.1 h.derive
  have hentry : ∀ entry ∈ grouping.grouped.entries, ∀ links, entry.1.1 = kind →
      deriveGroup env command grouping.edges rules aside.invalid entry = .ok links →
      List.Forall₂ (HistoryLink env.calendar derivedKind entry.1.2)
        (Sorting.sortByKey (fun entry => toLex entry.1) (historySpans entry.2 aside.invalid).entries) links := by
    intro entry hmem links hkind hlinks
    obtain ⟨⟨kind', scope⟩, group⟩ := entry
    subst hkind
    exact deriveGroup_history h.groups hedges (IndexMap.get?_eq_some_iff.2 hmem) hderives.algorithm hderives.names hlinks
  have hof : ∀ entry ∈ grouping.grouped.entries, ∀ links,
      deriveGroup env command grouping.edges rules aside.invalid entry = .ok links → ∀ link ∈ links,
      ∀ scope source node, LinkIs link derivedKind scope source node → entry.1 = (kind, scope) ∧
        ∃ spans, (historySpans entry.2 aside.invalid).get? (source, node) = some spans ∧
          HistoryLink env.calendar derivedKind scope ((source, node), spans) link := by
    intro entry hmem links hlinks link hlink scope source node hends
    have hkind := hderives.alone _ (deriveGroup_type hlinks hlink hends)
    obtain ⟨⟨pair, spans⟩, hspans, his⟩ := Runs.forall₂_exists_left (hentry entry hmem links hkind hlinks) hlink
    obtain ⟨_, rfl, rfl⟩ := his.unique hends
    exact ⟨Prod.ext hkind rfl, spans, IndexMap.get?_eq_some_iff.2 (Sorting.mem_sortByKey.1 hspans), his⟩
  rw [h.result]
  refine ⟨?_, ?_, ?_⟩
  · intro link hlink scope source node hends
    obtain ⟨links, hlinks, hmem⟩ := List.mem_flatten.1 hlink
    obtain ⟨entry, hin, hgroup⟩ := Runs.forall₂_exists_left hrun hlinks
    obtain ⟨hkey, spans, hspans, his⟩ := hof entry hin links hgroup link hmem scope source node hends
    refine ⟨spans, ?_, his⟩
    have hget : grouping.grouped.get? (kind, scope) = some entry.2 := by
      rw [← hkey]
      exact IndexMap.get?_eq_some_iff.2 hin
    simpa only [hget, Option.getD_some] using hspans
  · intro scope source node spans hspans
    cases hget : grouping.grouped.get? (kind, scope) with
    | none =>
        simp only [hget, Option.getD_none] at hspans
        cases hspans
    | some group =>
        simp only [hget, Option.getD_some] at hspans
        have hin := IndexMap.get?_eq_some_iff.1 hget
        obtain ⟨links, hlinks, hgroup⟩ := Runs.forall₂_exists_right hrun hin
        obtain ⟨link, hlink, his⟩ := Runs.forall₂_exists_right (hentry _ hin links rfl hgroup)
          (Sorting.mem_sortByKey.2 (IndexMap.get?_eq_some_iff.1 hspans))
        exact ⟨link, List.mem_flatten.2 ⟨links, hlinks, hlink⟩, his⟩
  · refine List.pairwise_flatten.2 ⟨?_, ?_⟩
    · intro links hlinks
      obtain ⟨entry, hin, hgroup⟩ := Runs.forall₂_exists_left hrun hlinks
      by_cases hkind : entry.1.1 = kind
      · have hkeys : (Sorting.sortByKey (fun entry => toLex entry.1)
            (historySpans entry.2 aside.invalid).entries).Pairwise fun a b => a.1 ≠ b.1 :=
          List.pairwise_map.1
            (((Sorting.sortByKey_perm _ _).map Prod.fst).nodup_iff.2 (historySpans entry.2 aside.invalid).nodup)
        refine Runs.pairwise_of_forall₂ ?_ (hentry entry hin links hkind hgroup) hkeys
        intro a link b other ha hb hne scope source node hends hends'
        obtain ⟨_, _, heq⟩ := ha.unique hends
        obtain ⟨_, _, heq'⟩ := hb.unique hends'
        exact hne (heq.trans heq'.symm)
      · refine List.pairwise_of_forall_mem_list fun link hlink other _ scope source node hends _ => hkind ?_
        exact hderives.alone _ (deriveGroup_type hgroup hlink hends)
    · have hkeys : grouping.grouped.entries.Pairwise fun a b => a.1 ≠ b.1 :=
        List.pairwise_map.1 grouping.grouped.nodup
      have hwithin : List.Forall₂ (fun entry links => entry ∈ grouping.grouped.entries ∧
          deriveGroup env command grouping.edges rules aside.invalid entry = .ok links) grouping.grouped.entries derived :=
        Runs.forall₂_imp_of_mem hrun fun _ _ hin hlinks => ⟨hin, hlinks⟩
      refine Runs.pairwise_of_forall₂ ?_ hwithin hkeys
      intro a links b others ha hb hne link hlink other hother scope source node hends hends'
      obtain ⟨heq, _⟩ := hof a ha.1 links ha.2 link hlink scope source node hends
      obtain ⟨heq', _⟩ := hof b hb.1 others hb.2 other hother scope source node hends'
      exact hne (heq.trans heq'.symm)

theorem Stages.historyOf
    {aside : SetAside}
    (h : Stages env command rules found calculated grouping aside derived) (hedges : EdgesOf found.edges)
    {kind derivedKind : String} (hderives : DerivesHistory rules kind derivedKind) {links : List Object}
    (hlinks : DerivedFrom env.calendar derivedKind
      (fun scope => historySpans ((grouping.grouped.get? (kind, scope)).getD []) aside.invalid) links) :
    HistoryOf env.calendar found calculated.direct links kind derivedKind := by
  have hsteps : ∀ scope t, LinkAt env.calendar calculated.direct kind scope t =
      PeriodFrom (validIn grouping.grouped aside.invalid (kind, scope)) t := by
    intro scope t
    funext source key target
    exact propext (h.linkAt_iff hedges)
  have hultimate : ∀ scope source node spans,
      (historySpans ((grouping.grouped.get? (kind, scope)).getD []) aside.invalid).get? (source, node) = some spans →
      Timeline.Joined spans ∧ ∀ t keys, Timeline.At spans t keys →
        UltimateAt env.calendar found calculated.direct kind scope t source keys node := by
    intro scope source node spans hspans
    have hof := historySpans_spansOf ((grouping.grouped.get? (kind, scope)).getD []) aside.invalid (source, node)
    rw [hspans] at hof
    refine ⟨hof.joined, fun t keys hat => ?_⟩
    obtain ⟨hends, hundisputed⟩ := chainAt_eq_some ((hof.chain t keys).1 hat).2
    refine ⟨hsteps scope t ▸ hends, fun haside => ?_⟩
    rw [← h.disputedAt_iff hedges, hundisputed] at haside
    cases haside
  refine ⟨fun scope source node t hlast => ?_, fun link hlink scope source node hends => ?_, hlinks.single⟩
  · constructor
    · intro hforce
      obtain ⟨link, hlink, hends, hforce⟩ := hforce
      obtain ⟨spans, hspans, his⟩ := hlinks.link link hlink scope source node hends
      obtain ⟨keys, hat⟩ := his.inForce_iff.1 hforce
      exact ⟨keys, (hultimate scope source node spans hspans).2 t keys hat⟩
    · intro hat
      obtain ⟨keys, hends, hnot⟩ := hat
      rw [hsteps] at hends
      have hundisputed := mt (h.disputedAt_iff hedges).1 hnot
      obtain ⟨path, hpath⟩ := chainAt_isSome (fun _ _ _ _ _ => h.one_target (.inl hderives.oneParent)) hends
        (by simpa using hundisputed)
      have hof := historySpans_spansOf ((grouping.grouped.get? (kind, scope)).getD []) aside.invalid (source, node)
      have hspan := (hof.chain t path).2 ⟨hlast, hpath⟩
      cases hspans : (historySpans ((grouping.grouped.get? (kind, scope)).getD []) aside.invalid).get? (source, node) with
      | none =>
          rw [hspans] at hspan
          obtain ⟨_, hmem, _⟩ := hspan
          cases hmem
      | some spans =>
          rw [hspans] at hspan
          obtain ⟨link, hlink, his⟩ := hlinks.spans scope source node spans hspans
          exact ⟨link, hlink, his.ends, his.inForce_iff.2 ⟨path, hspan⟩⟩
  · obtain ⟨spans, hspans, his⟩ := hlinks.link link hlink scope source node hends
    obtain ⟨periods, hperiods, hof⟩ := his.periods
    obtain ⟨hjoined, hat⟩ := hultimate scope source node spans hspans
    exact ⟨spans, periods, hperiods, hof, hjoined, hat⟩

def derivedOf (output : List Object) : List Object := output.filter fun link => link.get? "derived" = some (.bool true)

variable {output : List Object}

theorem Prepared.derived_perm
    (h : Prepared env command rules found calculated output) :
    ∃ puts, List.Forall₂ (PutBackOf env.calendar command rules) calculated.derived puts ∧
      (derivedOf output).Perm puts := by
  obtain ⟨links, hpaired, hperm⟩ := h.output
  obtain ⟨direct, derived, rfl, hdirect, hderived⟩ := Runs.forall₂_append_left hpaired
  refine ⟨derived, hderived, (hperm.filter _).trans (List.Perm.of_eq ?_)⟩
  rw [List.filter_append]
  have hnone : direct.filter (fun link => link.get? "derived" = some (.bool true)) = [] := by
    refine List.filter_eq_nil_iff.2 fun link hlink => ?_
    obtain ⟨before, hbefore, hput⟩ := Runs.forall₂_exists_left hdirect hlink
    rw [hput.get? (by decide), h.direct before hbefore]
    simp
  have hall : derived.filter (fun link => link.get? "derived" = some (.bool true)) = derived := by
    refine List.filter_eq_self.2 fun link hlink => ?_
    obtain ⟨before, hbefore, hput⟩ := Runs.forall₂_exists_left hderived hlink
    rw [hput.get? (by decide), h.derived before hbefore]
    simp
  rw [hnone, hall, List.nil_append]

theorem DerivedFrom.putBack
    {derivedKind : String} {spansOf : String → Spans}
    (h : DerivedFrom env.calendar derivedKind spansOf calculated.derived)
    (hprepared : Prepared env command rules found calculated output) (hkeeps : keepsStartOf rules derivedKind = false) :
    DerivedFrom env.calendar derivedKind spansOf (derivedOf output) := by
  obtain ⟨puts, hputs, hperm⟩ := hprepared.derived_perm
  refine ⟨?_, ?_, ?_⟩
  · intro link hlink scope source node hends
    obtain ⟨before, hbefore, hput⟩ := Runs.forall₂_exists_left hputs (hperm.mem_iff.1 hlink)
    obtain ⟨spans, hspans, his⟩ := h.link before hbefore scope source node (hput.linkIs hends)
    exact ⟨spans, hspans, his.putBack hkeeps hput⟩
  · intro scope source node spans hspans
    obtain ⟨before, hbefore, his⟩ := h.spans scope source node spans hspans
    obtain ⟨link, hlink, hput⟩ := Runs.forall₂_exists_right hputs hbefore
    exact ⟨link, hperm.mem_iff.2 hlink, his.putBack hkeeps hput⟩
  · refine (hperm.pairwise_iff fun hapart scope source node hother hlink => ?_).2
      (Runs.pairwise_of_forall₂ ?_ hputs h.single)
    · exact hapart scope source node hlink hother
    · intro before link before' other hput hput' hapart scope source node hends hends'
      exact hapart scope source node (hput.linkIs hends) (hput'.linkIs hends')

/-- For every type that derives a history the derived links returned agree with the direct links calculated, before stored starts are put back on those. -/
theorem history_agrees (env : Env) (command : Command) (output reviews : List Object)
    (h : prepareRelationships env command = .ok (output, reviews)) :
    ∃ rules found calculated, Prepared env command rules found calculated output ∧
      ∀ kind derivedKind, DerivesHistory rules kind derivedKind →
        HistoryOf env.calendar found calculated.direct (derivedOf output) kind derivedKind := by
  obtain ⟨rules, found, calculated, hprepared⟩ := prepareRelationships_eq_ok h
  obtain ⟨grouping, aside, derived, hstages⟩ := calculate_eq_ok hprepared.finished
  have hedges := gather_edgesOf hprepared.gathered
  refine ⟨rules, found, calculated, hprepared, fun kind derivedKind hderives => ?_⟩
  exact hstages.historyOf hedges hderives ((hstages.derivedFrom hedges hderives).putBack hprepared hderives.restarts)

/-- B is the parent of A from 2022, and of C from 2020 to 2022. -/
def oneParent (stored : List (String × Object)) : Command :=
  parentsCommand [("a", companyRecord "r1" [parentLink "b" []]), ("c", companyRecord "r2"
    [parentLink "b" (yearsFrom "2020-01-01T00:00:00+00:00" "2022-01-01T00:00:00+00:00")])] stored

theorem history_agrees_one_parent :
    ∃ output reviews rules found calculated, prepareRelationships env2024 (oneParent []) = .ok (output, reviews) ∧
      Prepared env2024 (oneParent []) rules found calculated output ∧ (derivedOf output).length = 2 ∧
      HistoryOf calendar2024 found calculated.direct (derivedOf output) "PARENT" "ULTIMATE" := by
  have hrun : ∃ result, prepareRelationships env2024 (oneParent []) = .ok result ∧ (derivedOf result.1).length = 2 := by
    decide +kernel
  have hread : ∃ rules, readTypes parentTypes ["company"] = .ok rules ∧ (rulesOf rules "PARENT").isOneParent = true ∧
      (rulesOf rules "PARENT").ultimate = some .chainV2 ∧ (rulesOf rules "PARENT").ultimateType = some "ULTIMATE" ∧
      (∀ entry ∈ rules.entries, entry.2.ultimateType = some "ULTIMATE" → entry.1 = "PARENT") ∧
      keepsStartOf rules "ULTIMATE" = false := by
    decide +kernel
  obtain ⟨⟨output, reviews⟩, hresult, hlength⟩ := hrun
  obtain ⟨rules, found, calculated, hprepared, hhistory⟩ := history_agrees env2024 (oneParent []) output reviews hresult
  obtain ⟨rules', hrules, hone, halgorithm, hnames, halone, hkeeps⟩ := hread
  cases hrules.symm.trans hprepared.typed
  refine ⟨output, reviews, rules, found, calculated, hresult, hprepared, hlength, hhistory _ _ ?_⟩
  refine ⟨hone, halgorithm, hnames, fun other hother => ?_, hkeeps⟩
  cases hget : rules.get? other with
  | none =>
      rw [rulesOf, hget] at hother
      cases hother
  | some ruled =>
      rw [rulesOf, hget] at hother
      exact halone (other, ruled) (IndexMap.get?_eq_some_iff.1 hget) hother

def HeldAt (calendar : Calendar) (output : List Object) (kind : String) (t : Int) : Prop :=
  ∃ link ∈ directOf output, readText link "type" = .ok kind ∧ InForce calendar link t

instance (calendar : Calendar) (output : List Object) (kind : String) (t : Int) :
    Decidable (HeldAt calendar output kind t) :=
  inferInstanceAs (Decidable (∃ link ∈ directOf output, _))

/-- The derived links returned say of every instant, from the first at which a link of the type is in force, what following the direct links returned says. -/
def AgreesAsReturned (calendar : Calendar) (found : Gathered) (output : List Object) (kind derivedKind : String) : Prop :=
  ∀ scope source node t, (∃ earlier, earlier ≤ t ∧ HeldAt calendar output kind earlier) →
    ((∃ link ∈ derivedOf output, LinkIs link derivedKind scope source node ∧ InForce calendar link t) ↔
      ∃ keys, UltimateAt calendar found (directOf output) kind scope t source keys node)

/-- A direct link leads at an instant to an entity no relationship leads from, and no derived link says so. -/
def MissesAt (calendar : Calendar) (found : Gathered) (output : List Object) (kind derivedKind scope source node : String)
    (t : Int) : Prop :=
  source ≠ node ∧ (∃ link ∈ directOf output, LinkIs link kind scope source node ∧ InForce calendar link t ∧
      ∃ key, readText link "relationship_id" = .ok key ∧ True) ∧
    (∀ link ∈ directOf output, readText link "source_id" ≠ .ok node) ∧
    (∀ entry ∈ found.edges.entries, readText entry.2.body "source_id" ≠ .ok node) ∧
    ∀ link ∈ derivedOf output, ¬ (LinkIs link derivedKind scope source node ∧ InForce calendar link t)

/-- A derived link is in force at an instant at which no direct link of the type leads from its source. -/
def InventsAt (calendar : Calendar) (output : List Object) (kind derivedKind scope source node : String) (t : Int) : Prop :=
  (∃ link ∈ derivedOf output, LinkIs link derivedKind scope source node ∧ InForce calendar link t) ∧
    ∀ link ∈ directOf output, ¬ (readText link "type" = .ok kind ∧ readText link "source_id" = .ok source ∧
      InForce calendar link t)

instance (calendar : Calendar) (found : Gathered) (output : List Object) (kind derivedKind scope source node : String)
    (t : Int) : Decidable (MissesAt calendar found output kind derivedKind scope source node t) :=
  inferInstanceAs (Decidable (_ ∧ _))

instance (calendar : Calendar) (output : List Object) (kind derivedKind scope source node : String) (t : Int) :
    Decidable (InventsAt calendar output kind derivedKind scope source node t) :=
  inferInstanceAs (Decidable (_ ∧ _))

variable {kind derivedKind scope source node : String}

theorem MissesAt.not_agrees
    {t : Int}
    (h : MissesAt calendar found output kind derivedKind scope source node t)
    (hbegun : ∃ earlier, earlier ≤ t ∧ HeldAt calendar output kind earlier) : ¬ AgreesAsReturned calendar found output kind derivedKind := by
  obtain ⟨hne, ⟨link, hlink, hends, hforce, key, hkey, _⟩, hfinal, hundisputed, hnone⟩ := h
  intro hagrees
  have htrail : Trails.EndsAt (LinkAt calendar (directOf output) kind scope t) source [key] node := by
    refine ⟨[source], .move ⟨link, hlink, hends, hkey, hforce⟩ (.stop node), by simpa using hne, by simp, ?_⟩
    intro _ _ hstep
    obtain ⟨other, hother, hother', _⟩ := hstep
    exact hfinal other hother hother'.source
  have hnot : ¬ SetAsideAt calendar found (directOf output) kind scope t node := by
    intro haside
    obtain ⟨key', edge, _, hget, _, hends', _⟩ := haside
    exact hundisputed (key', edge) (IndexMap.get?_eq_some_iff.1 hget) hends'.source
  obtain ⟨derived, hderived, hends', hforce'⟩ := (hagrees scope source node t hbegun).2 ⟨[key], htrail, hnot⟩
  exact hnone derived hderived ⟨hends', hforce'⟩

theorem InventsAt.not_agrees
    {t : Int}
    (h : InventsAt calendar output kind derivedKind scope source node t)
    (hbegun : ∃ earlier, earlier ≤ t ∧ HeldAt calendar output kind earlier) : ¬ AgreesAsReturned calendar found output kind derivedKind := by
  obtain ⟨hderived, hnone⟩ := h
  intro hagrees
  obtain ⟨keys, ⟨nodes, htrail, _, hlabels, _⟩, _⟩ := (hagrees scope source node t hbegun).1 hderived
  cases htrail with
  | stop _ => exact hlabels rfl
  | move hstep _ =>
      obtain ⟨link, hlink, hends, _, hforce⟩ := hstep
      exact hnone link hlink ⟨hends.kind, hends.source, hforce⟩

/-- A run of a type with one parent and an ultimate type whose links returned disagree. -/
def Disagrees (command : Command) (kind derivedKind : String) : Prop :=
  ∃ result, prepareRelationships env2024 command = .ok result ∧ ∃ rules, readTypes command.types command.kinds = .ok rules ∧
    ((rulesOf rules kind).isOneParent = true ∧ (rulesOf rules kind).ultimateType = some derivedKind) ∧
    ∃ found, gather env2024 command rules = .ok found ∧
      ¬ AgreesAsReturned calendar2024 found result.1 kind derivedKind

/-- The same, at an instant after another at which a link of the type is in force. -/
def DisagreesAt (command : Command) (kind derivedKind scope source node : String) (earlier t : Int) : Prop :=
  ∃ result, prepareRelationships env2024 command = .ok result ∧ ∃ rules, readTypes command.types command.kinds = .ok rules ∧
    ((rulesOf rules kind).isOneParent = true ∧ (rulesOf rules kind).ultimateType = some derivedKind) ∧
    ∃ found, gather env2024 command rules = .ok found ∧ (earlier ≤ t ∧ HeldAt calendar2024 result.1 kind earlier) ∧
      (MissesAt calendar2024 found result.1 kind derivedKind scope source node t ∨
        InventsAt calendar2024 result.1 kind derivedKind scope source node t)

instance (command : Command) (kind derivedKind scope source node : String) (earlier t : Int) :
    Decidable (DisagreesAt command kind derivedKind scope source node earlier t) :=
  inferInstanceAs (Decidable (∃ result, prepareRelationships env2024 command = .ok result ∧ _))

theorem DisagreesAt.disagrees {earlier t : Int}
    (h : DisagreesAt command kind derivedKind scope source node earlier t) : Disagrees command kind derivedKind := by
  obtain ⟨result, hresult, rules, hrules, hruled, found, hfound, hbegun, hat⟩ := h
  refine ⟨result, hresult, rules, hrules, hruled, found, hfound, ?_⟩
  rcases hat with hmisses | hinvents
  · exact hmisses.not_agrees ⟨earlier, hbegun⟩
  · exact hinvents.not_agrees ⟨earlier, hbegun⟩

/-- The parent type with an algorithm, the ultimate type with rules of its own, and a second parent type. -/
def changedTypes (algorithm : String) (ultimate : List (String × Json)) : IndexMap String Object :=
  let companies : Json := .arr [.str "company"]
  let hierarchy : List (String × Json) := [("from", companies), ("to", companies), ("hierarchy", .bool true),
    ("cycles", .str "invalid"), ("one_parent", .bool true), ("ultimate_parent", .str algorithm),
    ("ultimate_type", .str "ULTIMATE")]
  .ofList [("PARENT", .ofList hierarchy), ("ULTIMATE", .ofList ([("from", companies), ("to", companies)] ++ ultimate)),
    ("OWNER", .ofList hierarchy)]

/-- B is the parent of A from 2022 and the owner of C from 2020 to 2022. -/
def ownedToo : Command :=
  { parentsCommand [("a", companyRecord "r1" [parentLink "b" []]), ("c", companyRecord "r2"
      [.obj ([("type", .str "OWNER"), ("target_subject", .str "b")] ++
        yearsFrom "2020-01-01T00:00:00+00:00" "2022-01-01T00:00:00+00:00")])] [] with
    types := changedTypes "accounting-chain-v2" [] }

def everParent : Command :=
  parentsCommand [("a", companyRecord "r1"
    [parentLink "b" (yearsFrom "2020-01-01T00:00:00+00:00" "9999-12-31T23:59:59-14:00")])] []

def storedUltimate : String × Object :=
  ("\x7b\"algorithm\":\"accounting-chain-v2\",\"derived\":true,\"scope\":\"\",\"source_id\":\"A\"," ++
      "\"target_id\":\"B\",\"type\":\"ULTIMATE\"\x7d",
    .ofList [("periods", .arr [.obj [("valid_from", .str "2020-01-01T00:00:00+00:00"), ("valid_to", .null),
      ("path", .arr [.str "[\"PARENT\",\"A\",\"B\",\"\"]"])]])])

/-- The links returned disagree where a stored start is put back on a direct link, where one is put back on a derived link, where two types name one ultimate type, where the algorithm derives no history, and after the last time. -/
theorem returned_history_disagrees :
    Disagrees (oneParent [("[\"PARENT\",\"A\",\"B\",\"\"]", storedFrom2020)]) "PARENT" "ULTIMATE" ∧
    Disagrees { oneParent [storedUltimate] with
      types := changedTypes "accounting-chain-v2" [("keeps_start", .bool true)] } "PARENT" "ULTIMATE" ∧
    Disagrees ownedToo "OWNER" "ULTIMATE" ∧
    Disagrees { oneParent [] with types := changedTypes "accounting-chain-v1" [] } "PARENT" "ULTIMATE" ∧
    Disagrees everParent "PARENT" "ULTIMATE" := by
  have hdirect : DisagreesAt (oneParent [("[\"PARENT\",\"A\",\"B\",\"\"]", storedFrom2020)])
      "PARENT" "ULTIMATE" "\"\"" "A" "B" midTime midTime := by
    decide +kernel
  have hderived : DisagreesAt { oneParent [storedUltimate] with
      types := changedTypes "accounting-chain-v2" [("keeps_start", .bool true)] }
      "PARENT" "ULTIMATE" "\"\"" "A" "B" midTime midTime := by
    decide +kernel
  have hshared : DisagreesAt ownedToo "OWNER" "ULTIMATE" "\"\"" "A" "B" midTime lateTime := by
    decide +kernel
  have hcurrent : DisagreesAt { oneParent [] with types := changedTypes "accounting-chain-v1" [] }
      "PARENT" "ULTIMATE" "\"\"" "A" "B" midTime lateTime := by
    decide +kernel
  have hlast : DisagreesAt everParent "PARENT" "ULTIMATE" "\"\"" "A" "B" midTime lastTime := by
    decide +kernel
  exact ⟨hdirect.disagrees, hderived.disagrees, hshared.disagrees, hcurrent.disagrees, hlast.disagrees⟩

end EdgarPlatform.Relationships
