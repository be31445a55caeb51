import EdgarPlatform.Relationships.Groups

/-!
# What a calculation returns

The links returned are the direct and the derived ones calculated, in the order of their keys, some of whose periods take a stored start. Putting a start back leaves every other field of the link and of its periods, and only ever makes a period longer.
-/

namespace EdgarPlatform.Relationships

open Records (Calendar Env Json Object readText hasValue readOptionalValue)

/-- A period that differs from another at most in that it takes an earlier start of a stored one: a period on any basis, with the basis, or one on an observed basis. -/
structure Moved (calendar : Calendar) (anyBasis : Bool) (stored : Object → Prop) (period moved : Object) : Prop where
  fields : ∀ key, key ≠ "valid_from" → (key = "valid_from_basis" → anyBasis = false) → moved.get? key = period.get? key
  start : moved.get? "valid_from" = period.get? "valid_from" ∨
    (anyBasis = true ∨ isText period "valid_from_basis" "observed" = true) ∧
    ∃ s, stored s ∧ moved.get? "valid_from" = s.get? "valid_from" ∧ ∃ earlier start,
      readAt calendar s "valid_from" firstTime = .ok earlier ∧ readAt calendar period "valid_from" firstTime = .ok start ∧
        earlier < start

section Moved

variable {calendar : Calendar} {anyBasis : Bool} {stored : Object → Prop} {period moved last : Object}

theorem Moved.refl (period : Object) : Moved calendar anyBasis stored period period := ⟨fun _ _ _ => rfl, .inl rfl⟩

theorem readAt_congr {body other : Object} {field : String} (h : body.get? field = other.get? field) (otherwise : Int) :
    readAt calendar body field otherwise = readAt calendar other field otherwise := by
  unfold readAt Records.readInstant hasValue readText
  rw [h]

theorem Moved.basis (h : Moved calendar anyBasis stored period moved)
    (hmoved : anyBasis = true ∨ isText moved "valid_from_basis" "observed" = true) :
    anyBasis = true ∨ isText period "valid_from_basis" "observed" = true := by
  rcases hmoved with hany | hobserved
  · exact .inl hany
  · cases hany : anyBasis with
    | true => exact .inl rfl
    | false =>
        unfold isText readText at hobserved ⊢
        rw [h.fields _ (by decide) fun _ => hany] at hobserved
        exact .inr hobserved

theorem Moved.trans (h : Moved calendar anyBasis stored period moved) (h' : Moved calendar anyBasis stored moved last) :
    Moved calendar anyBasis stored period last where
  fields := fun key hfrom hbasis => (h'.fields key hfrom hbasis).trans (h.fields key hfrom hbasis)
  start := by
    rcases h'.start with hkept | ⟨hbasis, s, hs, htaken, earlier, start, hearlier, hstart, hlt⟩
    · rcases h.start with hsame | ⟨hbasis, s, hs, htaken, hrest⟩
      · exact .inl (hkept.trans hsame)
      · exact .inr ⟨hbasis, s, hs, hkept.trans htaken, hrest⟩
    · refine .inr ⟨h.basis hbasis, s, hs, htaken, earlier, ?_⟩
      rcases h.start with hsame | ⟨_, s', _, htaken', earlier', start', hearlier', hstart', hlt'⟩
      · exact ⟨start, hearlier, (readAt_congr hsame firstTime) ▸ hstart, hlt⟩
      · have hmid := (readAt_congr htaken' firstTime).symm.trans hstart
        cases hearlier'.symm.trans hmid
        exact ⟨start', hearlier, hstart', hlt.trans hlt'⟩

theorem moved_moveStart {s : Object} {start own : Int} (hs : stored s)
    (hbasis : anyBasis = true ∨ isText period "valid_from_basis" "observed" = true)
    (hstart : readAt calendar s "valid_from" firstTime = .ok start)
    (hown : readAt calendar period "valid_from" firstTime = .ok own) (hlt : start < own) :
    Moved calendar anyBasis stored period (moveStart anyBasis s period) where
  fields := fun key hfrom hkey => by
    rw [moveStart_get?, if_neg]
    intro h
    rcases h with heq | ⟨hany, heq⟩
    · exact hfrom heq
    · cases (hkey heq).symm.trans hany
  start := by
    have hget := moveStart_get? anyBasis s period "valid_from"
    rw [if_pos (.inl rfl)] at hget
    cases hvalue : s.get? "valid_from" with
    | none =>
        rw [hvalue] at hget
        exact .inl hget
    | some value =>
        rw [hvalue] at hget
        exact .inr ⟨hbasis, s, hs, hget.trans hvalue.symm, start, own, hstart, hown, hlt⟩

theorem keepEarlierStart_moved {s : Object} {periods kept : List Object} (hs : stored s)
    (h : keepEarlierStart calendar s anyBasis periods = .ok (some kept)) :
    List.Forall₂ (Moved calendar anyBasis stored) periods kept := by
  obtain ⟨front, own, back, rfl, rfl | ⟨rfl, hbasis, start, first, hstart, hfirst, hlt⟩⟩ := keepEarlierStart_eq_ok h
  · exact List.forall₂_same.2 fun p _ => .refl p
  · refine List.rel_append (List.forall₂_same.2 fun p _ => .refl p) ?_
    exact .cons (moved_moveStart hs hbasis hstart hfirst hlt) (List.forall₂_same.2 fun p _ => .refl p)

end Moved

def IsStoredPeriod (stored period : Object) : Prop :=
  ∃ raws, Records.readArray stored "periods" = .ok raws ∧ ∃ raw ∈ raws, Records.readFields raw = .ok period

def keepsStartOf (rules : IndexMap String TypeRules) (kind : String) : Bool := (rules.get? kind).any TypeRules.isKeepingStart

/-- A link whose periods take earlier starts of the stored link of its key, if there is one. -/
def PutBackOf (calendar : Calendar) (command : Command) (rules : IndexMap String TypeRules) (link put : Object) : Prop :=
  put = link ∨ ∃ key kind stored raws periods moved, readText link "relationship_id" = .ok key ∧
    readText link "type" = .ok kind ∧ command.stored.get? key = some stored ∧ Records.readArray link "periods" = .ok raws ∧
    raws.mapM Records.readFields = .ok periods ∧ put = link.insert "periods" (.arr (moved.map Object.toJson)) ∧
    List.Forall₂ (Moved calendar (keepsStartOf rules kind) (IsStoredPeriod stored)) periods moved

variable {command : Command} {rules : IndexMap String TypeRules}

theorem PutBackOf.get? {calendar : Calendar} {link put : Object}
    (h : PutBackOf calendar command rules link put) {field : String} (hfield : field ≠ "periods") :
    put.get? field = link.get? field := by
  rcases h with rfl | ⟨_, _, _, _, _, _, _, _, _, _, _, rfl, _⟩
  · rfl
  · exact IndexMap.get?_insert_of_ne _ _ hfield

theorem PutBackOf.linkIs {calendar : Calendar} {link put : Object}
    (h : PutBackOf calendar command rules link put) {kind scope source target : String}
    (his : LinkIs put kind scope source target) : LinkIs link kind scope source target := by
  refine his.congr fun field hfield => (h.get? ?_).symm
  rintro rfl
  revert hfield
  decide

variable {env : Env}

theorem putBackStarts_eq_ok {link put : Object}
    (h : putBackStarts env command rules link = .ok put) : PutBackOf env.calendar command rules link put := by
  unfold putBackStarts at h
  split_ifs at h
  · obtain ⟨key, hkey, h⟩ := Except.bind_eq_ok.1 h
    obtain ⟨kind, hkind, h⟩ := Except.bind_eq_ok.1 h
    split at h
    · cases h
      exact .inl rfl
    · next stored hstored =>
        obtain ⟨raws, hraws, h⟩ := Except.bind_eq_ok.1 h
        obtain ⟨periods, hperiods, h⟩ := Except.bind_eq_ok.1 h
        obtain ⟨storedRaws, hstoredRaws, h⟩ := Except.bind_eq_ok.1 h
        obtain ⟨moved, hmoved, h⟩ := Except.bind_eq_ok.1 h
        cases h
        refine .inr ⟨key, kind, stored, raws, periods, moved, hkey, hkind, hstored, hraws, hperiods, rfl, ?_⟩
        refine Runs.run_invariant
          (fun _ mid => List.Forall₂ (Moved env.calendar (keepsStartOf rules kind) (IsStoredPeriod stored)) periods mid)
          hmoved (List.forall₂_same.2 fun p _ => .refl p) ?_
        intro front raw back mid next hsplit hmid hstep
        obtain ⟨s, hs, hstep⟩ := Except.bind_eq_ok.1 hstep
        have hstoredPeriod : IsStoredPeriod stored s := ⟨storedRaws, hstoredRaws, raw, by simp [hsplit], hs⟩
        split_ifs at hstep
        · obtain ⟨kept, hkept, hstep⟩ := Except.bind_eq_ok.1 hstep
          cases hstep
          cases kept with
          | none => exact hmid
          | some kept =>
              exact Runs.forall₂_comp (fun _ _ _ h h' => h.trans h') hmid (keepEarlierStart_moved hstoredPeriod hkept)
        · cases hstep
          exact hmid
  · cases h
    exact .inl rfl

theorem directBody_get? {edge : Relationship} {field : String} (hperiods : field ≠ "periods")
    (hevidence : field ≠ "evidence") : (directBody env edge).get? field = edge.body.get? field := by
  unfold directBody
  rw [IndexMap.get?_insert_of_ne _ _ hevidence, IndexMap.get?_insert_of_ne _ _ hperiods]

theorem directBody_periods (env : Env) (edge : Relationship) :
    (directBody env edge).get? "periods" = some (.arr (edge.periods.map Object.toJson)) := by
  unfold directBody
  rw [IndexMap.get?_insert_of_ne _ _ (by decide), IndexMap.get?_insert_self]

theorem directBody_linkIs {edge : Relationship} {kind scope source target : String} :
    LinkIs (directBody env edge) kind scope source target ↔ LinkIs edge.body kind scope source target := by
  have hsame : ∀ field ∈ ["type", "scope", "source_id", "target_id"],
      (directBody env edge).get? field = edge.body.get? field := by
    intro field hfield
    refine directBody_get? ?_ ?_ <;>
      (rintro rfl
       revert hfield
       decide)
  exact ⟨fun h => h.congr fun field hfield => (hsame field hfield).symm, fun h => h.congr hsame⟩

theorem mem_directLinks {edges : Edges} {invalid : List String} {link : Object} :
    link ∈ directLinks env edges invalid ↔
      ∃ key edge, edges.get? key = some edge ∧ key ∉ invalid ∧ link = directBody env edge := by
  unfold directLinks
  simp only [List.mem_map, List.mem_filter, decide_eq_true_eq]
  constructor
  · intro h
    obtain ⟨entry, ⟨hentry, hvalid⟩, rfl⟩ := h
    exact ⟨entry.1, entry.2, IndexMap.get?_eq_some_iff.2 hentry, hvalid, rfl⟩
  · intro h
    obtain ⟨key, edge, hget, hvalid, rfl⟩ := h
    exact ⟨(key, edge), ⟨IndexMap.get?_eq_some_iff.1 hget, hvalid⟩, rfl⟩

theorem GroupingOf.described {edges : Edges} {found : Grouping} (h : GroupingOf env edges.entries found)
    (hedges : EdgesOf edges) {key : String} {edge : Relationship} (hget : found.edges.get? key = some edge) :
    Described key edge.body ∧ ∀ period ∈ edge.periods, hasValue period "valid_from" = true := by
  have hkey : key ∈ edges.entries.map Prod.fst := h.keys ▸ IndexMap.mem_keys_of_get? hget
  obtain ⟨entry, hentry, rfl⟩ := List.mem_map.1 hkey
  obtain ⟨edge', hget', hbody, hperm, _⟩ := h.edges entry hentry
  cases hget.symm.trans hget'
  have hof := hedges.of_mem hentry
  exact ⟨hbody ▸ hof.described, fun p hp => hof.dated p (hperm.mem_iff.1 hp)⟩

/-- The stages of a calculation. -/
structure Stages (env : Env) (command : Command) (rules : IndexMap String TypeRules) (found : Gathered)
    (calculated : Calculated) (grouping : Grouping) (aside : SetAside) (derived : List (List Object)) : Prop where
  groups : GroupingOf env found.edges.entries grouping
  checked : setAside grouping.edges rules grouping.grouped found.reviews = .ok aside
  derive : grouping.grouped.entries.mapM (deriveGroup env command grouping.edges rules aside.invalid) = .ok derived
  result : calculated = ⟨directLinks env grouping.edges aside.invalid, derived.flatten, aside.reviews⟩

variable {found : Gathered} {calculated : Calculated}

theorem calculate_eq_ok
    (h : calculate env command rules found = .ok calculated) :
    ∃ grouping aside derived, Stages env command rules found calculated grouping aside derived := by
  obtain ⟨grouping, hgrouping, h⟩ := Except.bind_eq_ok.1 h
  obtain ⟨aside, haside, h⟩ := Except.bind_eq_ok.1 h
  obtain ⟨derived, hderived, h⟩ := Except.bind_eq_ok.1 h
  exact ⟨grouping, aside, derived, group_eq_ok hgrouping, haside, hderived, (Except.ok.inj h).symm⟩

theorem withRelationshipId_get? (env : Env) (body : Object) {field : String} (h : field ≠ "relationship_id") :
    (withRelationshipId env body).get? field = body.get? field :=
  IndexMap.get?_insert_of_ne _ _ h

theorem deriveGroup_fields {edges : Edges}
    {invalid : List String} {entry : (String × String) × List LinkPeriod} {derived : List Object}
    (h : deriveGroup env command edges rules invalid entry = .ok derived) : ∀ link ∈ derived,
      link.get? "derived" = some (.bool true) ∧
        ∃ kind, ultimateType (rulesOf rules entry.1.1) = .ok kind ∧ link.get? "type" = some (.str kind) := by
  obtain ⟨first, _, h⟩ := Except.bind_eq_ok.1 h
  obtain ⟨scope, _, h⟩ := Except.bind_eq_ok.1 h
  intro link hlink
  split at h
  · obtain ⟨time, _, h⟩ := Except.bind_eq_ok.1 h
    obtain ⟨found, _, hfound⟩ := Runs.mapM_exists_of_mem h hlink
    obtain ⟨kind, hkind, hfound⟩ := Except.bind_eq_ok.1 hfound
    cases hfound
    refine ⟨?_, kind, hkind, ?_⟩ <;>
      rw [withRelationshipId_get? _ _ (by decide), IndexMap.get?_ofList_eq (by simp only [List.map_cons, List.map_nil]; decide)] <;>
      simp [IndexMap.lookupEntry]
  · obtain ⟨found, _, hfound⟩ := Runs.mapM_exists_of_mem h hlink
    obtain ⟨kind, hkind, hfound⟩ := Except.bind_eq_ok.1 hfound
    obtain ⟨periods, _, hfound⟩ := Except.bind_eq_ok.1 hfound
    cases hfound
    refine ⟨?_, kind, hkind, ?_⟩ <;>
      rw [IndexMap.get?_insert_of_ne _ _ (by decide), withRelationshipId_get? _ _ (by decide),
        IndexMap.get?_ofList_eq (by simp only [List.map_cons, List.map_nil]; decide)] <;>
      simp [IndexMap.lookupEntry]
  · cases h
    exact absurd hlink List.not_mem_nil

/-- What a run that succeeds read, calculated and returned. -/
structure Prepared (env : Env) (command : Command) (rules : IndexMap String TypeRules) (found : Gathered)
    (calculated : Calculated) (output : List Object) : Prop where
  typed : readTypes command.types command.kinds = .ok rules
  gathered : gather env command rules = .ok found
  finished : calculate env command rules found = .ok calculated
  direct : ∀ link ∈ calculated.direct, link.get? "derived" = some (.bool false)
  derived : ∀ link ∈ calculated.derived, link.get? "derived" = some (.bool true)
  output : ∃ links, List.Forall₂ (PutBackOf env.calendar command rules) (calculated.direct ++ calculated.derived) links ∧
    output.Perm links

def IsDirect (link : Object) : Prop := link.get? "derived" = some (.bool false)

instance (link : Object) : Decidable (IsDirect link) := inferInstanceAs (Decidable (_ = _))

theorem Prepared.exists_calculated
    {output : List Object} (h : Prepared env command rules found calculated output)
    {link : Object} (hlink : link ∈ output) :
    ∃ before ∈ calculated.direct ++ calculated.derived, PutBackOf env.calendar command rules before link := by
  obtain ⟨links, hpaired, hperm⟩ := h.output
  obtain ⟨i, hi, hget⟩ := List.mem_iff_getElem.1 (hperm.mem_iff.1 hlink)
  have hi' : i < (calculated.direct ++ calculated.derived).length := hpaired.length_eq ▸ hi
  exact ⟨_, List.getElem_mem hi', hget ▸ hpaired.get hi' hi⟩

theorem Prepared.exists_direct
    {output : List Object} (h : Prepared env command rules found calculated output)
    {link : Object} (hlink : link ∈ output) (hdirect : IsDirect link) :
    ∃ before ∈ calculated.direct, PutBackOf env.calendar command rules before link := by
  obtain ⟨before, hbefore, hput⟩ := h.exists_calculated hlink
  rcases List.mem_append.1 hbefore with hbefore | hbefore
  · exact ⟨before, hbefore, hput⟩
  · have hflag := (hput.get? (by decide)).symm.trans hdirect
    rw [h.derived before hbefore] at hflag
    simp at hflag

theorem orderLinks_eq_ok {links ordered : List Object} (h : orderLinks links = .ok ordered) : ordered.Perm links := by
  obtain ⟨keyed, hkeyed, h⟩ := Except.bind_eq_ok.1 h
  cases h
  refine ((Sorting.sortByKey_perm _ keyed).map _).trans (List.Perm.of_eq ?_)
  refine Runs.mapM_map_eq Prod.snd (fun link entry hentry => ?_) hkeyed
  obtain ⟨key, _, hentry⟩ := Except.bind_eq_ok.1 hentry
  cases hentry
  rfl

theorem prepareRelationships_eq_ok {output reviews : List Object}
    (h : prepareRelationships env command = .ok (output, reviews)) :
    ∃ rules found calculated, Prepared env command rules found calculated output := by
  obtain ⟨rules, hrules, h⟩ := Except.bind_eq_ok.1 h
  obtain ⟨found, hfound, h⟩ := Except.bind_eq_ok.1 h
  obtain ⟨calculated, hcalculated, h⟩ := Except.bind_eq_ok.1 h
  obtain ⟨links, hlinks, h⟩ := Except.bind_eq_ok.1 h
  obtain ⟨ordered, hordered, h⟩ := Except.bind_eq_ok.1 h
  cases h
  refine ⟨rules, found, calculated, hrules, hfound, hcalculated, ?_, ?_, links, ?_, orderLinks_eq_ok hordered⟩
  · obtain ⟨grouping, aside, derived, hstages⟩ := calculate_eq_ok hcalculated
    rw [hstages.result]
    intro link hlink
    obtain ⟨key, edge, hget, _, rfl⟩ := mem_directLinks.1 hlink
    rw [directBody_get? (by decide) (by decide)]
    exact (hstages.groups.described (gather_edgesOf hfound) hget).1.derived
  · obtain ⟨grouping, aside, derived, hstages⟩ := calculate_eq_ok hcalculated
    rw [hstages.result]
    intro link hlink
    obtain ⟨links, hlinks, hmem⟩ := List.mem_flatten.1 hlink
    obtain ⟨entry, _, hentry⟩ := Runs.mapM_exists_of_mem hstages.derive hlinks
    exact (deriveGroup_fields hentry link hmem).1
  · exact (Runs.mapM_eq_ok.1 hlinks).imp fun _ _ => putBackStarts_eq_ok

/-- A direct link, by its key, from one entity to another at an instant. -/
def LinkAt (calendar : Calendar) (links : List Object) (kind scope : String) (t : Int) (source key target : String) :
    Prop :=
  ∃ link ∈ links, LinkIs link kind scope source target ∧ readText link "relationship_id" = .ok key ∧
    InForce calendar link t

/-- A period of a group, by its link's key, from one entity to another at an instant. -/
def PeriodFrom (links : List LinkPeriod) (t : Int) (source key target : String) : Prop :=
  ∃ link ∈ links, link.source = source ∧ link.key = key ∧ link.target = target ∧ link.start ≤ t ∧ t < link.stop

def validIn (grouped : Grouped) (invalid : List String) (group : String × String) : List LinkPeriod :=
  validOf ((grouped.get? group).getD []) invalid

theorem mem_validIn {grouped : Grouped} {invalid : List String} {group : String × String} {link : LinkPeriod} :
    link ∈ validIn grouped invalid group ↔ link ∈ (grouped.get? group).getD [] ∧ link.key ∉ invalid := by
  simp [validIn, validOf]

theorem Stages.linkAt_iff
    {grouping : Grouping} {aside : SetAside} {derived : List (List Object)}
    (h : Stages env command rules found calculated grouping aside derived) (hedges : EdgesOf found.edges)
    {kind scope source key target : String} {t : Int} :
    LinkAt env.calendar calculated.direct kind scope t source key target ↔
      PeriodFrom (validIn grouping.grouped aside.invalid (kind, scope)) t source key target := by
  rw [h.result]
  constructor
  · intro hlink
    obtain ⟨link, hmem, his, hid, hforce⟩ := hlink
    obtain ⟨key', edge, hget, hvalid, rfl⟩ := mem_directLinks.1 hmem
    have hdescribed := (h.groups.described hedges hget).1
    have hkey : readText (directBody env edge) "relationship_id" = .ok key' := by
      unfold readText
      rw [directBody_get? (by decide) (by decide)]
      exact hdescribed.id
    cases hid.symm.trans hkey
    obtain ⟨period, hperiod, start, stop, hinterval, hstart, hstop⟩ :=
      (inForce_iff (directBody_periods env edge)).1 hforce
    refine ⟨⟨key, source, target, start, stop, period⟩, ?_, rfl, rfl, rfl, hstart, hstop⟩
    refine mem_validIn.2 ⟨(h.groups.group _ _).2 ⟨edge, hget, ?_⟩, hvalid⟩
    exact ⟨directBody_linkIs.1 his, hperiod, hinterval⟩
  · intro hperiod
    obtain ⟨link, hmem, rfl, rfl, rfl, hstart, hstop⟩ := hperiod
    obtain ⟨hgroup, hvalid⟩ := mem_validIn.1 hmem
    obtain ⟨edge, hget, hof⟩ := (h.groups.group _ _).1 hgroup
    refine ⟨directBody env edge, mem_directLinks.2 ⟨link.key, edge, hget, hvalid, rfl⟩,
      directBody_linkIs.2 hof.ends, ?_, (inForce_iff (directBody_periods env edge)).2
        ⟨link.body, hof.mem, link.start, link.stop, hof.bounds, hstart, hstop⟩⟩
    have hdescribed := (h.groups.described hedges hget).1
    unfold readText
    rw [directBody_get? (by decide) (by decide)]
    exact hdescribed.id

end EdgarPlatform.Relationships
