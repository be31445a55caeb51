import EdgarPlatform.Library.Trails
import EdgarPlatform.Relationships.Prepared

/-!
# One target at a time, and no cycle

Of two periods that give an entity two targets at once both links are set aside, and so is every link of a cycle. The search for cycles follows each simple cycle from the entity it starts at, as long as the time left holds an instant at which all its links hold. So what is left over has neither.
-/

namespace EdgarPlatform.Relationships

open Records (Calendar Env Json Object readText)

theorem mem_pairsOf {α : Type} {items : List α} {a b : α} (ha : a ∈ items) (hb : b ∈ items) (hne : a ≠ b) :
    (a, b) ∈ pairsOf items ∨ (b, a) ∈ pairsOf items := by
  induction items with
  | nil => simp at ha
  | cons first rest ih =>
      rw [pairsOf]
      rcases List.mem_cons.1 ha with rfl | ha'
      · exact .inl (List.mem_append_left _ (List.mem_map_of_mem ((List.mem_cons.1 hb).resolve_left (Ne.symm hne))))
      · rcases List.mem_cons.1 hb with rfl | hb'
        · exact .inr (List.mem_append_left _ (List.mem_map_of_mem ha'))
        · exact (ih ha' hb').imp (List.mem_append_right _) (List.mem_append_right _)

/-- What a group's checks set aside. -/
structure Checked (rules : TypeRules) (links : List LinkPeriod) (invalid : List String) : Prop where
  conflicts : rules.isOneParent = true ∨ rules.isOneTarget = true →
    ∀ pair ∈ conflictsOf links, pair.1.key ∈ invalid ∧ pair.2.key ∈ invalid
  cycles : rules.isHierarchy = true → rules.cyclesAreInvalid = true → ∀ cycle ∈ cyclesOf links, ∀ key ∈ cycle.1, key ∈ invalid

variable {links : List LinkPeriod}

theorem Checked.mono {rules : TypeRules} {invalid more : List String}
    (h : Checked rules links invalid) (hsub : invalid ⊆ more) : Checked rules links more where
  conflicts := fun hrules pair hpair => ⟨hsub (h.conflicts hrules pair hpair).1, hsub (h.conflicts hrules pair hpair).2⟩
  cycles := fun hhierarchy hinvalid cycle hcycle key hkey => hsub (h.cycles hhierarchy hinvalid cycle hcycle key hkey)

theorem checkConflicts_invalid (rules : TypeRules) (links : List LinkPeriod) (found : SetAside) :
    found.invalid ⊆ (checkConflicts rules links found).invalid ∧ (rules.isOneParent = true ∨ rules.isOneTarget = true →
      ∀ pair ∈ conflictsOf links, pair.1.key ∈ (checkConflicts rules links found).invalid ∧
        pair.2.key ∈ (checkConflicts rules links found).invalid) := by
  unfold checkConflicts
  split_ifs with hrules
  · refine ⟨List.subset_append_left _ _, fun _ pair hpair => ?_⟩
    constructor <;> exact List.mem_append_right _ (List.mem_flatMap.2 ⟨pair, hpair, by simp⟩)
  · exact ⟨List.Subset.refl _, fun h => absurd h hrules⟩

theorem checkCycles_eq_ok {edges : Edges} {kind : String} {rules : TypeRules}
    {found next : SetAside} (h : checkCycles edges kind rules links found = .ok next) :
    found.invalid ⊆ next.invalid ∧ (rules.isHierarchy = true → rules.cyclesAreInvalid = true →
      ∀ cycle ∈ cyclesOf links, ∀ key ∈ cycle.1, key ∈ next.invalid) := by
  unfold checkCycles at h
  by_cases hhierarchy : rules.isHierarchy = true
  · rw [if_pos hhierarchy] at h
    obtain ⟨reviews, _, h⟩ := Except.bind_eq_ok.1 h
    cases h
    constructor
    · show found.invalid ⊆ if _ then _ else _
      split_ifs
      · exact List.subset_append_left _ _
      · exact List.Subset.refl _
    · intro _ hinvalid cycle hcycle key hkey
      show key ∈ if _ then _ else _
      rw [if_pos hinvalid]
      exact List.mem_append_right _ (List.mem_flatMap.2 ⟨cycle, hcycle, hkey⟩)
  · rw [if_neg hhierarchy] at h
    cases h
    exact ⟨List.Subset.refl _, fun h => absurd h hhierarchy⟩

variable {rules : IndexMap String TypeRules}

theorem checkGroup_eq_ok {edges : Edges} {found next : SetAside}
    {entry : (String × String) × List LinkPeriod} (h : checkGroup edges rules found entry = .ok next) :
    found.invalid ⊆ next.invalid ∧ Checked (rulesOf rules entry.1.1) entry.2 next.invalid := by
  obtain ⟨hmore, hconflicts⟩ := checkConflicts_invalid (rulesOf rules entry.1.1) entry.2 found
  obtain ⟨hsub, hcycles⟩ := checkCycles_eq_ok h
  refine ⟨List.Subset.trans hmore hsub, fun hrules pair hpair => ?_, hcycles⟩
  exact ⟨hsub (hconflicts hrules pair hpair).1, hsub (hconflicts hrules pair hpair).2⟩

variable {aside : SetAside}

theorem setAside_checked {edges : Edges} {grouped : Grouped} {reviews : List Object}
    (h : setAside edges rules grouped reviews = .ok aside) :
    ∀ entry ∈ grouped.entries, Checked (rulesOf rules entry.1.1) entry.2 aside.invalid := by
  refine Runs.run_invariant (fun front mid => ∀ entry ∈ front, Checked (rulesOf rules entry.1.1) entry.2 mid.invalid) h
    (by simp) ?_
  intro front entry back mid next _ hmid hstep
  obtain ⟨hsub, hchecked⟩ := checkGroup_eq_ok hstep
  intro other hother
  rcases List.mem_append.1 hother with hold | hlast
  · exact (hmid other hold).mono hsub
  · rwa [List.mem_singleton.1 hlast]

def StepAt (links : List LinkPeriod) (t : Int) (x : String) (link : LinkPeriod) (y : String) : Prop :=
  link ∈ links ∧ link.source = x ∧ link.target = y ∧ link.start ≤ t ∧ t < link.stop

theorem mem_sources {link : LinkPeriod} (h : link ∈ links) : link.source ∈ sources links := by
  rw [sources, IndexMap.mem_keys_ofList, List.map_map]
  exact List.mem_map_of_mem h

variable {t : Int}

/-- The search that goes on with a link finds each trail from there back to the start that meets neither the start nor an entity seen before. -/
theorem searchFrom_finds {start : String} {y : String} {nodes : List String}
    {rest : List LinkPeriod} (htrail : Trails.Trail (StepAt links t) y nodes rest start) :
    ∀ (fuel : Nat) (path seen : List String) (startTime stopTime : Int) (link : LinkPeriod), rest.length < fuel →
      startTime ≤ t → t < stopTime → link.start ≤ t → t < link.stop → link.target = y → nodes.Nodup → start ∉ nodes →
      (∀ x ∈ nodes, x ∉ seen) → ∃ closing, (path ++ (link :: rest).map LinkPeriod.key, closing) ∈
        searchFrom links start fuel path seen startTime stopTime link := by
  induction htrail with
  | stop start =>
      intro fuel path seen startTime stopTime link hfuel hstartTime hstopTime hstart hstop htarget _ _ _
      obtain ⟨fuel, rfl⟩ : ∃ n, fuel = n + 1 := ⟨fuel - 1, by simp at hfuel; omega⟩
      have htime : ¬ min stopTime link.stop ≤ max startTime link.start := by omega
      refine ⟨link, ?_⟩
      rw [searchFrom]
      simp [htime, htarget]
  | @move y z start next nodes rest hstep _ ih =>
      intro fuel path seen startTime stopTime link hfuel hstartTime hstopTime hstart hstop htarget hnodup hout hseen
      obtain ⟨fuel, rfl⟩ : ∃ n, fuel = n + 1 := ⟨fuel - 1, by simp at hfuel; omega⟩
      obtain ⟨hnext, hsource, hnextTarget, hnextStart, hnextStop⟩ := hstep
      obtain ⟨hynew, hnodup⟩ := List.nodup_cons.1 hnodup
      have htime : ¬ min stopTime link.stop ≤ max startTime link.start := by omega
      have hyseen : y ∉ seen := hseen y (by simp)
      have hystart : y ≠ start := fun heq => hout (by simp [heq])
      have hseen' : ∀ x ∈ nodes, x ∉ y :: seen := by
        intro x hx hmem
        rcases List.mem_cons.1 hmem with rfl | hmem
        · exact hynew hx
        · exact hseen x (List.mem_cons_of_mem _ hx) hmem
      obtain ⟨closing, hfound⟩ := ih fuel (path ++ [link.key]) (y :: seen) (max startTime link.start)
        (min stopTime link.stop) next (by simpa using hfuel) (by omega) (by omega) hnextStart hnextStop hnextTarget
        hnodup (fun hmem => hout (List.mem_cons_of_mem _ hmem)) hseen'
      refine ⟨closing, ?_⟩
      rw [searchFrom]
      simp only [htime, htarget, hystart, hyseen, if_false]
      refine List.mem_flatMap.2 ⟨next, List.mem_filter.2 ⟨hnext, by simpa using hsource⟩, ?_⟩
      simpa using hfound

theorem Trails.Trail.sources_subset {x z : String} {nodes : List String}
    {labels : List LinkPeriod} (h : Trails.Trail (StepAt links t) x nodes labels z) :
    nodes ⊆ links.map LinkPeriod.source ∧ labels.length = nodes.length := by
  induction h with
  | stop x => simp
  | move hstep _ ih =>
      refine ⟨List.cons_subset.2 ⟨?_, ih.1⟩, by simp [ih.2]⟩
      exact List.mem_map.2 ⟨_, hstep.1, hstep.2.1⟩

/-- The links of a trail that comes back to where it started, in the range of times, are those of a cycle found. -/
theorem cyclesOf_finds (hfirst : firstTime ≤ t) (hlast : t < lastTime) {x : String}
    {nodes : List String} {labels : List LinkPeriod} (h : Trails.Trail (StepAt links t) x nodes labels x)
    (hlabels : labels ≠ []) (hnodup : nodes.Nodup) :
    ∃ closing, (labels.map LinkPeriod.key, closing) ∈ cyclesOf links := by
  obtain ⟨hsub, hlength⟩ := Trails.Trail.sources_subset h
  have hshort : nodes.length ≤ links.length := by
    have hle := (List.subperm_of_subset hnodup hsub).length_le
    rwa [List.length_map] at hle
  cases h with
  | stop _ => exact absurd rfl hlabels
  | @move _ y _ link nodes labels hstep htail =>
      obtain ⟨hlink, hsource, htarget, hstart, hstop⟩ := hstep
      obtain ⟨hout, hnodup⟩ := List.nodup_cons.1 hnodup
      have hseen : ∀ z ∈ nodes, z ∉ [x] := by
        intro z hz hmem
        rw [List.mem_singleton.1 hmem] at hz
        exact hout hz
      obtain ⟨closing, hfound⟩ := searchFrom_finds htail (links.length + 1) [] [x] firstTime lastTime link
        (by simp only [List.length_cons] at hlength hshort; omega) hfirst hlast hstart hstop htarget hnodup hout hseen
      refine ⟨closing, List.mem_flatMap.2 ⟨x, hsource ▸ mem_sources hlink, List.mem_flatMap.2 ⟨link, ?_, hfound⟩⟩⟩
      exact List.mem_filter.2 ⟨hlink, by simpa using hsource⟩

variable {calculated : Calculated} {derived : List (List Object)}

variable {command : Command} {found : Gathered} {grouping : Grouping}

theorem Stages.checked_group {env : Env}
    (h : Stages env command rules found calculated grouping aside derived) (kind scope : String) :
    Checked (rulesOf rules kind) ((grouping.grouped.get? (kind, scope)).getD []) aside.invalid := by
  cases hget : grouping.grouped.get? (kind, scope) with
  | none =>
      constructor
      · intro _ pair hpair
        cases hpair
      · intro _ _ cycle hcycle
        cases hcycle
  | some links => exact setAside_checked h.checked ((kind, scope), links) (IndexMap.get?_eq_some_iff.1 hget)

theorem Stages.one_target {env : Env}
    (h : Stages env command rules found calculated grouping aside derived) {kind scope : String}
    (hrules : (rulesOf rules kind).isOneParent = true ∨ (rulesOf rules kind).isOneTarget = true)
    {source key target key' target' : String}
    (hlink : PeriodFrom (validIn grouping.grouped aside.invalid (kind, scope)) t source key target)
    (hother : PeriodFrom (validIn grouping.grouped aside.invalid (kind, scope)) t source key' target') :
    target = target' := by
  obtain ⟨link, hmem, hsource, rfl, rfl, hstart, hstop⟩ := hlink
  obtain ⟨other, hmem', hsource', rfl, rfl, hstart', hstop'⟩ := hother
  obtain ⟨hin, hvalid⟩ := mem_validIn.1 hmem
  obtain ⟨hin', hvalid'⟩ := mem_validIn.1 hmem'
  by_contra hne
  have hconflict : ∀ a b : LinkPeriod, a.source = source → b.source = source → a.target ≠ b.target → a.start ≤ t →
      t < a.stop → b.start ≤ t → t < b.stop → conflict a b = true := by
    intro a b ha hb hab hastart hastop hbstart hbstop
    have hmeet : max a.start b.start < min a.stop b.stop := by omega
    rw [conflict, decide_eq_true_eq]
    exact ⟨ha.trans hb.symm, hab, hmeet⟩
  have hinvalid := (h.checked_group kind scope).conflicts hrules
  have hpair := mem_pairsOf hin hin' (fun heq => hne (congrArg LinkPeriod.target heq))
  rcases hpair with hpair | hpair
  · have hfound := hconflict link other hsource hsource' hne hstart hstop hstart' hstop'
    exact hvalid (hinvalid _ (List.mem_filter.2 ⟨hpair, hfound⟩)).1
  · have hfound := hconflict other link hsource' hsource (Ne.symm hne) hstart' hstop' hstart hstop
    exact hvalid (hinvalid _ (List.mem_filter.2 ⟨hpair, hfound⟩)).2

theorem Stages.acyclic {env : Env}
    (h : Stages env command rules found calculated grouping aside derived) {kind scope : String}
    (hhierarchy : (rulesOf rules kind).isHierarchy = true) (hinvalid : (rulesOf rules kind).cyclesAreInvalid = true)
    (hfirst : firstTime ≤ t) (hlast : t < lastTime) :
    Trails.Acyclic (PeriodFrom (validIn grouping.grouped aside.invalid (kind, scope)) t) := by
  intro x hcycle
  have hsteps : Relation.TransGen
      (fun x y => ∃ link, StepAt (validIn grouping.grouped aside.invalid (kind, scope)) t x link y) x x := by
    refine Relation.TransGen.mono (fun a b hstep => ?_) _ _ hcycle
    obtain ⟨_, link, hmem, hsource, _, htarget, hstart, hstop⟩ := hstep
    exact ⟨link, hmem, hsource, htarget, hstart, hstop⟩
  obtain ⟨y, nodes, labels, hlabels, htrail, hnodup⟩ := Trails.exists_cycle hsteps
  have hall := htrail.mono fun a link b hstep => (show StepAt ((grouping.grouped.get? (kind, scope)).getD []) t a link b from
    ⟨(mem_validIn.1 hstep.1).1, hstep.2⟩)
  obtain ⟨closing, hfound⟩ := cyclesOf_finds hfirst hlast hall hlabels hnodup
  cases htrail with
  | stop _ => exact hlabels rfl
  | @move _ _ _ link _ labels hstep _ =>
      have hkey := (h.checked_group kind scope).cycles hhierarchy hinvalid _ hfound link.key (by simp)
      exact (mem_validIn.1 hstep.1).2 hkey

theorem Stages.exists_key {env : Env}
    (h : Stages env command rules found calculated grouping aside derived) (hedges : EdgesOf found.edges) {link : Object}
    (hlink : link ∈ calculated.direct) : ∃ key, readText link "relationship_id" = .ok key := by
  rw [h.result] at hlink
  obtain ⟨key, edge, hget, _, rfl⟩ := mem_directLinks.1 hlink
  refine ⟨key, ?_⟩
  unfold readText
  rw [directBody_get? (by decide) (by decide)]
  exact (h.groups.described hedges hget).1.id

theorem isHierarchy_of_rules {types : IndexMap String Object} {kinds : List String}
    (h : readTypes types kinds = .ok rules) {kind : String} (hinvalid : (rulesOf rules kind).cyclesAreInvalid = true) :
    (rulesOf rules kind).isHierarchy = true := by
  cases hget : rules.get? kind with
  | none =>
      rw [rulesOf, hget] at hinvalid
      cases hinvalid
  | some ruled =>
      rw [rulesOf, hget] at hinvalid ⊢
      change ruled.cyclesAreInvalid = true at hinvalid
      refine isHierarchy_of_checked h hget (.inl fun hnone => ?_)
      rw [TypeRules.cyclesAreInvalid, show ruled.cycles = none from hnone] at hinvalid
      cases hinvalid

/-- No two links of the type that hold at one instant lead from one entity to different ones in one scope. -/
def OneTarget (calendar : Calendar) (links : List Object) (kind : String) : Prop :=
  ∀ link ∈ links, ∀ other ∈ links, ∀ scope source target target' t, LinkIs link kind scope source target →
    LinkIs other kind scope source target' → target ≠ target' → ¬ (InForce calendar link t ∧ InForce calendar other t)

/-- The link returned holds at the instant only by the stored start it took: as it was calculated it does not. -/
def RestoredAt (env : Env) (command : Command) (rules : IndexMap String TypeRules) (calculated : Calculated) (link : Object) (t : Int) : Prop :=
  ∃ before ∈ calculated.direct, PutBackOf env.calendar command rules before link ∧ ¬ InForce env.calendar before t

/-- A direct link returned that is in force at an instant also without a stored start, by its key. -/
def CalculatedAt (env : Env) (command : Command) (rules : IndexMap String TypeRules) (calculated : Calculated)
    (output : List Object) (kind scope : String) (t : Int) (source key target : String) : Prop :=
  ∃ link ∈ output, IsDirect link ∧ LinkIs link kind scope source target ∧ readText link "relationship_id" = .ok key ∧
    InForce env.calendar link t ∧ ¬ RestoredAt env command rules calculated link t

theorem CalculatedAt.linkAt {env : Env}
    {output : List Object} (h : Prepared env command rules found calculated output)
    {kind scope source key target : String}
    (hat : CalculatedAt env command rules calculated output kind scope t source key target) :
    LinkAt env.calendar calculated.direct kind scope t source key target := by
  obtain ⟨link, hlink, hdirect, his, hkey, _, hnot⟩ := hat
  obtain ⟨before, hbefore, hput⟩ := h.exists_direct hlink hdirect
  refine ⟨before, hbefore, hput.linkIs his, ?_, ?_⟩
  · unfold readText at hkey ⊢
    rwa [hput.get? (by decide)] at hkey
  · by_contra hforce
    exact hnot ⟨before, hbefore, hput, hforce⟩

/-- What holds of the direct links of types with one parent or one target, as calculated and as returned. -/
def OneTargetKept (env : Env) (command : Command) (rules : IndexMap String TypeRules) (calculated : Calculated)
    (output : List Object) : Prop :=
  ∀ kind, (rulesOf rules kind).isOneParent = true ∨ (rulesOf rules kind).isOneTarget = true →
    OneTarget env.calendar calculated.direct kind ∧
    ∀ link ∈ output, ∀ other ∈ output, IsDirect link → IsDirect other → ∀ scope source target target' t,
      LinkIs link kind scope source target → LinkIs other kind scope source target' → target ≠ target' →
      InForce env.calendar link t → InForce env.calendar other t →
      RestoredAt env command rules calculated link t ∨ RestoredAt env command rules calculated other t

/-- What holds of the direct links of types whose cycles are invalid, as calculated and as returned, at the instants in range. -/
def CyclesKeptOut (env : Env) (command : Command) (rules : IndexMap String TypeRules) (calculated : Calculated)
    (output : List Object) : Prop :=
  ∀ kind, (rulesOf rules kind).cyclesAreInvalid = true → ∀ scope t, firstTime ≤ t → t < lastTime →
    Trails.Acyclic (LinkAt env.calendar calculated.direct kind scope t) ∧
    Trails.Acyclic (CalculatedAt env command rules calculated output kind scope t)

def calendar2024 : Calendar :=
  .ofTable [("0000-01-01T00:00:00+00:00", -62167219200 * 10 ^ 9), ("0000-07-01T00:00:00+00:00", -62151494400 * 10 ^ 9),
    ("2020-01-01T00:00:00+00:00", 1577836800 * 10 ^ 9), ("2022-01-01T00:00:00+00:00", 1640995200 * 10 ^ 9),
    ("2024-01-01T00:00:00+00:00", 1704067200 * 10 ^ 9), ("9999-12-31T23:59:59-14:00", 253402351199 * 10 ^ 9)]

def env2024 : Env := ⟨calendar2024, id⟩

/-- Instants of 2021, of 2023, and of the year before the first. -/
def midTime : Int := 1609459200000000

def lateTime : Int := 1672531200000000

def earlyTime : Int := -62160000000000000

def parentTypes : IndexMap String Object :=
  let companies : Json := .arr [.str "company"]
  .ofList [("PARENT", .ofList [("from", companies), ("to", companies), ("hierarchy", .bool true),
      ("cycles", .str "invalid"), ("one_parent", .bool true), ("ultimate_parent", .str "accounting-chain-v2"),
      ("ultimate_type", .str "ULTIMATE")]),
    ("ULTIMATE", .ofList [("from", companies), ("to", companies)])]

/-- A parent reported with its period, or from when the record took effect. -/
def parentLink (subject : String) (period : List (String × Json)) : Json :=
  .obj ([("type", .str "PARENT"), ("target_subject", .str subject)] ++ period)

def yearsFrom (start stop : String) : List (String × Json) := [("valid_from", .str start), ("valid_to", .str stop)]

def companyRecord (assertion : String) (links : List Json) : Object :=
  .ofList [("assertion_id", .str assertion),
    ("source_meta", .obj [("effective_at", .str "2022-01-01T00:00:00+00:00")]), ("relationships", .arr links)]

def storedFrom2020 : Object :=
  .ofList [("periods", .arr [.obj [("valid_from", .str "2020-01-01T00:00:00+00:00"),
    ("valid_from_basis", .str "observed")]])]

def parentsCommand (claims stored : List (String × Object)) : Command :=
  let company : Object := .ofList [("kind", .str "company"), ("status", .str "accepted")]
  { claims := .ofList claims
    bindings := .ofList [("a", "A"), ("b", "B"), ("c", "C")]
    canonical := .ofList [("A", "A"), ("B", "B"), ("C", "C")]
    records := .ofList [("A", company), ("B", company), ("C", company)]
    types := parentTypes
    stored := .ofList stored
    asOf := "2024-01-01T00:00:00+00:00"
    clock := "2024-01-01T00:00:00+00:00"
    kinds := ["company"] }

/-- B is a parent of A from 2022, stored from 2020, and C is one from 2020 to 2022. -/
def twoParents : Command :=
  parentsCommand [("a", companyRecord "r1" [parentLink "b" [],
    parentLink "c" (yearsFrom "2020-01-01T00:00:00+00:00" "2022-01-01T00:00:00+00:00")])]
    [("[\"PARENT\",\"A\",\"B\",\"\"]", storedFrom2020)]

/-- B is a parent of A from 2022, stored from 2020, and A is one of B over some years. -/
def mutualParents (start stop : String) (period : List (String × Json)) : Command :=
  parentsCommand [("a", companyRecord "r1" [parentLink "b" period]),
    ("b", companyRecord "r2" [parentLink "a" (yearsFrom start stop)])]
    [("[\"PARENT\",\"A\",\"B\",\"\"]", storedFrom2020)]

/-- Of a type with one parent or one target the direct links calculated give an entity one target at a time, and two returned do otherwise only at an instant to which one of them was put back. -/
theorem one_target_at_a_time (env : Env) (command : Command) (output reviews : List Object)
    (h : prepareRelationships env command = .ok (output, reviews)) :
    ∃ rules found calculated, Prepared env command rules found calculated output ∧
      OneTargetKept env command rules calculated output := by
  obtain ⟨rules, found, calculated, hprepared⟩ := prepareRelationships_eq_ok h
  obtain ⟨grouping, aside, derived, hstages⟩ := calculate_eq_ok hprepared.finished
  have hedges := gather_edgesOf hprepared.gathered
  refine ⟨rules, found, calculated, hprepared, fun kind hrules => ?_⟩
  have hone : OneTarget env.calendar calculated.direct kind := by
    intro link hlink other hother scope source target target' t his his' hne hforce
    obtain ⟨key, hkey⟩ := hstages.exists_key hedges hlink
    obtain ⟨key', hkey'⟩ := hstages.exists_key hedges hother
    have hat := (hstages.linkAt_iff hedges).1 ⟨link, hlink, his, hkey, hforce.1⟩
    have hat' := (hstages.linkAt_iff hedges).1 ⟨other, hother, his', hkey', hforce.2⟩
    exact hne (hstages.one_target hrules hat hat')
  refine ⟨hone, ?_⟩
  intro link hlink other hother hdirect hdirect' scope source target target' t his his' hne _ _
  obtain ⟨before, hbefore, hput⟩ := hprepared.exists_direct hlink hdirect
  obtain ⟨before', hbefore', hput'⟩ := hprepared.exists_direct hother hdirect'
  have hapart := hone before hbefore before' hbefore' scope source target target' t (hput.linkIs his)
    (hput'.linkIs his') hne
  by_cases hforce : InForce env.calendar before t
  · exact .inr ⟨before', hbefore', hput', fun hforce' => hapart ⟨hforce, hforce'⟩⟩
  · exact .inl ⟨before, hbefore, hput, hforce⟩

theorem one_target_at_a_time_parents :
    ∃ output reviews, prepareRelationships env2024 twoParents = .ok (output, reviews) ∧
      ∃ rules found calculated, Prepared env2024 twoParents rules found calculated output ∧
        OneTargetKept env2024 twoParents rules calculated output := by
  have hrun : ∃ result, prepareRelationships env2024 twoParents = .ok result ∧ True := by
    decide +kernel
  obtain ⟨⟨output, reviews⟩, hresult, _⟩ := hrun
  exact ⟨output, reviews, hresult, one_target_at_a_time env2024 twoParents output reviews hresult⟩

/-- The stored start of one parent is put back over the years of the other. -/
theorem restored_start_over_another_parent :
    ∃ result, prepareRelationships env2024 twoParents = .ok result ∧
      (∃ rules, readTypes twoParents.types twoParents.kinds = .ok rules ∧ (rulesOf rules "PARENT").isOneParent = true) ∧
      ∃ link ∈ result.1, ∃ other ∈ result.1, IsDirect link ∧ IsDirect other ∧ LinkIs link "PARENT" "\"\"" "A" "B" ∧
        LinkIs other "PARENT" "\"\"" "A" "C" ∧ InForce calendar2024 link midTime ∧
        InForce calendar2024 other midTime := by
  decide +kernel

/-- Of a type whose cycles are invalid the direct links calculated have no cycle at any instant in range, nor have those returned that hold at it without a stored start. -/
theorem no_cycle_at_any_instant (env : Env) (command : Command) (output reviews : List Object)
    (h : prepareRelationships env command = .ok (output, reviews)) :
    ∃ rules found calculated, Prepared env command rules found calculated output ∧
      CyclesKeptOut env command rules calculated output := by
  obtain ⟨rules, found, calculated, hprepared⟩ := prepareRelationships_eq_ok h
  obtain ⟨grouping, aside, derived, hstages⟩ := calculate_eq_ok hprepared.finished
  have hedges := gather_edgesOf hprepared.gathered
  refine ⟨rules, found, calculated, hprepared, fun kind hinvalid scope t hfirst hlast => ?_⟩
  have hacyclic : Trails.Acyclic (LinkAt env.calendar calculated.direct kind scope t) :=
    (hstages.acyclic (isHierarchy_of_rules hprepared.typed hinvalid) hinvalid hfirst hlast).mono fun _ _ _ hlink =>
      (hstages.linkAt_iff hedges).1 hlink
  exact ⟨hacyclic, hacyclic.mono fun _ _ _ hat => hat.linkAt hprepared⟩

theorem no_cycle_at_any_instant_parents :
    ∃ output reviews, prepareRelationships env2024
        (mutualParents "2020-01-01T00:00:00+00:00" "2022-01-01T00:00:00+00:00" []) = .ok (output, reviews) ∧
      ∃ rules found calculated, Prepared env2024
        (mutualParents "2020-01-01T00:00:00+00:00" "2022-01-01T00:00:00+00:00" []) rules found calculated output ∧
        CyclesKeptOut env2024 (mutualParents "2020-01-01T00:00:00+00:00" "2022-01-01T00:00:00+00:00" []) rules
          calculated output := by
  have hrun : ∃ result, prepareRelationships env2024
      (mutualParents "2020-01-01T00:00:00+00:00" "2022-01-01T00:00:00+00:00" []) = .ok result ∧ True := by
    decide +kernel
  obtain ⟨⟨output, reviews⟩, hresult, _⟩ := hrun
  exact ⟨output, reviews, hresult, no_cycle_at_any_instant env2024 _ output reviews hresult⟩

def directOf (output : List Object) : List Object := output.filter fun link => IsDirect link

/-- Two links lead from an entity to another and back at one instant. -/
def MutualAt (calendar : Calendar) (links : List Object) (kind scope source target : String) (t : Int) : Prop :=
  ∃ link ∈ links, ∃ other ∈ links, LinkIs link kind scope source target ∧ LinkIs other kind scope target source ∧
    InForce calendar link t ∧ InForce calendar other t ∧
    (∃ key, readText link "relationship_id" = .ok key ∧ True) ∧ ∃ key, readText other "relationship_id" = .ok key ∧ True

instance (calendar : Calendar) (links : List Object) (kind scope source target : String) (t : Int) :
    Decidable (MutualAt calendar links kind scope source target t) :=
  inferInstanceAs (Decidable (∃ link ∈ links, _))

theorem MutualAt.not_acyclic {calendar : Calendar} {links : List Object} {kind scope source target : String}
    (h : MutualAt calendar links kind scope source target t) :
    ¬ Trails.Acyclic (LinkAt calendar links kind scope t) := by
  obtain ⟨link, hlink, other, hother, his, his', hforce, hforce', ⟨key, hkey, _⟩, key', hkey', _⟩ := h
  intro hacyclic
  exact hacyclic source (.tail (.single ⟨key, link, hlink, his, hkey, hforce⟩) ⟨key', other, hother, his', hkey', hforce'⟩)

/-- A stored start put back closes a cycle, and the search for cycles does not look before the first year. -/
theorem restored_start_closes_a_cycle :
    (∃ rules, readTypes parentTypes ["company"] = .ok rules ∧ (rulesOf rules "PARENT").cyclesAreInvalid = true) ∧
    (∃ result, prepareRelationships env2024
        (mutualParents "2020-01-01T00:00:00+00:00" "2022-01-01T00:00:00+00:00" []) = .ok result ∧
      ¬ Trails.Acyclic (LinkAt calendar2024 (directOf result.1) "PARENT" "\"\"" midTime)) ∧
    ∃ result, prepareRelationships env2024 (mutualParents "0000-01-01T00:00:00+00:00" "0000-07-01T00:00:00+00:00"
        (yearsFrom "0000-01-01T00:00:00+00:00" "0000-07-01T00:00:00+00:00")) = .ok result ∧
      ¬ Trails.Acyclic (LinkAt calendar2024 (directOf result.1) "PARENT" "\"\"" earlyTime) := by
  have hrestored : ∃ result, prepareRelationships env2024
      (mutualParents "2020-01-01T00:00:00+00:00" "2022-01-01T00:00:00+00:00" []) = .ok result ∧
      MutualAt calendar2024 (directOf result.1) "PARENT" "\"\"" "A" "B" midTime := by
    decide +kernel
  have hearly : ∃ result, prepareRelationships env2024 (mutualParents "0000-01-01T00:00:00+00:00"
        "0000-07-01T00:00:00+00:00" (yearsFrom "0000-01-01T00:00:00+00:00" "0000-07-01T00:00:00+00:00")) = .ok result ∧
      MutualAt calendar2024 (directOf result.1) "PARENT" "\"\"" "A" "B" earlyTime := by
    decide +kernel
  refine ⟨by decide +kernel, ?_, ?_⟩
  · obtain ⟨result, hresult, hmutual⟩ := hrestored
    exact ⟨result, hresult, hmutual.not_acyclic⟩
  · obtain ⟨result, hresult, hmutual⟩ := hearly
    exact ⟨result, hresult, hmutual.not_acyclic⟩

end EdgarPlatform.Relationships
