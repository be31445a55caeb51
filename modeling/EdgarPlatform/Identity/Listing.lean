import EdgarPlatform.Identity.Order
import EdgarPlatform.Identity.Partition

/-!
# A replay under two listings

The identities and the decisions of one store may be listed in any order. The two replays read the decisions in one order, and each step of one does what the step of the other does: the parent maps answer alike, and an override is noted by its own position in each list.
-/

namespace EdgarPlatform.Identities

open Except (Agree)

/-- The override decisions in force, looked up in the list their positions are of. -/
def State.overridden (state : State) (decisions : List Decision) : List (Option Decision) :=
  state.overrides.map (decisions[·]?)

/-- Two states say the same of every identity, record, source and decision. -/
structure State.Alike (decisions others : List Decision) (s t : State) : Prop where
  canonical : ∀ x, s.canonical.get? x = t.canonical.get? x
  bindings : s.bindings = t.bindings
  exclusions : s.exclusions = t.exclusions
  overridden : s.overridden decisions = t.overridden others
  retired : s.retired = t.retired
  quarantined : s.quarantined = t.quarantined

/-- The progress of two replays that have read the same decisions. -/
structure Progress.Alike (decisions others : List Decision) (p q : Progress) : Prop where
  parent : ∀ x, p.parent.get? x = q.parent.get? x
  size : p.parent.size = q.parent.size
  components : p.components = q.components
  state : State.Alike decisions others p.state q.state

/-- What two replays read, when they read the same decisions of the same identities. -/
structure Reading.Alike (reading other : Reading) : Prop where
  keys : ∀ x, x ∈ reading.ids.keys ↔ x ∈ other.ids.keys
  ids : ∀ x, reading.ids.get? x = other.ids.get? x
  ordered : reading.ordered.map Prod.snd = other.ordered.map Prod.snd
  reversals : reading.reversals = other.reversals
  held : reading.held = other.held
  clock : reading.clock = other.clock

def SameDecision (decisions others : List Decision) (entry other : Nat × Decision) : Prop :=
  entry.2 = other.2 ∧ decisions[entry.1]? = some entry.2 ∧ others[other.1]? = some other.2

theorem rootLoop_congr {parent other : IndexMap String String} (h : ∀ x, parent.get? x = other.get? x) (fuel : Nat)
    (x : String) : rootLoop parent fuel x = rootLoop other fuel x := by
  induction fuel generalizing x with
  | zero => rfl
  | succ fuel ih => simp only [rootLoop, h, ih]

section Steps

variable {decisions others : List Decision} {reading other : Reading} {p q : Progress}

theorem Progress.Alike.root_eq (h : Progress.Alike decisions others p q) : root p.parent = root q.parent := by
  funext x
  rw [root, root, h.size, rootLoop_congr h.parent]

theorem size_insert_congr {m n : IndexMap String String} (h : ∀ x, m.get? x = n.get? x) (hsize : m.size = n.size)
    (x y : String) : (m.insert x y).size = (n.insert x y).size := by
  rw [← IndexMap.length_keys, ← IndexMap.length_keys, IndexMap.keys_insert, IndexMap.keys_insert]
  have hkeys : x ∈ m.keys ↔ x ∈ n.keys := by
    rw [IndexMap.mem_keys_iff, IndexMap.mem_keys_iff]
    simp only [h]
  by_cases hx : x ∈ m.keys
  · simp [hx, hkeys.1 hx, hsize]
  · simp [hx, mt hkeys.2 hx, hsize]

theorem Reading.Alike.any (h : Reading.Alike reading other) (holds : Decision → Bool) :
    reading.ordered.any (fun entry => holds entry.2) = other.ordered.any fun entry => holds entry.2 := by
  have hmap : ∀ l : List (Nat × Decision), l.any (fun entry => holds entry.2) = (l.map Prod.snd).any holds :=
    fun l => by rw [List.any_map]; rfl
  rw [hmap, hmap, h.ordered]

theorem applyBind_agree (hreading : Reading.Alike reading other) (h : Progress.Alike decisions others p q)
    (d : Decision) : Agree (Progress.Alike decisions others) (applyBind reading p d) (applyBind other q d) := by
  unfold applyBind
  rw [h.root_eq, hreading.reversals, hreading.held, h.state.bindings]
  refine .bind_same fun subject => .bind_same fun entity => .bind_same fun _ => ?_
  refine .ite (fun _ => h) fun _ => .ite (fun _ => rfl) fun _ => .ite (fun _ => rfl) fun _ => .ite (fun _ => rfl) fun _ => ?_
  exact ⟨h.parent, h.size, h.components, { h.state with bindings := rfl }⟩

theorem Progress.Alike.exclude (h : Progress.Alike decisions others p q) (left right : String) :
    Progress.Alike decisions others (p.exclude left right) (q.exclude left right) :=
  ⟨h.parent, h.size, h.components,
    { h.state with exclusions := congrArg (· ++ [(left, right)]) h.state.exclusions }⟩

theorem applyMerge_agree (hreading : Reading.Alike reading other) (h : Progress.Alike decisions others p q)
    (d : Decision) : Agree (Progress.Alike decisions others) (applyMerge reading p d) (applyMerge other q d) := by
  have hkind : kindOf reading.ids = kindOf other.ids := by
    funext x
    rw [kindOf, kindOf, hreading.ids]
  have hage : age reading.ids = age other.ids := by
    funext x
    rw [age, age, hreading.ids]
  have hmembers : ∀ left right, membersOf reading.ids p.parent left right = membersOf other.ids q.parent left right := by
    intro left right
    ext x
    simp [membersOf, hreading.keys, h.root_eq]
  have hsurvivor : survivorOf reading.ids d = survivorOf other.ids d := by
    funext left right
    rw [survivorOf, survivorOf, hage]
  unfold applyMerge
  rw [hreading.reversals, hreading.any fun x => decide (x.op = .reverse ∧ x.target = some d.id ∧
    x.id ∉ other.reversals.revoked), h.root_eq, hkind, hsurvivor]
  simp only [hmembers, h.components]
  refine .ite (fun _ => .ite (fun _ => .bind_same fun left => .bind_same fun right => ?_) fun _ => h) fun _ => ?_
  · exact ⟨h.parent, h.size, rfl, (h.exclude left right).state⟩
  refine .bind_same fun left => .bind_same fun leftRoot => .bind_same fun right => .bind_same fun rightRoot => ?_
  refine .ite (fun _ => rfl) fun _ => .ite (fun _ => rfl) fun _ => .ite (fun _ => rfl) fun _ => .ite (fun _ => rfl) fun _ => ?_
  refine ⟨fun x => ?_, size_insert_congr h.parent h.size _ _, rfl, h.state⟩
  simp only [IndexMap.get?_insert, h.parent]

theorem applyExclude_agree (hreading : Reading.Alike reading other) (h : Progress.Alike decisions others p q)
    (d : Decision) : Agree (Progress.Alike decisions others) (applyExclude reading p d) (applyExclude other q d) := by
  unfold applyExclude
  rw [hreading.reversals]
  exact .ite (fun _ => h) fun _ => .bind_same fun left => .bind_same fun right => h.exclude left right

theorem applyOverride_agree (hreading : Reading.Alike reading other) (h : Progress.Alike decisions others p q)
    {d : Decision} {i j : Nat} (hi : decisions[i]? = some d) (hj : others[j]? = some d) :
    Agree (Progress.Alike decisions others) (applyOverride reading p i d) (applyOverride other q j d) := by
  unfold applyOverride
  rw [hreading.reversals, hreading.clock]
  refine .ite (fun _ => h) fun _ => .ite (fun _ => rfl) fun _ => .ite (fun _ => ?_) fun _ => h
  have hoverridden := h.state.overridden
  simp only [State.overridden] at hoverridden
  exact ⟨h.parent, h.size, h.components,
    { h.state with overridden := by simp only [State.overridden, List.map_append, List.map_cons, List.map_nil, hoverridden, hi, hj] }⟩

theorem applyQuarantine_agree (hreading : Reading.Alike reading other) (h : Progress.Alike decisions others p q)
    (d : Decision) :
    Agree (Progress.Alike decisions others) (applyQuarantine reading p d) (applyQuarantine other q d) := by
  unfold applyQuarantine
  rw [h.root_eq, hreading.reversals, h.state.bindings]
  cases d.subject.filter (· ≠ "") with
  | none => rfl
  | some subject =>
      refine .ite (fun _ => rfl) fun _ => .bind_same fun entity => .bind_same fun _ => ?_
      refine .ite (fun _ => rfl) fun _ => .ite (fun _ => h) fun _ => ?_
      exact ⟨h.parent, h.size, h.components, { h.state with quarantined := congrArg (·.insert subject entity) h.state.quarantined }⟩

theorem applyRetirement_agree (h : Progress.Alike decisions others p q) (d : Decision) :
    Agree (Progress.Alike decisions others) (applyRetirement p d) (applyRetirement q d) := by
  unfold applyRetirement
  refine .ite (fun _ => rfl) fun _ => .bind_same fun source => ?_
  exact ⟨h.parent, h.size, h.components, { h.state with retired := congrArg (insert source) h.state.retired }⟩

theorem applyDecision_agree (hreading : Reading.Alike reading other) (h : Progress.Alike decisions others p q)
    {entry entry' : Nat × Decision} (hsame : SameDecision decisions others entry entry') :
    Agree (Progress.Alike decisions others) (applyDecision reading p entry) (applyDecision other q entry') := by
  obtain ⟨i, d⟩ := entry
  obtain ⟨j, d'⟩ := entry'
  obtain ⟨rfl, hi, hj⟩ : d = d' ∧ decisions[i]? = some d ∧ others[j]? = some d' := hsame
  unfold applyDecision
  cases d.op with
  | bind => exact applyBind_agree hreading h d
  | merge => exact applyMerge_agree hreading h d
  | exclude => exact applyExclude_agree hreading h d
  | override => exact applyOverride_agree hreading h hi hj
  | quarantine => exact applyQuarantine_agree hreading h d
  | retireSource => exact applyRetirement_agree h d
  | reverse => exact h
  | revoke => exact h
  | other => rfl

/-- The last check of two replays that are alike. It fails on an exclusion only, since every listed identity has a root. -/
theorem finish_agree (hreading : Reading.Alike reading other) (h : Progress.Alike decisions others p q)
    {read read' : List (Nat × Decision)} (hp : Progress.Of reading read p) (hq : Progress.Of other read' q) :
    Agree (State.Alike decisions others) (finish reading p) (finish other q) := by
  have htotal : ∀ {reading : Reading} {read : List (Nat × Decision)} {p : Progress}, Progress.Of reading read p →
      ∃ canonical, canonicalOf reading.ids p.parent = .ok canonical := by
    intro reading read p hp
    refine Runs.mapM_ok_of_forall fun x hx => ?_
    obtain ⟨r, hr⟩ := hp.keeps.ends x
    exact ⟨(x, r), by rw [hp.root_iff.2 ⟨hx, hr⟩]; rfl⟩
  obtain ⟨canonical, hcanonical⟩ := htotal hp
  obtain ⟨canonical', hcanonical'⟩ := htotal hq
  have hcheck : checkExclusion p.parent = checkExclusion q.parent := by
    funext pair
    rw [checkExclusion, checkExclusion, h.root_eq]
  unfold finish
  rw [hcanonical, hcanonical', Except.bind_ok, Except.bind_ok, h.state.exclusions, hcheck]
  refine .bind_same fun _ => ?_
  refine { h.state with canonical := fun x => ?_ }
  obtain ⟨hkeys, hentries⟩ := Runs.mapM_paired_eq_ok hcanonical
  obtain ⟨hkeys', hentries'⟩ := Runs.mapM_paired_eq_ok hcanonical'
  refine Option.ext fun r => ?_
  rw [IndexMap.get?_ofList (hkeys ▸ reading.ids.keys_nodup), IndexMap.get?_ofList (hkeys' ▸ other.ids.keys_nodup),
    hentries, hentries', hreading.keys, h.root_eq]

end Steps

variable {identities listed : List Identity} {decisions others : List Decision} {clock : Int}

theorem idsOf_perm (hids : (identities.map (·.id)).Nodup) (hperm : identities.Perm listed) (x : String) :
    (idsOf identities).get? x = (idsOf listed).get? x := by
  have hsome : ∀ {identities : List Identity}, (identities.map (·.id)).Nodup → ∀ i,
      (idsOf identities).get? x = some i ↔ i.id = x ∧ i ∈ identities := by
    intro identities hids i
    rw [idsOf, IndexMap.get?_ofList (by simpa [List.map_map, Function.comp_def] using hids)]
    simp only [List.mem_map, Prod.mk.injEq]
    constructor
    · rintro ⟨j, hj, rfl, rfl⟩
      exact ⟨rfl, hj⟩
    · rintro ⟨rfl, hi⟩
      exact ⟨i, hi, rfl, rfl⟩
  refine Option.ext fun i => ?_
  rw [hsome hids, hsome ((hperm.map _).nodup_iff.1 hids), hperm.mem_iff]

theorem readReversals_map (ordered : List (Nat × Decision)) :
    readReversals ordered =
      (ordered.map Prod.snd).foldlM (readReversal (IndexMap.ofList ((ordered.map Prod.snd).map fun d => (d.id, d))))
        .empty := by
  rw [readReversals, List.foldlM_map, List.map_map]
  rfl

theorem readHolds_map (r : Reversals) (ordered : List (Nat × Decision)) :
    readHolds r ordered = (ordered.map Prod.snd).foldlM (readHeld r) .empty := by
  rw [readHolds, List.foldlM_map]

theorem inOrder_sameDecision (h : (inOrder decisions clock).map Prod.snd = (inOrder others clock).map Prod.snd) :
    List.Forall₂ (SameDecision decisions others) (inOrder decisions clock) (inOrder others clock) :=
  Runs.forall₂_of_map_eq h (fun _ hentry => (mem_inOrder.1 hentry).1) fun _ hentry => (mem_inOrder.1 hentry).1

theorem start_alike (hperm : identities.Perm listed) (decisions others : List Decision) :
    Progress.Alike decisions others (.start (idsOf identities)) (.start (idsOf listed)) := by
  have hkeys : ∀ x, x ∈ (idsOf identities).keys ↔ x ∈ (idsOf listed).keys := fun x => by
    rw [mem_idsOf_keys, mem_idsOf_keys, (hperm.map _).mem_iff]
  have hsize : ∀ ids : IndexMap String Identity, (Progress.start ids).parent.size = ids.size := fun ids => by
    rw [← IndexMap.length_keys, ← IndexMap.length_keys]
    refine ((List.perm_ext_iff_of_nodup (IndexMap.keys_nodup _) ids.keys_nodup).2 fun x => ?_).length_eq
    exact (start_of ⟨ids, [], .empty, .empty, 0⟩).keys x
  refine ⟨fun x => ?_, ?_, rfl, ?_⟩
  · rw [start_get?, start_get?]
    simp only [hkeys]
  · rw [hsize, hsize, ← IndexMap.length_keys, ← IndexMap.length_keys]
    exact ((List.perm_ext_iff_of_nodup (IndexMap.keys_nodup _) (IndexMap.keys_nodup _)).2 hkeys).length_eq
  · exact ⟨fun _ => rfl, rfl, rfl, rfl, rfl, rfl⟩

/-- **No outcome depends on the listing.** Two replays of one set of identities and one set of decisions, with distinct ids and no cycle of dependencies inside an instant, both fail, or both succeed and say the same of every identity, record and source and hold the same override decisions. -/
theorem replay_perm (identities listed : List Identity) (decisions others : List Decision) (clock : Int)
    (hidentities : (identities.map (·.id)).Nodup) (hdecisions : (decisions.map (·.id)).Nodup)
    (hacyclic : Acyclic decisions) (hlisted : identities.Perm listed) (hothers : decisions.Perm others) :
    Agree (State.Alike decisions others) (replay identities decisions clock) (replay listed others clock) := by
  have horder := inOrder_perm hdecisions hacyclic hothers clock
  rw [replay_def, replay_def, readReversals_map, readReversals_map, horder]
  refine .bind_same fun reversals => ?_
  rw [readHolds_map, readHolds_map, horder]
  refine .bind_same fun held => ?_
  have hreading : Reading.Alike (readingOf identities decisions clock reversals held)
      (readingOf listed others clock reversals held) :=
    ⟨fun x => by rw [readingOf, readingOf, mem_idsOf_keys, mem_idsOf_keys, (hlisted.map _).mem_iff],
      idsOf_perm hidentities hlisted, horder, rfl, rfl, rfl⟩
  have hrun := Runs.foldlM_agree (SameDecision decisions others)
    (fun _ _ _ _ halike hsame => applyDecision_agree hreading halike hsame) (inOrder_sameDecision horder)
    (start_alike hlisted decisions others)
  exact hrun.bind fun p q hp hq halike => finish_agree hreading halike (Progress.Of.run hp) (Progress.Of.run hq)

theorem replay_perm_split :
    Agree (State.Alike splitDecisions splitDecisions.reverse) (replay splitIdentities splitDecisions 10)
        (replay splitIdentities.reverse splitDecisions.reverse 10) ∧
      replay splitIdentities splitDecisions 10 = .ok splitState := by
  have hacyclic : Acyclic splitDecisions := acyclic_of_lower (fun d => d.depends.length) (by decide)
  exact ⟨replay_perm splitIdentities splitIdentities.reverse splitDecisions splitDecisions.reverse 10 (by decide)
    (by decide) hacyclic (List.reverse_perm _).symm (List.reverse_perm _).symm, by decide +kernel⟩

end EdgarPlatform.Identities
