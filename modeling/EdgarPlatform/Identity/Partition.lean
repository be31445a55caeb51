import EdgarPlatform.Identity.Classes

/-!
# What an accepted replay says of the identities

A replay that returns passed all three passes and the last check. Its canonical map sends each listed identity to the root of its class, the classes are those of the live merges, and no exclusion that stands lies inside one.
-/

namespace EdgarPlatform.Identities

open Forest (Climbs Keeps Linked SameRoot)
open ParentMap (above)

variable {identities : List Identity} {decisions : List Decision} {clock : Int} {state : State}

def idsOf (identities : List Identity) : IndexMap String Identity :=
  IndexMap.ofList (identities.map fun i => (i.id, i))

theorem mem_idsOf_keys {x : String} : x ∈ (idsOf identities).keys ↔ x ∈ identities.map (·.id) := by
  simp [idsOf, IndexMap.mem_keys_ofList]

def readingOf (identities : List Identity) (decisions : List Decision) (clock : Int) (reversals : Reversals)
    (held : Held) : Reading :=
  { ids := idsOf identities, ordered := inOrder decisions clock, reversals, held, clock }

@[simp] theorem readingOf_reversals (identities : List Identity) (decisions : List Decision) (clock : Int)
    (reversals : Reversals) (held : Held) :
    (readingOf identities decisions clock reversals held).reversals = reversals := rfl

/-- The passes a replay that returns went through. -/
structure Passes (identities : List Identity) (decisions : List Decision) (clock : Int) (reversals : Reversals)
    (held : Held) (p : Progress) : Prop where
  undo : readReversals (inOrder decisions clock) = .ok reversals
  hold : readHolds reversals (inOrder decisions clock) = .ok held
  read : (inOrder decisions clock).foldlM (applyDecision (readingOf identities decisions clock reversals held))
    (.start (idsOf identities)) = .ok p

theorem replay_def (identities : List Identity) (decisions : List Decision) (clock : Int) :
    replay identities decisions clock = (do
      let reversals ← readReversals (inOrder decisions clock)
      let held ← readHolds reversals (inOrder decisions clock)
      let p ← (inOrder decisions clock).foldlM (applyDecision (readingOf identities decisions clock reversals held))
        (.start (idsOf identities))
      finish (readingOf identities decisions clock reversals held) p) := rfl

theorem replay_eq_ok :
    replay identities decisions clock = .ok state ↔
      ∃ reversals held p, Passes identities decisions clock reversals held p ∧
        finish (readingOf identities decisions clock reversals held) p = .ok state := by
  simp only [replay_def, Except.bind_eq_ok]
  constructor
  · rintro ⟨reversals, hr, held, hh, p, hp, hfinish⟩
    exact ⟨reversals, held, p, ⟨hr, hh, hp⟩, hfinish⟩
  · rintro ⟨reversals, held, p, h, hfinish⟩
    exact ⟨reversals, h.undo, held, h.hold, p, h.read, hfinish⟩

variable {reversals : Reversals}

theorem Passes.of {held : Held} {p : Progress}
    (h : Passes identities decisions clock reversals held p) :
    Progress.Of (readingOf identities decisions clock reversals held) (inOrder decisions clock) p :=
  Progress.Of.run h.read

theorem checkExclusion_eq_ok {parent : IndexMap String String} {pair : String × String} {u : Unit} :
    checkExclusion parent pair = .ok u ↔
      ∃ left right, root parent pair.1 = .ok left ∧ root parent pair.2 = .ok right ∧ left ≠ right := by
  simp only [checkExclusion, Except.bind_eq_ok, Except.ite_error_eq_ok]
  constructor
  · rintro ⟨left, hleft, right, hright, hne, _⟩
    exact ⟨left, right, hleft, hright, hne⟩
  · rintro ⟨left, right, hleft, hright, hne⟩
    exact ⟨left, hleft, right, hright, hne, trivial⟩

theorem finish_eq_ok {reading : Reading} {p : Progress} (h : finish reading p = .ok state) :
    state = { p.state with canonical := state.canonical } ∧
    (∀ x r, state.canonical.get? x = some r ↔ x ∈ reading.ids.keys ∧ root p.parent x = .ok r) ∧
    (∀ x ∈ reading.ids.keys, ∃ r, root p.parent x = .ok r) ∧
    ∀ pair ∈ p.state.exclusions,
      ∃ left right, root p.parent pair.1 = .ok left ∧ root p.parent pair.2 = .ok right ∧ left ≠ right := by
  simp only [finish, Except.bind_eq_ok, Except.ok.injEq] at h
  obtain ⟨canonical, hcanonical, units, hunits, rfl⟩ := h
  obtain ⟨hkeys, hentries⟩ := Runs.mapM_paired_eq_ok hcanonical
  have hnodup : (canonical.map Prod.fst).Nodup := hkeys ▸ reading.ids.keys_nodup
  refine ⟨rfl, fun x r => ?_, fun x hx => ?_, fun pair hpair => ?_⟩
  · rw [IndexMap.get?_ofList hnodup, hentries]
  · rw [← hkeys] at hx
    obtain ⟨entry, hentry, rfl⟩ := List.mem_map.1 hx
    exact ⟨entry.2, ((hentries entry.1 entry.2).1 hentry).2⟩
  · obtain ⟨_, hcheck⟩ := Runs.mapM_ok_of_mem hunits pair hpair
    exact checkExclusion_eq_ok.1 hcheck

/-- A merge in effect by the clock joins two masters, and no reversal in effect by the clock undoes it. -/
def Merges (decisions : List Decision) (clock : Int) (x y : String) : Prop :=
  ∃ d, InEffect decisions clock d ∧ d.op = .merge ∧ d.left = some x ∧ d.right = some y ∧
    ¬ ∃ r, InEffect decisions clock r ∧ r.op = .reverse ∧ r.target = some d.id

/-- An exclusion in effect by the clock keeps two masters apart, and no decision in effect by the clock undoes it. -/
def Excludes (decisions : List Decision) (clock : Int) (x y : String) : Prop :=
  ∃ d, InEffect decisions clock d ∧ d.op = .exclude ∧ d.left = some x ∧ d.right = some y ∧
    ¬ Undone decisions clock d.id

theorem canonical_eq_iff {held : Held} {p : Progress}
    (hpasses : Passes identities decisions clock reversals held p)
    (hfinish : finish (readingOf identities decisions clock reversals held) p = .ok state) {x y : String}
    (hx : x ∈ identities.map (·.id)) (hy : y ∈ identities.map (·.id)) :
    state.canonical.get? x = state.canonical.get? y ↔
      Linked (joinedPairs reversals.revoked (inOrder decisions clock)) x y := by
  obtain ⟨_, hget, htotal, _⟩ := finish_eq_ok hfinish
  rw [← mem_idsOf_keys] at hx hy
  obtain ⟨r, hr⟩ := htotal x hx
  obtain ⟨s, hs⟩ := htotal y hy
  rw [(hget x r).2 ⟨hx, hr⟩, (hget y s).2 ⟨hy, hs⟩, Option.some.injEq]
  exact hpasses.of.same_root_iff hr hs

theorem undone_merge_iff (hids : (decisions.map (·.id)).Nodup)
    (h : readReversals (inOrder decisions clock) = .ok reversals) {d : Decision}
    (hd : InEffect decisions clock d) (hop : d.op = .merge) :
    Undone decisions clock d.id ↔ ∃ r, InEffect decisions clock r ∧ r.op = .reverse ∧ r.target = some d.id := by
  constructor
  · rintro ⟨r, hr, hundo⟩
    refine ⟨r, hr, ?_, hundo.2⟩
    obtain ⟨index, hindex⟩ := exists_mem_inOrder hr
    obtain ⟨target, hget, _, hmay⟩ := (readReversals_of h).target _ hindex _ hundo
    obtain ⟨hid, position, hposition⟩ := byId_get? hget
    obtain rfl : target = d :=
      List.inj_on_of_nodup_map hids (inEffect_of_mem hposition).1 hd.1 hid
    by_contra hne
    simp [mayTarget, hne, hop] at hmay
  · rintro ⟨r, hr, hreverse, htarget⟩
    exact ⟨r, hr, .inl hreverse, htarget⟩

theorem mem_joinedPairs_inOrder (hids : (decisions.map (·.id)).Nodup)
    (h : readReversals (inOrder decisions clock) = .ok reversals) {x y : String} :
    (x, y) ∈ joinedPairs reversals.revoked (inOrder decisions clock) ↔ Merges decisions clock x y := by
  simp only [mem_joinedPairs, joinedPair_eq_some]
  rw [exists_inOrder_iff fun d => d.op = .merge ∧ d.id ∉ reversals.revoked ∧ d.left = some x ∧ d.right = some y]
  constructor
  · rintro ⟨d, hd, hop, hlive, hleft, hright⟩
    rw [mem_revoked_iff h, undone_merge_iff hids h hd hop] at hlive
    exact ⟨d, hd, hop, hleft, hright, hlive⟩
  · rintro ⟨d, hd, hop, hleft, hright, hlive⟩
    refine ⟨d, hd, hop, ?_, hleft, hright⟩
    rwa [mem_revoked_iff h, undone_merge_iff hids h hd hop]

theorem linked_iff_eqvGen {pairs : List (String × String)} {holds : String → String → Prop}
    (h : ∀ x y, (x, y) ∈ pairs ↔ holds x y) (x y : String) : Linked pairs x y ↔ Relation.EqvGen holds x y :=
  ⟨Relation.EqvGen.mono (fun a b hab => (h a b).1 hab) x y, Relation.EqvGen.mono (fun a b hab => (h a b).2 hab) x y⟩

theorem kindOf_idsOf (hids : (identities.map (·.id)).Nodup) {i : Identity} (hi : i ∈ identities) :
    kindOf (idsOf identities) i.id = some i.kind := by
  have hget : (idsOf identities).get? i.id = some i := by
    refine (IndexMap.get?_ofList ?_).2 (List.mem_map.2 ⟨i, hi, rfl⟩)
    simpa [List.map_map, Function.comp_def] using hids
  simp [kindOf, hget]

/-- **The partition of the live merges.** The canonical map of an accepted replay is defined on the listed identities, fixes its own values, keeps kinds, joins two identities exactly when live merges connect them, and joins no pair a live exclusion names. -/
theorem replay_partitions (identities : List Identity) (decisions : List Decision) (clock : Int) (state : State)
    (hidentities : (identities.map (·.id)).Nodup) (hdecisions : (decisions.map (·.id)).Nodup)
    (h : replay identities decisions clock = .ok state) :
    (∀ x, x ∈ state.canonical.keys ↔ x ∈ identities.map (·.id)) ∧
    (∀ x r, state.canonical.get? x = some r → state.canonical.get? r = some r) ∧
    (∀ i ∈ identities, ∀ r, state.canonical.get? i.id = some r → ∃ j ∈ identities, j.id = r ∧ j.kind = i.kind) ∧
    (∀ x ∈ identities.map (·.id), ∀ y ∈ identities.map (·.id),
      state.canonical.get? x = state.canonical.get? y ↔ Relation.EqvGen (Merges decisions clock) x y) ∧
    (∀ x ∈ identities.map (·.id), ∀ y ∈ identities.map (·.id),
      state.canonical.get? x = state.canonical.get? y → ¬ Excludes decisions clock x y) := by
  obtain ⟨reversals, held, p, hpasses, hfinish⟩ := replay_eq_ok.1 h
  obtain ⟨hstate, hget, htotal, hexclusions⟩ := finish_eq_ok hfinish
  have hof := hpasses.of
  have hroots : ∀ x r, root p.parent x = .ok r ↔ x ∈ (idsOf identities).keys ∧ Climbs (above p.parent) x r :=
    fun x r => hof.root_iff
  have hrootKey : ∀ x r, state.canonical.get? x = some r → r ∈ (idsOf identities).keys := by
    intro x r hxr
    obtain ⟨hx, hclimbs⟩ := (hroots x r).1 ((hget x r).1 hxr).2
    exact (hof.keys r).1 (Climbs.mem_keys hof.closed hclimbs ((hof.keys x).2 hx))
  refine ⟨fun x => ?_, fun x r hxr => ?_, fun i hi r hir => ?_, fun x hx y hy => ?_, fun x hx y hy hxy => ?_⟩
  · rw [IndexMap.mem_keys_iff, ← mem_idsOf_keys]
    constructor
    · rintro ⟨r, hr⟩
      exact ((hget x r).1 hr).1
    · intro hx
      obtain ⟨r, hr⟩ := htotal x hx
      exact ⟨r, (hget x r).2 ⟨hx, hr⟩⟩
  · have hr := hrootKey x r hxr
    exact (hget r r).2 ⟨hr, (hroots r r).2 ⟨hr, ((hroots x r).1 ((hget x r).1 hxr).2).2.root⟩⟩
  · have hr := hrootKey i.id r hir
    obtain ⟨j, hj, hjr⟩ := List.mem_map.1 (mem_idsOf_keys.1 hr)
    have hkind := hof.kinds i.id r ((hroots i.id r).1 ((hget i.id r).1 hir).2).2
    rw [← hjr] at hkind
    refine ⟨j, hj, hjr, ?_⟩
    have hi' := kindOf_idsOf hidentities hi
    have hj' := kindOf_idsOf hidentities hj
    exact (Option.some.inj (hi'.symm.trans (hkind.trans hj'))).symm
  · rw [canonical_eq_iff hpasses hfinish hx hy]
    exact linked_iff_eqvGen (fun a b => mem_joinedPairs_inOrder hdecisions hpasses.undo) x y
  · rintro ⟨d, hd, hop, hleft, hright, hlive⟩
    have hmem : (x, y) ∈ p.state.exclusions := by
      rw [hof.exclusions]
      obtain ⟨index, hindex⟩ := exists_mem_inOrder hd
      refine List.mem_filterMap.2 ⟨_, hindex, ?_⟩
      have hnot : d.id ∉ reversals.revoked := by rwa [mem_revoked_iff hpasses.undo]
      simp [excludedPair, hop, hleft, hright, readingOf, hnot]
    obtain ⟨left, right, hl, hr, hne⟩ := hexclusions _ hmem
    rw [← mem_idsOf_keys] at hx hy
    rw [(hget x left).2 ⟨hx, hl⟩, (hget y right).2 ⟨hy, hr⟩] at hxy
    exact hne (Option.some.inj hxy)

def company (id : String) (published : Int) : Identity := ⟨id, "company", published⟩

def Decision.bare (id : String) (time : Int) (op : Op) : Decision :=
  ⟨id, time, op, none, none, none, none, none, none, none, none, false, [], false⟩

def splitIdentities : List Identity := [company "a" 1, company "b" 2, company "c" 0, company "d" 4]

/-- A merge, a second that rests on it, the second's reversal, and an exclusion. -/
def splitDecisions : List Decision :=
  [{ Decision.bare "m2" 5 .merge with left := some "b", right := some "c", depends := ["m1"] },
   { Decision.bare "m1" 5 .merge with left := some "a", right := some "b" },
   { Decision.bare "r2" 6 .reverse with target := some "m2" },
   { Decision.bare "x1" 7 .exclude with left := some "a", right := some "d" }]

def splitState : State :=
  { State.empty with
    canonical := .ofList [("a", "a"), ("b", "a"), ("c", "c"), ("d", "d")]
    exclusions := [("b", "c"), ("a", "d")] }

theorem replay_partitions_split :
    replay splitIdentities splitDecisions 10 = .ok splitState ∧
      (splitState.canonical.get? "a" = splitState.canonical.get? "b" ↔
        Relation.EqvGen (Merges splitDecisions 10) "a" "b") := by
  have h : replay splitIdentities splitDecisions 10 = .ok splitState := by decide +kernel
  exact ⟨h, (replay_partitions splitIdentities splitDecisions 10 splitState (by decide) (by decide) h).2.2.2.1
    "a" (by decide) "b" (by decide)⟩

end EdgarPlatform.Identities
