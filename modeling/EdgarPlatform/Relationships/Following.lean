import EdgarPlatform.Relationships.Apart

/-!
# Following the parents

At one instant an entity follows its last link. Where no entity has two targets at once, following ends at an entity if and only if the links lead there and no further, and what the slices of time gather for a pair of entities is the chain followed at each instant.
-/

namespace EdgarPlatform.Relationships

open Records (Calendar Env Json Object readText)

variable {links : List LinkPeriod}

variable {t : Int} {source : String}

theorem parentsAt_get? {link : LinkPeriod}
    (h : (parentsAt links t).get? source = some link) :
    link ∈ links ∧ link.source = source ∧ link.start ≤ t ∧ t < link.stop := by
  rcases IndexMap.get?_extend_cases h with hmem | hempty
  · obtain ⟨other, hother, heq⟩ := List.mem_map.1 hmem
    cases heq
    obtain ⟨hin, hat⟩ := List.mem_filter.1 hother
    have hbounds := of_decide_eq_true hat
    exact ⟨hin, rfl, hbounds.1, hbounds.2⟩
  · cases hempty

theorem mem_keys_parentsAt :
    source ∈ (parentsAt links t).keys ↔ ∃ link ∈ links, link.source = source ∧ link.start ≤ t ∧ t < link.stop := by
  rw [parentsAt, IndexMap.mem_keys_ofList]
  simp only [List.map_map, List.mem_map, List.mem_filter, Function.comp_apply, decide_eq_true_eq]
  constructor
  · intro h
    obtain ⟨link, ⟨hin, hat⟩, hsource⟩ := h
    exact ⟨link, hin, hsource, hat⟩
  · intro h
    obtain ⟨link, hin, hsource, hat⟩ := h
    exact ⟨link, ⟨hin, hat⟩, hsource⟩

def ParentStep (parents : Parents) (x key y : String) : Prop :=
  ∃ link, parents.get? x = some link ∧ link.key = key ∧ link.target = y

theorem ParentStep.periodFrom {x key y : String}
    (h : ParentStep (parentsAt links t) x key y) : PeriodFrom links t x key y := by
  obtain ⟨link, hget, hkey, htarget⟩ := h
  obtain ⟨hin, hsource, hat⟩ := parentsAt_get? hget
  exact ⟨link, hin, hsource, hkey, htarget, hat⟩

theorem final_iff {x : String} :
    Trails.Final (PeriodFrom links t) x ↔ (parentsAt links t).get? x = none := by
  rw [IndexMap.get?_eq_none_iff, mem_keys_parentsAt]
  constructor
  · intro h hlink
    obtain ⟨link, hin, hsource, hat⟩ := hlink
    exact h link.key link.target ⟨link, hin, hsource, rfl, rfl, hat⟩
  · intro h key y hstep
    obtain ⟨link, hin, hsource, _, _, hat⟩ := hstep
    exact h ⟨link, hin, hsource, hat⟩

/-- Where following has come to from an entity, by the entities seen. -/
structure Walked (parents : Parents) (source : String) (walk : Walk) : Prop where
  trail : Trails.Trail (ParentStep parents) source walk.seen.reverse walk.path walk.node
  nodup : walk.seen.Nodup

variable {parents : Parents}

theorem Walked.length_lt {walk : Walk} {link : LinkPeriod}
    (h : Walked parents source walk) (hget : parents.get? walk.node = some link) (hnew : walk.node ∉ walk.seen) :
    walk.seen.length < parents.size := by
  have hsub : walk.node :: walk.seen ⊆ parents.keys := by
    refine List.cons_subset.2 ⟨IndexMap.mem_keys_of_get? hget, fun x hx => ?_⟩
    obtain ⟨_, _, other, hother, _⟩ := h.trail.exists_step x (List.mem_reverse.2 hx)
    exact IndexMap.mem_keys_of_get? hother
  have hle := (List.subperm_of_subset (List.nodup_cons.2 ⟨hnew, h.nodup⟩) hsub).length_le
  rwa [IndexMap.length_keys] at hle

theorem followLoop_stop {walk : Walk}
    (h : parents.get? walk.node = none ∨ walk.node ∈ walk.seen) (fuel : Nat) : followLoop parents fuel walk = walk := by
  cases fuel with
  | zero => rfl
  | succ fuel =>
      rw [followLoop]
      rcases h with hnone | hseen
      · simp only [hnone]
      · cases parents.get? walk.node with
        | none => rfl
        | some link => simp only [hseen, if_true]

theorem followLoop_next {walk : Walk} {link : LinkPeriod} (hget : parents.get? walk.node = some link)
    (hnew : walk.node ∉ walk.seen) (fuel : Nat) :
    followLoop parents (fuel + 1) walk =
      followLoop parents fuel ⟨walk.node :: walk.seen, walk.path ++ [link.key], link.target⟩ := by
  rw [followLoop]
  simp only [hget, hnew, if_false]

/-- Following comes to an entity with no parent or to one seen before: the parents run out before the moves do. -/
theorem followLoop_walked (fuel : Nat) {walk : Walk}
    (h : Walked parents source walk) (hfuel : parents.size ≤ walk.seen.length + fuel) :
    Walked parents source (followLoop parents fuel walk) ∧
      ((followLoop parents fuel walk).node ∉ (followLoop parents fuel walk).seen →
        parents.get? (followLoop parents fuel walk).node = none) := by
  induction fuel generalizing walk with
  | zero =>
      refine ⟨h, fun hnew => ?_⟩
      by_contra hsome
      obtain ⟨link, hget⟩ := Option.ne_none_iff_exists'.1 hsome
      exact absurd (h.length_lt hget hnew) (by omega)
  | succ fuel ih =>
      by_cases hstop : parents.get? walk.node = none ∨ walk.node ∈ walk.seen
      · rw [followLoop_stop hstop]
        exact ⟨h, fun hnew => hstop.resolve_right hnew⟩
      · obtain ⟨hsome, hnew⟩ := not_or.1 hstop
        obtain ⟨link, hget⟩ := Option.ne_none_iff_exists'.1 hsome
        rw [followLoop_next hget hnew]
        refine ih ⟨?_, List.nodup_cons.2 ⟨hnew, h.nodup⟩⟩ (by simp only [List.length_cons]; omega)
        show Trails.Trail _ source (walk.node :: walk.seen).reverse _ _
        rw [List.reverse_cons]
        exact h.trail.concat ⟨link, hget, rfl, rfl⟩

theorem followLoop_of_trail
    (hone : ∀ x key y key' y', PeriodFrom links t x key y → PeriodFrom links t x key' y' → y = y') {x z : String}
    {nodes labels : List String} (htrail : Trails.Trail (PeriodFrom links t) x nodes labels z)
    (hfinal : Trails.Final (PeriodFrom links t) z) (fuel : Nat) (seen path : List String) (hfuel : nodes.length ≤ fuel)
    (hnodup : nodes.Nodup) (hseen : ∀ y ∈ nodes, y ∉ seen) :
    ∃ taken, followLoop (parentsAt links t) fuel ⟨seen, path, x⟩ = ⟨nodes.reverse ++ seen, taken, z⟩ := by
  induction htrail generalizing fuel seen path with
  | stop x => exact ⟨path, followLoop_stop (.inl (final_iff.1 hfinal)) fuel⟩
  | @move x y z l nodes labels hstep _ ih =>
      obtain ⟨fuel, rfl⟩ : ∃ n, fuel = n + 1 := ⟨fuel - 1, by simp at hfuel; omega⟩
      obtain ⟨hxnew, hnodup⟩ := List.nodup_cons.1 hnodup
      have hsome : (parentsAt links t).get? x ≠ none := fun hnone => final_iff.2 hnone _ _ hstep
      obtain ⟨link, hget⟩ := Option.ne_none_iff_exists'.1 hsome
      have htarget : link.target = y := hone x _ _ _ _ (ParentStep.periodFrom ⟨link, hget, rfl, rfl⟩) hstep
      have hxseen : x ∉ seen := hseen x (by simp)
      have hseen' : ∀ w ∈ nodes, w ∉ x :: seen := by
        intro w hw hmem
        rcases List.mem_cons.1 hmem with rfl | hmem
        · exact hxnew hw
        · exact hseen w (List.mem_cons_of_mem _ hw) hmem
      obtain ⟨taken, htaken⟩ := ih hfinal fuel (x :: seen) (path ++ [link.key])
        (by simpa using hfuel) hnodup hseen'
      refine ⟨taken, ?_⟩
      rw [followLoop_next hget hxseen, htarget, htaken]
      simp

/-- The chain from the first of a pair of entities to the second, its ultimate parent, at an instant. -/
def chainAt (links disputed : List LinkPeriod) (pair : String × String) (t : Int) : Option (List String) :=
  if pair.1 ∈ (parentsAt links t).keys then
    (ultimateAt (parentsAt links t) (disputedAt disputed t) pair.1).bind fun ultimate =>
      if ultimate.1 = pair.2 then some ultimate.2 else none
  else none

theorem ultimateAt_eq_some {isDisputed : String → Bool} {source node : String} {path : List String}
    (h : ultimateAt parents isDisputed source = some (node, path)) :
    ∃ nodes, Trails.Trail (ParentStep parents) source nodes path node ∧ (nodes ++ [node]).Nodup ∧
      isDisputed node = false ∧ parents.get? node = none := by
  have hstart : Walked parents source ⟨[], [], source⟩ := ⟨.stop source, List.nodup_nil⟩
  obtain ⟨hwalked, hend⟩ := followLoop_walked parents.size hstart (by simp)
  change Walked parents source (follow parents source) at hwalked
  change (follow parents source).node ∉ (follow parents source).seen →
    parents.get? (follow parents source).node = none at hend
  unfold ultimateAt at h
  cases hwalk : follow parents source with
  | mk seen path' node' =>
      rw [hwalk] at hwalked hend
      simp only [hwalk, Option.ite_none_left_eq_some, not_or, Option.some.injEq, Prod.mk.injEq] at h
      obtain ⟨⟨hnew, hundisputed⟩, rfl, rfl⟩ := h
      refine ⟨seen.reverse, hwalked.trail, ?_, by simpa using hundisputed, hend hnew⟩
      rw [← List.reverse_cons, List.nodup_reverse]
      exact List.nodup_cons.2 ⟨hnew, hwalked.nodup⟩

theorem chainAt_eq_some {links disputed : List LinkPeriod} {source node : String} {path : List String}
    (h : chainAt links disputed (source, node) t = some path) :
    Trails.EndsAt (PeriodFrom links t) source path node ∧ disputedAt disputed t node = false := by
  unfold chainAt at h
  split_ifs at h with hkey
  obtain ⟨ultimate, hultimate, hpair⟩ := Option.bind_eq_some_iff.1 h
  obtain ⟨hnode, hpath⟩ := Option.ite_none_right_eq_some.1 hpair
  obtain rfl : ultimate = (node, path) := Prod.ext hnode (Option.some.inj hpath)
  obtain ⟨nodes, htrail, hnodup, hundisputed, hend⟩ := ultimateAt_eq_some hultimate
  refine ⟨⟨nodes, htrail.mono fun _ _ _ => ParentStep.periodFrom, hnodup, fun hempty => ?_, final_iff.2 hend⟩,
    hundisputed⟩
  -- The entity has a parent, so an empty path would end where there is one.
  obtain ⟨link, hget⟩ := IndexMap.mem_keys_iff.1 hkey
  rw [← htrail.eq_of_nil hempty] at hend
  cases hget.symm.trans hend

theorem chainAt_isSome {links disputed : List LinkPeriod} {source node : String} {labels : List String}
    (hone : ∀ x key y key' y', PeriodFrom links t x key y → PeriodFrom links t x key' y' → y = y')
    (h : Trails.EndsAt (PeriodFrom links t) source labels node) (hundisputed : disputedAt disputed t node = false) :
    ∃ path, chainAt links disputed (source, node) t = some path := by
  obtain ⟨nodes, htrail, hnodup, hlabels, hfinal⟩ := h
  obtain ⟨hnodes, _, hnew⟩ := List.nodup_append.1 hnodup
  have hkeys : nodes ⊆ (parentsAt links t).keys := by
    intro x hx
    obtain ⟨_, _, link, hin, hsource, _, _, hat⟩ := htrail.exists_step x hx
    exact mem_keys_parentsAt.2 ⟨link, hin, hsource, hat⟩
  have hshort : nodes.length ≤ (parentsAt links t).size := by
    have hle := (List.subperm_of_subset hnodes hkeys).length_le
    rwa [IndexMap.length_keys] at hle
  obtain ⟨taken, htaken⟩ := followLoop_of_trail hone htrail hfinal (parentsAt links t).size [] [] hshort hnodes (by simp)
  have hsource : source ∈ (parentsAt links t).keys := by
    cases htrail with
    | stop _ => exact absurd rfl hlabels
    | move _ _ => exact hkeys (by simp)
  have hout : node ∉ nodes := fun hmem => hnew node hmem node (by simp) rfl
  refine ⟨taken, ?_⟩
  rw [chainAt, if_pos hsource, ultimateAt, follow, htaken]
  simp [hout, hundisputed]

end EdgarPlatform.Relationships
