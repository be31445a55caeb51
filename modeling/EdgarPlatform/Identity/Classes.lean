import EdgarPlatform.Identity.Undoing
import EdgarPlatform.Library.ParentMap

/-!
# The classes the replay builds

The parent map of the last pass keeps the classes of the live merges read so far: its climbs end, and two identities have one root exactly when the merges connect them. From this, what `replay` returns is the partition the live merges say, with no standing exclusion inside a class.
-/

namespace EdgarPlatform.Identities

open Forest (Climbs Keeps Linked SameRoot)
open ParentMap (above above_eq_some above_eq_none mem_keys_of_above above_insert)

def Closed (parent : IndexMap String String) : Prop :=
  ∀ x y, parent.get? x = some y → y ∈ parent.keys

variable {parent : IndexMap String String}

variable {x r : String}

theorem Climbs.mem_keys (hclosed : Closed parent)
    (h : Climbs (above parent) x r) (hx : x ∈ parent.keys) : r ∈ parent.keys := by
  induction h with
  | stop _ => exact hx
  | step hy _ ih => exact ih (hclosed _ _ (above_eq_some.1 hy).1)

theorem rootLoop_of_climb (hclosed : Closed parent) {fuel : Nat}
    (hx : x ∈ parent.keys) (h : Forest.climb (above parent) fuel x = some r) :
    rootLoop parent (fuel + 1) x = .ok r := by
  induction fuel generalizing x with
  | zero =>
      simp only [Forest.climb] at h
      split_ifs at h with hnone
      cases h
      have hself := (above_eq_none hx).1 (by simpa using hnone)
      simp [rootLoop, hself]
  | succ fuel ih =>
      simp only [Forest.climb] at h
      split at h
      · next hnone =>
          cases h
          simp [rootLoop, (above_eq_none hx).1 hnone]
      · next y hy =>
          obtain ⟨hget, hne⟩ := above_eq_some.1 hy
          rw [rootLoop]
          simp only [hget, if_neg hne]
          exact ih (hclosed _ _ hget) h

theorem root_of_climbs (hclosed : Closed parent)
    (hx : x ∈ parent.keys) (h : Climbs (above parent) x r) : root parent x = .ok r := by
  refine rootLoop_of_climb hclosed hx ?_
  exact h.climb_of_keys (fun z hz => mem_keys_of_above hz) (by simp)

theorem root_unknown {x : String} (hx : x ∉ parent.keys) :
    root parent x = .error "Unknown identity" := by
  simp [root, rootLoop, IndexMap.get?_eq_none_iff.2 hx]

theorem root_eq_ok_iff (hclosed : Closed parent)
    (hends : Forest.Ends (above parent)) :
    root parent x = .ok r ↔ x ∈ parent.keys ∧ Climbs (above parent) x r := by
  by_cases hx : x ∈ parent.keys
  · obtain ⟨s, hs⟩ := hends x
    rw [root_of_climbs hclosed hx hs]
    simp only [Except.ok.injEq, hx, true_and]
    exact ⟨fun h => h ▸ hs, fun h => hs.unique h⟩
  · simp [root_unknown hx, hx]

/-- The two masters a decision joins, when it is a merge no decision undoes. -/
def joinedPair (revoked : Finset String) (d : Decision) : Option (String × String) :=
  if d.op = .merge ∧ d.id ∉ revoked then d.left.bind fun left => d.right.map fun right => (left, right) else none

def joinedPairs (revoked : Finset String) (read : List (Nat × Decision)) : List (String × String) :=
  read.filterMap fun entry => joinedPair revoked entry.2

instance (reading : Reading) (d : Decision) : Decidable (keptApart reading d) :=
  inferInstanceAs (Decidable (∃ _ ∈ _, _))

/-- The pair a decision keeps apart: a live exclusion, or a merge undone by a reversal that stands. -/
def excludedPair (reading : Reading) (d : Decision) : Option (String × String) :=
  if d.op = .exclude ∧ d.id ∉ reading.reversals.revoked ∨
      d.op = .merge ∧ d.id ∈ reading.reversals.revoked ∧ keptApart reading d then
    d.left.bind fun left => d.right.map fun right => (left, right)
  else none

theorem joinedPair_eq_some {revoked : Finset String} {d : Decision} {left right : String} :
    joinedPair revoked d = some (left, right) ↔
      d.op = .merge ∧ d.id ∉ revoked ∧ d.left = some left ∧ d.right = some right := by
  unfold joinedPair
  split_ifs with h
  · simp [Option.bind_eq_some_iff, h]
  · simp only [false_iff]
    tauto

variable {read : List (Nat × Decision)}

theorem mem_joinedPairs {revoked : Finset String} {pair : String × String} :
    pair ∈ joinedPairs revoked read ↔ ∃ entry ∈ read, joinedPair revoked entry.2 = some pair := by
  simp [joinedPairs]

theorem joinedPairs_concat (revoked : Finset String) (read : List (Nat × Decision)) (entry : Nat × Decision) :
    joinedPairs revoked (read ++ [entry]) = joinedPairs revoked read ++ (joinedPair revoked entry.2).toList := by
  cases h : joinedPair revoked entry.2 <;> simp [joinedPairs, h]

/-- What the progress of the last pass says after reading part of the decisions. -/
structure Progress.Of (reading : Reading) (read : List (Nat × Decision)) (p : Progress) : Prop where
  keys : ∀ x, x ∈ p.parent.keys ↔ x ∈ reading.ids.keys
  closed : Closed p.parent
  keeps : Keeps (above p.parent) (joinedPairs reading.reversals.revoked read)
  kinds : ∀ x r, Climbs (above p.parent) x r → kindOf reading.ids x = kindOf reading.ids r
  exclusions : p.state.exclusions = read.filterMap fun entry => excludedPair reading entry.2

variable {reading : Reading}

variable {p : Progress}

theorem Progress.Of.root_iff
    (h : Progress.Of reading read p) :
    root p.parent x = .ok r ↔ x ∈ reading.ids.keys ∧ Climbs (above p.parent) x r := by
  rw [root_eq_ok_iff h.closed h.keeps.ends, h.keys]

theorem Progress.Of.same_root_iff
    (h : Progress.Of reading read p) {x y r s : String} (hx : root p.parent x = .ok r)
    (hy : root p.parent y = .ok s) : r = s ↔ Linked (joinedPairs reading.reversals.revoked read) x y := by
  rw [← h.keeps.sameRoot_iff]
  exact (Forest.sameRoot_iff_eq (h.root_iff.1 hx).2 (h.root_iff.1 hy).2).symm

theorem start_get? {ids : IndexMap String Identity} {x : String} :
    (Progress.start ids).parent.get? x = if x ∈ ids.keys then some x else none := by
  have hnodup : ((ids.keys.map fun i => (i, i)).map Prod.fst).Nodup := by
    simpa [List.map_map, Function.comp_def] using ids.keys_nodup
  have hget : ∀ y, (Progress.start ids).parent.get? x = some y ↔ x ∈ ids.keys ∧ y = x := by
    intro y
    rw [Progress.start, IndexMap.get?_ofList hnodup]
    simp only [List.mem_map, Prod.mk.injEq]
    constructor
    · rintro ⟨i, hi, rfl, rfl⟩
      exact ⟨hi, rfl⟩
    · rintro ⟨hx, rfl⟩
      exact ⟨y, hx, rfl, rfl⟩
  split_ifs with hx
  · exact (hget x).2 ⟨hx, rfl⟩
  · refine Option.eq_none_iff_forall_ne_some.2 fun y hy => hx ((hget y).1 hy).1

theorem start_of (reading : Reading) : Progress.Of reading [] (.start reading.ids) where
  keys := fun x => by
    rw [IndexMap.mem_keys_iff]
    simp only [start_get?]
    split_ifs with hx <;> simp [hx]
  closed := fun x y hy => by
    rw [start_get?] at hy
    split_ifs at hy with hx
    cases hy
    exact IndexMap.mem_keys_iff.2 ⟨x, by rw [start_get?, if_pos hx]⟩
  keeps := Forest.keeps_nil fun x => by
    simp only [above, start_get?]
    split_ifs <;> simp [Option.filter]
  kinds := fun x r h => by
    have hnone : above (Progress.start reading.ids).parent x = none := by
      simp only [above, start_get?]
      split_ifs <;> simp [Option.filter]
    rw [h.eq_of_next_none hnone]
  exclusions := rfl

variable {entry : Nat × Decision}

theorem Progress.Of.frame {p p' : Progress}
    (h : Progress.Of reading read p) (hparent : p'.parent = p.parent)
    (hexclusions : p'.state.exclusions = p.state.exclusions)
    (hjoined : joinedPair reading.reversals.revoked entry.2 = none)
    (hexcluded : excludedPair reading entry.2 = none) : Progress.Of reading (read ++ [entry]) p' where
  keys := by rw [hparent]; exact h.keys
  closed := by rw [hparent]; exact h.closed
  keeps := by
    rw [hparent, joinedPairs_concat, hjoined]
    simpa using h.keeps
  kinds := by rw [hparent]; exact h.kinds
  exclusions := by simp [hexclusions, h.exclusions, hexcluded]

theorem Progress.Of.excludes
    {left right : String} (h : Progress.Of reading read p)
    (hjoined : joinedPair reading.reversals.revoked entry.2 = none)
    (hexcluded : excludedPair reading entry.2 = some (left, right)) :
    Progress.Of reading (read ++ [entry]) (p.exclude left right) where
  keys := h.keys
  closed := h.closed
  keeps := by
    rw [joinedPairs_concat, hjoined, Option.toList_none, List.append_nil]
    exact h.keeps
  kinds := h.kinds
  exclusions := by simp [Progress.exclude, h.exclusions, hexcluded]

theorem Progress.Of.joins
    {left right leftRoot rightRoot : String} (h : Progress.Of reading read p)
    (hjoined : joinedPair reading.reversals.revoked entry.2 = some (left, right))
    (hexcluded : excludedPair reading entry.2 = none)
    (hleft : root p.parent left = .ok leftRoot) (hright : root p.parent right = .ok rightRoot)
    (hjoin : Joins reading p entry.2 leftRoot rightRoot) :
    Progress.Of reading (read ++ [entry]) (p.join reading entry.2 leftRoot rightRoot) := by
  obtain ⟨hleftKey, hleftClimbs⟩ := h.root_iff.1 hleft
  obtain ⟨hrightKey, hrightClimbs⟩ := h.root_iff.1 hright
  -- The survivor is one of the two roots and the other goes under it.
  obtain ⟨child, survivor, hends, hparent⟩ : ∃ child survivor,
      (child = rightRoot ∧ survivor = leftRoot ∨ child = leftRoot ∧ survivor = rightRoot) ∧
      (p.join reading entry.2 leftRoot rightRoot).parent = p.parent.insert child survivor := by
    by_cases hs : survivorOf reading.ids entry.2 leftRoot rightRoot = leftRoot
    · exact ⟨rightRoot, leftRoot, .inl ⟨rfl, rfl⟩, by simp [Progress.join, hs]⟩
    · have hs' := hjoin.survivor.resolve_left hs
      exact ⟨leftRoot, rightRoot, .inr ⟨rfl, rfl⟩, by simp [Progress.join, hs', hjoin.ne.symm]⟩
  have hne : child ≠ survivor := by
    rcases hends with ⟨rfl, rfl⟩ | ⟨rfl, rfl⟩
    · exact hjoin.ne.symm
    · exact hjoin.ne
  have hroots : ∀ x, x = leftRoot ∨ x = rightRoot → x ∈ p.parent.keys := by
    rintro x (rfl | rfl)
    · exact Climbs.mem_keys h.closed hleftClimbs ((h.keys _).2 hleftKey)
    · exact Climbs.mem_keys h.closed hrightClimbs ((h.keys _).2 hrightKey)
  have hchild : child ∈ p.parent.keys := hroots child (by tauto)
  have hsurvivor : survivor ∈ p.parent.keys := hroots survivor (by tauto)
  have hkeys : ∀ x, x ∈ (p.parent.insert child survivor).keys ↔ x ∈ p.parent.keys := by
    intro x
    rw [IndexMap.mem_keys_insert]
    exact ⟨by rintro (rfl | hx); exacts [hchild, hx], .inr⟩
  have hchildRoot : above p.parent child = none := by
    rcases hends with ⟨rfl, _⟩ | ⟨rfl, _⟩
    · exact hrightClimbs.root_next
    · exact hleftClimbs.root_next
  have hsurvivorRoot : above p.parent survivor = none := by
    rcases hends with ⟨_, rfl⟩ | ⟨_, rfl⟩
    · exact hleftClimbs.root_next
    · exact hrightClimbs.root_next
  constructor
  · intro x
    rw [hparent, hkeys, h.keys]
  · intro x y hy
    rw [hparent] at hy ⊢
    rw [hkeys]
    rw [IndexMap.get?_insert] at hy
    split_ifs at hy
    · cases hy
      exact hsurvivor
    · exact h.closed x y hy
  · rw [hparent, above_insert hne, joinedPairs_concat, hjoined]
    exact h.keeps.link hleftClimbs hrightClimbs hjoin.ne hends
  · intro x r hr
    rw [hparent, above_insert hne] at hr
    obtain ⟨s, hs⟩ := h.keeps.ends x
    have hkind : kindOf reading.ids child = kindOf reading.ids survivor := by
      rcases hends with ⟨rfl, rfl⟩ | ⟨rfl, rfl⟩
      · exact hjoin.kinds.symm
      · exact hjoin.kinds
    rw [hr.unique (hs.link hchildRoot hsurvivorRoot hne), h.kinds x s hs]
    split_ifs with hsc
    · rw [hsc, hkind]
    · rfl
  · simp [Progress.join, h.exclusions, hexcluded]

theorem Progress.Of.step {reading : Reading} {read : List (Nat × Decision)} {p p' : Progress}
    {entry : Nat × Decision} (h : Progress.Of reading read p)
    (hstep : applyDecision reading p entry = .ok p') : Progress.Of reading (read ++ [entry]) p' := by
  have hnoJoin : entry.2.op ≠ .merge → joinedPair reading.reversals.revoked entry.2 = none := fun hne => by
    simp [joinedPair, hne]
  unfold applyDecision at hstep
  split at hstep
  next hop =>
    have hnoExclude : excludedPair reading entry.2 = none := by simp [excludedPair, hop]
    obtain ⟨subject, entity, r, _, _, _, ⟨_, rfl⟩ | ⟨_, _, _, _, _, rfl⟩⟩ := applyBind_eq_ok.1 hstep
    · exact h.frame rfl rfl (hnoJoin (by simp [hop])) hnoExclude
    · exact h.frame rfl rfl (hnoJoin (by simp [hop])) hnoExclude
  next hop =>
    rcases applyMerge_eq_ok.1 hstep with ⟨hr, hk, rfl⟩ | ⟨hr, hk, l, r, hl, hright, rfl⟩ | ⟨hr, l, r, lr, rr, hl, hright, hlr, hrr, hjoin, rfl⟩
    · exact h.frame rfl rfl (by simp [joinedPair, hr]) (by simp [excludedPair, hop, hk])
    · exact h.excludes (by simp [joinedPair, hr]) (by simp [excludedPair, hop, hr, hk, hl, hright])
    · exact h.joins (joinedPair_eq_some.2 ⟨hop, hr, hl, hright⟩) (by simp [excludedPair, hop, hr]) hlr hrr hjoin
  next hop =>
    rcases applyExclude_eq_ok.1 hstep with ⟨hr, rfl⟩ | ⟨hr, l, r, hl, hright, rfl⟩
    · exact h.frame rfl rfl (hnoJoin (by simp [hop])) (by simp [excludedPair, hop, hr])
    · exact h.excludes (hnoJoin (by simp [hop])) (by simp [excludedPair, hop, hr, hl, hright])
  next hop =>
    have hnoExclude : excludedPair reading entry.2 = none := by simp [excludedPair, hop]
    rcases applyOverride_eq_ok hstep with rfl | rfl
    · exact h.frame rfl rfl (hnoJoin (by simp [hop])) hnoExclude
    · exact h.frame rfl rfl (hnoJoin (by simp [hop])) hnoExclude
  next hop =>
    have hnoExclude : excludedPair reading entry.2 = none := by simp [excludedPair, hop]
    obtain ⟨subject, entity, r, _, _, _, _, _, _, _, ⟨_, rfl⟩ | ⟨_, rfl⟩⟩ := applyQuarantine_eq_ok.1 hstep
    · exact h.frame rfl rfl (hnoJoin (by simp [hop])) hnoExclude
    · exact h.frame rfl rfl (hnoJoin (by simp [hop])) hnoExclude
  next hop =>
    obtain ⟨source, rfl⟩ := applyRetirement_eq_ok hstep
    exact h.frame rfl rfl (hnoJoin (by simp [hop])) (by simp [excludedPair, hop])
  next hop =>
    cases hstep
    exact h.frame rfl rfl (hnoJoin (by simp [hop])) (by simp [excludedPair, hop])
  next hop =>
    cases hstep
    exact h.frame rfl rfl (hnoJoin (by simp [hop])) (by simp [excludedPair, hop])
  next => cases hstep

theorem Progress.Of.run
    (hrun : read.foldlM (applyDecision reading) (.start reading.ids) = .ok p) : Progress.Of reading read p := by
  refine Runs.run_invariant (Progress.Of reading) hrun (start_of reading) ?_
  intro front entry back mid next _ hmid hstep
  exact hmid.step hstep

end EdgarPlatform.Identities
