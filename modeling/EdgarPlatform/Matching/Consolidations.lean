import EdgarPlatform.Library.ParentMap
import EdgarPlatform.Records.Values

/-!
# The consolidations a batch starts from

The stored merges, exclusions and their reversals as the matching of a batch reads them: a parent map of the merged masters, the live merges of each component kept at its root, and the pairs a steward keeps apart. The batch joins further components to it as it merges.
-/

namespace EdgarPlatform.Matching

open Records (Object readText)
open ParentMap (above mem_keys_of_above above_insert)

structure Consolidations where
  parent : IndexMap String String
  merges : IndexMap String (List String)
  exclusions : List (String × String)
  deriving DecidableEq

namespace Consolidations

def empty : Consolidations := ⟨.empty, .empty, []⟩

def rootLoop (parent : IndexMap String String) : Nat → String → String
  | 0, key => key
  | fuel + 1, key =>
      match above parent key with
      | none => key
      | some next => rootLoop parent fuel next

/-- The loop passes a key at most once where it ends, so as many turns as there are keys reach the root. -/
def root (c : Consolidations) (key : String) : String := rootLoop c.parent (c.parent.size + 1) key

def join (c : Consolidations) (left right merge : String) : Consolidations :=
  let left := c.root left
  let right := c.root right
  let ids := (c.merges.get? left).getD []
  let merges := c.merges.erase left
  if left ≠ right then
    { c with
      parent := c.parent.insert right left
      merges := (merges.erase right).insert left (ids ++ (merges.get? right).getD [] ++ [merge]) }
  else { c with merges := merges.insert left (ids ++ [merge]) }

def depends (c : Consolidations) (left right : String) : List String :=
  Sorting.distinct (((c.merges.get? (c.root left)).getD []) ++ (c.merges.get? (c.root right)).getD [])

def excluded (c : Consolidations) (entities : List String) : Bool :=
  let roots := entities.map c.root
  c.exclusions.any fun pair =>
    c.root pair.1 ≠ c.root pair.2 ∧ c.root pair.1 ∈ roots ∧ c.root pair.2 ∈ roots

/-- Which decisions reverse or revoke each decision: their operations and ids. -/
abbrev Targeted := IndexMap String (List (String × String))

def noteTarget (targeted : Targeted) (body : Object) : Except String Targeted := do
  let op ← readText body "operation"
  if op = "reverse" ∨ op = "revoke" then do
    let target ← readText body "target"
    let id ← readText body "decision_id"
    .ok (targeted.insert target ((targeted.get? target).getD [] ++ [(op, id)]))
  else .ok targeted

def isRevoked (targeted : Targeted) (id : String) : Bool := (targeted.get? id).any (· ≠ [])

def readOne (targeted : Targeted) (found : Consolidations) (body : Object) : Except String Consolidations := do
  let op ← readText body "operation"
  let id ← readText body "decision_id"
  if op = "merge" then do
    let left ← readText body "left"
    let right ← readText body "right"
    if isRevoked targeted id = false then .ok (found.join left right id)
    else if ((targeted.get? id).getD []).any (fun undoing => undoing.1 = "reverse" ∧ isRevoked targeted undoing.2 = false)
    then .ok { found with exclusions := found.exclusions ++ [(left, right)] }
    else .ok found
  else if op = "exclude" ∧ isRevoked targeted id = false then do
    let left ← readText body "left"
    let right ← readText body "right"
    .ok { found with exclusions := found.exclusions ++ [(left, right)] }
  else .ok found

def read (decisions : List Object) : Except String Consolidations := do
  let targeted ← decisions.foldlM noteTarget .empty
  decisions.foldlM (readOne targeted) .empty

end Consolidations

/-- A merge by its id and its two sides. -/
structure Merged where
  id : String
  left : String
  right : String
  deriving DecidableEq

def pairs (merges : List Merged) : List (String × String) := merges.map fun m => (m.left, m.right)

/-- The parent map keeps the classes of the merges taken so far, and each root its component's merges. -/
structure Consolidations.Of (merges : List Merged) (c : Consolidations) : Prop where
  keeps : Forest.Keeps (above c.parent) (pairs merges)
  held : ∀ r, above c.parent r = none → ∀ id,
    id ∈ (c.merges.get? r).getD [] ↔ ∃ m ∈ merges, m.id = id ∧ Forest.Climbs (above c.parent) m.left r

namespace Consolidations

variable {c : Consolidations} {merges : List Merged}

theorem rootLoop_of_climb {parent : IndexMap String String} {fuel : Nat} {x r : String}
    (h : Forest.climb (above parent) fuel x = some r) : rootLoop parent (fuel + 1) x = r := by
  induction fuel generalizing x with
  | zero =>
      simp only [Forest.climb] at h
      split_ifs at h with hnone
      have hnext : above parent x = none := by simpa using hnone
      simpa [rootLoop, hnext] using h
  | succ fuel ih =>
      rw [rootLoop]
      simp only [Forest.climb] at h
      cases hnext : above parent x with
      | none =>
          rw [hnext] at h
          exact Option.some.inj h
      | some y =>
          rw [hnext] at h
          exact ih h

theorem root_of_climbs {x r : String} (h : Forest.Climbs (above c.parent) x r) : c.root x = r := by
  refine rootLoop_of_climb ?_
  exact h.climb_of_keys (fun z hz => mem_keys_of_above hz) (by simp)

theorem climbs_root (hends : Forest.Ends (above c.parent)) (x : String) :
    Forest.Climbs (above c.parent) x (c.root x) := by
  obtain ⟨r, hr⟩ := hends x
  rwa [root_of_climbs hr]

theorem Of.climbs (h : Of merges c) (x : String) : Forest.Climbs (above c.parent) x (c.root x) :=
  climbs_root h.keeps.ends x

theorem Of.root_eq_iff (h : Of merges c) {x y : String} : c.root x = c.root y ↔ Forest.Linked (pairs merges) x y := by
  rw [← h.keeps.sameRoot_iff]
  exact (Forest.sameRoot_iff_eq (h.climbs x) (h.climbs y)).symm

@[simp] theorem join_exclusions (c : Consolidations) (left right merge : String) :
    (c.join left right merge).exclusions = c.exclusions := by
  by_cases hne : c.root left = c.root right <;> simp [Consolidations.join, hne]

theorem Of.empty : Of [] Consolidations.empty := by
  have hnone : ∀ x, above Consolidations.empty.parent x = none := fun x => rfl
  exact ⟨Forest.keeps_nil hnone, fun r _ id => by simp [Consolidations.empty]⟩

theorem pairs_concat (merges : List Merged) (m : Merged) : pairs (merges ++ [m]) = pairs merges ++ [(m.left, m.right)] := by
  simp [pairs]

theorem keeps_same {next : String → Option String} {pairs : List (String × String)} (h : Forest.Keeps next pairs)
    {left right : String} (hsame : Forest.Linked pairs left right) : Forest.Keeps next (pairs ++ [(left, right)]) := by
  refine ⟨h.ends, fun x y => ?_⟩
  rw [h.sameRoot_iff, Forest.linked_concat]
  constructor
  · exact fun hxy => .inl hxy
  · intro hxy
    rcases hxy with hxy | ⟨hx, hy⟩ | ⟨hx, hy⟩
    · exact hxy
    · exact (hx.trans hsame).trans hy
    · exact (hx.trans hsame.symm).trans hy

theorem Of.join (h : Of merges c) (left right id : String) :
    Of (merges ++ [⟨id, left, right⟩]) (c.join left right id) := by
  have hleft := h.climbs left
  have hright := h.climbs right
  by_cases hne : c.root left = c.root right
  · have hparent : (c.join left right id).parent = c.parent := by simp [Consolidations.join, hne]
    have hmerges : (c.join left right id).merges =
        (c.merges.erase (c.root left)).insert (c.root left) ((c.merges.get? (c.root left)).getD [] ++ [id]) := by
      simp [Consolidations.join, hne]
    refine ⟨?_, fun r hr id' => ?_⟩
    · rw [hparent, pairs_concat]
      exact keeps_same h.keeps (h.root_eq_iff.1 hne)
    · rw [hparent] at hr ⊢
      rw [hmerges, IndexMap.get?_insert]
      split_ifs with heq
      · subst heq
        simp only [Option.getD_some, List.mem_append, List.mem_singleton, h.held _ hr, or_and_right, exists_or,
          exists_eq_left]
        constructor
        · intro hmem
          rcases hmem with hmem | rfl
          · exact .inl hmem
          · exact .inr ⟨rfl, hleft⟩
        · intro hmem
          rcases hmem with hmem | ⟨rfl, _⟩
          · exact .inl hmem
          · exact .inr rfl
      · rw [IndexMap.get?_erase, if_neg heq, h.held _ hr]
        simp only [List.mem_append, List.mem_singleton, or_and_right, exists_or, exists_eq_left]
        constructor
        · exact fun hmem => .inl hmem
        · intro hmem
          rcases hmem with hmem | ⟨_, hclimbs⟩
          · exact hmem
          · exact absurd (hclimbs.unique hleft) heq
  · have hparent : (c.join left right id).parent = c.parent.insert (c.root right) (c.root left) := by
      simp [Consolidations.join, hne]
    have hmerges : (c.join left right id).merges =
        ((c.merges.erase (c.root left)).erase (c.root right)).insert (c.root left)
          ((c.merges.get? (c.root left)).getD [] ++ (c.merges.get? (c.root right)).getD [] ++ [id]) := by
      simp [Consolidations.join, hne, IndexMap.get?_erase, Ne.symm hne]
    have hnext : above (c.parent.insert (c.root right) (c.root left)) =
        Forest.link (above c.parent) (c.root right) (c.root left) := above_insert (Ne.symm hne)
    refine ⟨?_, fun r hr id' => ?_⟩
    · rw [hparent, hnext, pairs_concat]
      exact h.keeps.link hleft hright hne (.inl ⟨rfl, rfl⟩)
    · rw [hparent, hnext] at hr ⊢
      have hroot : r ≠ c.root right := by
        rintro rfl
        rw [Forest.link_self] at hr
        cases hr
      have hr' : above c.parent r = none := by rwa [Forest.link_of_ne _ hroot] at hr
      -- After the link every climb goes where it went, or from the right root to the left one.
      have hclimbs : ∀ x, Forest.Climbs (Forest.link (above c.parent) (c.root right) (c.root left)) x r ↔
          (if c.root x = c.root right then c.root left else c.root x) = r := by
        intro x
        have hx := (h.climbs x).link hright.root_next hleft.root_next (Ne.symm hne)
        exact ⟨fun hxr => hx.unique hxr, fun hxr => hxr ▸ hx⟩
      have hold : ∀ r, above c.parent r = none → ∀ id', id' ∈ (c.merges.get? r).getD [] ↔
          ∃ m ∈ merges, m.id = id' ∧ c.root m.left = r := by
        intro r hr id'
        rw [h.held r hr]
        exact exists_congr fun m => and_congr_right fun _ => and_congr_right fun _ =>
          ⟨fun hm => root_of_climbs hm, fun hm => hm ▸ h.climbs m.left⟩
      rw [hmerges, IndexMap.get?_insert]
      simp only [hclimbs]
      split_ifs with heq
      · subst heq
        simp only [Option.getD_some, List.mem_append, List.mem_singleton, hold _ hleft.root_next,
          hold _ hright.root_next]
        constructor
        · intro hmem
          rcases hmem with (⟨m, hm, hid, hmr⟩ | ⟨m, hm, hid, hmr⟩) | rfl
          · exact ⟨m, .inl hm, hid, by rw [hmr, if_neg hne]⟩
          · exact ⟨m, .inl hm, hid, by rw [hmr, if_pos rfl]⟩
          · exact ⟨_, .inr rfl, rfl, by rw [if_neg hne]⟩
        · intro hmem
          obtain ⟨m, hm | rfl, hid, hmr⟩ := hmem
          · split_ifs at hmr with hcase
            · exact .inl (.inr ⟨m, hm, hid, hcase⟩)
            · exact .inl (.inl ⟨m, hm, hid, hmr⟩)
          · exact .inr hid.symm
      · rw [IndexMap.get?_erase, if_neg hroot, IndexMap.get?_erase, if_neg heq, hold r hr']
        simp only [List.mem_append, List.mem_singleton]
        constructor
        · intro hmem
          obtain ⟨m, hm, hid, hmr⟩ := hmem
          exact ⟨m, .inl hm, hid, by rw [hmr, if_neg hroot]⟩
        · intro hmem
          obtain ⟨m, hm | rfl, hid, hmr⟩ := hmem
          · split_ifs at hmr with hcase
            · exact absurd hmr.symm heq
            · exact ⟨m, hm, hid, hmr⟩
          · rw [if_neg hne] at hmr
            exact absurd hmr.symm heq

end Consolidations

end EdgarPlatform.Matching
