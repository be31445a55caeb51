import EdgarPlatform.Records.Decisions
import EdgarPlatform.Records.Stored
import EdgarPlatform.Library.Differences

/-!
# The index of projected objects

Links and reviews are found by what they name: each is listed, by a pointer to it, in a group for every entity and record it names. When objects change, the groups are changed by the difference between the index of what they were and the index of what they are.
-/

namespace EdgarPlatform.Lookups

open Records (Json Object readText readArray readString hasValue writeSortedJson Calendar)

abbrev Key := String ×ₗ String

abbrev Store := SortedMap Key String

def lookupType (name : String) (keys : List String) : String :=
  "lookup/" ++ name ++ "/" ++ writeSortedJson (.arr (keys.map .str))

/-- One change of the store. -/
structure Entry where
  recordType : String
  id : String
  bodyJson : Option String
  removed : Bool
  deriving DecidableEq

def Entry.key (entry : Entry) : Key := toLex (entry.recordType, entry.id)

def Entry.change (entry : Entry) : Differences.Change Key String :=
  (entry.key, if entry.removed then none else entry.bodyJson)

def Entry.of (change : Differences.Change Key String) : Entry :=
  { recordType := (ofLex change.1).1, id := (ofLex change.1).2, bodyJson := change.2, removed := change.2 = none }

/-- The entries that change an index from what it was to what it is. -/
def indexChanges (before after : Store) : List Entry := (Differences.differences before after).map Entry.of

def sortEntries (changes : List Entry) : List Entry := Sorting.sortByKey Entry.key changes

def applyEntries (store : Store) (changes : List Entry) : Store :=
  Differences.applyChanges store (changes.map Entry.change)

theorem change_of (change : Differences.Change Key String) : (Entry.of change).change = change := by
  obtain ⟨key, value⟩ := change
  cases value <;> rfl

theorem map_change_indexChanges (before after : Store) :
    (indexChanges before after).map Entry.change = Differences.differences before after := by
  rw [indexChanges, List.map_map]
  exact (List.map_congr_left fun change _ => change_of change).trans (List.map_id _)

structure Projection where
  recordType : String
  id : String
  body : Object

def identityFail : String := "Projection identity differs from its key"

def flag (body : Object) (name : String) : Except String Bool :=
  match body.get? name with
  | none => .ok false
  | some .null => .ok false
  | some (.bool value) => .ok value
  | some _ => .error "Invalid record value"

def optionalKey (body : Object) (name : String) : Except String (List String) :=
  if hasValue body name then (readText body name).map fun key => [key] else .ok []

def optionalKeys (body : Object) (name : String) : Except String (List String) :=
  if hasValue body name then (readArray body name).bind fun items => items.mapM readString else .ok []

def reviewKeys (body : Object) : Except String (List String) := do
  let named ← ["entity_id", "subject"].mapM (optionalKey body)
  let affected ← ["affected_subjects", "affected_entities", "entities"].mapM (optionalKeys body)
  .ok (named.flatten ++ affected.flatten)

/-- An identity a review carries beside its key agrees with it. -/
def checkReviewId (object : Projection) (name : String) : Except String Unit :=
  if object.body.contains name then do
    let id ← readText object.body name
    if id ≠ object.id then .error identityFail else .ok ()
  else .ok ()

def waitingGroups (body : Object) : Except String (List String) := do
  let waiting ← flag body "waiting_for_end"
  if waiting then
    let retired ← flag body "retired"
    .ok (if retired then [] else [lookupType "waiting_reviews" []])
  else .ok []

def reviewGroups (object : Projection) : Except String (List String) := do
  let waiting ← waitingGroups object.body
  ["review_id", "deferred_id"].forM (checkReviewId object)
  let keys ← reviewKeys object.body
  .ok (waiting ++ keys.map fun key => lookupType "related_reviews" [key])

def relationshipGroups (object : Projection) : Except String (List String) := do
  let id ← readText object.body "relationship_id"
  if id ≠ object.id then .error identityFail
  else
    let source ← readText object.body "source_id"
    let target ← readText object.body "target_id"
    .ok [lookupType "outgoing_links" [source], lookupType "incoming_links" [target]]

def entityGroups (object : Projection) : Except String (List String) := do
  let id ← readText object.body "entity_id"
  if id ≠ object.id then .error identityFail else .ok []

def groupsOf (object : Projection) : Except String (List String) :=
  if object.recordType = "entity" then entityGroups object
  else if object.recordType = "relationship" then relationshipGroups object
  else if object.recordType = "review" then reviewGroups object
  else .error "Unsupported current projection index type"

def pointer (object : Projection) : String :=
  writeSortedJson (.obj [("type", .str object.recordType), ("id", .str object.id), ("immutable", .bool false)])

def Projection.key (object : Projection) : Key := toLex (object.recordType, object.id)

/-- What the loop over the objects holds: the entries and the objects seen. -/
structure Indexing where
  entries : Store := .empty
  seen : List Key := []

def addObject (state : Indexing) (object : Projection) : Except String Indexing :=
  if object.id = "" ∨ object.key ∈ state.seen then
    .error "Projection keys require distinct nonempty identities"
  else do
    let groups ← groupsOf object
    .ok
      { entries := state.entries.extend (groups.map fun group => (toLex (group, object.id), pointer object))
        seen := object.key :: state.seen }

def projectionEntries (objects : List Projection) : Except String Store :=
  (objects.foldlM addObject {}).map Indexing.entries

/-- The letter that tells the groups of links from those of reviews. -/
def groupLetter (group : String) : Option Char := group.toList[7]?

theorem groupLetter_lookupType (name : String) (keys : List String) {c : Char} {rest : List Char}
    (h : name.toList = c :: rest) : groupLetter (lookupType name keys) = some c := by
  have hprefix : "lookup/".toList = ['l', 'o', 'o', 'k', 'u', 'p', '/'] := by decide
  simp [groupLetter, lookupType, h, hprefix]

variable {group : String} {object : Projection} {groups : List String}

theorem relationshipGroups_letter
    (h : relationshipGroups object = .ok groups) (hgroup : group ∈ groups) :
    groupLetter group = some 'o' ∨ groupLetter group = some 'i' := by
  simp only [relationshipGroups, Except.bind_eq_ok, Except.ite_error_eq_ok, Except.ok.injEq] at h
  obtain ⟨id, _, _, source, _, target, _, rfl⟩ := h
  simp only [List.mem_cons, List.not_mem_nil, or_false] at hgroup
  rcases hgroup with rfl | rfl
  · exact .inl (groupLetter_lookupType _ _ (by decide : "outgoing_links".toList = 'o' :: "utgoing_links".toList))
  · exact .inr (groupLetter_lookupType _ _ (by decide : "incoming_links".toList = 'i' :: "ncoming_links".toList))

theorem waitingGroups_letter {body : Object} (h : waitingGroups body = .ok groups)
    (hgroup : group ∈ groups) : groupLetter group = some 'w' := by
  simp only [waitingGroups, Except.bind_eq_ok] at h
  obtain ⟨waiting, _, h⟩ := h
  split_ifs at h with hwaiting
  · obtain ⟨retired, _, h⟩ := Except.bind_eq_ok.1 h
    cases h
    split_ifs at hgroup with hretired
    · cases hgroup
    · rw [List.mem_singleton.1 hgroup]
      exact groupLetter_lookupType _ _ (by decide : "waiting_reviews".toList = 'w' :: "aiting_reviews".toList)
  · cases h
    cases hgroup

theorem reviewGroups_letter (h : reviewGroups object = .ok groups)
    (hgroup : group ∈ groups) : groupLetter group = some 'w' ∨ groupLetter group = some 'r' := by
  simp only [reviewGroups, Except.bind_eq_ok, Except.ok.injEq] at h
  obtain ⟨waiting, hwaiting, _, _, keys, _, rfl⟩ := h
  rcases List.mem_append.1 hgroup with hgroup | hgroup
  · exact .inl (waitingGroups_letter hwaiting hgroup)
  · obtain ⟨key, _, rfl⟩ := List.mem_map.1 hgroup
    exact .inr (groupLetter_lookupType _ _ (by decide : "related_reviews".toList = 'r' :: "elated_reviews".toList))

theorem groupsOf_letter (h : groupsOf object = .ok groups)
    (hgroup : group ∈ groups) :
    (object.recordType = "relationship" ∧ (groupLetter group = some 'o' ∨ groupLetter group = some 'i')) ∨
      (object.recordType = "review" ∧ (groupLetter group = some 'w' ∨ groupLetter group = some 'r')) := by
  rw [groupsOf] at h
  split_ifs at h with hentity hrelationship hreview
  · simp only [entityGroups, Except.bind_eq_ok, Except.ite_error_eq_ok, Except.ok.injEq] at h
    obtain ⟨_, _, _, rfl⟩ := h
    cases hgroup
  · exact .inl ⟨hrelationship, relationshipGroups_letter h hgroup⟩
  · exact .inr ⟨hreview, reviewGroups_letter h hgroup⟩

theorem recordType_of_group {object other : Projection} {groups groups' : List String} (h : groupsOf object = .ok groups)
    (h' : groupsOf other = .ok groups') (hgroup : group ∈ groups) (hgroup' : group ∈ groups') :
    object.recordType = other.recordType := by
  obtain ⟨htype, hletter⟩ | ⟨htype, hletter⟩ := groupsOf_letter h hgroup <;>
    obtain ⟨htype', hletter'⟩ | ⟨htype', hletter'⟩ := groupsOf_letter h' hgroup'
  · rw [htype, htype']
  · rcases hletter with h | h <;> rcases hletter' with h' | h' <;> rw [h] at h' <;> cases h'
  · rcases hletter with h | h <;> rcases hletter' with h' | h' <;> rw [h] at h' <;> cases h'
  · rw [htype, htype']

/-- A group an object is listed in, and the pointer it is listed by. -/
def Lists (object : Projection) (key : Key) (body : String) : Prop :=
  ∃ groups, groupsOf object = .ok groups ∧ (ofLex key).1 ∈ groups ∧ (ofLex key).2 = object.id ∧ body = pointer object

/-- The index of a list of objects: each is there once, and the entries are those that list some object. -/
structure Indexes (objects : List Projection) (entries : Store) : Prop where
  nodup : (objects.map Projection.key).Nodup
  valid : ∀ object ∈ objects, object.id ≠ "" ∧ ∃ groups, groupsOf object = .ok groups
  get : ∀ key body, entries.get? key = some body ↔ ∃ object ∈ objects, Lists object key body

theorem key_eq_of_lists {object other : Projection} {key : Key} {body body' : String} (h : Lists object key body)
    (h' : Lists other key body') : object.key = other.key := by
  obtain ⟨groups, hgroups, hgroup, hid, _⟩ := h
  obtain ⟨groups', hgroups', hgroup', hid', _⟩ := h'
  rw [Projection.key, Projection.key, recordType_of_group hgroups hgroups' hgroup hgroup', ← hid, ← hid']

theorem get?_extendGroups (entries : Store) (groups : List String) (id body : String) (key : Key) :
    (entries.extend (groups.map fun group => (toLex (group, id), body))).get? key =
      if (ofLex key).1 ∈ groups ∧ (ofLex key).2 = id then some body else entries.get? key := by
  split_ifs with hhere
  · have hmap : (groups.map fun group => ((toLex (group, id) : Key), body))
        = (groups.map fun group => (toLex (group, id) : Key)).map fun key => (key, body) := by
      rw [List.map_map]
      rfl
    rw [hmap]
    exact SortedMap.get?_extend_const _ (List.mem_map.2 ⟨_, hhere.1, by rw [← hhere.2]; rfl⟩)
  · refine SortedMap.get?_extend_of_not_mem _ fun hmem => hhere ?_
    rw [List.map_map] at hmem
    obtain ⟨group, hgroup, rfl⟩ := List.mem_map.1 hmem
    exact ⟨hgroup, rfl⟩

theorem addObject_eq_ok {state next : Indexing} :
    addObject state object = .ok next ↔
      object.id ≠ "" ∧ object.key ∉ state.seen ∧ ∃ groups, groupsOf object = .ok groups ∧
        next = ⟨state.entries.extend (groups.map fun group => (toLex (group, object.id), pointer object)),
          object.key :: state.seen⟩ := by
  rw [addObject, Except.ite_error_eq_ok, Except.bind_eq_ok, not_or, and_assoc]
  simp only [Except.ok.injEq, eq_comm, ne_eq]

variable {objects : List Projection}

theorem indexes_foldlM {state : Indexing} (h : objects.foldlM addObject {} = .ok state) :
    Indexes objects state.entries ∧ state.seen = (objects.map Projection.key).reverse := by
  refine Runs.run_invariant
    (fun front (mid : Indexing) => Indexes front mid.entries ∧ mid.seen = (front.map Projection.key).reverse) h ?_ ?_
  · refine ⟨⟨List.nodup_nil, fun _ h => (nomatch h), fun key body => ⟨fun h => (nomatch h), ?_⟩⟩, rfl⟩
    rintro ⟨_, h, _⟩
    cases h
  · rintro front object back mid next _ ⟨hindexes, hseen⟩ hnext
    obtain ⟨hid, hnew, groups, hgroups, rfl⟩ := addObject_eq_ok.1 hnext
    rw [hseen, List.mem_reverse] at hnew
    refine ⟨⟨?_, ?_, fun key body => ?_⟩, by rw [hseen, List.map_append, List.reverse_append]; rfl⟩
    · rw [List.map_append, List.nodup_append]
      refine ⟨hindexes.nodup, List.nodup_singleton _, ?_⟩
      rintro _ hkey _ hother rfl
      rw [List.map_singleton, List.mem_singleton] at hother
      exact hnew (hother ▸ hkey)
    · intro other hother
      rcases List.mem_append.1 hother with hother | hother
      · exact hindexes.valid other hother
      · rw [List.mem_singleton.1 hother]
        exact ⟨hid, groups, hgroups⟩
    · rw [get?_extendGroups]
      split_ifs with hhere
      · constructor
        · intro heq
          cases heq
          exact ⟨object, by simp, groups, hgroups, hhere.1, hhere.2, rfl⟩
        · rintro ⟨other, hother, hlists⟩
          have hkey := key_eq_of_lists hlists (⟨groups, hgroups, hhere.1, hhere.2, rfl⟩ : Lists object key (pointer object))
          rcases List.mem_append.1 hother with hother | hother
          · exact absurd (List.mem_map.2 ⟨other, hother, hkey⟩) hnew
          · obtain ⟨_, _, _, _, rfl⟩ := hlists
            rw [List.mem_singleton.1 hother]
      · rw [hindexes.get]
        constructor
        · rintro ⟨other, hother, hlists⟩
          exact ⟨other, List.mem_append_left _ hother, hlists⟩
        · rintro ⟨other, hother, hlists⟩
          rcases List.mem_append.1 hother with hother | hother
          · exact ⟨other, hother, hlists⟩
          · rw [List.mem_singleton.1 hother] at hlists
            obtain ⟨groups', hgroups', hgroup, hid', _⟩ := hlists
            cases hgroups.symm.trans hgroups'
            exact absurd ⟨hgroup, hid'⟩ hhere

theorem projectionEntries_indexes {entries : Store}
    (h : projectionEntries objects = .ok entries) : Indexes objects entries := by
  obtain ⟨state, hstate, rfl⟩ := Records.map_eq_ok.1 h
  exact (indexes_foldlM hstate).1

theorem exists_projectionEntries (hnodup : (objects.map Projection.key).Nodup)
    (hvalid : ∀ object ∈ objects, object.id ≠ "" ∧ ∃ groups, groupsOf object = .ok groups) :
    ∃ entries, projectionEntries objects = .ok entries := by
  suffices h : ∀ back front state, objects = front ++ back → front.foldlM addObject {} = .ok state →
      ∃ last, back.foldlM addObject state = .ok last by
    obtain ⟨last, hlast⟩ := h objects [] {} rfl rfl
    exact ⟨last.entries, Records.map_eq_ok.2 ⟨last, hlast, rfl⟩⟩
  intro back
  induction back with
  | nil => exact fun front state _ _ => ⟨state, rfl⟩
  | cons object back ih =>
      intro front state hobjects hfront
      obtain ⟨hid, groups, hgroups⟩ := hvalid object (by rw [hobjects]; simp)
      have hnew : object.key ∉ state.seen := by
        rw [(indexes_foldlM hfront).2, List.mem_reverse]
        rw [hobjects, List.map_append, List.map_cons] at hnodup
        exact fun hmem => (List.nodup_append.1 hnodup).2.2 _ hmem _ (List.mem_cons_self ..) rfl
      have hnext := addObject_eq_ok.2 ⟨hid, hnew, groups, hgroups, rfl⟩
      obtain ⟨last, hlast⟩ := ih (front ++ [object]) _ (by rw [hobjects]; simp)
        (Runs.foldlM_append_eq_ok.2 ⟨state, hfront, Runs.foldlM_cons_eq_ok.2 ⟨_, hnext, rfl⟩⟩)
      exact ⟨last, Runs.foldlM_cons_eq_ok.2 ⟨_, hnext, hlast⟩⟩

end EdgarPlatform.Lookups
