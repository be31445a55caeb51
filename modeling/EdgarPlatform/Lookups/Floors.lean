import EdgarPlatform.Lookups.Scope
import Mathlib.Order.Bounds.Basic

/-!
# Publication floors, and the upkeep of the scope index

The latest publication of each kind of identity is kept beside the index of objects: an identity published later must come after it. It is the greatest of the time and the id of every identity ever given, whatever order they came in.
-/

namespace EdgarPlatform.Lookups

open Records (Json Object readText writeSortedJson Calendar readObjectText)

/-- A publication floor: the time of a publication, and the id of its identity. -/
abbrev Rank := Int ×ₗ String

structure Publication where
  kind : String
  id : String
  publishedAt : String
  instant : Int

namespace Publication

def rank (given : Publication) : Rank := toLex (given.instant, given.id)

def body (given : Publication) : Object :=
  .ofList [("kind", .str given.kind), ("entity_id", .str given.id), ("published_at", .str given.publishedAt)]

end Publication

variable (calendar : Calendar)

def readPublication (identity : Object) : Except String Publication := do
  let kind ← readText identity "kind"
  let id ← readText identity "entity_id"
  let publishedAt ← readText identity "published_at"
  let instant ← calendar.readTime publishedAt
  .ok { kind, id, publishedAt, instant }

def readFloor (body : Object) : Except String Rank := do
  let publishedAt ← readText body "published_at"
  let instant ← calendar.readTime publishedAt
  let id ← readText body "entity_id"
  .ok (toLex (instant, id))

def floorFail : String := "Invalid retained identity publication floor"

def checkFloor (entry : String × Object) : Except String Unit :=
  if entry.2.size ≠ 3 then .error floorFail
  else do
    let kind ← readText entry.2 "kind"
    if kind ≠ entry.1 then .error floorFail
    else
      let _ ← readText entry.2 "entity_id"
      let publishedAt ← readText entry.2 "published_at"
      let _ ← calendar.readTime publishedAt
      .ok ()

abbrev Publications := SortedMap String Object

def raiseFloor (publications : Publications) (identity : Object) : Except String Publications := do
  let given ← readPublication calendar identity
  match publications.get? given.kind with
  | none => .ok (publications.insert given.kind given.body)
  | some previous => do
      let floor ← readFloor calendar previous
      .ok (if floor < given.rank then publications.insert given.kind given.body else publications)

def publicationType : String := "identity-publication"

def floorKey (kind : String) : Key := toLex (publicationType, kind)

def floorText (body : Object) : String := writeSortedJson (Object.toJson body)

def floorChanges (previous publications : Publications) : List Entry :=
  (publications.entries.filter fun entry => (previous.get? entry.1).map floorText ≠ some (floorText entry.2)).map
    fun entry => { recordType := publicationType, id := entry.1, bodyJson := some (floorText entry.2), removed := false }

structure ScopeInputs where
  previous : List Projection
  objects : List Projection
  identities : List Object
  previousPublications : Publications

def prepareScopeLookups (input : ScopeInputs) : Except String (Publications × List Entry) := do
  let before ← projectionEntries input.previous
  let after ← projectionEntries input.objects
  input.previousPublications.entries.forM (checkFloor calendar)
  let publications ← input.identities.foldlM (raiseFloor calendar) input.previousPublications
  .ok (publications, sortEntries (indexChanges before after ++ floorChanges input.previousPublications publications))

def ranksOf (identities : List Object) (kind : String) : Set Rank :=
  {rank | ∃ identity ∈ identities, ∃ given, readPublication calendar identity = .ok given ∧ given.kind = kind ∧ given.rank = rank}

/-- What is held for a kind is the greatest of some ranks, and is there if there are any. -/
def FloorOf (kind : String) (ranks : Set Rank) : Option Object → Prop
  | none => ranks = ∅
  | some body => ∃ given : Publication, given.kind = kind ∧ calendar.readTime given.publishedAt = .ok given.instant ∧
      (body = given.body ∨ body = Object.normal given.body) ∧ IsGreatest ranks given.rank

theorem readText_body (given : Publication) :
    readText given.body "published_at" = .ok given.publishedAt ∧ readText given.body "entity_id" = .ok given.id :=
  ⟨rfl, rfl⟩

variable {given : Publication}

theorem readFloor_body {body : Object} (htime : calendar.readTime given.publishedAt = .ok given.instant)
    (hbody : body = given.body ∨ body = Object.normal given.body) : readFloor calendar body = .ok given.rank := by
  have htexts : readText body "published_at" = .ok given.publishedAt ∧ readText body "entity_id" = .ok given.id := by
    rcases hbody with rfl | rfl
    · exact readText_body given
    · rw [Records.readText_normal, Records.readText_normal]
      exact readText_body given
  rw [readFloor, htexts.1, htexts.2, Except.bind_ok, htime, Except.bind_ok, Except.bind_ok]
  rfl

theorem readPublication_time {identity : Object} (h : readPublication calendar identity = .ok given) :
    calendar.readTime given.publishedAt = .ok given.instant := by
  simp only [readPublication, Except.bind_eq_ok, Except.ok.injEq] at h
  obtain ⟨kind, _, id, _, publishedAt, _, instant, hinstant, rfl⟩ := h
  exact hinstant

theorem floorText_body {body : Object} (hbody : body = given.body ∨ body = Object.normal given.body) :
    floorText body = floorText given.body := by
  rcases hbody with rfl | rfl
  · rfl
  · exact Records.writeSortedJson_normal given.body

theorem body_valid (given : Publication) : Object.Valid given.body := by
  intro key value hget
  rw [Publication.body, IndexMap.get?_ofList_eq (by simp)] at hget
  have hmem := IndexMap.lookupEntry_eq_some hget
  simp only [List.mem_cons, Prod.mk.injEq, List.not_mem_nil, or_false] at hmem
  obtain ⟨_, rfl⟩ | ⟨_, rfl⟩ | ⟨_, rfl⟩ := hmem <;> exact .str _

variable {publications next : Publications}

theorem raiseFloor_floorOf {identity : Object}
    (hgiven : readPublication calendar identity = .ok given) (h : raiseFloor calendar publications identity = .ok next)
    {kind : String} {ranks : Set Rank} (hfloor : FloorOf calendar kind ranks (publications.get? kind)) :
    FloorOf calendar kind (if given.kind = kind then insert given.rank ranks else ranks) (next.get? kind) := by
  have htime := readPublication_time calendar hgiven
  rw [raiseFloor, hgiven, Except.bind_ok] at h
  by_cases hkind : given.kind = kind
  · subst hkind
    rw [if_pos rfl]
    cases hheld : publications.get? given.kind with
    | none =>
        rw [hheld] at h hfloor
        cases h
        rw [SortedMap.get?_insert_self]
        refine ⟨given, rfl, htime, .inl rfl, ?_⟩
        rw [hfloor, insert_empty_eq]
        exact isGreatest_singleton
    | some previous =>
        rw [hheld] at h hfloor
        obtain ⟨held, hkind, hheldTime, hbody, hgreatest⟩ := hfloor
        simp only [readFloor_body calendar hheldTime hbody, Except.bind_ok, Except.ok.injEq] at h
        split_ifs at h with hlt
        · rw [← h, SortedMap.get?_insert_self]
          refine ⟨given, rfl, htime, .inl rfl, Set.mem_insert _ _, fun rank hrank => ?_⟩
          rcases Set.mem_insert_iff.1 hrank with rfl | hrank
          · exact le_refl _
          · exact (hgreatest.2 hrank).trans hlt.le
        · rw [← h, hheld]
          refine ⟨held, hkind, hheldTime, hbody, Set.mem_insert_of_mem _ hgreatest.1, fun rank hrank => ?_⟩
          rcases Set.mem_insert_iff.1 hrank with rfl | hrank
          · exact not_lt.1 hlt
          · exact hgreatest.2 hrank
  · rw [if_neg hkind]
    have hsame : next.get? kind = publications.get? kind := by
      cases hheld : publications.get? given.kind with
      | none =>
          rw [hheld] at h
          cases h
          exact SortedMap.get?_insert_of_ne _ _ (Ne.symm hkind)
      | some previous =>
          rw [hheld] at h
          obtain ⟨floor, _, h⟩ := Except.bind_eq_ok.1 h
          cases h
          split_ifs
          · exact SortedMap.get?_insert_of_ne _ _ (Ne.symm hkind)
          · rfl
    rw [hsame]
    exact hfloor

theorem ranksOf_nil (kind : String) : ranksOf calendar [] kind = ∅ := by
  ext rank
  simp [ranksOf]

theorem ranksOf_append (front back : List Object) (kind : String) :
    ranksOf calendar (front ++ back) kind = ranksOf calendar front kind ∪ ranksOf calendar back kind := by
  ext rank
  simp only [ranksOf, List.mem_append, Set.mem_ofPred_eq, Set.mem_union]
  constructor
  · rintro ⟨identity, hidentity | hidentity, hgiven⟩
    · exact .inl ⟨identity, hidentity, hgiven⟩
    · exact .inr ⟨identity, hidentity, hgiven⟩
  · rintro (⟨identity, hidentity, hgiven⟩ | ⟨identity, hidentity, hgiven⟩)
    · exact ⟨identity, .inl hidentity, hgiven⟩
    · exact ⟨identity, .inr hidentity, hgiven⟩

theorem ranksOf_singleton {identity : Object} (h : readPublication calendar identity = .ok given)
    (kind : String) : ranksOf calendar [identity] kind = if given.kind = kind then {given.rank} else ∅ := by
  ext rank
  simp only [ranksOf, List.mem_singleton, Set.mem_ofPred_eq, exists_eq_left, h, Except.ok.injEq]
  split_ifs with hkind
  · simp only [exists_eq_left', hkind, true_and, Set.mem_singleton_iff, eq_comm]
  · simp only [exists_eq_left', hkind, false_and, Set.mem_empty_iff_false]

theorem foldlM_raiseFloor {identities : List Object}
    (h : identities.foldlM (raiseFloor calendar) publications = .ok next) {kind : String} {ranks : Set Rank}
    (hfloor : FloorOf calendar kind ranks (publications.get? kind)) :
    FloorOf calendar kind (ranks ∪ ranksOf calendar identities kind) (next.get? kind) := by
  refine Runs.run_invariant
    (fun front (mid : Publications) => FloorOf calendar kind (ranks ∪ ranksOf calendar front kind) (mid.get? kind)) h ?_ ?_
  · rw [ranksOf_nil, Set.union_empty]
    exact hfloor
  · intro front identity back mid raised _ hmid hraised
    obtain ⟨given, hgiven, _⟩ := Except.bind_eq_ok.1 hraised
    have hnext := raiseFloor_floorOf calendar hgiven hraised hmid
    rw [ranksOf_append, ranksOf_singleton calendar hgiven, ← Set.union_assoc]
    split_ifs at hnext ⊢
    · rwa [Set.union_singleton]
    · rwa [Set.union_empty]

theorem foldlM_raiseFloor_read {identities : List Object}
    (h : identities.foldlM (raiseFloor calendar) publications = .ok next) :
    ∀ identity ∈ identities, ∃ given, readPublication calendar identity = .ok given := by
  intro identity hidentity
  obtain ⟨front, back, rfl⟩ := List.append_of_mem hidentity
  obtain ⟨_, _, _, hstep, _⟩ := Runs.run_split h
  obtain ⟨given, hgiven, _⟩ := Except.bind_eq_ok.1 hstep
  exact ⟨given, hgiven⟩

end EdgarPlatform.Lookups
