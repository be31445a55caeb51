import EdgarPlatform.Lookups.Floors

/-!
# Runs of the scope index

The objects, their index and the publication floors over any sequence of calls. Each call is given the objects it replaces and the floors of the kinds it publishes, and its changes are applied to the store. After every call the store holds exactly the index of the objects there are, and the greatest publication of each kind.
-/

namespace EdgarPlatform.Lookups

open Records (Object readText Calendar readObjectText)

variable (calendar : Calendar)

/-- The objects there are, and the store their index and the floors are kept in. -/
structure Scope where
  objects : SortedMap Key Object := .empty
  store : Store := .empty

def listObjects (objects : SortedMap Key Object) : List Projection :=
  objects.entries.map fun entry => { recordType := (ofLex entry.1).1, id := (ofLex entry.1).2, body := entry.2 }

def replaceObjects (objects : SortedMap Key Object) (previous next : List Projection) : SortedMap Key Object :=
  (previous.foldl (fun objects object => objects.erase object.key) objects).extend
    (next.map fun object => (object.key, object.body))

/-- What a call is given: the objects it replaces as they are, and the floors of its kinds as they are stored. -/
structure Given (state : Scope) (input : ScopeInputs) : Prop where
  previous : ∀ object ∈ input.previous, state.objects.get? object.key = some object.body
  held : ∀ object ∈ input.objects, object.key ∈ state.objects.keys → object.key ∈ input.previous.map Projection.key
  floors : ∀ kind body, input.previousPublications.get? kind = some body →
    (state.store.get? (floorKey kind)).bind readObjectText = some body
  kinds : ∀ identity ∈ input.identities, ∀ kind, readText identity "kind" = .ok kind →
    floorKey kind ∈ state.store.keys → kind ∈ input.previousPublications.keys

/-- One call, and what is there once its changes are applied. -/
structure Step (state : Scope) (input : ScopeInputs) (next : Scope) : Prop where
  given : Given state input
  result : ∃ publications changes, prepareScopeLookups calendar input = .ok (publications, changes) ∧
    next = { objects := replaceObjects state.objects input.previous input.objects, store := applyEntries state.store changes }

inductive ScopeRun : List ScopeInputs → Scope → Prop
  | start : ScopeRun [] {}
  | call {inputs : List ScopeInputs} {state : Scope} {input : ScopeInputs} {next : Scope} (hrun : ScopeRun inputs state)
      (hstep : Step calendar state input next) : ScopeRun (inputs ++ [input]) next

def storedFloor (store : Store) (kind : String) : Option Rank :=
  ((store.get? (floorKey kind)).bind readObjectText).bind fun body => (readFloor calendar body).toOption

theorem letter_of_indexes {objects : List Projection} {entries : Store} (h : Indexes objects entries) {key : Key}
    (hkey : key ∈ entries.keys) : (ofLex key).1 ≠ publicationType := by
  obtain ⟨body, hget⟩ := SortedMap.mem_keys_iff.1 hkey
  obtain ⟨object, _, groups, hgroups, hgroup, _⟩ := (h.get key body).1 hget
  intro htype
  rw [htype] at hgroup
  have hletter : groupLetter publicationType = some 'y' := by decide
  obtain ⟨_, h | h⟩ | ⟨_, h | h⟩ := groupsOf_letter hgroups hgroup <;> rw [hletter] at h <;> cases h

def floorDifferences (previous publications : Publications) : List (Differences.Change Key String) :=
  (floorChanges previous publications).map Entry.change

theorem mem_floorDifferences {previous publications : Publications} {key : Key} {value : Option String} :
    (key, value) ∈ floorDifferences previous publications ↔
      ∃ kind body, publications.get? kind = some body ∧ (previous.get? kind).map floorText ≠ some (floorText body) ∧
        key = floorKey kind ∧ value = some (floorText body) := by
  simp only [floorDifferences, floorChanges, List.map_map, List.mem_map, List.mem_filter, decide_eq_true_eq,
    Function.comp_apply, Prod.exists]
  constructor
  · rintro ⟨kind, body, ⟨hmem, hne⟩, heq⟩
    cases heq
    exact ⟨kind, body, SortedMap.get?_eq_some_iff.2 hmem, hne, rfl, rfl⟩
  · rintro ⟨kind, body, hget, hne, rfl, rfl⟩
    exact ⟨kind, body, ⟨SortedMap.get?_eq_some_iff.1 hget, hne⟩, rfl⟩

theorem floorDifferences_nodup (previous publications : Publications) :
    ((floorDifferences previous publications).map Prod.fst).Nodup := by
  rw [floorDifferences, floorChanges, List.map_map, List.map_map]
  have hkinds := publications.keys_nodup.sublist ((List.filter_sublist (l := publications.entries)
    (p := fun entry => decide ((previous.get? entry.1).map floorText ≠ some (floorText entry.2)))).map Prod.fst)
  have hinj : Function.Injective floorKey := by
    intro kind kind' h
    exact congrArg (fun key : Key => (ofLex key).2) h
  have hmapped := hkinds.map hinj
  rwa [List.map_map] at hmapped

/-- A call that returned, taken apart. -/
structure Prepared (input : ScopeInputs) (publications : Publications) (changes : List Entry) (before after : Store) :
    Prop where
  hbefore : projectionEntries input.previous = .ok before
  hafter : projectionEntries input.objects = .ok after
  hpublications : input.identities.foldlM (raiseFloor calendar) input.previousPublications = .ok publications
  hchanges : (changes.map Entry.change).Perm
    (Differences.differences before after ++ floorDifferences input.previousPublications publications)

variable {input : ScopeInputs} {publications : Publications} {changes : List Entry}

theorem prepareScopeLookups_prepared
    (h : prepareScopeLookups calendar input = .ok (publications, changes)) :
    ∃ before after, Prepared calendar input publications changes before after := by
  simp only [prepareScopeLookups, Except.bind_eq_ok, Except.ok.injEq, Prod.mk.injEq] at h
  obtain ⟨before, hbefore, after, hafter, _, _, raised, hpublications, rfl, rfl⟩ := h
  refine ⟨before, after, hbefore, hafter, hpublications, ?_⟩
  have hperm := (Sorting.sortByKey_perm Entry.key
    (indexChanges before after ++ floorChanges input.previousPublications raised)).map Entry.change
  rwa [List.map_append, map_change_indexChanges] at hperm

variable {before after : Store}

theorem Prepared.nodup
    (h : Prepared calendar input publications changes before after) : ((changes.map Entry.change).map Prod.fst).Nodup := by
  rw [(h.hchanges.map Prod.fst).nodup_iff, List.map_append, List.nodup_append]
  refine ⟨Differences.differences_nodup before after, floorDifferences_nodup _ _, ?_⟩
  rintro key hindex _ hfloor rfl
  obtain ⟨⟨_, value⟩, hmem, rfl⟩ := List.mem_map.1 hindex
  obtain ⟨⟨other, value'⟩, hmem', hkey⟩ := List.mem_map.1 hfloor
  obtain ⟨kind, body, _, _, hother, _⟩ := mem_floorDifferences.1 hmem'
  have hkeys : ∀ entries objects, Indexes objects entries → floorKey kind ∉ entries.keys :=
    fun entries objects hindexes hmem => letter_of_indexes hindexes hmem rfl
  simp only [hother] at hkey
  subst hkey
  rcases List.mem_append.1 hmem with hmem | hmem
  · obtain ⟨held, _, hget, _⟩ := Differences.mem_written.1 hmem
    exact hkeys after _ (projectionEntries_indexes h.hafter) (SortedMap.mem_keys_of_get? hget)
  · exact hkeys before _ (projectionEntries_indexes h.hbefore) (Differences.mem_removed.1 hmem).2.1

variable {store : Store}

theorem Prepared.get?_index
    (h : Prepared calendar input publications changes before after)
    (hstore : ∀ key body, before.get? key = some body → store.get? key = some body) {key : Key}
    (hkey : (ofLex key).1 ≠ publicationType) :
    (applyEntries store changes).get? key = (after.get? key).or (if before.contains key then none else store.get? key) := by
  refine Differences.get?_applyChanges (h.nodup calendar) hstore fun value => ?_
  rw [h.hchanges.mem_iff, List.mem_append]
  refine or_iff_left fun hmem => ?_
  obtain ⟨kind, _, _, _, rfl, _⟩ := mem_floorDifferences.1 hmem
  exact hkey rfl

theorem Prepared.get?_floor
    (h : Prepared calendar input publications changes before after)
    (hstore : ∀ kind body, input.previousPublications.get? kind = some body →
      store.get? (floorKey kind) = some (floorText body)) (kind : String) :
    (applyEntries store changes).get? (floorKey kind) =
      ((publications.get? kind).map floorText).or (store.get? (floorKey kind)) := by
  have hindex : ∀ value, (floorKey kind, value) ∉ Differences.differences before after := by
    intro value hmem
    rcases List.mem_append.1 hmem with hmem | hmem
    · obtain ⟨held, _, hget, _⟩ := Differences.mem_written.1 hmem
      exact letter_of_indexes (projectionEntries_indexes h.hafter) (SortedMap.mem_keys_of_get? hget) rfl
    · exact letter_of_indexes (projectionEntries_indexes h.hbefore) (Differences.mem_removed.1 hmem).2.1 rfl
  have hmem : ∀ value, (floorKey kind, value) ∈ changes.map Entry.change ↔
      ∃ body, publications.get? kind = some body ∧
        (input.previousPublications.get? kind).map floorText ≠ some (floorText body) ∧ value = some (floorText body) := by
    intro value
    rw [h.hchanges.mem_iff, List.mem_append, or_iff_right (hindex value), mem_floorDifferences]
    constructor
    · rintro ⟨other, body, hget, hne, hkey, hvalue⟩
      have hkind : kind = other := congrArg (fun key : Key => (ofLex key).2) hkey
      exact ⟨body, hkind ▸ hget, hkind ▸ hne, hvalue⟩
    · rintro ⟨body, hget, hne, hvalue⟩
      exact ⟨kind, body, hget, hne, rfl, hvalue⟩
  have hunchanged : (∀ value, (floorKey kind, value) ∉ changes.map Entry.change) →
      (applyEntries store changes).get? (floorKey kind) = store.get? (floorKey kind) := by
    refine fun hnot => Differences.get?_applyChanges_of_not_mem (fun hkey => ?_) store
    obtain ⟨⟨_, value⟩, hvalue, heq⟩ := List.mem_map.1 hkey
    simp only at heq
    subst heq
    exact hnot value hvalue
  cases hheld : publications.get? kind with
  | none =>
      rw [Option.map_none, Option.none_or]
      refine hunchanged fun value hvalue => ?_
      obtain ⟨body, hget, _⟩ := (hmem value).1 hvalue
      cases hheld.symm.trans hget
  | some body =>
      rw [Option.map_some, Option.some_or]
      by_cases hsame : (input.previousPublications.get? kind).map floorText = some (floorText body)
      · obtain ⟨previous, hprevious, htext⟩ := Option.map_eq_some_iff.1 hsame
        rw [hunchanged ?_, hstore kind previous hprevious, htext]
        intro value hvalue
        obtain ⟨other, hget, hne, _⟩ := (hmem value).1 hvalue
        cases hheld.symm.trans hget
        exact hne hsame
      · exact Differences.get?_applyChanges_of_mem (h.nodup calendar) ((hmem _).2 ⟨body, hheld, hsame, rfl⟩) store

/-- The store holds for a kind the greatest publication of some identities, or nothing where they have none. -/
def StoreFloor (store : Store) (identities : List Object) (kind : String) : Prop :=
  (store.get? (floorKey kind) = none ∧ ranksOf calendar identities kind = ∅) ∨
    ∃ given : Publication, given.kind = kind ∧ calendar.readTime given.publishedAt = .ok given.instant ∧
      store.get? (floorKey kind) = some (floorText given.body) ∧ IsGreatest (ranksOf calendar identities kind) given.rank

/-- After any run the store is the index of the objects and the floors of the identities given. -/
structure Kept (identities : List Object) (state : Scope) : Prop where
  index : ∃ index, projectionEntries (listObjects state.objects) = .ok index ∧
    ∀ key, (ofLex key).1 ≠ publicationType → state.store.get? key = index.get? key
  floors : ∀ kind, StoreFloor calendar state.store identities kind

variable {objects : SortedMap Key Object}

theorem mem_listObjects {object : Projection} :
    object ∈ listObjects objects ↔ objects.get? object.key = some object.body := by
  rw [SortedMap.get?_eq_some_iff, listObjects, List.mem_map]
  constructor
  · rintro ⟨entry, hentry, rfl⟩
    exact hentry
  · exact fun h => ⟨_, h, rfl⟩

theorem listObjects_nodup (objects : SortedMap Key Object) : ((listObjects objects).map Projection.key).Nodup := by
  rw [listObjects, List.map_map]
  exact objects.keys_nodup

theorem get?_eraseAll (objects : SortedMap Key Object) (previous : List Projection) (key : Key) :
    (previous.foldl (fun objects object => objects.erase object.key) objects).get? key =
      if key ∈ previous.map Projection.key then none else objects.get? key := by
  induction previous generalizing objects with
  | nil => simp
  | cons object rest ih =>
      rw [List.foldl_cons, ih, SortedMap.get?_erase]
      by_cases hrest : key ∈ rest.map Projection.key
      · simp [hrest]
      · by_cases hkey : key = object.key
        · simp [hkey]
        · simp [hrest, hkey]

theorem mem_listObjects_replace {previous next : List Projection}
    (hnodup : (next.map Projection.key).Nodup)
    (hheld : ∀ object ∈ next, object.key ∈ objects.keys → object.key ∈ previous.map Projection.key) {object : Projection} :
    object ∈ listObjects (replaceObjects objects previous next) ↔
      object ∈ next ∨ object ∈ listObjects objects ∧ object.key ∉ previous.map Projection.key := by
  rw [mem_listObjects, mem_listObjects, replaceObjects, SortedMap.get?_extend, get?_eraseAll]
  have hkeys : ((next.map fun object => (object.key, object.body)).reverse.map Prod.fst).Nodup := by
    rw [List.map_reverse, List.map_map]
    exact List.nodup_reverse.2 hnodup
  have hlookup : ∀ body, IndexMap.lookupEntry object.key (next.map fun object => (object.key, object.body)).reverse = some body ↔
      (object.key, body) ∈ next.map fun object => (object.key, object.body) := by
    intro body
    rw [← List.mem_reverse]
    exact ⟨IndexMap.lookupEntry_eq_some, IndexMap.lookupEntry_of_mem hkeys⟩
  have hmem : (object.key, object.body) ∈ next.map (fun object => (object.key, object.body)) ↔ object ∈ next := by
    rw [List.mem_map]
    constructor
    · rintro ⟨other, hother, heq⟩
      obtain ⟨hkey, hbody⟩ := Prod.mk.inj heq
      have hsame : other = object := by
        cases other
        cases object
        cases hkey
        cases hbody
        rfl
      exact hsame ▸ hother
    · exact fun h => ⟨object, h, rfl⟩
  cases hnext : IndexMap.lookupEntry object.key (next.map fun object => (object.key, object.body)).reverse with
  | some body =>
      rw [Option.some_or, ← hnext, hlookup, hmem]
      refine (or_iff_left ?_).symm
      rintro ⟨hold, hnot⟩
      obtain ⟨other, hother, heq⟩ := List.mem_map.1 ((hlookup body).1 hnext)
      obtain ⟨hkey, _⟩ := Prod.mk.inj heq
      have hin := hheld other hother (hkey ▸ SortedMap.mem_keys_of_get? hold)
      exact hnot (hkey ▸ hin)
  | none =>
      have hnot : object ∉ next := by
        intro hin
        have hsome := (hlookup object.body).2 (hmem.2 hin)
        rw [hnext] at hsome
        cases hsome
      rw [Option.none_or, or_iff_right hnot]
      split_ifs with hprevious
      · simp [hprevious]
      · simp [hprevious]

variable {identities : List Object}

variable {state : Scope}

theorem Kept.get?_before {before : Store}
    (hkept : Kept calendar identities state) (hgiven : Given state input) (hbefore : Indexes input.previous before)
    (key : Key) (body : String) (hget : before.get? key = some body) : state.store.get? key = some body := by
  obtain ⟨index, hindex, hstored⟩ := hkept.index
  obtain ⟨object, hobject, hlists⟩ := (hbefore.get key body).1 hget
  rw [hstored key (letter_of_indexes hbefore (SortedMap.mem_keys_of_get? hget)),
    (projectionEntries_indexes hindex).get]
  exact ⟨object, mem_listObjects.2 (hgiven.previous object hobject), hlists⟩

/-- The index of the objects after a call, from the index before it and those of the objects the call was given. -/
theorem get?_indexes {index before after index' : Store}
    (hprevious : ∀ object ∈ input.previous, objects.get? object.key = some object.body)
    (hheld : ∀ object ∈ input.objects, object.key ∈ objects.keys → object.key ∈ input.previous.map Projection.key)
    (hindex : Indexes (listObjects objects) index) (hbefore : Indexes input.previous before)
    (hafter : Indexes input.objects after)
    (hnext : Indexes (listObjects (replaceObjects objects input.previous input.objects)) index') (key : Key) :
    index'.get? key = (after.get? key).or (if before.contains key then none else index.get? key) := by
  have hmem : ∀ object, object ∈ listObjects (replaceObjects objects input.previous input.objects) ↔
      object ∈ input.objects ∨ object ∈ listObjects objects ∧ object.key ∉ input.previous.map Projection.key :=
    fun _ => mem_listObjects_replace hafter.nodup hheld
  have hlisted : ∀ object ∈ input.previous, ∀ body, Lists object key body → before.contains key = true :=
    fun object hobject body hlists => SortedMap.contains_iff.2
      (SortedMap.mem_keys_of_get? ((hbefore.get key body).2 ⟨object, hobject, hlists⟩))
  refine Option.ext fun body => ?_
  show index'.get? key = some body ↔ _ = some body
  rw [hnext.get]
  constructor
  · rintro ⟨object, hobject, hlists⟩
    rcases (hmem object).1 hobject with hobject | ⟨hobject, hnot⟩
    · rw [(hafter.get key body).2 ⟨object, hobject, hlists⟩, Option.some_or]
    · have hnone : after.get? key = none := by
        refine Option.eq_none_iff_forall_ne_some.2 fun other hother => ?_
        obtain ⟨object', hobject', hlists'⟩ := (hafter.get key other).1 hother
        have hkey := key_eq_of_lists hlists' hlists
        have hin := hheld object' hobject' (hkey ▸ SortedMap.mem_keys_of_get? (mem_listObjects.1 hobject))
        exact hnot (hkey ▸ hin)
      have hbeforeNot : before.contains key ≠ true := by
        intro hcontains
        obtain ⟨other, hother⟩ := SortedMap.mem_keys_iff.1 (SortedMap.contains_iff.1 hcontains)
        obtain ⟨object', hobject', hlists'⟩ := (hbefore.get key other).1 hother
        exact hnot (List.mem_map.2 ⟨object', hobject', key_eq_of_lists hlists' hlists⟩)
      rw [hnone, Option.none_or, if_neg hbeforeNot, hindex.get]
      exact ⟨object, hobject, hlists⟩
  · intro hbody
    cases hget : after.get? key with
    | some other =>
        rw [hget, Option.some_or] at hbody
        obtain ⟨object, hobject, hlists⟩ := (hafter.get key body).1 (hget.trans hbody)
        exact ⟨object, (hmem object).2 (.inl hobject), hlists⟩
    | none =>
        rw [hget, Option.none_or] at hbody
        split_ifs at hbody with hcontains
        obtain ⟨object, hobject, hlists⟩ := (hindex.get key body).1 hbody
        refine ⟨object, (hmem object).2 (.inr ⟨hobject, fun hin => hcontains ?_⟩), hlists⟩
        obtain ⟨object', hobject', hkey⟩ := List.mem_map.1 hin
        have hsame : object' = object := by
          have hbodies := (hkey ▸ hprevious object' hobject').symm.trans (mem_listObjects.1 hobject)
          obtain ⟨_, _, _⟩ := object
          obtain ⟨_, _, _⟩ := object'
          cases hkey
          cases hbodies
          rfl
        exact hlisted object' hobject' body (hsame ▸ hlists)

theorem Kept.index_step
    (hkept : Kept calendar identities state)
    (hgiven : Given state input) (hprepared : Prepared calendar input publications changes before after) :
    ∃ index, projectionEntries (listObjects (replaceObjects state.objects input.previous input.objects)) = .ok index ∧
      ∀ key, (ofLex key).1 ≠ publicationType → (applyEntries state.store changes).get? key = index.get? key := by
  obtain ⟨index, hindex, hstored⟩ := hkept.index
  have hold := projectionEntries_indexes hindex
  have hbefore := projectionEntries_indexes hprepared.hbefore
  have hafter := projectionEntries_indexes hprepared.hafter
  obtain ⟨index', hindex'⟩ := exists_projectionEntries
    (listObjects_nodup (replaceObjects state.objects input.previous input.objects)) (fun object hobject => by
      rcases (mem_listObjects_replace hafter.nodup hgiven.held).1 hobject with hobject | ⟨hobject, _⟩
      · exact hafter.valid object hobject
      · exact hold.valid object hobject)
  refine ⟨index', hindex', fun key hkey => ?_⟩
  rw [hprepared.get?_index calendar (hkept.get?_before calendar hgiven hbefore) hkey, hstored key hkey]
  exact (get?_indexes hgiven.previous hgiven.held hold hbefore hafter (projectionEntries_indexes hindex') key).symm

theorem StoreFloor.floorOf {kind : String} {body : Object}
    (h : StoreFloor calendar store identities kind) (hbody : (store.get? (floorKey kind)).bind readObjectText = some body) :
    FloorOf calendar kind (ranksOf calendar identities kind) (some body) ∧
      store.get? (floorKey kind) = some (floorText body) := by
  obtain ⟨hnone, _⟩ | ⟨given, hkind, htime, hget, hgreatest⟩ := h
  · rw [hnone] at hbody
    cases hbody
  · have hread := Records.readObjectText_writeSortedJson (body_valid given)
    rw [hget, Option.bind_some] at hbody
    have hnormal : body = Object.normal given.body := Option.some.inj (hbody.symm.trans hread)
    refine ⟨⟨given, hkind, htime, .inr hnormal, hgreatest⟩, ?_⟩
    rw [hget, floorText_body (.inr hnormal)]

theorem Kept.floors_step
    (hkept : Kept calendar identities state)
    (hgiven : Given state input) (hprepared : Prepared calendar input publications changes before after) (kind : String) :
    StoreFloor calendar (applyEntries state.store changes) (identities ++ input.identities) kind := by
  have hstore := fun kind body hget =>
    ((hkept.floors kind).floorOf calendar (hgiven.floors kind body hget)).2
  rw [StoreFloor, hprepared.get?_floor calendar hstore kind, ranksOf_append]
  cases hprevious : input.previousPublications.get? kind with
  | some body =>
      obtain ⟨hfloor, hget⟩ := (hkept.floors kind).floorOf calendar (hgiven.floors kind body hprevious)
      have hraised := foldlM_raiseFloor calendar hprepared.hpublications (hprevious ▸ hfloor)
      cases hpublished : publications.get? kind with
      | none =>
          rw [hpublished] at hraised
          obtain ⟨given, _, _, _, hgreatest⟩ := hfloor
          exact absurd (.inl hgreatest.1) (Set.eq_empty_iff_forall_notMem.1 hraised given.rank)
      | some raised =>
          rw [hpublished] at hraised
          obtain ⟨given, hkind, htime, hbody, hgreatest⟩ := hraised
          refine .inr ⟨given, hkind, htime, ?_, hgreatest⟩
          rw [Option.map_some, Option.some_or, floorText_body hbody]
  | none =>
      have hfloor : FloorOf calendar kind ∅ (input.previousPublications.get? kind) := by
        rw [hprevious]
        rfl
      have hraised := foldlM_raiseFloor calendar hprepared.hpublications hfloor
      rw [Set.empty_union] at hraised
      obtain ⟨hnone, hempty⟩ | ⟨given, hkind, htime, hget, hgreatest⟩ := hkept.floors kind
      · rw [hnone, hempty, Set.empty_union, Option.or_none]
        cases hpublished : publications.get? kind with
        | none =>
            rw [hpublished] at hraised
            exact .inl ⟨rfl, hraised⟩
        | some raised =>
            rw [hpublished] at hraised
            obtain ⟨given, hkind, htime, hbody, hgreatest⟩ := hraised
            exact .inr ⟨given, hkind, htime, by rw [Option.map_some, floorText_body hbody], hgreatest⟩
      · -- The store has a floor of this kind and the call was not given it: it publishes none.
        have hempty : ranksOf calendar input.identities kind = ∅ := by
          refine Set.eq_empty_iff_forall_notMem.2 ?_
          rintro _ ⟨identity, hidentity, read, hread, hreadKind, _⟩
          have htext : readText identity "kind" = .ok kind := by
            simp only [readPublication, Except.bind_eq_ok, Except.ok.injEq] at hread
            obtain ⟨_, htext, _, _, _, _, _, _, rfl⟩ := hread
            rw [htext, ← hreadKind]
          have hkeys := hgiven.kinds identity hidentity kind htext (SortedMap.mem_keys_of_get? hget)
          obtain ⟨body, hbody⟩ := SortedMap.mem_keys_iff.1 hkeys
          rw [hprevious] at hbody
          cases hbody
        rw [hempty] at hraised ⊢
        rw [Set.union_empty]
        cases hpublished : publications.get? kind with
        | none => exact .inr ⟨given, hkind, htime, by rw [Option.map_none, Option.none_or, hget], hgreatest⟩
        | some raised =>
            rw [hpublished] at hraised
            obtain ⟨_, _, _, _, hmember, _⟩ := hraised
            cases hmember

theorem Kept.step {identities : List Object} {state : Scope} {input : ScopeInputs} {next : Scope}
    (hkept : Kept calendar identities state) (hstep : Step calendar state input next) :
    Kept calendar (identities ++ input.identities) next := by
  obtain ⟨publications, changes, hok, rfl⟩ := hstep.result
  obtain ⟨before, after, hprepared⟩ := prepareScopeLookups_prepared calendar hok
  exact ⟨hkept.index_step calendar hstep.given hprepared, hkept.floors_step calendar hstep.given hprepared⟩

theorem kept_start : Kept calendar [] {} := by
  refine ⟨⟨.empty, rfl, fun _ _ => rfl⟩, fun kind => .inl ⟨rfl, ranksOf_nil calendar kind⟩⟩

def givenIdentities (inputs : List ScopeInputs) : List Object := inputs.flatMap ScopeInputs.identities

theorem ScopeRun.kept {inputs : List ScopeInputs} {state : Scope} (hrun : ScopeRun calendar inputs state) :
    Kept calendar (givenIdentities inputs) state := by
  induction hrun with
  | start => exact kept_start calendar
  | call _ hstep ih =>
      rw [givenIdentities, List.flatMap_append, List.flatMap_singleton]
      exact ih.step calendar hstep

theorem StoreFloor.eq_some_iff {kind : String}
    (h : StoreFloor calendar store identities kind) (rank : Rank) :
    storedFloor calendar store kind = some rank ↔ IsGreatest (ranksOf calendar identities kind) rank := by
  obtain ⟨hnone, hempty⟩ | ⟨given, hkind, htime, hget, hgreatest⟩ := h
  · simp [storedFloor, hnone, hempty, IsGreatest]
  · have hfloor : storedFloor calendar store kind = some given.rank := by
      have hread : readObjectText (floorText given.body) = some (Object.normal given.body) :=
        Records.readObjectText_writeSortedJson (body_valid given)
      rw [storedFloor, hget, Option.bind_some, hread, Option.bind_some, readFloor_body calendar htime (.inr rfl)]
      rfl
    rw [hfloor, Option.some.injEq]
    exact ⟨fun heq => heq ▸ hgreatest, fun hrank => hgreatest.unique hrank⟩

theorem ranksOf_congr {identities identities' : List Object} (h : ∀ identity, identity ∈ identities ↔ identity ∈ identities')
    (kind : String) : ranksOf calendar identities kind = ranksOf calendar identities' kind := by
  ext rank
  simp only [ranksOf, h]

theorem ScopeRun.read {inputs : List ScopeInputs} {state : Scope} (hrun : ScopeRun calendar inputs state) :
    ∀ identity ∈ givenIdentities inputs, ∃ given, readPublication calendar identity = .ok given := by
  induction hrun with
  | start => exact fun _ h => (nomatch h)
  | call _ hstep ih =>
      intro identity hidentity
      rw [givenIdentities, List.flatMap_append, List.flatMap_singleton] at hidentity
      rcases List.mem_append.1 hidentity with hidentity | hidentity
      · exact ih identity hidentity
      · obtain ⟨_, _, hok, _⟩ := hstep.result
        obtain ⟨_, _, hprepared⟩ := prepareScopeLookups_prepared calendar hok
        exact foldlM_raiseFloor_read calendar hprepared.hpublications identity hidentity

theorem StoreFloor.eq_none_iff {kind : String}
    (h : StoreFloor calendar store identities kind) :
    storedFloor calendar store kind = none ↔ ranksOf calendar identities kind = ∅ := by
  obtain ⟨hnone, hempty⟩ | ⟨given, hkind, htime, hget, hgreatest⟩ := id h
  · simp [storedFloor, hnone, hempty]
  · rw [(h.eq_some_iff calendar given.rank).2 hgreatest]
    refine ⟨fun hnone => (nomatch hnone), fun hempty => ?_⟩
    exact absurd hgreatest.1 (Set.eq_empty_iff_forall_notMem.1 hempty given.rank)

theorem Kept.call {identities : List Object} {state : Scope} {input : ScopeInputs} {next : Scope}
    (hkept : Kept calendar identities state) (hstep : Step calendar state input next) :
    ∃ before after, projectionEntries input.previous = .ok before ∧ projectionEntries input.objects = .ok after ∧
      ∀ key, (ofLex key).1 ≠ publicationType →
        next.store.get? key = (after.get? key).or (if before.contains key then none else state.store.get? key) := by
  obtain ⟨publications, changes, hok, rfl⟩ := hstep.result
  obtain ⟨before, after, hprepared⟩ := prepareScopeLookups_prepared calendar hok
  refine ⟨before, after, hprepared.hbefore, hprepared.hafter, fun key hkey => ?_⟩
  exact hprepared.get?_index calendar
    (hkept.get?_before calendar hstep.given (projectionEntries_indexes hprepared.hbefore)) hkey

theorem Kept.floor_le {next : Scope}
    (hkept : Kept calendar identities state) (hstep : Step calendar state input next) {kind : String} {floor : Rank}
    (hfloor : storedFloor calendar state.store kind = some floor) :
    ∃ floor', storedFloor calendar next.store kind = some floor' ∧ floor ≤ floor' := by
  have hgreatest := ((hkept.floors kind).eq_some_iff calendar floor).1 hfloor
  have hmember : floor ∈ ranksOf calendar (identities ++ input.identities) kind := by
    rw [ranksOf_append]
    exact .inl hgreatest.1
  have hnext := (hkept.step calendar hstep).floors kind
  obtain ⟨_, hempty⟩ | ⟨given, _, _, _, hgreatest'⟩ := id hnext
  · exact absurd hmember (Set.eq_empty_iff_forall_notMem.1 hempty floor)
  · exact ⟨given.rank, (hnext.eq_some_iff calendar _).2 hgreatest', hgreatest'.2 hmember⟩

/-- Whatever the calls, the store holds the index of the objects there are and the greatest publication of each kind. -/
theorem scope_lookups_exact {inputs : List ScopeInputs} {state : Scope} (hrun : ScopeRun calendar inputs state) :
    (∃ index, projectionEntries (listObjects state.objects) = .ok index ∧
      ∀ key, (ofLex key).1 ≠ publicationType → state.store.get? key = index.get? key) ∧
    (∀ identity ∈ givenIdentities inputs, ∃ given, readPublication calendar identity = .ok given) ∧
    (∀ kind, (∀ rank, storedFloor calendar state.store kind = some rank ↔
        IsGreatest (ranksOf calendar (givenIdentities inputs) kind) rank) ∧
      (storedFloor calendar state.store kind = none ↔ ranksOf calendar (givenIdentities inputs) kind = ∅)) ∧
    (∀ input next, Step calendar state input next →
      (∃ before after, projectionEntries input.previous = .ok before ∧ projectionEntries input.objects = .ok after ∧
        ∀ key, (ofLex key).1 ≠ publicationType →
          next.store.get? key = (after.get? key).or (if before.contains key then none else state.store.get? key)) ∧
      ∀ kind floor, storedFloor calendar state.store kind = some floor →
        ∃ floor', storedFloor calendar next.store kind = some floor' ∧ floor ≤ floor') ∧
    ∀ inputs' state', ScopeRun calendar inputs' state' →
      (∀ identity, identity ∈ givenIdentities inputs ↔ identity ∈ givenIdentities inputs') →
      ∀ kind, storedFloor calendar state.store kind = storedFloor calendar state'.store kind := by
  have hkept := hrun.kept
  refine ⟨hkept.index, hrun.read, fun kind => ⟨(hkept.floors kind).eq_some_iff calendar, ?_⟩, ?_, ?_⟩
  · exact (hkept.floors kind).eq_none_iff calendar
  · exact fun input next hstep => ⟨hkept.call calendar hstep, fun kind floor => hkept.floor_le calendar hstep⟩
  · intro inputs' state' hrun' hsame kind
    refine Option.ext fun rank => ?_
    show storedFloor calendar state.store kind = some rank ↔ storedFloor calendar state'.store kind = some rank
    rw [(hkept.floors kind).eq_some_iff, (hrun'.kept.floors kind).eq_some_iff, ranksOf_congr calendar hsame]

def callScope (state : Scope) (input : ScopeInputs) : Option Scope :=
  (prepareScopeLookups calendar input).toOption.map fun result =>
    { objects := replaceObjects state.objects input.previous input.objects, store := applyEntries state.store result.2 }

theorem step_of_callScope {state next : Scope} (hgiven : Given state input)
    (h : callScope calendar state input = some next) : Step calendar state input next := by
  obtain ⟨⟨publications, changes⟩, hok, rfl⟩ := Option.map_eq_some_iff.1 h
  refine ⟨hgiven, publications, changes, ?_, rfl⟩
  cases hresult : prepareScopeLookups calendar input with
  | error fail =>
      rw [hresult] at hok
      cases hok
  | ok result =>
      rw [hresult] at hok
      cases hok
      rfl

def sampleCalendar : Calendar := .ofTable [("2026-01-01T00:00:00+00:00", 1), ("2026-01-02T00:00:00+00:00", 2)]

def sampleLink (target : String) : Projection where
  recordType := "relationship"
  id := "l"
  body := .ofList [("relationship_id", .str "l"), ("source_id", .str "a"), ("target_id", .str target)]

def sampleIdentity (id publishedAt : String) : Object :=
  .ofList [("kind", .str "company"), ("entity_id", .str id), ("published_at", .str publishedAt)]

def firstCall : ScopeInputs where
  previous := []
  objects := [sampleLink "b"]
  identities := [sampleIdentity "a" "2026-01-02T00:00:00+00:00"]
  previousPublications := .empty

def secondCall : ScopeInputs where
  previous := [sampleLink "b"]
  objects := [sampleLink "c"]
  identities := [sampleIdentity "d" "2026-01-02T00:00:00+00:00", sampleIdentity "c" "2026-01-01T00:00:00+00:00"]
  previousPublications := .ofList [("company", Object.normal (sampleIdentity "a" "2026-01-02T00:00:00+00:00"))]

theorem first_given : Given {} firstCall where
  previous := fun _ h => (nomatch h)
  held := fun _ _ h => (nomatch h)
  floors := fun _ _ h => (nomatch h)
  kinds := fun _ _ _ _ h => (nomatch h)

theorem second_given (h : callScope sampleCalendar {} firstCall = some state) : Given state secondCall := by
  cases h
  refine ⟨by decide +kernel, by decide +kernel, fun kind body hbody => ?_, fun identity hidentity kind hkind _ => ?_⟩
  · have hmem := SortedMap.get?_eq_some_iff.1 hbody
    have hkind : kind = "company" ∧ body = Object.normal (sampleIdentity "a" "2026-01-02T00:00:00+00:00") :=
      Prod.mk.inj (List.mem_singleton.1 hmem)
    obtain ⟨rfl, rfl⟩ := hkind
    decide +kernel
  · have hcompany : ∀ identity ∈ secondCall.identities, readText identity "kind" = .ok "company" := by decide +kernel
    cases (hcompany identity hidentity).symm.trans hkind
    decide

/-- Of two identities published at one time the floor is the one with the greater id. -/
theorem scope_lookups_exact_sample : ∃ state, ScopeRun sampleCalendar [firstCall, secondCall] state ∧
    IsGreatest (ranksOf sampleCalendar (givenIdentities [firstCall, secondCall]) "company") (toLex (2, "d")) := by
  obtain ⟨state, next, hfirst, hsecond, hfloor⟩ : ∃ state next, callScope sampleCalendar {} firstCall = some state ∧
      callScope sampleCalendar state secondCall = some next ∧
      storedFloor sampleCalendar next.store "company" = some (toLex (2, "d")) := ⟨_, _, rfl, rfl, by decide +kernel⟩
  have hrun : ScopeRun sampleCalendar [firstCall, secondCall] next :=
    .call (.call .start (step_of_callScope sampleCalendar first_given hfirst))
      (step_of_callScope sampleCalendar (second_given hfirst) hsecond)
  obtain ⟨_, _, hfloors, _⟩ := scope_lookups_exact sampleCalendar hrun
  exact ⟨next, hrun, ((hfloors "company").1 _).1 hfloor⟩

end EdgarPlatform.Lookups
