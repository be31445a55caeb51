import EdgarPlatform.Mastering.Storing

/-!
# The masters the tables name

A file names no master but those the tables name, those its merges keep and those it creates. So what holds of every master the tables name and of every new one holds of every master the tables name after any file. Its rows of masters are those that were there, and rows written under the number of the file.
-/

namespace EdgarPlatform.Mastering

open Records (Json Object readText)

variable {env : Env} {settings : Settings} {holds : String → Prop} {db : Tables}

structure Tables.Names (holds : String → Prop) (db : Tables) : Prop where
  masters : ∀ entity ∈ db.masters.keys, holds entity
  bound : ∀ subject entity, Bound db subject entity → holds entity
  identifiers : ∀ held ∈ db.identifiers, holds held.2.2

theorem Tables.Names.of_core {db' : Tables} (h : db.Names holds) (hcore : db'.core = db.core) : db'.Names holds := by
  refine ⟨?_, ?_, ?_⟩
  · rw [masters_of_core hcore]
    exact h.masters
  · intro subject entity hbound
    rw [Bound, records_of_core hcore] at hbound
    exact h.bound subject entity hbound
  · rw [identifiers_of_core hcore]
    exact h.identifiers

theorem resolve_holds {moved : IndexMap String String} (hmoved : ∀ x y, moved.get? x = some y → holds y) {x : String}
    (hx : holds x) : holds (Matching.resolve moved x) := by
  obtain hself | ⟨y, hy⟩ := Matching.resolveLoop_cases moved (moved.size + 1) x
  · rw [Matching.resolve, hself]
    exact hx
  · exact hmoved y _ hy

variable {fileNo : Nat}

theorem consolidate_holds {kind : String} {s s' : Merging} {decision : Object}
    (hmoved : ∀ x y, s.moved.get? x = some y → holds y)
    (hdecision : ∀ kept other, Matching.MergesInto decision kept other → holds kept ∧ holds other)
    (h : consolidate env kind fileNo s decision = .ok s') : ∀ x y, s'.moved.get? x = some y → holds y := by
  obtain rfl | ⟨id, left, right, hmerges, _, rfl⟩ := consolidate_eq_ok h
  · exact hmoved
  · intro x y hxy
    rw [mergePair_moved, IndexMap.get?_insert] at hxy
    split_ifs at hxy
    · obtain ⟨hleft, hright⟩ := hdecision left right hmerges
      rw [← Option.some_inj.1 hxy]
      obtain heq | heq := keptOf_cases s.db (Matching.resolve s.moved left) (Matching.resolve s.moved right)
      · rw [heq]
        exact resolve_holds hmoved hleft
      · rw [heq]
        exact resolve_holds hmoved hright
    · exact hmoved x y hxy

theorem Merging.Of.keys {kind : String} {s : Merging} (h : Merging.Of env kind fileNo db s) (entity : String) :
    entity ∈ s.db.masters.keys ↔ entity ∈ db.masters.keys := by
  rw [← not_iff_not, ← IndexMap.get?_eq_none_iff, ← IndexMap.get?_eq_none_iff, h.masters]
  cases s.moved.get? entity with
  | none => rfl
  | some keep => exact Option.map_eq_none_iff

theorem Merging.Of.bound {kind : String} {fileNo : Nat} {s : Merging} (h : Merging.Of env kind fileNo db s) {subject entity : String} :
    Bound s.db subject entity ↔ ∃ before, Bound db subject before ∧ Matching.resolve s.moved before = entity := by
  have hmem : ∀ row, row ∈ s.db.records.values ↔ ∃ old ∈ db.records.values, old.moved s.moved = row := by
    intro row
    rw [h.records]
    simp only [IndexMap.mem_values_iff, IndexMap.get?_mapValues, Option.map_eq_some_iff]
    constructor
    · rintro ⟨assertion, old, hold, heq⟩
      exact ⟨old, ⟨assertion, hold⟩, heq⟩
    · rintro ⟨old, ⟨assertion, hold⟩, heq⟩
      exact ⟨assertion, old, hold, heq⟩
  simp only [Bound, hmem]
  constructor
  · rintro ⟨_, ⟨old, hold, rfl⟩, hsubject, hentity⟩
    obtain ⟨before, hbefore, heq⟩ := Option.map_eq_some_iff.1 hentity
    exact ⟨before, ⟨old, hold, hsubject, hbefore⟩, heq⟩
  · rintro ⟨before, ⟨old, hold, hsubject, hbefore⟩, rfl⟩
    exact ⟨old.moved s.moved, ⟨old, hold, rfl⟩, hsubject, by rw [RecordRow.moved, hbefore]; rfl⟩

theorem Merging.Of.names {kind : String} {s : Merging} (h : Merging.Of env kind fileNo db s)
    (hmoved : ∀ x y, s.moved.get? x = some y → holds y) (hdb : db.Names holds) : s.db.Names holds where
  masters := fun entity hentity => hdb.masters entity ((h.keys entity).1 hentity)
  bound := by
    intro subject entity hbound
    obtain ⟨before, hbefore, rfl⟩ := h.bound.1 hbound
    exact resolve_holds hmoved (hdb.bound subject before hbefore)
  identifiers := by
    intro held hheld
    obtain ⟨other, hother, heq⟩ := (h.identifiers held).1 hheld
    rw [← heq]
    exact resolve_holds hmoved (hdb.identifiers _ hother)

/-- A file's decisions are about masters the tables name, masters its records are bound to and new ones. -/
theorem Decided.only {records : List Object} {bound : IndexMap String String} {decided : List Object}
    (h : Decided env settings db records bound decided) (hdb : db.Names holds)
    (hbound : ∀ subject entity, bound.get? subject = some entity → holds entity) (hnew : ∀ n, holds (env.newId n)) :
    (∀ body ∈ decided, ∀ entity, Matching.BindsTo body entity → holds entity) ∧
      ∀ body ∈ decided, ∀ kept other, Matching.MergesInto body kept other → holds kept ∧ holds other := by
  obtain rfl | ⟨plan, made, hplan, hmade, rfl⟩ := h
  · exact ⟨fun _ hbody => (by cases hbody), fun _ hbody => (by cases hbody)⟩
  · refine Matching.link_names hmade ?_ ?_
    · rintro x ⟨holder, hholder, hx⟩
      obtain hfound | hcaller := List.mem_append.1 hholder
      · obtain ⟨entry, hentry, rfl⟩ := List.mem_map.1 hfound
        have hholds : Matching.Holds (holdersOf env db settings.kind (plan.applicable.values.flatten.map Matching.Match.key)) entry.1 x :=
          ⟨entry.2, IndexMap.get?_eq_some_iff.2 hentry, hx⟩
        exact hdb.identifiers _ (holds_holdersOf.1 hholds).2
      · obtain ⟨subject, hsubject⟩ := Matching.planRecordMatches_holders hplan rfl holder hcaller x hx
        have hmem : (subject, x) ∈ bound.entries := by
          have hget := SortedMap.get?_eq_some_iff.2 hsubject
          rw [planInputs, SortedMap.get?_ofList] at hget
          exact List.mem_reverse.1 (IndexMap.lookupEntry_eq_some hget)
        exact hbound subject x (IndexMap.get?_eq_some_iff.2 hmem)
    · intro x hx
      obtain ⟨n, _, rfl⟩ := List.mem_map.1 hx
      exact hnew n

theorem Matched.Of.moved_holds {bound : IndexMap String String} {decided : List Object} {merging : Merging} {m : Matched}
    (h : Matched.Of env settings fileNo db bound decided merging m)
    (hmerges : ∀ body ∈ decided, ∀ kept other, Matching.MergesInto body kept other → holds kept ∧ holds other) :
    ∀ x y, merging.moved.get? x = some y → holds y := by
  refine Runs.run_invariant (fun _ (mid : Merging) => ∀ x y, mid.moved.get? x = some y → holds y) h.merged
    (fun _ _ hxy => by cases hxy) ?_
  intro front body back mid next hsplit hmid hstep
  refine consolidate_holds hmid (hmerges body ?_) hstep
  rw [hsplit]
  exact List.mem_append_right _ List.mem_cons_self

/-- The masters a file has found before it is stored. -/
structure Passage.Names (env : Env) (holds : String → Prop) (p : Passage) : Prop where
  tables : (p.reviewed env).Names holds
  bound : ∀ subject entity, (p.bound env).get? subject = some entity → holds entity
  named : ∀ subject entity, (p.named env).get? subject = some entity → holds entity
  survivors : ∀ entity ∈ p.matched.survivors, holds entity

theorem addIdentifiers_names {rows : List Held} (hdb : db.Names holds) (hrows : ∀ row ∈ rows, holds row.2.2) :
    (addIdentifiers db rows).Names holds where
  masters := hdb.masters
  bound := hdb.bound
  identifiers := fun held hheld => (mem_addRows.1 hheld).elim (hdb.identifiers held) (hrows held)

variable {p : Passage}

/-- What holds of every master some stored row or known subject is bound to, after the merges, holds of every master a file finds. -/
theorem Passage.Of.leads {delivery : Delivery} (h : p.Of env settings db delivery)
    (hrows : ∀ subject entity, Bound p.matched.db subject entity → holds entity)
    (hbound : ∀ subject entity, p.matched.bound.get? subject = some entity → holds entity) :
    (∀ subject entity, (p.bound env).get? subject = some entity → holds entity) ∧
      ∀ subject entity, (p.named env).get? subject = some entity → holds entity := by
  have hnaming := naming_of h.naming
  have hnamingBound : ∀ subject entity, p.naming.bound.get? subject = some entity → holds entity := fun subject entity hsome =>
    (hnaming.grown subject entity hsome).elim (hbound subject entity) (hrows subject entity)
  have hnamingNamed : ∀ subject entity, p.naming.named.get? subject = some entity → holds entity := fun subject entity hsome =>
    (hnaming.holder subject entity hsome).elim fun holder => hnamingBound holder entity
  have hknown : ∀ subject entity, p.known.get? subject = some entity → holds entity := by
    intro subject entity hsome
    obtain hnamed | hbound := IndexMap.get?_extend_cases hsome
    · exact hnamingNamed subject entity (IndexMap.get?_eq_some_iff.2 hnamed)
    · exact hnamingBound subject entity hbound
  have hexact : ∀ subject entity, (p.exact env).2.get? subject = some entity → holds entity := by
    intro subject entity hsome
    obtain ⟨holder, hbound | hstored⟩ := ((matchExactNames_of env p.compared p.stage p.exactRules p.known).2 subject entity hsome).holder
    · exact hknown holder entity hbound
    · exact hrows holder entity hstored
  refine ⟨fun subject entity hsome => ?_, fun subject entity hsome => ?_⟩
  · obtain hnew | hold := IndexMap.get?_extend_cases hsome
    · exact hexact subject entity (IndexMap.get?_eq_some_iff.2 hnew)
    · exact hknown subject entity hold
  · obtain hnew | hold := IndexMap.get?_extend_cases hsome
    · exact hexact subject entity (IndexMap.get?_eq_some_iff.2 hnew)
    · exact hnamingNamed subject entity hold

theorem Passage.named_of_compared {subject entity : String} (h : p.naming.named.get? subject = some entity) :
    (p.named env).get? subject = some entity := by
  rw [Passage.named, IndexMap.get?_extend_of_not_mem]
  · exact h
  · intro hmem
    obtain ⟨other, hother⟩ := IndexMap.mem_keys_iff.1 (show subject ∈ (p.exact env).2.keys from hmem)
    have hfree := ((matchExactNames_of env p.compared p.stage p.exactRules p.known).2 subject other hother).free
    rw [IndexMap.get?_eq_none_iff, Passage.known, IndexMap.mem_keys_extend] at hfree
    exact hfree (.inr (List.mem_map.2 ⟨(subject, entity), IndexMap.get?_eq_some_iff.1 h, rfl⟩))

theorem mem_compared {held : Held} (h : held ∈ p.compared.identifiers) :
    held ∈ p.matched.db.identifiers ∨ ∃ subject, (p.named env).get? subject = some held.2.2 := by
  obtain hold | hnew := mem_addRows.1 h
  · exact .inl hold
  · obtain ⟨entry, hentry, hsome⟩ := List.mem_filterMap.1 hnew
    obtain ⟨lei, _, rfl⟩ := Option.map_eq_some_iff.1 hsome
    exact .inr ⟨entry.1, Passage.named_of_compared (IndexMap.get?_eq_some_iff.2 hentry)⟩

theorem Passage.Of.names {delivery : Delivery} (h : p.Of env settings db delivery) (hdb : db.Names holds)
    (hnew : ∀ n, holds (env.newId n)) : p.Names env holds := by
  have hkeyed : (withNameKeys db p.stage).Names holds := ⟨hdb.masters, hdb.bound, hdb.identifiers⟩
  obtain ⟨decided, merging, hmatched, hdecided⟩ := matchIdentifiers_of h.matched
  obtain ⟨hbinds, hmerges⟩ := (decisionsOf_decided hdecided).only hkeyed
    (fun subject entity hsome => hkeyed.bound subject entity (bound_of_boundOf hsome).2) hnew
  have hmoved := hmatched.moved_holds hmerges
  have hof := merging_of hmatched.merged
  have hmatchedNames : p.matched.db.Names holds := (hof.names hmoved hkeyed).of_core hmatched.core
  obtain ⟨hbound, hnamed⟩ := h.leads hmatchedNames.bound fun subject entity hsome => by
    obtain ⟨before, rfl, hbefore | ⟨body, hbody, hbindsTo, _⟩⟩ := hmatched.leads subject entity hsome
    · exact resolve_holds hmoved (hkeyed.bound subject before (bound_of_boundOf hbefore).2)
    · exact resolve_holds hmoved (hbinds body hbody before hbindsTo)
  refine ⟨?_, hbound, hnamed, fun entity hmem => ?_⟩
  · have hcompared : p.compared.Names holds := ⟨hmatchedNames.masters, hmatchedNames.bound, fun held hheld =>
      (mem_compared hheld).elim (hmatchedNames.identifiers held) fun hname => hname.elim fun subject => hnamed subject held.2.2⟩
    exact hcompared.of_core (reviewed_core env p)
  · rw [hmatched.survivors] at hmem
    obtain ⟨_, gone, hgone⟩ := (hof.survivors entity).1 hmem
    exact hmoved gone entity hgone

theorem held_cases {subject entity : String} (h : (p.held env).get? subject = some entity) :
    (p.bound env).get? subject = some entity ∨ (p.named env).get? subject = some entity := by
  obtain hnamed | hbound := IndexMap.get?_extend_cases h
  · exact .inr (IndexMap.get?_eq_some_iff.2 hnamed)
  · obtain hmem | hnone := IndexMap.get?_extend_cases hbound
    · obtain ⟨other, _, hsome⟩ := List.mem_filterMap.1 hmem
      obtain ⟨found, hfound, heq⟩ := Option.map_eq_some_iff.1 hsome
      cases heq
      exact .inl hfound
    · cases hnone

theorem Passage.Names.held (h : p.Names env holds) : ∀ entity ∈ (p.held env).values, holds entity := by
  intro entity hentity
  obtain ⟨subject, hsubject⟩ := IndexMap.mem_values_iff.1 hentity
  exact (held_cases hsubject).elim (h.bound subject entity) (h.named subject entity)

theorem Storing.names {stage : List Staged} {held : IndexMap String String} {survivors : List String}
    {masters : IndexMap String Object} {db' : Tables} (h : Storing env fileNo db stage held survivors masters db')
    (hdb : db.Names holds) (hheld : ∀ entity ∈ held.values, holds entity) (hsurvivors : ∀ entity ∈ survivors, holds entity) :
    db'.Names holds := by
  have htouched : ∀ entity ∈ masters.keys, holds entity := fun entity hentity =>
    ((h.touched entity).1 hentity).elim (hheld entity) (hsurvivors entity)
  rw [h.written]
  refine addIdentifiers_names ⟨fun entity hentity => ?_, fun subject entity hbound => ?_, hdb.identifiers⟩ fun row hrow => ?_
  · rw [IndexMap.mem_keys_iff, writeMasters_get?] at hentity
    cases hmaster : masters.get? entity with
    | some body => exact htouched entity (IndexMap.mem_keys_of_get? hmaster)
    | none =>
        rw [hmaster] at hentity
        exact hdb.masters entity (IndexMap.mem_keys_iff.2 hentity)
  · obtain ⟨row, hrow, rfl, hentity⟩ := hbound
    obtain hfound | ⟨_, old, hold, hsubject, hsame⟩ := saveRecords_entity hrow
    · exact hheld entity (IndexMap.mem_values_of_get? (hfound.symm.trans hentity))
    · exact hdb.bound old.subject entity ⟨old, hold, rfl, hsame.trans hentity⟩
  · obtain ⟨entry, hentry, hheld⟩ := List.mem_flatMap.1 hrow
    obtain ⟨_, _, rfl⟩ := List.mem_map.1 hheld
    exact htouched entry.1 (List.mem_map_of_mem hentry)

theorem mergeFile_names {delivery : Delivery} {answer : Merged} {db' : Tables} (h : mergeFile env settings db delivery = .ok (answer, db'))
    (hdb : db.Names holds) (hnew : ∀ n, holds (env.newId n)) : db'.Names holds := by
  obtain ⟨key, _, hfiled⟩ := mergeFile_eq_ok h
  cases hfiled with
  | skipped _ _ => exact hdb
  | empty _ _ => exact ⟨hdb.masters, hdb.bound, hdb.identifiers⟩
  | @stored rows p masters stored _ _ _ _ hof _ hstoring hfinish =>
      have hnames := hof.names (⟨hdb.masters, hdb.bound, hdb.identifiers⟩ : (addDeferred db rows).Names holds) hnew
      obtain ⟨files, rfl⟩ := finishUnlessAgain_eq_ok hfinish
      have hstored := hstoring.names hnames.tables hnames.held hnames.survivors
      exact ⟨hstored.masters, hstored.bound, hstored.identifiers⟩

def valueContract : Json := .obj [("normalizer", .str "text"), ("sources", .arr [.str "gleif"]), ("claim", .obj [("reverse", .null)])]

/-- A rule that binds on one namespace, creates where no master is reached and merges where several are. -/
def mintRule (idNamespace : String) : Json :=
  .obj [("rule_id", .str idNamespace), ("version", .str "1"), ("family", .str "binding"), ("applies_to_verdict", .str "company"),
    ("when", .arr [.obj [("primitive", .str "identifier_match@1"), ("args", .obj [("namespace", .str idNamespace)])]]),
    ("on_no_match", .str "mint"), ("on_several", .str "merge")]

def bindApproval (idNamespace : String) : Json :=
  .obj [("kind", .str "company"), ("verdict", .str "bind"), ("family", .str "binding"), ("rule_id", .str idNamespace),
    ("rule_version", .str "1")]

def gleifPolicy : Object :=
  .ofList [("automatic_rules", .arr [bindApproval "lei", bindApproval "cik"]),
    ("kinds", .obj [("company", .obj [("normalizers", .obj []),
      ("identifiers", .obj [("lei", valueContract), ("cik", valueContract)]), ("defaults", .obj [("sources", .arr [])]),
      ("rules", .arr [mintRule "lei", mintRule "cik"])])])]

def gleifSettings : Settings := ⟨gleifPolicy, "p", "company", "2026-01-06T00:00:00+00:00"⟩

/-- Texts that are their own normal form, no chosen fields, and rows in the order they are stored. -/
def plainEnv (newId : Nat → String) (now : Int) : Env where
  matching := ⟨Matching.calendar2026, id⟩
  readings := ⟨fun _ => some 0, id⟩
  forms := ⟨fun value _ => value, id, fun value _ => value, id, Char.isDigit⟩
  test := fun _ _ _ _ => .ok true
  normalizers := .ofList [("text", false)]
  choose := fun _ => .ok (.empty, [], [])
  profileKinds := .empty
  activated := fun _ _ _ => true
  compare := fun _ _ _ => .ok (true, false)
  newId
  now
  arrange := id
  arrange_perm := fun items => .refl items

def gleifRecord (assertion subject revision : String) (identifiers : List (String × Json)) : Object :=
  .ofList [("assertion_id", .str assertion), ("subject", .str subject), ("source_code", .str "gleif"), ("record_key", .str subject),
    ("publication_key", .str assertion), ("revision", .num revision), ("kind", .str "company"), ("fields", .obj []),
    ("identifiers", .obj identifiers), ("profiles", .arr []), ("relationships", .arr [])]

def deliver (records : List Object) : Delivery := ⟨records, false, [], .empty⟩

end EdgarPlatform.Mastering
