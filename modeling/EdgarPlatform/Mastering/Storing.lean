import EdgarPlatform.Mastering.Passing

/-!
# What storing a file leaves

The records of a file are stored with their masters, and rows that are there follow their subjects. Every master the file touched is written under a body that names itself. The inversion lemma at the end names every stage a file that is merged passes through.
-/

namespace EdgarPlatform.Mastering

open Records (Json Object readText readObject)

variable {env : Env} {settings : Settings} {fileNo : Nat} {db : Tables}

theorem saved_get? (stage : List Staged) (held : IndexMap String String) (rows : IndexMap String RecordRow) (assertion : String) :
    (stage.foldl (fun rows staged => insertNew rows staged.assertion (stagedRow held staged)) rows).get? assertion =
      (rows.get? assertion).or ((stage.find? fun staged => staged.assertion = assertion).map (stagedRow held)) := by
  induction stage generalizing rows with
  | nil => simp
  | cons staged rest ih =>
      rw [List.foldl_cons, ih, get?_insertNew, List.find?_cons]
      by_cases hkey : staged.assertion = assertion
      · rw [if_pos hkey.symm, decide_eq_true hkey, Option.or_assoc, hkey]
        rfl
      · rw [if_neg (Ne.symm hkey), decide_eq_false hkey]

theorem saveRecords_get? (stage : List Staged) (held : IndexMap String String) (assertion : String) :
    (saveRecords db stage held).records.get? assertion =
      ((db.records.get? assertion).or ((stage.find? fun staged => staged.assertion = assertion).map (stagedRow held))).map
        (followSubject held) := by
  show (IndexMap.mapValues _ _).get? assertion = _
  rw [IndexMap.get?_mapValues, saved_get?]

theorem mem_saveRecords {stage : List Staged} {held : IndexMap String String} {row : RecordRow}
    (h : row ∈ (saveRecords db stage held).records.values) :
    (∃ old ∈ db.records.values, row = followSubject held old) ∨
      ∃ staged ∈ stage, row = followSubject held (stagedRow held staged) := by
  obtain ⟨assertion, hrow⟩ := IndexMap.mem_values_iff.1 h
  rw [saveRecords_get?] at hrow
  obtain ⟨old, hold, rfl⟩ := Option.map_eq_some_iff.1 hrow
  obtain hstored | ⟨_, hstaged⟩ := Option.or_eq_some_iff.1 hold
  · exact .inl ⟨old, IndexMap.mem_values_of_get? hstored, rfl⟩
  · obtain ⟨staged, hfound, rfl⟩ := Option.map_eq_some_iff.1 hstaged
    exact .inr ⟨staged, List.mem_of_find?_eq_some hfound, rfl⟩

@[simp] theorem followSubject_subject (held : IndexMap String String) (row : RecordRow) :
    (followSubject held row).subject = row.subject := by
  unfold followSubject
  split
  · rfl
  · split_ifs <;> rfl

theorem followSubject_entity (held : IndexMap String String) (row : RecordRow) :
    (followSubject held row).entity = (held.get? row.subject).or row.entity := by
  unfold followSubject
  cases hheld : held.get? row.subject with
  | none => rfl
  | some entity =>
      by_cases hsame : row.entity = some entity
      · simp [hsame]
      · simp [hsame]

theorem saveRecords_entity {stage : List Staged} {held : IndexMap String String} {row : RecordRow}
    (h : row ∈ (saveRecords db stage held).records.values) :
    row.entity = held.get? row.subject ∨ held.get? row.subject = none ∧
      ∃ old ∈ db.records.values, old.subject = row.subject ∧ old.entity = row.entity := by
  obtain ⟨old, hold, rfl⟩ | ⟨staged, _, rfl⟩ := mem_saveRecords h
  · rw [followSubject_entity, followSubject_subject]
    cases hheld : held.get? old.subject with
    | none => exact .inr ⟨rfl, old, hold, rfl, rfl⟩
    | some entity => exact .inl rfl
  · left
    rw [followSubject_entity, followSubject_subject]
    show (held.get? staged.subject).or (held.get? staged.subject) = _
    exact Option.or_self

def Own (entity : String) (body : Object) : Prop :=
  body.get? "entity_id" = some (.str entity) ∧ body.get? "canonical_id" = some (.str entity)

theorem own_insert {entity key : String} {body : Object} {value : Json} (h : Own entity body) (hid : key ≠ "entity_id")
    (hcanonical : key ≠ "canonical_id") : Own entity (body.insert key value) := by
  refine ⟨?_, ?_⟩
  · rw [IndexMap.get?_insert_of_ne _ _ hid.symm]
    exact h.1
  · rw [IndexMap.get?_insert_of_ne _ _ hcanonical.symm]
    exact h.2

theorem masterBody_get? (record kind : String) (accepted : Bool) (chosen : Object × List Object × List Object)
    (identifiers : Identifiers) (members : List String) (key : String) :
    (masterBody record kind accepted chosen identifiers members).get? key = IndexMap.lookupEntry key
      [("entity_id", .str record), ("kind", .str kind), ("canonical_id", .str record),
        ("status", .str (if accepted then "accepted" else "review")),
        ("fields", (if accepted then chosen.1 else .empty).toJson),
        ("profiles", .arr (if accepted then chosen.2.1.map Object.toJson else [])),
        ("identifiers", identifiersJson identifiers), ("subjects", .arr (members.map .str))] :=
  IndexMap.get?_ofList_eq (by simp only [List.map_cons, List.map_nil]; decide) key

theorem masterBody_own (record kind : String) (accepted : Bool) (chosen : Object × List Object × List Object)
    (identifiers : Identifiers) (members : List String) :
    Own record (masterBody record kind accepted chosen identifiers members) := by
  constructor <;> simp [masterBody_get?, IndexMap.lookupEntry]

theorem withDetails_own {input : MasterInputs} {kind entity : String} {members : List String} {accepted : Bool}
    {body written : Object} (hown : Own entity body) (h : withDetails input kind members accepted body = .ok written) :
    Own entity written := by
  unfold withDetails at h
  split_ifs at h
  · exact Except.ok.inj h ▸ hown
  · obtain ⟨details, _, h⟩ := Except.bind_eq_ok.1 h
    rw [← Except.ok.inj h]
    split_ifs
    · exact hown
    · exact own_insert hown (by decide) (by decide)

theorem projectMaster_eq_ok {choose : ChooseFields} {input : MasterInputs} {flagged : List String} {found found' : Projected}
    {record kind : String} (h : projectMaster choose input flagged found record kind = .ok found') :
    ∃ body, Own record body ∧ found'.masters = found.masters.insert record body := by
  obtain ⟨added, _, h⟩ := Except.bind_eq_ok.1 h
  obtain ⟨conflicts, _, h⟩ := Except.bind_eq_ok.1 h
  obtain ⟨_, _, h⟩ := Except.bind_eq_ok.1 h
  obtain ⟨chosen, _, h⟩ := Except.bind_eq_ok.1 h
  obtain ⟨body, hbody, h⟩ := Except.bind_eq_ok.1 h
  have hown := withDetails_own (masterBody_own record kind _ chosen added.1 _) hbody
  rw [← Except.ok.inj h]
  refine ⟨_, ?_, rfl⟩
  split_ifs
  · exact own_insert hown (by decide) (by decide)
  · exact hown

theorem prepareMasterRecords_own {choose : ChooseFields} {input : MasterInputs} {found : Projected}
    (hcanonical : ∀ entry ∈ input.identities.entries, input.canonical.get? entry.1 = some entry.1)
    (h : prepareMasterRecords choose input = .ok found) :
    (∀ entity, entity ∈ found.masters.keys ↔ entity ∈ input.identities.keys) ∧
      ∀ entity body, found.masters.get? entity = some body → Own entity body := by
  obtain ⟨flagged, _, h⟩ := Except.bind_eq_ok.1 h
  obtain ⟨groups, _, h⟩ := Except.bind_eq_ok.1 h
  obtain ⟨projected, hprojected, h⟩ := Except.bind_eq_ok.1 h
  obtain ⟨_, _, h⟩ := Except.bind_eq_ok.1 h
  have hmasters : found.masters = projected.masters := by rw [← Except.ok.inj h]
  rw [hmasters]
  refine Runs.run_invariant (fun front (mid : Projected) =>
    (∀ entity, entity ∈ mid.masters.keys ↔ entity ∈ front.map Prod.fst) ∧
      ∀ entity body, mid.masters.get? entity = some body → Own entity body) hprojected ?_ ?_
  · exact ⟨fun entity => by simp, fun _ _ hsome => by cases hsome⟩
  · intro front entry back mid next hsplit hmid hstep
    obtain ⟨root, hroot, hstep⟩ := Except.bind_eq_ok.1 hstep
    obtain ⟨kind, _, hstep⟩ := Except.bind_eq_ok.1 hstep
    have hself := hcanonical entry (by rw [hsplit]; exact List.mem_append_right _ List.mem_cons_self)
    rw [hself] at hroot
    obtain rfl : entry.1 = root := Except.ok.inj hroot
    rw [if_neg (not_not_intro rfl)] at hstep
    obtain ⟨body, hown, hmasters⟩ := projectMaster_eq_ok hstep
    rw [hmasters]
    refine ⟨fun entity => ?_, fun entity other hsome => ?_⟩
    · rw [IndexMap.mem_keys_insert, hmid.1, List.map_append, List.mem_append, List.map_singleton, List.mem_singleton, or_comm]
    · rw [IndexMap.get?_insert] at hsome
      split_ifs at hsome with hkey
      · rw [hkey, ← Option.some_inj.1 hsome]
        exact hown
      · exact hmid.2 entity other hsome

theorem get?_selves {entities : List String} {entity : String} (h : entity ∈ entities) :
    (IndexMap.ofList (entities.map fun entity => (entity, entity))).get? entity = some entity := by
  have hkey : entity ∈ (IndexMap.ofList (entities.map fun entity => (entity, entity))).keys := by
    rw [IndexMap.mem_keys_ofList, List.map_map]
    simpa using h
  obtain ⟨value, hvalue⟩ := IndexMap.mem_keys_iff.1 hkey
  obtain hmem | hnone := IndexMap.get?_extend_cases hvalue
  · obtain ⟨other, _, heq⟩ := List.mem_map.1 hmem
    cases heq
    exact hvalue
  · cases hnone

variable {db' : Tables}

theorem writeTouched_eq_ok {entities : List String} (h : writeTouched env settings fileNo db entities = .ok db') :
    ∃ masters : IndexMap String Object, (∀ entity, entity ∈ masters.keys ↔ entity ∈ entities) ∧
      (∀ entity body, masters.get? entity = some body → Own entity body) ∧
      db' = addIdentifiers (writeMasters env.now fileNo db masters.entries) (masters.entries.flatMap heldBy) := by
  obtain ⟨claims, _, h⟩ := Except.bind_eq_ok.1 h
  obtain ⟨found, hfound, h⟩ := Except.bind_eq_ok.1 h
  have hcanonical := prepareMasterRecords_own ?_ hfound
  · refine ⟨found.masters, fun entity => ?_, hcanonical.2, (Except.ok.inj h).symm⟩
    rw [hcanonical.1]
    show entity ∈ (SortedMap.ofList _).keys ↔ _
    rw [SortedMap.mem_keys_ofList, List.map_map]
    simp
  · intro entry hentry
    have hmem : entry.1 ∈ entities := by
      have hkeys : entry.1 ∈ (SortedMap.ofList (entities.map fun entity => (entity, identityOf settings entity))).keys :=
        List.mem_map_of_mem hentry
      rw [SortedMap.mem_keys_ofList, List.map_map] at hkeys
      simpa using hkeys
    exact get?_selves hmem

theorem writeMasters_get? (now : Int) (db : Tables) (masters : IndexMap String Object) (entity : String) :
    (writeMasters now fileNo db masters.entries).masters.get? entity =
      (masters.get? entity).elim (db.masters.get? entity) fun body => some (writtenRow now fileNo (db.masters.get? entity) body) := by
  have hrun : ∀ (entries : List (String × Object)) (rows : IndexMap String MasterRow), (entries.map Prod.fst).Nodup →
      (entries.foldl (writeMaster now fileNo) rows).get? entity =
        (IndexMap.lookupEntry entity entries).elim (rows.get? entity) fun body =>
          some (writtenRow now fileNo (rows.get? entity) body) := by
    intro entries
    induction entries with
    | nil => exact fun rows _ => rfl
    | cons entry rest ih =>
        intro rows hnodup
        rw [List.map_cons, List.nodup_cons] at hnodup
        rw [List.foldl_cons, ih _ hnodup.2, writeMaster, IndexMap.get?_insert, IndexMap.lookupEntry]
        by_cases hkey : entry.1 = entity
        · have hrest : IndexMap.lookupEntry entity rest = none := by
            by_contra hsome
            obtain ⟨body, hbody⟩ := Option.ne_none_iff_exists'.1 hsome
            exact hnodup.1 (hkey ▸ List.mem_map_of_mem (IndexMap.lookupEntry_eq_some hbody))
          rw [if_pos hkey.symm, if_pos hkey, hrest, hkey]
          rfl
        · rw [if_neg (Ne.symm hkey), if_neg hkey]
  exact hrun masters.entries db.masters masters.nodup

/-- What storing a file leaves: its records with their masters, and every master it touched under a body of its own. -/
structure Storing (env : Env) (fileNo : Nat) (db : Tables) (stage : List Staged) (held : IndexMap String String)
    (survivors : List String) (masters : IndexMap String Object) (db' : Tables) : Prop where
  touched : ∀ entity, entity ∈ masters.keys ↔ entity ∈ held.values ∨ entity ∈ survivors
  own : ∀ entity body, masters.get? entity = some body → Own entity body
  written : db' = addIdentifiers (writeMasters env.now fileNo (saveRecords db stage held) masters.entries)
    (masters.entries.flatMap heldBy)

theorem storeFile_eq_ok {stage : Stage} {held : IndexMap String String} {survivors : List String}
    (h : storeFile env settings fileNo db stage held survivors = .ok db') :
    ∃ masters, Storing env fileNo db stage.records held survivors masters db' := by
  simp only [storeFile] at h
  have hmem : ∀ entity, entity ∈ Sorting.distinct (held.values ++ survivors) ↔ entity ∈ held.values ∨ entity ∈ survivors :=
    fun entity => Sorting.mem_distinct.trans List.mem_append
  split_ifs at h with hnone
  · refine ⟨.empty, fun entity => ?_, fun _ _ hsome => (by cases hsome), (Except.ok.inj h).symm⟩
    rw [← hmem, hnone]
    rfl
  · obtain ⟨masters, hkeys, hown, hwritten⟩ := writeTouched_eq_ok h
    exact ⟨masters, fun entity => (hkeys entity).trans (hmem entity), hown, hwritten⟩

/-- What a file has come to before it is stored. -/
structure Passage where
  stage : Stage
  matched : Matched
  rules : List NameRule
  naming : Naming
  exactRules : List ExactRule

def Passage.compared (p : Passage) : Tables :=
  addIdentifiers p.matched.db (p.naming.named.entries.filterMap fun entry =>
    (p.naming.values.get? entry.1).map fun lei => ("lei", lei, entry.2))

def Passage.known (p : Passage) : IndexMap String String := p.naming.bound.extend p.naming.named.entries

def Passage.exact (env : Env) (p : Passage) : Tables × IndexMap String String :=
  matchExactNames env p.compared p.stage p.exactRules p.known

def Passage.bound (env : Env) (p : Passage) : IndexMap String String := p.known.extend (p.exact env).2.entries

def Passage.named (env : Env) (p : Passage) : IndexMap String String := p.naming.named.extend (p.exact env).2.entries

/-- The tables before the records are stored, with the records that wait in review. -/
def Passage.reviewed (env : Env) (p : Passage) : Tables :=
  closeReviews (openReviews (p.exact env).1 "binding_required" (waitingRows p.stage p.rules (p.bound env))) "binding_required"
    (p.named env).keys

def Passage.held (env : Env) (p : Passage) : IndexMap String String := heldOf p.stage (p.bound env) (p.named env)

def withNameKeys (db : Tables) (stage : Stage) : Tables := { db with nameKeys := addRows db.nameKeys stage.nameKeys }

/-- The stages a file passes through. -/
structure Passage.Of (env : Env) (settings : Settings) (db : Tables) (delivery : Delivery) (p : Passage) : Prop where
  stage : stageFile delivery.records = .ok p.stage
  matched : matchIdentifiers env settings (lastFile db + 1) (withNameKeys db p.stage) delivery.records
    (boundOf env (withNameKeys db p.stage) p.stage.subjects) = .ok p.matched
  rules : (rulesOf env settings "name_binding" >>= List.mapM readNameRule) = .ok p.rules
  naming : matchNames env p.matched.db p.stage p.rules p.matched.bound = .ok p.naming
  exactRules : (rulesOf env settings "exact_name_binding" >>= List.mapM readExactRule) = .ok p.exactRules

theorem mergeRecords_eq_ok {key : String} {delivery : Delivery}
    (h : mergeRecords env settings db key delivery = .ok db') :
    ∃ p stored, Passage.Of env settings db delivery p ∧
      storeFile env settings (lastFile db + 1) (p.reviewed env) p.stage (p.held env) p.matched.survivors = .ok stored ∧
      finishUnlessAgain stored key delivery.again delivery.records.length = .ok db' := by
  obtain ⟨stage, hstage, h⟩ := Except.bind_eq_ok.1 h
  obtain ⟨matched, hmatched, h⟩ := Except.bind_eq_ok.1 h
  obtain ⟨raw, hraw, h⟩ := Except.bind_eq_ok.1 h
  obtain ⟨rules, hrules, h⟩ := Except.bind_eq_ok.1 h
  obtain ⟨naming, hnaming, h⟩ := Except.bind_eq_ok.1 h
  obtain ⟨exactRaw, hexactRaw, h⟩ := Except.bind_eq_ok.1 h
  obtain ⟨exactRules, hexactRules, h⟩ := Except.bind_eq_ok.1 h
  obtain ⟨stored, hstored, h⟩ := Except.bind_eq_ok.1 h
  refine ⟨⟨stage, matched, rules, naming, exactRules⟩, stored, ⟨hstage, hmatched, ?_, hnaming, ?_⟩, hstored, h⟩
  · rw [hraw]
    exact hrules
  · rw [hexactRaw]
    exact hexactRules

theorem reviewed_core (env : Env) (p : Passage) : (p.reviewed env).core = p.compared.core :=
  (matchExactNames_of env p.compared p.stage p.exactRules p.known).1

theorem finishFile_eq_ok {key : String} {count : Nat} (h : finishFile db key count = .ok db') :
    db' = { db with files := db.files.insert key count } := by
  unfold finishFile at h
  split_ifs at h
  exact (Except.ok.inj h).symm

theorem finishUnlessAgain_eq_ok {key : String} {again : Bool} {count : Nat}
    (h : finishUnlessAgain db key again count = .ok db') : ∃ files, db' = { db with files := files } := by
  unfold finishUnlessAgain at h
  split_ifs at h
  · exact ⟨db.files, (Except.ok.inj h).symm⟩
  · exact ⟨_, finishFile_eq_ok h⟩

/-- What a file that is delivered can do: nothing where it is done, only be noted where it holds no record, or pass through every stage. -/
inductive Filed (env : Env) (settings : Settings) (db : Tables) (delivery : Delivery) (key : String) : Merged × Tables → Prop
  | skipped : fileDone db key = true → delivery.again = false → Filed env settings db delivery key (.skipped, db)
  | empty {rows : List (String × Deferred)} : delivery.records = [] → db.files.get? key = none →
      Filed env settings db delivery key (.merged, { addDeferred db rows with files := db.files.insert key 0 })
  | stored {rows : List (String × Deferred)} {p : Passage} {masters : IndexMap String Object} {stored db' : Tables} :
      (fileDone db key && !delivery.again) = false → delivery.deferred.mapM (deferredRow delivery.quiet) = .ok rows →
      delivery.records ≠ [] → p.Of env settings (addDeferred db rows) delivery →
      storeFile env settings (lastFile db + 1) (p.reviewed env) p.stage (p.held env) p.matched.survivors = .ok stored →
      Storing env (lastFile db + 1) (p.reviewed env) p.stage.records (p.held env) p.matched.survivors masters stored →
      finishUnlessAgain stored key delivery.again delivery.records.length = .ok db' →
      Filed env settings db delivery key (.merged, db')

theorem mergeFile_eq_ok {delivery : Delivery} {result : Merged × Tables} (h : mergeFile env settings db delivery = .ok result) :
    ∃ key, fileKey env delivery = .ok key ∧ Filed env settings db delivery key result := by
  obtain ⟨key, hkey, h⟩ := Except.bind_eq_ok.1 h
  refine ⟨key, hkey, ?_⟩
  by_cases hskip : (fileDone db key && !delivery.again) = true
  · rw [if_pos hskip] at h
    rw [← Except.ok.inj h]
    simp only [Bool.and_eq_true, Bool.not_eq_true'] at hskip
    exact .skipped hskip.1 hskip.2
  · rw [if_neg hskip] at h
    obtain ⟨rows, hrows, h⟩ := Except.bind_eq_ok.1 h
    by_cases hnone : delivery.records = []
    · simp only [if_pos hnone] at h
      obtain ⟨written, hwritten, h⟩ := Except.bind_eq_ok.1 h
      rw [← Except.ok.inj h, finishFile_eq_ok hwritten]
      refine .empty hnone ?_
      unfold finishFile at hwritten
      split_ifs at hwritten with hdone
      rw [IndexMap.contains, Bool.not_eq_true, Option.isSome_eq_false_iff, Option.isNone_iff_eq_none] at hdone
      exact hdone
    · simp only [if_neg hnone] at h
      obtain ⟨written, hwritten, h⟩ := Except.bind_eq_ok.1 h
      obtain ⟨p, stored, hof, hstored, hfinish⟩ := mergeRecords_eq_ok hwritten
      obtain ⟨masters, hstoring⟩ := storeFile_eq_ok hstored
      rw [← Except.ok.inj h]
      exact .stored (Bool.eq_false_iff.2 hskip) hrows hnone hof hstored hstoring hfinish

end EdgarPlatform.Mastering
