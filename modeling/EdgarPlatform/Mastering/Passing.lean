import EdgarPlatform.Mastering.Merges
import EdgarPlatform.Matching.Names

/-!
# What merging a file passes through

A file that is merged passes through the matching of its identifiers, of names by comparison and of exact names, and the storing of its records. The inversion lemma at the end names what each stage left. The lemmas before it say what a stage reads and what it may write.
-/

namespace EdgarPlatform.Mastering

open Records (Json Object readText)

variable {env : Env} {settings : Settings} {fileNo : Nat}

/-- The tables without those that only set records aside or keep values back. -/
def Tables.core (db : Tables) : Tables := { db with reviews := .empty, withheld := [], deferred := .empty }

theorem masters_of_core {db db' : Tables} (h : db.core = db'.core) : db.masters = db'.masters := by
  show db.core.masters = db'.core.masters
  rw [h]

theorem records_of_core {db db' : Tables} (h : db.core = db'.core) : db.records = db'.records := by
  show db.core.records = db'.core.records
  rw [h]

theorem identifiers_of_core {db db' : Tables} (h : db.core = db'.core) : db.identifiers = db'.identifiers := by
  show db.core.identifiers = db'.core.identifiers
  rw [h]

def Bound (db : Tables) (subject entity : String) : Prop :=
  ∃ row ∈ db.records.values, row.subject = subject ∧ row.entity = some entity

variable {db : Tables} {subjects : List String}

theorem mem_boundRows {entry : String × String} :
    entry ∈ env.arrange (db.records.values.filterMap fun row =>
      if row.subject ∈ subjects then row.entity.map fun entity => (row.subject, entity) else none) ↔
        entry.1 ∈ subjects ∧ Bound db entry.1 entry.2 := by
  rw [(env.arrange_perm _).mem_iff, List.mem_filterMap]
  constructor
  · rintro ⟨row, hrow, hsome⟩
    split_ifs at hsome with hmem
    · obtain ⟨entity, hentity, rfl⟩ := Option.map_eq_some_iff.1 hsome
      exact ⟨hmem, row, hrow, rfl, hentity⟩
  · rintro ⟨hmem, row, hrow, hsubject, hentity⟩
    refine ⟨row, hrow, ?_⟩
    rw [if_pos (hsubject ▸ hmem), hentity, hsubject]
    rfl

theorem bound_of_boundOf {subject entity : String}
    (h : (boundOf env db subjects).get? subject = some entity) : subject ∈ subjects ∧ Bound db subject entity := by
  obtain hmem | hnone := IndexMap.get?_extend_cases h
  · exact mem_boundRows.1 hmem
  · cases hnone

theorem boundOf_contains {subject entity : String} (hmem : subject ∈ subjects)
    (hbound : Bound db subject entity) : subject ∈ (boundOf env db subjects).keys := by
  rw [boundOf, IndexMap.mem_keys_ofList]
  exact List.mem_map.2 ⟨(subject, entity), mem_boundRows.2 ⟨hmem, hbound⟩, rfl⟩

theorem holds_holdersOf {kind : String} {wanted : List (String × String)} {key : String × String} {entity : String} :
    Matching.Holds (holdersOf env db kind wanted) key entity ↔ key ∈ wanted ∧ (key.1, key.2, entity) ∈ db.identifiers := by
  have hrun : ∀ (rows : List Held) (found : Matching.Found),
      Matching.Holds (rows.foldl (fun found row =>
        found.insert (row.1, row.2.1) (((found.get? (row.1, row.2.1)).getD .empty).insert row.2.2 kind)) found) key entity ↔
        Matching.Holds found key entity ∨ (key.1, key.2, entity) ∈ rows := by
    intro rows
    induction rows with
    | nil => simp
    | cons row rest ih =>
        intro found
        rw [List.foldl_cons, ih, List.mem_cons, ← or_assoc]
        refine or_congr_left ?_
        obtain ⟨idNamespace, value, holder⟩ := row
        simp only [Matching.Holds, IndexMap.get?_insert, Prod.mk.injEq]
        by_cases hkey : key = (idNamespace, value)
        · subst hkey
          simp only [if_true, Option.some_inj, exists_eq_left', IndexMap.mem_keys_insert, true_and]
          cases found.get? (idNamespace, value) with
          | none => simp
          | some held => simp [or_comm]
        · have hne : ¬ (key.1 = idNamespace ∧ key.2 = value ∧ entity = holder) := fun h =>
            hkey (Prod.ext h.1 h.2.1)
          simp only [if_neg hkey, hne, or_false]
  rw [holdersOf, hrun, (env.arrange_perm _).mem_iff, List.mem_filter, decide_eq_true_eq]
  simp only [Matching.Holds, IndexMap.get?_empty, reduceCtorEq, false_and, exists_false, false_or]
  exact and_comm

section Names

variable {db : Tables} {stage : Stage}

/-- What the comparisons of names leave, over what was bound before them. -/
structure Naming.Of (db : Tables) (bound : IndexMap String String) (s : Naming) : Prop where
  grown : ∀ subject entity, s.bound.get? subject = some entity → bound.get? subject = some entity ∨ Bound db subject entity
  kept : ∀ subject entity, bound.get? subject = some entity → s.bound.get? subject = some entity
  holder : ∀ subject entity, s.named.get? subject = some entity → ∃ holder, s.bound.get? holder = some entity
  free : ∀ subject ∈ s.named.keys, s.bound.get? subject = none ∧ ∀ entity, ¬ Bound db subject entity

/-- The masters of some subjects, looked up where they are not known. -/
def lookUp (env : Env) (db : Tables) (bound : IndexMap String String) (subjects : List String) : IndexMap String String :=
  bound.extend (boundOf env db (subjects.filter fun subject => !bound.contains subject)).entries

variable {bound : IndexMap String String}

variable {subjects : List String}

theorem lookUp_kept {subject entity : String}
    (h : bound.get? subject = some entity) : (lookUp env db bound subjects).get? subject = some entity := by
  rw [lookUp, IndexMap.get?_extend_of_not_mem, h]
  intro hmem
  obtain ⟨other, hother⟩ := IndexMap.mem_keys_iff.1 (show subject ∈ (boundOf env db _).keys from hmem)
  have hfree := (List.mem_filter.1 (bound_of_boundOf hother).1).2
  rw [IndexMap.contains, h] at hfree
  cases hfree

theorem lookUp_grown {subject entity : String}
    (h : (lookUp env db bound subjects).get? subject = some entity) :
    bound.get? subject = some entity ∨ Bound db subject entity := by
  obtain hmem | hold := IndexMap.get?_extend_cases h
  · exact .inr (bound_of_boundOf (IndexMap.get?_eq_some_iff.2 hmem)).2
  · exact .inl hold

theorem lookUp_free {subject : String}
    (h : (lookUp env db bound subjects).get? subject = none) :
    bound.get? subject = none ∧ (subject ∈ subjects → ∀ entity, ¬ Bound db subject entity) := by
  have hnone : bound.get? subject = none := by
    by_contra hsome
    obtain ⟨entity, hentity⟩ := Option.ne_none_iff_exists'.1 hsome
    rw [lookUp_kept hentity] at h
    cases h
  refine ⟨hnone, fun hmem entity hbound => ?_⟩
  rw [IndexMap.get?_eq_none_iff, lookUp, IndexMap.mem_keys_extend] at h
  refine h (.inr ?_)
  apply boundOf_contains _ hbound
  exact List.mem_filter.2 ⟨hmem, by simp [IndexMap.contains, hnone]⟩

def openPairs (bound named : IndexMap String String) (pairs : List (Named × Named)) : List (Named × Named) :=
  pairs.filter fun pair => !bound.contains pair.1.subject && !named.contains pair.1.subject && bound.contains pair.2.subject

theorem matchRule_eq_ok {s s' : Naming} {rule : NameRule} (h : matchRule env db stage s rule = .ok s') :
    ∃ bound reach, bound = lookUp env db s.bound
        (Sorting.distinct ((namePairs env db stage rule).flatMap fun pair => [pair.1.subject, pair.2.subject])) ∧
      (openPairs bound s.named (namePairs env db stage rule)).foldlM (reachNames env rule bound) .empty = .ok reach ∧
      s' = reach.entries.foldl (nameSubject db rule) { s with bound, held := [] } := by
  obtain ⟨reach, hreach, h⟩ := Except.bind_eq_ok.1 h
  exact ⟨_, reach, rfl, hreach, (Except.ok.inj h).symm⟩

/-- What a rule's comparisons reach: masters of bound holders, from candidates that are free. -/
def Reaches (bound named : IndexMap String String) (candidates : List String)
    (reach : IndexMap String (List String × Option String)) : Prop :=
  ∀ entry ∈ reach.entries, (entry.1 ∈ candidates ∧ bound.get? entry.1 = none ∧ named.get? entry.1 = none) ∧
    ∀ entity ∈ entry.2.1, ∃ holder, bound.get? holder = some entity

theorem reachNames_reaches {rule : NameRule} {bound named : IndexMap String String} {candidates : List String}
    {reach reach' : IndexMap String (List String × Option String)} {pair : Named × Named}
    (h : Reaches bound named candidates reach) (hopen : pair ∈ openPairs bound named [pair]) (hmem : pair.1.subject ∈ candidates)
    (hstep : reachNames env rule bound reach pair = .ok reach') : Reaches bound named candidates reach' := by
  obtain ⟨outcome, _, hstep⟩ := Except.bind_eq_ok.1 hstep
  have hpair := (List.mem_filter.1 hopen).2
  simp only [Bool.and_eq_true, Bool.not_eq_true', IndexMap.contains, Option.isSome_eq_false_iff, Option.isNone_iff_eq_none,
    Option.isSome_iff_exists] at hpair
  obtain ⟨⟨hbound, hnamed⟩, holder, hholder⟩ := hpair
  split_ifs at hstep with houtcome
  · exact Except.ok.inj hstep ▸ h
  · rw [← Except.ok.inj hstep]
    intro entry hentry
    rw [← IndexMap.get?_eq_some_iff, IndexMap.get?_insert] at hentry
    split_ifs at hentry with hkey
    · rw [← Option.some_inj.1 hentry, hkey]
      refine ⟨⟨hmem, hbound, hnamed⟩, fun entity hentity => ?_⟩
      obtain hold | rfl := mem_addRow.1 hentity
      · cases hreach : reach.get? pair.1.subject with
        | none =>
            rw [hreach] at hold
            cases hold
        | some old =>
            rw [hreach] at hold
            exact (h _ (IndexMap.get?_eq_some_iff.1 hreach)).2 entity hold
      · exact ⟨pair.2.subject, by rw [hholder]; rfl⟩
    · exact h entry (IndexMap.get?_eq_some_iff.1 hentry)

variable (db) in
theorem nameSubject_cases (rule : NameRule) (s : Naming) (entry : String × (List String × Option String)) :
    nameSubject db rule s entry = s ∨ ∃ entity lei, entry.2 = ([entity], some lei) ∧ nameSubject db rule s entry =
      { s with
        named := s.named.insert entry.1 entity
        values := s.values.insert entry.1 lei
        held := s.held ++ [(entity, lei)] } := by
  obtain ⟨subject, entities, lei⟩ := entry
  unfold nameSubject
  split
  · next entity lei hentities hlei =>
      split_ifs
      · exact .inl rfl
      · exact .inr ⟨entity, lei, Prod.ext hentities hlei, rfl⟩
  · exact .inl rfl

theorem Naming.Of.rule {bound : IndexMap String String} {s s' : Naming} {rule : NameRule} (h : Naming.Of db bound s)
    (hstep : matchRule env db stage s rule = .ok s') : Naming.Of db bound s' := by
  obtain ⟨found, reach, hfound, hreach, rfl⟩ := matchRule_eq_ok hstep
  have hreaches : Reaches found s.named
      (Sorting.distinct ((namePairs env db stage rule).flatMap fun pair => [pair.1.subject, pair.2.subject])) reach := by
    refine Runs.run_invariant (fun _ mid => Reaches found s.named _ mid) hreach (fun entry hentry => by cases hentry) ?_
    intro front pair back mid next hsplit hmid hnext
    have hopen : pair ∈ openPairs found s.named (namePairs env db stage rule) := by
      rw [hsplit]
      exact List.mem_append_right _ List.mem_cons_self
    obtain ⟨hmem, hopen⟩ := List.mem_filter.1 hopen
    refine reachNames_reaches hmid (List.mem_filter.2 ⟨List.mem_singleton_self _, hopen⟩) ?_ hnext
    exact Sorting.mem_distinct.2 (List.mem_flatMap.2 ⟨pair, hmem, List.mem_cons_self⟩)
  have hstart : Naming.Of db bound { s with bound := found, held := [] } := by
    refine ⟨fun subject entity hsome => ?_, fun subject entity hsome => ?_, fun subject entity hsome => ?_, fun subject hmem => ?_⟩
    · obtain hold | hnew := lookUp_grown (hfound ▸ hsome)
      · exact h.grown subject entity hold
      · exact .inr hnew
    · exact hfound ▸ lookUp_kept (h.kept subject entity hsome)
    · obtain ⟨holder, hholder⟩ := h.holder subject entity hsome
      exact ⟨holder, hfound ▸ lookUp_kept hholder⟩
    · obtain ⟨hnone, hnot⟩ := h.free subject hmem
      refine ⟨?_, hnot⟩
      by_contra hsome
      obtain ⟨entity, hentity⟩ := Option.ne_none_iff_exists'.1 hsome
      obtain hold | hnew := lookUp_grown (hfound ▸ hentity)
      · rw [hnone] at hold
        cases hold
      · exact hnot entity hnew
  have hrun : ∀ (entries : List (String × (List String × Option String))) (mid : Naming),
      (∀ entry ∈ entries, entry ∈ reach.entries) → mid.bound = found → Naming.Of db bound mid →
        Naming.Of db bound (entries.foldl (nameSubject db rule) mid) := by
    intro entries
    induction entries with
    | nil => exact fun mid _ _ hmid => hmid
    | cons entry rest ih =>
        intro mid hentries hbound hmid
        obtain ⟨⟨hcandidate, hfree, _⟩, hholders⟩ := hreaches entry (hentries entry List.mem_cons_self)
        have hrest : ∀ other ∈ rest, other ∈ reach.entries := fun other hother => hentries other (List.mem_cons_of_mem _ hother)
        rw [List.foldl_cons]
        obtain heq | ⟨entity, lei, hentry, heq⟩ := nameSubject_cases db rule mid entry
        · rw [heq]
          exact ih mid hrest hbound hmid
        · rw [heq]
          refine ih _ hrest hbound ⟨hmid.grown, hmid.kept, fun subject other hsome => ?_, fun subject hmem => ?_⟩
          · rw [IndexMap.get?_insert] at hsome
            split_ifs at hsome
            · rw [← Option.some_inj.1 hsome]
              show ∃ holder, mid.bound.get? holder = some entity
              rw [hbound]
              exact hholders entity (by rw [hentry]; exact List.mem_singleton_self _)
            · exact hmid.holder subject other hsome
          · obtain rfl | hold := IndexMap.mem_keys_insert.1 hmem
            · refine ⟨hbound ▸ hfree, ?_⟩
              exact (lookUp_free (hfound ▸ hfree)).2 hcandidate
            · exact hmid.free subject hold
  exact hrun reach.entries _ (fun _ h => h) rfl hstart

theorem naming_of {s : Naming} {rules : List NameRule}
    (h : matchNames env db stage rules bound = .ok s) : Naming.Of db bound s :=
  Runs.run_invariant (fun _ mid => Naming.Of db bound mid) h
    ⟨fun _ _ h => .inl h, fun _ _ h => h, fun _ _ h => (by cases h), fun _ h => (by cases h)⟩
    fun _ _ _ _ _ _ hmid hstep => hmid.rule hstep

end Names

section ExactNames

variable {db : Tables} {stage : Stage} {rules : List ExactRule} {bound : IndexMap String String}

variable (bound) in
theorem joinName_cases (rule : ExactRule) (members : List Member) (assertionOf : String → Json)
    (s : Tables × IndexMap String String) (entry : String × String) :
    (joinName rule bound members assertionOf s entry).1.core = s.1.core ∧
      ((joinName rule bound members assertionOf s entry).2 = s.2 ∨
        ∃ entity ∈ holdingName rule bound members entry.2,
          (joinName rule bound members assertionOf s entry).2 = s.2.insert entry.1 entity) := by
  unfold joinName
  split
  · exact ⟨rfl, .inl rfl⟩
  · next entity hentity => exact ⟨rfl, .inr ⟨entity, hentity ▸ List.mem_singleton_self _, rfl⟩⟩
  · exact ⟨rfl, .inl rfl⟩

theorem mem_membersUnder {member : Member} (h : member ∈ membersUnder db stage) :
    (member.entity = none ∧ member.subject ∈ stage.subjects) ∨
      ∃ row ∈ db.records.values, row.subject = member.subject ∧ row.entity = member.entity := by
  obtain h | h := List.mem_append.1 h
  · obtain ⟨staged, hstaged, hsome⟩ := List.mem_filterMap.1 h
    obtain ⟨value, _, rfl⟩ := Option.map_eq_some_iff.1 hsome
    exact .inl ⟨rfl, Sorting.mem_distinct.2 (List.mem_map_of_mem hstaged)⟩
  · obtain ⟨key, _, hkey⟩ := List.mem_flatMap.1 h
    split_ifs at hkey
    · obtain ⟨row, hrow, rfl⟩ := List.mem_map.1 hkey
      exact .inr ⟨row, (List.mem_filter.1 hrow).1, rfl, rfl⟩
    · cases hkey

/-- A record that joins a master by its exact name was free, and the master is one a record is bound to. -/
structure Joins (db : Tables) (stage : Stage) (bound : IndexMap String String) (subject entity : String) : Prop where
  free : bound.get? subject = none
  waits : subject ∈ stage.subjects ∨ ∃ row ∈ db.records.values, row.subject = subject ∧ row.entity = none
  holder : ∃ holder, bound.get? holder = some entity ∨ Bound db holder entity

theorem joins_of {rule : ExactRule} {entry : String × String} {entity : String}
    (hwaits : entry ∈ (waitingNames rule bound (env.arrange (membersUnder db stage).dedup)).entries)
    (hholds : entity ∈ holdingName rule bound (env.arrange (membersUnder db stage).dedup) entry.2) :
    Joins db stage bound entry.1 entity := by
  have hmember : ∀ member ∈ env.arrange (membersUnder db stage).dedup, member ∈ membersUnder db stage := fun member h =>
    List.mem_dedup.1 ((env.arrange_perm _).mem_iff.1 h)
  have hwaiting := IndexMap.mem_keys_ofList.1 (IndexMap.mem_keys_of_get? (IndexMap.get?_eq_some_iff.2 hwaits))
  obtain ⟨_, hpair, hsubject⟩ := List.mem_map.1 hwaiting
  obtain ⟨waiting, hwaitingmem, hsome⟩ := List.mem_filterMap.1 hpair
  split_ifs at hsome with hcond
  rw [← Option.some_inj.1 hsome] at hsubject
  obtain ⟨hentity, hfree⟩ := Option.or_eq_none_iff.1 (Option.isNone_iff_eq_none.1 hcond.1)
  obtain ⟨holder, hholdermem, hfound⟩ := List.mem_filterMap.1 (List.mem_dedup.1 hholds)
  split_ifs at hfound
  refine ⟨hsubject ▸ hfree, ?_, holder.subject, ?_⟩
  · obtain ⟨_, hmem⟩ | ⟨row, hrow, hsame, hnone⟩ := mem_membersUnder (hmember waiting hwaitingmem)
    · exact .inl (hsubject ▸ hmem)
    · exact .inr ⟨row, hrow, hsame.trans hsubject, hnone.trans hentity⟩
  · obtain hown | ⟨_, hbound⟩ := Option.or_eq_some_iff.1 hfound
    · obtain ⟨hnone, _⟩ | ⟨row, hrow, hsame, heq⟩ := mem_membersUnder (hmember holder hholdermem)
      · rw [hnone] at hown
        cases hown
      · exact .inr ⟨row, hrow, hsame, heq.trans hown⟩
    · exact .inl hbound

theorem matchExactNames_of (env : Env) (db : Tables) (stage : Stage) (rules : List ExactRule) (bound : IndexMap String String) :
    (matchExactNames env db stage rules bound).1.core = db.core ∧
      ∀ subject entity, (matchExactNames env db stage rules bound).2.get? subject = some entity →
        Joins db stage bound subject entity := by
  have hrun : ∀ (rule : ExactRule) (assertionOf : String → Json) (entries : List (String × String)) (s : Tables × IndexMap String String),
      (∀ entry ∈ entries, entry ∈ (waitingNames rule bound (env.arrange (membersUnder db stage).dedup)).entries) →
      (s.1.core = db.core ∧ ∀ subject entity, s.2.get? subject = some entity → Joins db stage bound subject entity) →
      let s' := entries.foldl (joinName rule bound (env.arrange (membersUnder db stage).dedup) assertionOf) s
      s'.1.core = db.core ∧ ∀ subject entity, s'.2.get? subject = some entity → Joins db stage bound subject entity := by
    intro rule assertionOf entries
    induction entries with
    | nil => exact fun s _ hs => hs
    | cons entry rest ih =>
        intro s hentries hs
        obtain ⟨hcore, hcases⟩ := joinName_cases bound rule (env.arrange (membersUnder db stage).dedup) assertionOf s entry
        refine ih _ (fun other hother => hentries other (List.mem_cons_of_mem _ hother)) ⟨hcore.trans hs.1, fun subject entity hsome => ?_⟩
        obtain hsame | ⟨joined, hjoined, hnew⟩ := hcases
        · exact hs.2 subject entity (hsame ▸ hsome)
        · rw [hnew, IndexMap.get?_insert] at hsome
          split_ifs at hsome with hkey
          · rw [hkey, ← Option.some_inj.1 hsome]
            exact joins_of (hentries entry List.mem_cons_self) hjoined
          · exact hs.2 subject entity hsome
  have hrules : ∀ (rules : List ExactRule) (assertionOf : String → Json) (s : Tables × IndexMap String String),
      (s.1.core = db.core ∧ ∀ subject entity, s.2.get? subject = some entity → Joins db stage bound subject entity) →
      let s' := rules.foldl (fun s rule => (waitingNames rule bound (env.arrange (membersUnder db stage).dedup)).entries.foldl
        (joinName rule bound (env.arrange (membersUnder db stage).dedup) assertionOf) s) s
      s'.1.core = db.core ∧ ∀ subject entity, s'.2.get? subject = some entity → Joins db stage bound subject entity := by
    intro rules assertionOf
    induction rules with
    | nil => exact fun s hs => hs
    | cons rule rest ih => exact fun s hs => ih _ (hrun rule assertionOf _ s (fun _ h => h) hs)
  exact hrules rules _ (db, .empty) ⟨rfl, fun _ _ h => (by cases h)⟩

end ExactNames

section Identifiers

variable {db : Tables} {bound : IndexMap String String}

/-- What the matching of identifiers leaves, over the decisions it made. -/
structure Matched.Of (env : Env) (settings : Settings) (fileNo : Nat) (db : Tables) (bound : IndexMap String String)
    (decided : List Object) (merging : Merging) (m : Matched) : Prop where
  merged : decided.foldlM (consolidate env settings.kind fileNo) ⟨db, .empty, []⟩ = .ok merging
  core : m.db.core = merging.db.core
  survivors : m.survivors = merging.survivors
  leads : ∀ subject entity, m.bound.get? subject = some entity → ∃ before, Matching.resolve merging.moved before = entity ∧
    (bound.get? subject = some before ∨ ∃ body ∈ decided, Matching.BindsTo body before ∧ readText body "subject" = .ok subject)
  kept : ∀ subject ∈ bound.keys, subject ∈ m.bound.keys

theorem bindSubject_eq_ok {moved : IndexMap String String} {s s' : Binding} {decision : Object}
    (h : bindSubject moved s decision = .ok s') : s' = s ∨ ∃ subject entity, Matching.BindsTo decision entity ∧
      readText decision "subject" = .ok subject ∧ s'.db.core = s.db.core ∧
        s'.bound = s.bound.insert subject (Matching.resolve moved entity) := by
  unfold bindSubject at h
  obtain ⟨operation, hoperation, h⟩ := Except.bind_eq_ok.1 h
  split_ifs at h with hbind
  · exact .inl (Except.ok.inj h).symm
  · rw [not_not] at hbind
    obtain ⟨subject, hsubject, h⟩ := Except.bind_eq_ok.1 h
    obtain ⟨entity, hentity, h⟩ := Except.bind_eq_ok.1 h
    obtain ⟨items, _, h⟩ := Except.bind_eq_ok.1 h
    obtain ⟨withheld, _, h⟩ := Except.bind_eq_ok.1 h
    rw [← Except.ok.inj h]
    exact .inr ⟨subject, entity, ⟨hbind ▸ hoperation, hentity⟩, hsubject, rfl, rfl⟩

theorem reviewRow_core {db db' : Tables} {review : Object} (h : reviewRow db review = .ok db') : db'.core = db.core := by
  unfold reviewRow at h
  obtain ⟨reason, _, h⟩ := Except.bind_eq_ok.1 h
  split at h <;> rw [← Except.ok.inj h]
  rfl

theorem carryOut_of {made : Matching.Results} {m : Matched} (h : carryOut env settings fileNo db bound made = .ok m) :
    ∃ merging, Matched.Of env settings fileNo db bound made.decisions merging m := by
  obtain ⟨merging, hmerging, h⟩ := Except.bind_eq_ok.1 h
  obtain ⟨binding, hbinding, h⟩ := Except.bind_eq_ok.1 h
  obtain ⟨reviewed, hreviewed, h⟩ := Except.bind_eq_ok.1 h
  rw [← Except.ok.inj h]
  have hcore : binding.db.core = merging.db.core :=
    Runs.run_keeps (fun s : Binding => s.db.core) hbinding fun body _ mid next hstep => by
      obtain rfl | ⟨_, _, _, _, hcore, _⟩ := bindSubject_eq_ok hstep
      · rfl
      · exact hcore
  have hreviews : reviewed.core = binding.db.core :=
    Runs.run_keeps Tables.core hreviewed fun _ _ _ _ hstep => reviewRow_core hstep
  have hbound := Runs.run_invariant (fun _ (mid : Binding) =>
    (∀ subject entity, mid.bound.get? subject = some entity → ∃ before, Matching.resolve merging.moved before = entity ∧
      (bound.get? subject = some before ∨
        ∃ body ∈ made.decisions, Matching.BindsTo body before ∧ readText body "subject" = .ok subject)) ∧
      ∀ subject ∈ bound.keys, subject ∈ mid.bound.keys) hbinding ?start ?step
  case start =>
    refine ⟨fun subject entity hsome => ?_, fun subject hmem => ?_⟩
    · rw [IndexMap.get?_mapValues] at hsome
      obtain ⟨before, hbefore, heq⟩ := Option.map_eq_some_iff.1 hsome
      exact ⟨before, heq, .inl hbefore⟩
    · rwa [IndexMap.keys_mapValues]
  case step =>
    intro front body back mid next hsplit hmid hstep
    obtain rfl | ⟨subject, entity, hbinds, hsubject, _, hbound⟩ := bindSubject_eq_ok hstep
    · exact hmid
    · rw [hbound]
      refine ⟨fun other found hsome => ?_, fun other hmem => IndexMap.mem_keys_insert.2 (.inr (hmid.2 other hmem))⟩
      rw [IndexMap.get?_insert] at hsome
      split_ifs at hsome with hkey
      · refine ⟨entity, Option.some_inj.1 hsome, .inr ⟨body, ?_, hbinds, hkey ▸ hsubject⟩⟩
        rw [hsplit]
        exact List.mem_append_right _ List.mem_cons_self
      · exact hmid.1 other found hsome
  exact ⟨merging, hmerging, hreviews.trans hcore, rfl, hbound.1, hbound.2⟩

/-- Where a batch's decisions come from: none are made, or its plan's records are linked. -/
def Decided (env : Env) (settings : Settings) (db : Tables) (records : List Object) (bound : IndexMap String String)
    (decided : List Object) : Prop :=
  decided = [] ∨ ∃ plan made, Matching.planRecordMatches env.forms env.test (planInputs env settings db records bound) = .ok plan ∧
    Matching.linkMatchingRecords env.matching (linkInputs env settings db plan) = .ok made ∧ made.decisions = decided

def decisionsOf (env : Env) (settings : Settings) (db : Tables) (records : List Object) (bound : IndexMap String String) :
    Except String (List Object) := do
  let plan ← Matching.planRecordMatches env.forms env.test (planInputs env settings db records bound)
  if plan.applicable.entries = [] then .ok [] else do
    let made ← Matching.linkMatchingRecords env.matching (linkInputs env settings db plan)
    .ok made.decisions

theorem decisionsOf_decided {records decided : List Object} (h : decisionsOf env settings db records bound = .ok decided) :
    Decided env settings db records bound decided := by
  unfold decisionsOf at h
  obtain ⟨plan, hplan, h⟩ := Except.bind_eq_ok.1 h
  split_ifs at h
  · exact .inl (Except.ok.inj h).symm
  · obtain ⟨made, hmade, h⟩ := Except.bind_eq_ok.1 h
    exact .inr ⟨plan, made, hplan, hmade, Except.ok.inj h⟩

theorem matchIdentifiers_of {records : List Object} {m : Matched}
    (h : matchIdentifiers env settings fileNo db records bound = .ok m) : ∃ decided merging,
      Matched.Of env settings fileNo db bound decided merging m ∧ decisionsOf env settings db records bound = .ok decided := by
  unfold matchIdentifiers at h
  obtain ⟨plan, hplan, h⟩ := Except.bind_eq_ok.1 h
  unfold decisionsOf
  rw [hplan, Except.bind_ok]
  split_ifs at h ⊢
  · rw [← Except.ok.inj h]
    exact ⟨[], ⟨db, .empty, []⟩, ⟨rfl, rfl, rfl, fun _ entity hsome => ⟨entity, rfl, .inl hsome⟩, fun _ hmem => hmem⟩, rfl⟩
  · obtain ⟨made, hmade, h⟩ := Except.bind_eq_ok.1 h
    obtain ⟨merging, hof⟩ := carryOut_of h
    refine ⟨made.decisions, merging, hof, ?_⟩
    rw [hmade]
    rfl

theorem Decided.free {records decided : List Object} (h : Decided env settings db records bound decided) {body : Object}
    (hbody : body ∈ decided) {entity subject : String} (hbinds : Matching.BindsTo body entity)
    (hsubject : readText body "subject" = .ok subject) :
    subject ∉ bound.keys ∧ ∃ record ∈ records, readText record "subject" = .ok subject := by
  obtain rfl | ⟨plan, made, hplan, hmade, rfl⟩ := h
  · cases hbody
  · have happlicable := Matching.link_binds_applicable hmade body hbody entity hbinds subject hsubject
    have hmem : subject ∈ plan.applicable.keys := by
      rw [linkInputs, Matching.MatchPlan.toPlan, IndexMap.mem_keys_ofList] at happlicable
      exact happlicable
    obtain ⟨items, hitems⟩ := SortedMap.mem_keys_iff.1 hmem
    obtain ⟨hrecords, _, _, _, _, hplanned⟩ := Matching.planRecordMatches_get? hplan
    obtain ⟨_, hfree, record, hrecord, _⟩ := (hplanned subject items).1 hitems
    obtain ⟨hassertion, hread, _⟩ := Matching.newestRecords_get? hrecords hrecord
    refine ⟨fun hkey => ?_, record, hassertion, hread⟩
    have htaken := of_decide_eq_false hfree
    exact htaken (.inl ⟨hkey, fun h => List.not_mem_nil h⟩)

theorem mem_stage_subjects {records : List Object} {stage : Stage} (h : stageFile records = .ok stage) {record : Object}
    (hrecord : record ∈ records) {subject : String} (hsubject : readText record "subject" = .ok subject) :
    subject ∈ stage.subjects := by
  obtain ⟨staged, hstaged, h⟩ := Except.bind_eq_ok.1 h
  obtain ⟨_, _, h⟩ := Except.bind_eq_ok.1 h
  obtain ⟨_, _, h⟩ := Except.bind_eq_ok.1 h
  rw [← Except.ok.inj h]
  obtain ⟨row, hrow, hread⟩ := Runs.forall₂_exists_right (Runs.mapM_eq_ok.1 hstaged) hrecord
  refine Sorting.mem_distinct.2 (List.mem_map.2 ⟨row, hrow, ?_⟩)
  obtain ⟨_, _, hread⟩ := Except.bind_eq_ok.1 hread
  obtain ⟨own, hown, hread⟩ := Except.bind_eq_ok.1 hread
  obtain ⟨_, _, hread⟩ := Except.bind_eq_ok.1 hread
  obtain ⟨_, _, hread⟩ := Except.bind_eq_ok.1 hread
  rw [← Except.ok.inj hread]
  exact Except.ok.inj (hown.symm.trans hsubject)

end Identifiers

end EdgarPlatform.Mastering
