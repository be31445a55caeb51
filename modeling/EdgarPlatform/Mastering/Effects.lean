import EdgarPlatform.Mastering.Feed

/-!
# What a file does to the tables

A file moves masters, stores its records with the masters it found for their subjects, and writes the masters it touched. What it left of a master, of a record and of a held value follows from these three alone. A file that is skipped, or that holds no record, moves and touches nothing.
-/

namespace EdgarPlatform.Mastering

open Records (Json Object readText)

variable {env : Env} {settings : Settings} {fileNo : Nat} {db db' : Tables} {stage : List Staged} {moved held : IndexMap String String}
  {masters : IndexMap String Object}

/-- The rows of a subject are bound to one master, or all to none. -/
def One (db : Tables) : Prop :=
  ∀ row ∈ db.records.values, ∀ other ∈ db.records.values, row.subject = other.subject → row.entity = other.entity

theorem One.unique (h : One db) {subject left right : String} (hleft : Bound db subject left) (hright : Bound db subject right) :
    left = right := by
  obtain ⟨row, hrow, hsubject, hentity⟩ := hleft
  obtain ⟨other, hother, hsubject', hentity'⟩ := hright
  have hsame := h row hrow other hother (hsubject.trans hsubject'.symm)
  rw [hentity, hentity'] at hsame
  exact Option.some_inj.1 hsame

structure Effect (env : Env) (kind : String) (fileNo : Nat) (db db' : Tables) (stage : List Staged)
    (moved held : IndexMap String String) (written : IndexMap String Object) : Prop where
  ends : Forest.Ends moved.get?
  /-- A stored master moves to a stored one. -/
  stored : ∀ gone keep, moved.get? gone = some keep → gone ∈ db.masters.keys → keep ∈ db.masters.keys
  /-- The masters found have not moved. -/
  root : ∀ subject entity, held.get? subject = some entity → moved.get? entity = none
  /-- A subject of the file that is bound has a master. -/
  covers : ∀ staged ∈ stage, ∀ entity, Bound db staged.subject entity → staged.subject ∈ held.keys
  /-- A subject that is bound to one master follows it. -/
  follows : One db → ∀ subject entity, held.get? subject = some entity → ∀ before, Bound db subject before →
    entity = Matching.resolve moved before
  touched : ∀ entity, entity ∈ written.keys ↔
    entity ∈ held.values ∨ moved.get? entity = none ∧ ∃ gone, moved.get? gone = some entity
  own : ∀ entity body, written.get? entity = some body → Own entity body
  rows : ∀ entity, db'.masters.get? entity =
    (written.get? entity).elim
      ((moved.get? entity).elim (db.masters.get? entity) fun keep => (db.masters.get? entity).map (awayRow env.now fileNo kind keep entity))
      fun body => some (writtenRow env.now fileNo (db.masters.get? entity) body)
  records : ∀ assertion, db'.records.get? assertion =
    (((db.records.get? assertion).map (RecordRow.moved moved)).or
      ((stage.find? fun staged => staged.assertion = assertion).map (stagedRow held))).map (followSubject held)
  carried : ∀ row ∈ db.identifiers, (row.1, row.2.1, Matching.resolve moved row.2.2) ∈ db'.identifiers
  added : ∀ entity body, written.get? entity = some body → ∀ value ∈ identifiersOf body, (value.1, value.2, entity) ∈ db'.identifiers
  identifiers : ∀ row ∈ db'.identifiers,
    (∃ other, (row.1, row.2.1, other) ∈ db.identifiers ∧ Matching.resolve moved other = row.2.2) ∨ row.2.2 ∈ written.keys

variable {delivery : Delivery}

variable {p : Passage} {subject entity : String}

theorem Passage.Of.known (h : p.Of env settings db delivery)
    (hsubject : subject ∈ p.stage.subjects) (hbound : Bound db subject entity) : subject ∈ p.known.keys := by
  obtain ⟨decided, merging, hmatched, _⟩ := matchIdentifiers_of h.matched
  have hfound : subject ∈ (boundOf env (withNameKeys db p.stage) p.stage.subjects).keys := boundOf_contains hsubject hbound
  obtain ⟨found, hget⟩ := IndexMap.mem_keys_iff.1 (hmatched.kept subject hfound)
  have hnaming := (naming_of h.naming).kept subject found hget
  rw [Passage.known, IndexMap.mem_keys_extend]
  exact .inl (IndexMap.mem_keys_of_get? hnaming)

theorem Passage.Of.covers (h : p.Of env settings db delivery)
    (hsubject : subject ∈ p.stage.subjects) (hbound : Bound db subject entity) : subject ∈ (p.held env).keys := by
  have hknown : subject ∈ (p.bound env).keys := by
    rw [Passage.bound, IndexMap.mem_keys_extend]
    exact .inl (h.known hsubject hbound)
  obtain ⟨last, hlast⟩ := IndexMap.mem_keys_iff.1 hknown
  rw [Passage.held, heldOf, IndexMap.mem_keys_extend, IndexMap.mem_keys_ofList]
  refine .inl (List.mem_map.2 ⟨(subject, last), List.mem_filterMap.2 ⟨subject, hsubject, ?_⟩, rfl⟩)
  rw [hlast]
  rfl

theorem Passage.Of.not_joined (h : p.Of env settings db delivery) (hone : One db)
    {decided : List Object} {merging : Merging}
    (hmatched : Matched.Of env settings (lastFile db + 1) (withNameKeys db p.stage)
      (boundOf env (withNameKeys db p.stage) p.stage.subjects) decided merging p.matched)
    (hbound : Bound db subject entity) :
    p.naming.named.get? subject = none ∧ (p.exact env).2.get? subject = none := by
  have hmerging := merging_of hmatched.merged
  have hrecords : p.matched.db.records = merging.db.records := records_of_core hmatched.core
  constructor
  · rw [IndexMap.get?_eq_none_iff]
    intro hmem
    refine ((naming_of h.naming).free subject hmem).2 (Matching.resolve merging.moved entity) ?_
    rw [Bound, hrecords]
    exact hmerging.bound.2 ⟨entity, hbound, rfl⟩
  · by_contra hsome
    obtain ⟨joined, hjoined⟩ := Option.ne_none_iff_exists'.1 hsome
    have hjoins := (matchExactNames_of env p.compared p.stage p.exactRules p.known).2 subject joined hjoined
    obtain hstaged | ⟨row, hrow, hsubject, hnone⟩ := hjoins.waits
    · exact IndexMap.get?_eq_none_iff.1 hjoins.free (h.known hstaged hbound)
    · have hmoved : row ∈ (db.records.mapValues (RecordRow.moved merging.moved)).values := by
        have hkeyed : merging.db.records = db.records.mapValues (RecordRow.moved merging.moved) := hmerging.records
        rw [← hkeyed, ← hrecords]
        exact hrow
      obtain ⟨assertion, hget⟩ := IndexMap.mem_values_iff.1 hmoved
      rw [IndexMap.get?_mapValues] at hget
      obtain ⟨old, hold, rfl⟩ := Option.map_eq_some_iff.1 hget
      obtain ⟨other, hother, hsame, hentity⟩ := hbound
      have hunbound : old.entity = none := Option.map_eq_none_iff.1 hnone
      rw [hone old (IndexMap.mem_values_of_get? hold) other hother (hsubject.trans hsame.symm), hentity] at hunbound
      cases hunbound

theorem Passage.Of.follows (h : p.Of env settings db delivery) (hone : One db)
    {decided : List Object} {merging : Merging}
    (hmatched : Matched.Of env settings (lastFile db + 1) (withNameKeys db p.stage)
      (boundOf env (withNameKeys db p.stage) p.stage.subjects) decided merging p.matched)
    (hdecided : Decided env settings (withNameKeys db p.stage) delivery.records
      (boundOf env (withNameKeys db p.stage) p.stage.subjects) decided)
    {subject entity before : String} (hheld : (p.held env).get? subject = some entity) (hbound : Bound db subject before) :
    entity = Matching.resolve merging.moved before := by
  obtain ⟨hnamed, hexact⟩ := h.not_joined hone hmatched hbound
  have hmerging := merging_of hmatched.merged
  have hknown : p.naming.bound.get? subject = some entity := by
    have hjoined : ∀ other, (subject, other) ∈ (p.exact env).2.entries → False := fun other hmem => by
      rw [← IndexMap.get?_eq_some_iff, hexact] at hmem
      cases hmem
    obtain hfound | hfound := held_cases hheld
    · obtain hnew | hold := IndexMap.get?_extend_cases hfound
      · exact (hjoined entity hnew).elim
      · obtain hnew | hold := IndexMap.get?_extend_cases hold
        · rw [← IndexMap.get?_eq_some_iff, hnamed] at hnew
          cases hnew
        · exact hold
    · obtain hnew | hold := IndexMap.get?_extend_cases hfound
      · exact (hjoined entity hnew).elim
      · rw [hnamed] at hold
        cases hold
  obtain hleads | hstored := (naming_of h.naming).grown subject entity hknown
  · obtain ⟨first, rfl, hfirst | ⟨body, hbody, hbinds, hsubject⟩⟩ := hmatched.leads subject entity hleads
    · exact congrArg (Matching.resolve merging.moved) (hone.unique (bound_of_boundOf hfirst).2 hbound)
    · obtain ⟨hfree, record, hrecord, hread⟩ := hdecided.free hbody hbinds hsubject
      exact absurd (boundOf_contains (mem_stage_subjects h.stage hrecord hread) hbound) hfree
  · rw [Bound, records_of_core hmatched.core] at hstored
    obtain ⟨first, hfirst, rfl⟩ := hmerging.bound.1 hstored
    exact congrArg (Matching.resolve merging.moved) (hone.unique hfirst hbound)

/-- A file's records as they are staged, and the tables they are matched against. -/
def openFile (db : Tables) (delivery : Delivery) : Except String (Tables × Stage) := do
  let deferred ← delivery.deferred.mapM (deferredRow delivery.quiet)
  let stage ← stageFile delivery.records
  .ok (withNameKeys (addDeferred db deferred) stage, stage)

def fileDecisions (env : Env) (settings : Settings) (db : Tables) (delivery : Delivery) : Except String (List Object) := do
  let opened ← openFile db delivery
  decisionsOf env settings opened.1 delivery.records (boundOf env opened.1 opened.2.subjects)

def mergesOf (env : Env) (settings : Settings) (db : Tables) (delivery : Delivery) (decided : List Object) : Except String Merging := do
  let opened ← openFile db delivery
  decided.foldlM (consolidate env settings.kind (lastFile db + 1)) ⟨opened.1, .empty, []⟩

def isSkipped (env : Env) (db : Tables) (delivery : Delivery) : Bool :=
  (fileKey env delivery).toOption.any fun key => fileDone db key && !delivery.again

/-- The masters a file merges away, each with the one it joins. -/
def movesOf (env : Env) (settings : Settings) (db : Tables) (delivery : Delivery) : IndexMap String String :=
  if isSkipped env db delivery ∨ delivery.records = [] then .empty
  else ((fileDecisions env settings db delivery >>= mergesOf env settings db delivery).toOption.map Merging.moved).getD .empty

end EdgarPlatform.Mastering
