import EdgarPlatform.Library.Machines
import EdgarPlatform.Mastering.Effects

/-!
# Consistent tables

What the tables keep over any files: the rows of a record are bound to one master, a master that holds records or values is stored under a body of its own, a master that was merged away leads to such a one, and what a master's body holds is stored for it. Values are only added: those a later reading no longer has stay with the master that had them.
-/

namespace EdgarPlatform.Mastering

open Records (Json Object)

variable {env : Env} {kind : String} {fileNo : Nat} {db db' : Tables} {stage : List Staged} {moved held : IndexMap String String}
  {written : IndexMap String Object}

def Canonical (db : Tables) (entity : String) : Prop := ∃ row, db.masters.get? entity = some row ∧ Own entity row.body

def nextMaster (db : Tables) (entity : String) : Option String :=
  match (db.masters.get? entity).bind fun row => row.body.get? "canonical_id" with
  | some (.str next) => if next = entity then none else some next
  | _ => none

theorem nextMaster_eq {entity next : String} {row : MasterRow} (h : db.masters.get? entity = some row)
    (hbody : row.body.get? "canonical_id" = some (.str next)) :
    nextMaster db entity = if next = entity then none else some next := by
  unfold nextMaster
  simp only [h, Option.bind_some, hbody]

theorem Canonical.next {entity : String} (h : Canonical db entity) : nextMaster db entity = none := by
  obtain ⟨row, hrow, hown⟩ := h
  rw [nextMaster_eq hrow hown.2, if_pos rfl]

variable {entity : String}

theorem mem_keys_of_next (h : nextMaster db entity ≠ none) : entity ∈ db.masters.keys := by
  by_contra hmem
  rw [nextMaster, IndexMap.get?_eq_none_iff.2 hmem] at h
  exact h rfl

variable (fileNo) in
@[simp] theorem writtenRow_body (now : Int) (old : Option MasterRow) (body : Object) : (writtenRow now fileNo old body).body = body := by
  cases old with
  | none => rfl
  | some row =>
      show (if row.body = body then row else _ : MasterRow).body = body
      split_ifs with hsame
      · exact hsame
      · rfl

theorem mergedAway_canonical (kind keep gone : String) : (mergedAway kind keep gone).get? "canonical_id" = some (.str keep) := by
  rw [mergedAway, IndexMap.get?_ofList_eq (by simp only [List.map_cons, List.map_nil]; decide)]
  rfl

theorem resolve_target {x : String} (h : Matching.resolve moved x ≠ x) : ∃ gone, moved.get? gone = some (Matching.resolve moved x) :=
  (Matching.resolveLoop_cases moved (moved.size + 1) x).resolve_left h

theorem Effect.row_of_written (h : Effect env kind fileNo db db' stage moved held written) {body : Object}
    (hbody : written.get? entity = some body) : ∃ row, db'.masters.get? entity = some row ∧ row.body = body := by
  refine ⟨_, ?_, writtenRow_body fileNo env.now (db.masters.get? entity) body⟩
  rw [h.rows, hbody]
  rfl

theorem Effect.row_of_moved (h : Effect env kind fileNo db db' stage moved held written) {entity keep : String}
    (hwritten : entity ∉ written.keys) (hmoved : moved.get? entity = some keep) (hstored : entity ∈ db.masters.keys) :
    ∃ row, db'.masters.get? entity = some row ∧ row.body = mergedAway kind keep entity := by
  obtain ⟨row, hrow⟩ := IndexMap.mem_keys_iff.1 hstored
  refine ⟨awayRow env.now fileNo kind keep entity row, ?_, writtenRow_body _ _ _ _⟩
  rw [h.rows, IndexMap.get?_eq_none_iff.2 hwritten, hmoved, hrow]
  rfl

theorem Effect.row_of_kept (h : Effect env kind fileNo db db' stage moved held written)
    (hwritten : entity ∉ written.keys) (hmoved : moved.get? entity = none) :
    db'.masters.get? entity = db.masters.get? entity := by
  rw [h.rows, IndexMap.get?_eq_none_iff.2 hwritten, hmoved]
  rfl

theorem Effect.canonical_of_written (h : Effect env kind fileNo db db' stage moved held written)
    (hwritten : entity ∈ written.keys) : Canonical db' entity := by
  obtain ⟨body, hbody⟩ := IndexMap.mem_keys_iff.1 hwritten
  obtain ⟨row, hrow, heq⟩ := h.row_of_written hbody
  exact ⟨row, hrow, heq ▸ h.own entity body hbody⟩

theorem Effect.canonical_of_target (h : Effect env kind fileNo db db' stage moved held written)
    (hroot : moved.get? entity = none) (htarget : ∃ gone, moved.get? gone = some entity) : Canonical db' entity :=
  h.canonical_of_written ((h.touched entity).2 (.inr ⟨hroot, htarget⟩))

theorem Effect.canonical (h : Effect env kind fileNo db db' stage moved held written)
    (hcanonical : Canonical db entity) : Canonical db' (Matching.resolve moved entity) := by
  have hroot := Matching.resolve_root h.ends entity
  by_cases hsame : Matching.resolve moved entity = entity
  · rw [hsame] at hroot ⊢
    by_cases hwritten : entity ∈ written.keys
    · exact h.canonical_of_written hwritten
    · obtain ⟨row, hrow, hown⟩ := hcanonical
      exact ⟨row, (h.row_of_kept hwritten hroot).trans hrow, hown⟩
  · exact h.canonical_of_target hroot (resolve_target hsame)

theorem Effect.next_of_moved (h : Effect env kind fileNo db db' stage moved held written) {gone keep : String}
    (hwritten : gone ∉ written.keys) (hmoved : moved.get? gone = some keep) (hstored : gone ∈ db.masters.keys) :
    nextMaster db' gone = some keep := by
  obtain ⟨row, hrow, hbody⟩ := h.row_of_moved hwritten hmoved hstored
  rw [nextMaster_eq hrow (by rw [hbody]; exact mergedAway_canonical kind keep gone), if_neg (h.ends.next_ne hmoved)]

def Leads (db : Tables) (entity : String) : Prop := ∃ root, Forest.Climbs (nextMaster db) entity root ∧ Canonical db root

theorem Canonical.leads (h : Canonical db entity) : Leads db entity := ⟨entity, .stop h.next, h⟩

theorem Leads.step {entity next : String} (h : Leads db next) (hnext : nextMaster db entity = some next) : Leads db entity := by
  obtain ⟨root, hclimbs, hcanonical⟩ := h
  exact ⟨root, .step hnext hclimbs, hcanonical⟩

theorem Effect.leads_of_moved (h : Effect env kind fileNo db db' stage moved held written) {entity root : String}
    (hclimbs : Forest.Climbs moved.get? entity root) (hstored : entity ∈ db.masters.keys)
    (htarget : moved.get? entity = none → ∃ gone, moved.get? gone = some entity) : Leads db' entity := by
  induction hclimbs with
  | stop hnone => exact (h.canonical_of_target hnone (htarget hnone)).leads
  | @step gone keep _ hmoved _ ih =>
      by_cases hwritten : gone ∈ written.keys
      · exact (h.canonical_of_written hwritten).leads
      · exact (ih (h.stored gone keep hmoved hstored) fun _ => ⟨gone, hmoved⟩).step (h.next_of_moved hwritten hmoved hstored)

theorem Effect.leads (h : Effect env kind fileNo db db' stage moved held written) {entity root : String}
    (hclimbs : Forest.Climbs (nextMaster db) entity root) (hcanonical : Canonical db root) : Leads db' entity := by
  have hmoves : ∀ x, x ∈ db.masters.keys → x ∉ written.keys → moved.get? x ≠ none → Leads db' x := by
    intro x hstored _ hmoved
    obtain ⟨last, hlast⟩ := h.ends x
    exact h.leads_of_moved hlast hstored fun hnone => absurd hnone hmoved
  induction hclimbs with
  | @stop x hnone =>
      by_cases hwritten : x ∈ written.keys
      · exact (h.canonical_of_written hwritten).leads
      · by_cases hmoved : moved.get? x = none
        · obtain ⟨row, hrow, hown⟩ := hcanonical
          exact Canonical.leads ⟨row, (h.row_of_kept hwritten hmoved).trans hrow, hown⟩
        · obtain ⟨row, hrow, _⟩ := hcanonical
          exact hmoves x (IndexMap.mem_keys_of_get? hrow) hwritten hmoved
  | @step x y _ hnext _ ih =>
      have hstored : x ∈ db.masters.keys := mem_keys_of_next (by rw [hnext]; exact Option.some_ne_none y)
      by_cases hwritten : x ∈ written.keys
      · exact (h.canonical_of_written hwritten).leads
      · by_cases hmoved : moved.get? x = none
        · refine (ih hcanonical).step ?_
          rw [nextMaster, h.row_of_kept hwritten hmoved]
          exact hnext
        · exact hmoves x hstored hwritten hmoved

structure Consistent (db : Tables) : Prop where
  one : ∀ row ∈ db.records.values, ∀ other ∈ db.records.values, row.subject = other.subject → row.entity = other.entity
  bound : ∀ subject entity, Bound db subject entity → Canonical db entity
  leads : ∀ entity ∈ db.masters.keys, Leads db entity
  named : ∀ row ∈ db.identifiers, Canonical db row.2.2
  holds : ∀ entity row, db.masters.get? entity = some row → Own entity row.body →
    ∀ value ∈ identifiersOf row.body, (value.1, value.2, entity) ∈ db.identifiers

theorem Consistent.empty : Consistent .empty where
  one := fun _ hrow => (List.not_mem_nil hrow).elim
  bound := by
    rintro _ _ ⟨_, hrow, _⟩
    cases hrow
  leads := fun _ hentity => (List.not_mem_nil hentity).elim
  named := fun _ hrow => (List.not_mem_nil hrow).elim
  holds := fun _ _ hrow => by cases hrow

theorem Effect.free (h : Effect env kind fileNo db db' stage moved held written) {subject : String} (hmem : subject ∉ held.keys)
    (hstaged : ∃ staged ∈ stage, staged.subject = subject) {old : RecordRow} (hold : old ∈ db.records.values)
    (hsubject : old.subject = subject) : old.entity.map (Matching.resolve moved) = none := by
  obtain ⟨staged, hmemStaged, heq⟩ := hstaged
  cases hentity : old.entity with
  | none => rfl
  | some entity =>
      have hcovered := h.covers staged hmemStaged entity ⟨old, hold, hsubject.trans heq.symm, hentity⟩
      exact absurd (heq ▸ hcovered) hmem

/-- A file with what it is merged with. -/
structure Call where
  env : Env
  settings : Settings
  delivery : Delivery

def perform (db : Tables) (call : Call) : Except String (Merged × Tables) := mergeFile call.env call.settings db call.delivery

/-- A canonical master is stored with the values its body holds, and with no other. -/
def Exact (db : Tables) : Prop :=
  ∀ entity row, db.masters.get? entity = some row → Own entity row.body →
    ∀ value, (value.1, value.2, entity) ∈ db.identifiers ↔ value ∈ identifiersOf row.body

def companyCall (newId : Nat → String) (records : List Object) : Call := ⟨plainEnv newId 1, gleifSettings, deliver records⟩

end EdgarPlatform.Mastering
