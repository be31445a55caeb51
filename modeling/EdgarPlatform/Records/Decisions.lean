import EdgarPlatform.Records.Values
import EdgarPlatform.Identity.Replay

/-!
# Reading decisions from their records

A stored decision is a JSON object. The replay reads those in effect into the decisions of the identity kernel: an operand is read only for the operations that use it, and a merge another decision undoes is read without its survivor and its dependencies.
-/

namespace EdgarPlatform.Records

open Identities (Identity Decision Op State)

/-- The calendar the texts of instants are read and written with. Instants are in nanoseconds. -/
structure Calendar where
  read : String → Option Int
  /-- The text of a decision's time, by the microsecond it falls in. -/
  write : Int → String
  /-- The text of an instant in full. -/
  rfc3339 : Int → String
  /-- The last instant there is. -/
  last : Int

def Calendar.ofTable (times : List (String × Int)) : Calendar where
  read raw := (times.find? fun entry => entry.1 = raw).map Prod.snd
  write time := ((times.find? fun entry => entry.2 / 1000 = time / 1000).map Prod.fst).getD ""
  rfc3339 time := ((times.find? fun entry => entry.2 = time).map Prod.fst).getD ""
  last := 8210266876799 * 10 ^ 9

/-- The calendar and the digest the texts are read and hashed with. -/
structure Env where
  calendar : Calendar
  digest : String → String

def Calendar.readTime (calendar : Calendar) (raw : String) : Except String Int :=
  match calendar.read raw with
  | none => .error "Effective time must include a timezone"
  | some time => .ok time

def micros (time : Int) : Int := time / 1000

def readOptionalText (body : Object) (name : String) : Except String (Option String) :=
  match body.get? name with
  | none => .ok none
  | some .null => .ok none
  | some (.str value) => .ok (some value)
  | some _ => .error "Invalid record value"

def readRecordKey (body : Object) (name : String) : Option String :=
  (body.get? name).map fun value =>
    match value with
    | .str value => value
    | .null => "None"
    | .bool true => "True"
    | .bool false => "False"
    | other => writeJson false other

def readInstant (calendar : Calendar) (body : Object) (name : String) : Except String Int := do
  let raw ← readText body name
  let time ← calendar.readTime raw
  .ok (micros time)

def readIdentity (calendar : Calendar) (body : Object) : Except String Identity := do
  let id ← (readRecordKey body "entity_id").elim (.error "Missing identity") .ok
  let kind ← readText body "kind"
  let published ← readInstant calendar body "published_at"
  .ok { id, kind, published }

/-- What reading one decision needs of the others in effect. -/
structure Effective where
  /-- The ids some reversal or revocation names. -/
  revoked : Finset String
  operations : IndexMap String String

def isUndoing (operation : String) : Bool := operation = "reverse" ∨ operation = "revoke"

def readEffective (bodies : List Object) : Except String Effective :=
  bodies.foldlM (fun found body => do
    let operation ← readText body "operation"
    let id ← readText body "decision_id"
    let operations := found.operations.insert id operation
    let revoked := match body.get? "target" with
      | some (.str target) => if isUndoing operation then insert target found.revoked else found.revoked
      | _ => found.revoked
    .ok { revoked, operations }) ⟨∅, .empty⟩

/-- The subject and the entity are read for a bind, a quarantine and the revocation of a bind. -/
def namesRecord (effective : Effective) (operation : String) (target : Option String) : Bool :=
  operation = "bind" ∨ operation = "quarantine" ∨
    operation = "revoke" ∧ (target.bind effective.operations.get?) = some "bind"

def readWhen {α : Type} (condition : Prop) [Decidable condition] (read : Except String (Option α)) :
    Except String (Option α) :=
  if condition then read else .ok none

def readDepends (body : Object) : Except String (Option (List String)) :=
  match body.get? "depends_on" with
  | none => .ok none
  | some value => do
      let ids ← readTexts value
      .ok (some ids)

def readExpiry (calendar : Calendar) (body : Object) : Except String (Option Int) := do
  let expires ← readInstant calendar body "expires_at"
  .ok (some expires)

def readDecision (calendar : Calendar) (effective : Effective) (body : Object) : Except String Decision := do
  let time ← readInstant calendar body "at"
  let id ← readText body "decision_id"
  let operation ← readText body "operation"
  let target ← readWhen (isUndoing operation) (readOptionalText body "target")
  let named := namesRecord effective operation target
  let liveMerge : Prop := operation = "merge" ∧ id ∉ effective.revoked
  let evidence := hasValue body "evidence"
  let expires ← readWhen
    (operation = "override" ∧ id ∉ effective.revoked ∧ evidence = true ∧ hasValue body "expires_at" = true)
    (readExpiry calendar body)
  let subject ← readWhen named (readOptionalText body "subject")
  let survivor ← readWhen (liveMerge ∧ hasValue body "survivor" = true) (readOptionalText body "survivor")
  let source ← readWhen (operation = "retire_source") (readOptionalText body "source_code")
  let depends ← readWhen liveMerge (readDepends body)
  .ok
    { id, time, op := Op.read operation, target, subject
      entity := if named then readRecordKey body "entity_id" else none
      left := readRecordKey body "left"
      right := readRecordKey body "right"
      survivor, source, expires, evidence
      depends := depends.getD []
      entityPresent := hasValue body "entity_id" }

def readDecisions (calendar : Calendar) (bodies : List Object) : Except String (List Decision) := do
  let effective ← readEffective bodies
  bodies.mapM (readDecision calendar effective)

variable {name : String}

theorem Op.read_eq_merge : Op.read name = .merge ↔ name = "merge" := by
  unfold Op.read
  split <;> simp_all

theorem Op.read_eq_exclude : Op.read name = .exclude ↔ name = "exclude" := by
  unfold Op.read
  split <;> simp_all

theorem Op.read_eq_reverse : Op.read name = .reverse ↔ name = "reverse" := by
  unfold Op.read
  split <;> simp_all

theorem Op.read_eq_revoke : Op.read name = .revoke ↔ name = "revoke" := by
  unfold Op.read
  split <;> simp_all

/-- The fields of a decision that are read from its record whatever else is in effect, and those read where it is live. -/
structure Decoded (calendar : Calendar) (effective : Effective) (body : Object) (d : Decision) : Prop where
  time : readInstant calendar body "at" = .ok d.time
  id : readText body "decision_id" = .ok d.id
  operation : ∃ name, readText body "operation" = .ok name ∧ d.op = Op.read name
  target : d.op = .reverse ∨ d.op = .revoke → readOptionalText body "target" = .ok d.target
  left : d.left = readRecordKey body "left"
  right : d.right = readRecordKey body "right"

theorem isUndoing_iff : isUndoing name = true ↔ Op.read name = .reverse ∨ Op.read name = .revoke := by
  simp [isUndoing, Op.read_eq_reverse, Op.read_eq_revoke]

theorem readDecision_decoded {calendar : Calendar} {effective : Effective} {body : Object} {d : Decision}
    (h : readDecision calendar effective body = .ok d) : Decoded calendar effective body d := by
  simp only [readDecision, Except.bind_eq_ok, Except.ok.injEq] at h
  obtain ⟨time, htime, id, hid, name, hname, target, htarget, expires, _, subject, _, survivor, _, source, _,
    depends, _, rfl⟩ := h
  refine ⟨htime, hid, ⟨name, hname, rfl⟩, fun hop => ?_, rfl, rfl⟩
  rwa [readWhen, if_pos (isUndoing_iff.2 hop)] at htarget

theorem readDecisions_decoded {calendar : Calendar} {bodies : List Object} {decisions : List Decision}
    (h : readDecisions calendar bodies = .ok decisions) :
    ∃ effective, List.Forall₂ (Decoded calendar effective) bodies decisions := by
  simp only [readDecisions, Except.bind_eq_ok, Runs.mapM_eq_ok] at h
  obtain ⟨effective, _, hdecisions⟩ := h
  exact ⟨effective, hdecisions.imp fun _ _ => readDecision_decoded⟩

theorem readText_of_optional {body : Object} {name value : String} (h : readOptionalText body name = .ok (some value)) :
    readText body name = .ok value := by
  unfold readOptionalText at h
  unfold readText
  split at h <;> simp_all

theorem readRecordKey_of_text {body : Object} {name value : String} (h : readText body name = .ok value) :
    readRecordKey body name = some value := by
  unfold readText at h
  unfold readRecordKey
  split at h <;> simp_all

end EdgarPlatform.Records
