import EdgarPlatform.Control.Journal
import EdgarPlatform.Library.Firsts
import EdgarPlatform.Library.Machines

/-!
# The journal's storage engines

A prepared event is stored by a routine of the database it goes to, and there are three. Each reads the body again, checks what it is given in its own words, and keeps the first row of a producer and key. They differ in what their types take: PostgreSQL has no text with the character U+0000 and reads the time of an event as a time, the other two hold that time as a text of at most 100 characters.

The routines are given what was prepared. In such a body the seven columns are texts and every key is there once, so which of two values of a key an engine would take is left out.
-/

namespace EdgarPlatform.Control

open JsonText

/-- A row of the event table. -/
structure EventRow where
  producer : String
  eventKey : String
  keyHash : String
  runId : String
  source : String
  feed : String
  eventType : String
  occurredAt : String
  canonicalBody : String
  canonicalHash : String
  deriving DecidableEq

def EventRow.key (row : EventRow) : String × String := (row.producer, row.keyHash)

inductive Refusal where
  /-- What was prepared is not what the routine takes. -/
  | invalid
  /-- A text with the character U+0000. -/
  | unicode
  /-- A text that is not one of the column's type. -/
  | cast
  | tooLong
  | conflict
  deriving DecidableEq

/-- The casts of PostgreSQL, to the text each value is shown as. -/
structure Casts where
  castUuid : String → Option String
  castStamp : String → Option String

def isNull : Piece → Bool
  | .code a b c d => a = '0' && b = '0' && c = '0' && d = '0'
  | _ => false

mutual
/-- Some text of a document, or some key, has the character U+0000. -/
def holdsNull : Doc → Bool
  | .plain _ => false
  | .text pieces => pieces.any isNull
  | .array items => itemsHoldNull items
  | .object fields => fieldsHoldNull fields

def itemsHoldNull : List Doc → Bool
  | [] => false
  | item :: rest => holdsNull item || itemsHoldNull rest

def fieldsHoldNull : List (List Piece × Doc) → Bool
  | [] => false
  | (key, value) :: rest => key.any isNull || holdsNull value || fieldsHoldNull rest
end

/-- The body is written with the character U+0000 in a text of it. -/
def writesNull (body : String) : Bool := (parse body.toList).any holdsNull

/-- A value the routine goes on with, or the refusal it raises. -/
def orRefuse {α : Type} (refusal : Refusal) : Option α → Except Refusal α
  | none => .error refusal
  | some value => .ok value

def checkPrepared (condition : Bool) (refusal : Refusal) : Except Refusal Unit := if condition then .ok () else .error refusal

def readObject (body : String) : Except Refusal Body :=
  orRefuse .invalid (((parse body.toList).bind fun document => (readBody invalidControlValue document).toOption))

def readColumn (p : Body) (key : String) : Except Refusal String := orRefuse .invalid (text p key).toOption

/-- The row a body is stored as, its columns as the body has them. -/
def readRow (digest : String → String) (body hash : String) (p : Body) : Except Refusal EventRow := do
  let producer ← readColumn p "producer"
  let eventKey ← readColumn p "event_key"
  let runId ← readColumn p "run_id"
  let source ← readColumn p "source"
  let feed ← readColumn p "feed"
  let eventType ← readColumn p "event_type"
  let occurredAt ← readColumn p "occurred_at"
  .ok ⟨producer, eventKey, digest eventKey, runId, source, feed, eventType, occurredAt, body, hash⟩

def hasVersion (p : Body) : Bool := (p.get? "version").any fun version => isToken version "1"

variable (tools : Tools) (casts : Casts)

def EventRow.agrees (row prior : EventRow) : Bool :=
  prior.eventKey = row.eventKey && prior.canonicalBody = row.canonicalBody && prior.canonicalHash = row.canonicalHash

/-- The row the table has for a key is compared with the row the call was to store. -/
def confirm (rows : List EventRow) (row : EventRow) : Except Refusal (List EventRow) := do
  checkPrepared ((Firsts.held EventRow.key rows row.key).all row.agrees) .conflict
  .ok rows

def postgresRow (body hash : String) : Except Refusal EventRow := do
  checkPrepared (!writesNull body) .unicode
  let p ← readObject body
  let row ← readRow tools.digest body hash p
  checkPrepared (validHash hash && body.utf8ByteSize ≤ 1048576 && tools.digest body = hash && hasVersion p &&
    exactKeys p eventKeys && (1 ≤ row.eventKey.toList.length && row.eventKey.toList.length ≤ 2048)) .invalid
  let runId ← orRefuse .cast (casts.castUuid row.runId)
  let occurredAt ← orRefuse .cast (casts.castStamp row.occurredAt)
  .ok { row with runId := runId, occurredAt := occurredAt }

/-- PostgreSQL: an insertion that does nothing where the key is taken, and a comparison with the row that is there then. -/
def postgresRecord (rows : List EventRow) (body hash : String) : Except Refusal (List EventRow) := do
  let row ← postgresRow tools casts body hash
  confirm (Firsts.keep EventRow.key rows row) row

def fitsColumns (row : EventRow) : Bool :=
  row.producer.utf8ByteSize ≤ 256 && row.runId.toList.length ≤ 36 && row.source.utf8ByteSize ≤ 256 &&
    row.feed.utf8ByteSize ≤ 256 && row.eventType.utf8ByteSize ≤ 256 && row.occurredAt.toList.length ≤ 100

def mysqlRow (body hash : String) : Except Refusal EventRow := do
  let p ← readObject body
  let row ← readRow tools.digest body hash p
  checkPrepared (validHash hash && body.utf8ByteSize ≤ 1048576 && tools.digest body = hash && p.size = 10 && hasVersion p &&
    (1 ≤ row.eventKey.toList.length && row.eventKey.toList.length ≤ 2048)) .invalid
  checkPrepared (row.eventKey.utf8ByteSize ≤ 8192 && fitsColumns row) .tooLong
  .ok row

/-- MySQL: a row that does not fit is refused before its key is looked at, a key that is taken is found by the insertion. -/
def mysqlRecord (rows : List EventRow) (body hash : String) : Except Refusal (List EventRow) := do
  let row ← mysqlRow tools body hash
  confirm (Firsts.keep EventRow.key rows row) row

def utf16Size (s : String) : Nat := (s.toList.map fun c => if c.toNat < 65536 then 2 else 4).sum

def mssqlRow (body hash : String) : Except Refusal EventRow := do
  let p ← readObject body
  let row ← readRow tools.digest body hash p
  checkPrepared (body.utf8ByteSize ≤ 1048576 && tools.digest body = hash && hasVersion p && p.size = 10) .invalid
  checkPrepared (2 ≤ utf16Size row.eventKey && utf16Size row.eventKey ≤ 8192) .invalid
  .ok row

/-- SQL Server: the key is looked for first, and a row is inserted only where it is free. -/
def mssqlRecord (rows : List EventRow) (body hash : String) : Except Refusal (List EventRow) := do
  let row ← mssqlRow tools body hash
  match Firsts.held EventRow.key rows row.key with
  | none => do
      checkPrepared (fitsColumns row) .tooLong
      .ok (rows ++ [row])
  | some prior => do
      checkPrepared (row.agrees prior) .conflict
      .ok rows

inductive Engine where
  | postgresql
  | mysql
  | mssql
  deriving DecidableEq

def recordEvent (engine : Engine) (rows : List EventRow) (body hash : String) : Except Refusal (List EventRow) :=
  match engine with
  | .postgresql => postgresRecord tools casts rows body hash
  | .mysql => mysqlRecord tools rows body hash
  | .mssql => mssqlRecord tools rows body hash

/-- What is known of the libraries: a digest is 64 hexadecimal digits, and the canonical text of a UUID is one, of 36 characters. -/
structure LawfulCasts : Prop where
  digest : ∀ s, validHash (tools.digest s) = true
  uuid : ∀ run, tools.readUuid run = some run → casts.castUuid run = some run ∧ run.toList.length = 36

theorem checkPrepared_eq_ok {condition : Bool} {refusal : Refusal} {done : Unit} :
    checkPrepared condition refusal = .ok done ↔ condition = true := by
  rw [checkPrepared]
  split_ifs with h <;> simp [h]

theorem orRefuse_eq_ok {α : Type} {refusal : Refusal} {found : Option α} {value : α} :
    orRefuse refusal found = .ok value ↔ found = some value := by
  cases found <;> simp [orRefuse]

theorem readObject_eq_ok {body : String} {p : Body} :
    readObject body = .ok p ↔ ∃ document, parse body.toList = some document ∧ readBody invalidControlValue document = .ok p := by
  rw [readObject, orRefuse_eq_ok, Option.bind_eq_some_iff]
  refine exists_congr fun document => and_congr_right fun _ => ?_
  cases readBody invalidControlValue document <;> simp [Except.toOption]

theorem readColumn_eq_ok {p : Body} {key value : String} : readColumn p key = .ok value ↔ text p key = .ok value := by
  rw [readColumn, orRefuse_eq_ok]
  cases text p key <;> simp [Except.toOption]

/-- A row as a body has it. -/
structure RowOf (body hash : String) (p : Body) (row : EventRow) : Prop where
  producer : text p "producer" = .ok row.producer
  eventKey : text p "event_key" = .ok row.eventKey
  keyHash : row.keyHash = tools.digest row.eventKey
  runId : text p "run_id" = .ok row.runId
  source : text p "source" = .ok row.source
  feed : text p "feed" = .ok row.feed
  eventType : text p "event_type" = .ok row.eventType
  occurredAt : text p "occurred_at" = .ok row.occurredAt
  canonicalBody : row.canonicalBody = body
  canonicalHash : row.canonicalHash = hash

theorem readRow_eq_ok {body hash : String} {p : Body} {row : EventRow} :
    readRow tools.digest body hash p = .ok row ↔ RowOf tools body hash p row := by
  simp only [readRow, Except.bind_eq_ok, readColumn_eq_ok, Except.ok.injEq]
  constructor
  · rintro ⟨producer, hproducer, key, hkey, run, hrun, source, hsource, feed, hfeed, type, htype, occurred, hoccurred, rfl⟩
    exact ⟨hproducer, hkey, rfl, hrun, hsource, hfeed, htype, hoccurred, rfl, rfl⟩
  · intro h
    refine ⟨_, h.producer, _, h.eventKey, _, h.runId, _, h.source, _, h.feed, _, h.eventType, _, h.occurredAt, ?_⟩
    rw [← h.keyHash, ← h.canonicalBody, ← h.canonicalHash]

/-- What a routine is given for an event: its canonical text, every check of the event passed, and the digest of the text. -/
structure Given (body hash : String) (p : Body) (row : EventRow) : Prop where
  read : readObject body = .ok p
  row : RowOf tools body hash p row
  checked : checkEvent tools p = .ok ()
  size : body.utf8ByteSize ≤ 1048576
  hash : tools.digest body = hash

theorem checkKey_eq_ok {p : Body} :
    checkKey p = .ok () ↔ ∃ key, text p "event_key" = .ok key ∧ 1 ≤ key.toList.length ∧ key.toList.length ≤ 2048 := by
  simp only [checkKey, Except.bind_eq_ok, checkThat_eq_ok, Bool.and_eq_true, decide_eq_true_eq]

theorem checkRun_eq_ok {p : Body} :
    checkRun tools p = .ok () ↔ ∃ run, text p "run_id" = .ok run ∧ tools.readUuid run = some run := by
  simp only [checkRun, Except.bind_eq_ok, checkThat_eq_ok, decide_eq_true_eq]

theorem checkLabel_eq_ok {p : Body} {key : String} :
    checkLabel p key = .ok () ↔ ∃ label, text p key = .ok label ∧ isLabel label = true := by
  simp only [checkLabel, Except.bind_eq_ok, checkThat_eq_ok]

theorem forM_ok_of_mem {α : Type} {items : List α} {check : α → Except String Unit} (h : items.forM check = .ok ()) :
    ∀ item ∈ items, check item = .ok () := by
  induction items with
  | nil =>
      intro item hitem
      exact (List.not_mem_nil hitem).elim
  | cons first rest ih =>
      have hrun : (check first).bind (fun _ => rest.forM check) = .ok () := h
      obtain ⟨_, hfirst, hrest⟩ := Except.bind_eq_ok.1 hrun
      exact List.forall_mem_cons.2 ⟨hfirst, ih hrest⟩

/-- What the checks of an event say of the fields a row has. -/
structure Checked (p : Body) : Prop where
  keys : exactKeys p eventKeys = true
  version : hasVersion p = true
  labels : ∀ key ∈ labelKeys, ∃ label, text p key = .ok label ∧ isLabel label = true
  key : ∃ key, text p "event_key" = .ok key ∧ 1 ≤ key.toList.length ∧ key.toList.length ≤ 2048
  run : ∃ run, text p "run_id" = .ok run ∧ tools.readUuid run = some run
  occurred : ∃ occurred, text p "occurred_at" = .ok occurred

theorem checked_of_checkEvent {p : Body} (h : checkEvent tools p = .ok ()) : Checked tools p := by
  simp only [checkEvent, Except.bind_eq_ok] at h
  obtain ⟨_, henvelope, _, hlabels, _, hkey, _, hrun, _, hoccurred, _⟩ := h
  simp only [checkEnvelope, Except.bind_eq_ok, checkThat_eq_ok] at henvelope
  obtain ⟨_, hkeys, version, hversion, htoken⟩ := henvelope
  refine ⟨hkeys, ?_, fun key hmem => ?_, checkKey_eq_ok.1 hkey, (checkRun_eq_ok tools).1 hrun, ?_⟩
  · rw [field] at hversion
    rw [hasVersion]
    split at hversion
    · cases hversion
    · cases hversion
      rename_i hget
      rw [hget]
      exact htoken
  · exact checkLabel_eq_ok.1 (forM_ok_of_mem hlabels key hmem)
  · obtain ⟨occurred, hoccurred, _⟩ := Except.bind_eq_ok.1 hoccurred
    exact ⟨occurred, hoccurred⟩

theorem Checked.rowOf {p : Body} (h : Checked tools p) (body hash : String) : ∃ row, RowOf tools body hash p row := by
  obtain ⟨producer, hproducer, _⟩ := h.labels "producer" (by decide)
  obtain ⟨source, hsource, _⟩ := h.labels "source" (by decide)
  obtain ⟨feed, hfeed, _⟩ := h.labels "feed" (by decide)
  obtain ⟨type, htype, _⟩ := h.labels "event_type" (by decide)
  obtain ⟨key, hkey, _⟩ := h.key
  obtain ⟨run, hrun, _⟩ := h.run
  obtain ⟨occurred, hoccurred⟩ := h.occurred
  exact ⟨⟨producer, key, tools.digest key, run, source, feed, type, occurred, body, hash⟩, hproducer, hkey, rfl, hrun,
    hsource, hfeed, htype, hoccurred, rfl, rfl⟩

theorem given_of_prepared {raw written body hash : String} (hwritten : prepareJournalEvent tools raw = .ok written)
    (hbody : columnText written "body" = .ok body) (hhash : columnText written "canonical_hash" = .ok hash) :
    ∃ p row, Given tools body hash p row := by
  simp only [prepareJournalEvent, Except.bind_eq_ok, readDocument_eq_ok, Except.ok.injEq] at hwritten
  obtain ⟨d, hd, prepared, hprepared, rfl⟩ := hwritten
  obtain ⟨body', key, hof⟩ := prepareEvent_preparedOf tools hprepared
  obtain ⟨hprepBody, hprepHash, _⟩ := hof.texts
  have hcolumn := columnText_writeBody (hof.valid tools (valid_of_parse hd))
  cases hbody.symm.trans ((hcolumn _).trans hprepBody)
  cases hhash.symm.trans ((hcolumn _).trans hprepHash)
  -- The text is read as a document alike to the event, which passes the checks the event passed.
  obtain ⟨n, hn, hrender, halike⟩ := canonical_canonical.normal (valid_of_parse hd) hof.body
  obtain ⟨prepared', hprepared', _⟩ := prepareEvent_alike tools halike hprepared hof
  have hread : parse body.toList = some n := hrender ▸ parse_render hn
  have hsame : canonical n = .ok body := by
    obtain ⟨s, hs, hs'⟩ := canonical_canonical.of_alike halike
    cases hof.body.symm.trans hs
    exact hs'
  simp only [prepareEvent, Except.bind_eq_ok, checkThat_eq_ok, decide_eq_true_eq] at hprepared'
  obtain ⟨p, hp, _, hchecked, _, _, _, hcanonical, _, hsize, _⟩ := hprepared'
  cases hsame.symm.trans hcanonical
  obtain ⟨row, hrow⟩ := (checked_of_checkEvent tools hchecked).rowOf tools body (tools.digest body)
  exact ⟨p, row, readObject_eq_ok.2 ⟨n, hread, hp⟩, hrow, hchecked, hsize, rfl⟩

theorem utf8ByteSize_le (s : String) : s.utf8ByteSize ≤ 4 * s.toList.length := by
  have hchars : ∀ chars : List Char, (String.ofList chars).utf8ByteSize ≤ 4 * chars.length := by
    intro chars
    induction chars with
    | nil => simp
    | cons c rest ih =>
        rw [String.ofList_cons, String.utf8ByteSize_append, String.utf8ByteSize_singleton, List.length_cons]
        have hchar := Char.utf8Size_le_four c
        omega
  have h := hchars s.toList
  rwa [String.ofList_toList] at h

theorem utf16Size_bounds (s : String) : 2 * s.toList.length ≤ utf16Size s ∧ utf16Size s ≤ 4 * s.toList.length := by
  rw [utf16Size]
  induction s.toList with
  | nil => simp
  | cons c rest ih =>
      simp only [List.map_cons, List.sum_cons, List.length_cons]
      split_ifs <;> omega

/-- An event every engine can store: no text of it has the character U+0000, PostgreSQL can read its time, and its time is written in at most 100 characters. -/
structure Portable (body occurred : String) : Prop where
  unicode : writesNull body = false
  stamp : (casts.castStamp occurred).isSome = true
  length : occurred.toList.length ≤ 100

/-- Two rows of one event. -/
structure SameEvent (stored row : EventRow) : Prop where
  producer : stored.producer = row.producer
  eventKey : stored.eventKey = row.eventKey
  keyHash : stored.keyHash = row.keyHash
  canonicalBody : stored.canonicalBody = row.canonicalBody
  canonicalHash : stored.canonicalHash = row.canonicalHash

variable {tools casts} {body hash : String} {p : Body} {row : EventRow}

theorem Given.label (h : Given tools body hash p row) {key label : String} (hkey : key ∈ labelKeys) (hlabel : text p key = .ok label) :
    label.utf8ByteSize ≤ 256 := by
  obtain ⟨found, hfound, his⟩ := (checked_of_checkEvent tools h.checked).labels key hkey
  cases hlabel.symm.trans hfound
  rw [isLabel, Bool.and_eq_true, decide_eq_true_eq] at his
  exact his.1

theorem Given.keyLength (h : Given tools body hash p row) :
    1 ≤ row.eventKey.toList.length ∧ row.eventKey.toList.length ≤ 2048 := by
  obtain ⟨key, hkey, hlength⟩ := (checked_of_checkEvent tools h.checked).key
  cases h.row.eventKey.symm.trans hkey
  exact hlength

theorem Given.canonicalRun (h : Given tools body hash p row) : tools.readUuid row.runId = some row.runId := by
  obtain ⟨run, hrun, hcanonical⟩ := (checked_of_checkEvent tools h.checked).run
  cases h.row.runId.symm.trans hrun
  exact hcanonical

theorem Given.size_eq (h : Given tools body hash p row) : p.size = 10 := by
  have hkeys := (checked_of_checkEvent tools h.checked).keys
  rw [exactKeys, Bool.and_eq_true, decide_eq_true_eq] at hkeys
  exact hkeys.1

theorem Given.fits (hlawful : LawfulCasts tools casts) (h : Given tools body hash p row) :
    fitsColumns row = decide (row.occurredAt.toList.length ≤ 100) := by
  have hproducer := h.label (by decide) h.row.producer
  have hsource := h.label (by decide) h.row.source
  have hfeed := h.label (by decide) h.row.feed
  have htype := h.label (by decide) h.row.eventType
  have hrun := (hlawful.uuid _ h.canonicalRun).2
  rw [fitsColumns, hrun]
  simp [hproducer, hsource, hfeed, htype]

theorem Given.eventKey_bytes (h : Given tools body hash p row) : row.eventKey.utf8ByteSize ≤ 8192 := by
  have hlength := h.keyLength.2
  have hbytes := utf8ByteSize_le row.eventKey
  omega

theorem Given.validHash (hlawful : LawfulCasts tools casts) (h : Given tools body hash p row) : validHash hash = true := by
  rw [← h.hash]
  exact hlawful.digest body

theorem postgresRow_iff (hlawful : LawfulCasts tools casts) (h : Given tools body hash p row) :
    (∃ stored, postgresRow tools casts body hash = .ok stored) ↔
      writesNull body = false ∧ (casts.castStamp row.occurredAt).isSome = true := by
  have hchecked := checked_of_checkEvent tools h.checked
  have hcheck : (Control.validHash hash && body.utf8ByteSize ≤ 1048576 && tools.digest body = hash && hasVersion p &&
      exactKeys p eventKeys && (1 ≤ row.eventKey.toList.length && row.eventKey.toList.length ≤ 2048)) = true := by
    simp [h.validHash hlawful, h.size, h.hash, hchecked.version, hchecked.keys, h.keyLength]
  rw [postgresRow, h.read, Except.bind_ok, (readRow_eq_ok tools).2 h.row, Except.bind_ok, hcheck, (hlawful.uuid _ h.canonicalRun).1]
  simp only [Except.bind_eq_ok, checkPrepared_eq_ok, orRefuse_eq_ok, Bool.not_eq_true']
  constructor
  · intro ⟨_, _, hnull, _, _, _, _, stamp, hstamp, _⟩
    rw [hstamp]
    exact ⟨hnull, rfl⟩
  · intro ⟨hnull, hstamp⟩
    obtain ⟨stamp, hstamp⟩ := Option.isSome_iff_exists.1 hstamp
    exact ⟨_, (), hnull, (), trivial, row.runId, rfl, stamp, hstamp, rfl⟩

theorem postgresRow_same (h : Given tools body hash p row) {stored : EventRow}
    (hstored : postgresRow tools casts body hash = .ok stored) : SameEvent stored row := by
  simp only [postgresRow, Except.bind_eq_ok, Except.ok.injEq] at hstored
  obtain ⟨_, _, p', hread, row', hrow, _, _, _, _, _, _, rfl⟩ := hstored
  cases h.read.symm.trans hread
  cases ((readRow_eq_ok tools).2 h.row).symm.trans hrow
  exact ⟨rfl, rfl, rfl, rfl, rfl⟩

theorem mysqlRow_eq (hlawful : LawfulCasts tools casts) (h : Given tools body hash p row) :
    mysqlRow tools body hash = if row.occurredAt.toList.length ≤ 100 then .ok row else .error .tooLong := by
  have hcheck : (Control.validHash hash && body.utf8ByteSize ≤ 1048576 && tools.digest body = hash && p.size = 10 && hasVersion p &&
      (1 ≤ row.eventKey.toList.length && row.eventKey.toList.length ≤ 2048)) = true := by
    simp [h.validHash hlawful, h.size, h.hash, (checked_of_checkEvent tools h.checked).version, h.size_eq, h.keyLength]
  have hfits : (row.eventKey.utf8ByteSize ≤ 8192 && fitsColumns row) = decide (row.occurredAt.toList.length ≤ 100) := by
    rw [h.fits hlawful, decide_eq_true h.eventKey_bytes, Bool.true_and]
  rw [mysqlRow, h.read, Except.bind_ok, (readRow_eq_ok tools).2 h.row, Except.bind_ok, hcheck, hfits, checkPrepared, checkPrepared,
    if_pos rfl, Except.bind_ok]
  split_ifs with hlength hdecided hdecided
  · rfl
  · exact absurd (of_decide_eq_true hlength) hdecided
  · exact absurd (decide_eq_true hdecided) hlength
  · rfl

theorem mssqlRow_eq (h : Given tools body hash p row) : mssqlRow tools body hash = .ok row := by
  have hcheck : (body.utf8ByteSize ≤ 1048576 && tools.digest body = hash && hasVersion p && p.size = 10) = true := by
    simp [h.size, h.hash, (checked_of_checkEvent tools h.checked).version, h.size_eq]
  have hkey : (2 ≤ utf16Size row.eventKey && utf16Size row.eventKey ≤ 8192) = true := by
    have hlength := h.keyLength
    have hbounds := utf16Size_bounds row.eventKey
    simp only [Bool.and_eq_true, decide_eq_true_eq]
    omega
  rw [mssqlRow, h.read, Except.bind_ok, (readRow_eq_ok tools).2 h.row, Except.bind_ok, hcheck, hkey]
  rfl

theorem agrees_self (row : EventRow) : row.agrees row = true := by simp [EventRow.agrees]

theorem confirm_keep (rows : List EventRow) (row : EventRow) :
    confirm (Firsts.keep EventRow.key rows row) row =
      match Firsts.held EventRow.key rows row.key with
      | none => .ok (rows ++ [row])
      | some prior => if row.agrees prior then .ok rows else .error .conflict := by
  rw [confirm, Firsts.held_keep]
  cases h : Firsts.held EventRow.key rows row.key with
  | none =>
      rw [Firsts.keep_of_free h, Option.getD_none, Option.all_some, agrees_self]
      rfl
  | some prior =>
      rw [Firsts.keep_of_held h, Option.getD_some, Option.all_some]
      by_cases hagrees : row.agrees prior = true
      · simp [checkPrepared, hagrees]
      · simp [checkPrepared, hagrees]

theorem recordEvent_of_portable (hlawful : LawfulCasts tools casts) (h : Given tools body hash p row)
    (hportable : Portable casts body row.occurredAt) (engine : Engine) :
    ∃ stored, SameEvent stored row ∧
      ∀ rows, recordEvent tools casts engine rows body hash = confirm (Firsts.keep EventRow.key rows stored) stored := by
  have hsame : SameEvent row row := ⟨rfl, rfl, rfl, rfl, rfl⟩
  cases engine with
  | postgresql =>
      obtain ⟨stored, hstored⟩ := (postgresRow_iff hlawful h).2 ⟨hportable.unicode, hportable.stamp⟩
      refine ⟨stored, postgresRow_same h hstored, fun rows => ?_⟩
      rw [recordEvent, postgresRecord, hstored, Except.bind_ok]
  | mysql =>
      refine ⟨row, hsame, fun rows => ?_⟩
      rw [recordEvent, mysqlRecord, mysqlRow_eq hlawful h, if_pos hportable.length, Except.bind_ok]
  | mssql =>
      refine ⟨row, hsame, fun rows => ?_⟩
      rw [recordEvent, mssqlRecord, mssqlRow_eq h, Except.bind_ok, confirm_keep, h.fits hlawful, decide_eq_true hportable.length]
      cases Firsts.held EventRow.key rows row.key with
      | none => rfl
      | some prior =>
          by_cases hagrees : row.agrees prior = true
          · simp [checkPrepared, hagrees]
          · simp [checkPrepared, hagrees]

/-- What an event table keeps: one row for a producer and key, the digests those of the texts they are for. -/
structure Kept (tools : Tools) (rows : List EventRow) : Prop where
  unique : (rows.map EventRow.key).Nodup
  keyHash : ∀ row ∈ rows, row.keyHash = tools.digest row.eventKey
  canonicalHash : ∀ row ∈ rows, row.canonicalHash = tools.digest row.canonicalBody

def Names (rows : List EventRow) (producer key body : String) : Prop :=
  ∃ row ∈ rows, row.producer = producer ∧ row.eventKey = key ∧ row.canonicalBody = body

def NamesOther (rows : List EventRow) (producer key body : String) : Prop :=
  ∃ row ∈ rows, row.producer = producer ∧ row.eventKey = key ∧ row.canonicalBody ≠ body

def EventRow.content (row : EventRow) : String × String × String := (row.producer, row.eventKey, row.canonicalBody)

/-- One journal on the three engines, no key of it with the digest of another key. -/
structure OneJournal (tools : Tools) (key : String) (journals : Engine → List EventRow) : Prop where
  kept : ∀ engine, Kept tools (journals engine)
  same : ∀ engine other, (journals engine).map EventRow.content = (journals other).map EventRow.content
  apart : ∀ engine, ∀ row ∈ journals engine, tools.digest row.eventKey = tools.digest key → row.eventKey = key

/-- What the engines of one journal come to on an event. -/
structure OneContract (tools : Tools) (casts : Casts) (journals : Engine → List EventRow) (producer key body hash : String) : Prop where
  together : (∀ engine, ∃ after, recordEvent tools casts engine (journals engine) body hash = .ok after) ∨
    ∀ engine, recordEvent tools casts engine (journals engine) body hash = .error .conflict
  refused : ∀ engine, (∃ refusal, recordEvent tools casts engine (journals engine) body hash = .error refusal) ↔
    NamesOther (journals engine) producer key body
  repeated : ∀ engine, Names (journals engine) producer key body →
    recordEvent tools casts engine (journals engine) body hash = .ok (journals engine)

variable {rows : List EventRow} {stored : EventRow}

theorem held_of_names (hkept : Kept tools rows) (hrow : RowOf tools body hash p row) (hsame : SameEvent stored row) {prior : EventRow}
    (hprior : prior ∈ rows) (hproducer : prior.producer = row.producer) (hkey : prior.eventKey = row.eventKey) :
    Firsts.held EventRow.key rows stored.key = some prior := by
  apply (Firsts.held_eq_some hkept.unique).2
  refine ⟨hprior, ?_⟩
  rw [EventRow.key, EventRow.key, hsame.producer, hsame.keyHash, hrow.keyHash, hkept.keyHash prior hprior, hproducer, hkey]

theorem agrees_iff (hkept : Kept tools rows) (h : Given tools body hash p row) (hsame : SameEvent stored row) {prior : EventRow}
    (hprior : prior ∈ rows) (hkey : prior.eventKey = row.eventKey) : stored.agrees prior = true ↔ prior.canonicalBody = body := by
  rw [EventRow.agrees, hsame.eventKey, hsame.canonicalBody, hsame.canonicalHash, h.row.canonicalBody, h.row.canonicalHash,
    hkept.canonicalHash prior hprior, ← h.hash]
  simp only [hkey, decide_true, Bool.true_and, Bool.and_eq_true, decide_eq_true_eq]
  exact ⟨fun hboth => hboth.1, fun hbody => ⟨hbody, by rw [hbody]⟩⟩

/-- Keeping an event's row: refused for a content conflict where its producer and key name other content, else accepted, a repeat as it stands. -/
theorem confirm_keep_cases (hkept : Kept tools rows) (h : Given tools body hash p row) (hsame : SameEvent stored row)
    (hapart : ∀ prior ∈ rows, tools.digest prior.eventKey = tools.digest row.eventKey → prior.eventKey = row.eventKey) :
    (NamesOther rows row.producer row.eventKey body ∧
        confirm (Firsts.keep EventRow.key rows stored) stored = .error .conflict) ∨
      (¬ NamesOther rows row.producer row.eventKey body ∧ Names rows row.producer row.eventKey body ∧
        confirm (Firsts.keep EventRow.key rows stored) stored = .ok rows) ∨
      (¬ NamesOther rows row.producer row.eventKey body ∧ ¬ Names rows row.producer row.eventKey body ∧
        confirm (Firsts.keep EventRow.key rows stored) stored = .ok (rows ++ [stored])) := by
  rw [confirm_keep]
  cases hheld : Firsts.held EventRow.key rows stored.key with
  | none =>
      have hfree : ∀ prior ∈ rows, prior.producer = row.producer → prior.eventKey = row.eventKey → False := by
        intro prior hprior hproducer hkey
        have hfound := held_of_names hkept h.row hsame hprior hproducer hkey
        rw [hheld] at hfound
        cases hfound
      refine .inr (.inr ⟨?_, ?_, rfl⟩)
      · intro ⟨prior, hprior, hproducer, hkey, _⟩
        exact hfree prior hprior hproducer hkey
      · intro ⟨prior, hprior, hproducer, hkey, _⟩
        exact hfree prior hprior hproducer hkey
  | some prior =>
      obtain ⟨hprior, hpriorKey⟩ := Firsts.held_mem hheld
      have hproducer : prior.producer = row.producer := (congrArg Prod.fst hpriorKey).trans hsame.producer
      have hkey : prior.eventKey = row.eventKey := by
        apply hapart prior hprior
        rw [← hkept.keyHash prior hprior, ← h.row.keyHash, ← hsame.keyHash]
        exact congrArg Prod.snd hpriorKey
      -- Every row of this producer and key is the one that is held.
      have honly : ∀ other ∈ rows, other.producer = row.producer → other.eventKey = row.eventKey → other = prior := by
        intro other hother hproducer' hkey'
        have hfound := held_of_names hkept h.row hsame hother hproducer' hkey'
        rw [hheld] at hfound
        exact (Option.some.inj hfound).symm
      by_cases hbody : prior.canonicalBody = body
      · have hagrees := (agrees_iff hkept h hsame hprior hkey).2 hbody
        refine .inr (.inl ⟨?_, ⟨prior, hprior, hproducer, hkey, hbody⟩, if_pos hagrees⟩)
        intro ⟨other, hother, hproducer', hkey', hne⟩
        exact hne (honly other hother hproducer' hkey' ▸ hbody)
      · have hagrees := mt (agrees_iff hkept h hsame hprior hkey).1 hbody
        exact .inl ⟨⟨prior, hprior, hproducer, hkey, hbody⟩, if_neg hagrees⟩

theorem namesOther_congr {rows others : List EventRow} (h : rows.map EventRow.content = others.map EventRow.content)
    {producer key body : String} (hnames : NamesOther rows producer key body) : NamesOther others producer key body := by
  obtain ⟨row, hrow, hproducer, hkey, hbody⟩ := hnames
  have hmem : row.content ∈ others.map EventRow.content := h ▸ List.mem_map_of_mem hrow
  obtain ⟨other, hother, hcontent⟩ := List.mem_map.1 hmem
  simp only [EventRow.content, Prod.mk.injEq] at hcontent
  exact ⟨other, hother, hcontent.1.trans hproducer, hcontent.2.1.trans hkey, hcontent.2.2.symm ▸ hbody⟩

theorem oneContract_of_portable (hlawful : LawfulCasts tools casts) (h : Given tools body hash p row)
    (hportable : Portable casts body row.occurredAt) {journals : Engine → List EventRow}
    (hjournals : OneJournal tools row.eventKey journals) :
    OneContract tools casts journals row.producer row.eventKey body hash := by
  have hcases : ∀ engine, ∃ stored,
      (NamesOther (journals engine) row.producer row.eventKey body ∧
        recordEvent tools casts engine (journals engine) body hash = .error .conflict) ∨
      (¬ NamesOther (journals engine) row.producer row.eventKey body ∧ Names (journals engine) row.producer row.eventKey body ∧
        recordEvent tools casts engine (journals engine) body hash = .ok (journals engine)) ∨
      (¬ NamesOther (journals engine) row.producer row.eventKey body ∧ ¬ Names (journals engine) row.producer row.eventKey body ∧
        recordEvent tools casts engine (journals engine) body hash = .ok (journals engine ++ [stored])) := by
    intro engine
    obtain ⟨stored, hsame, hrecord⟩ := recordEvent_of_portable hlawful h hportable engine
    rw [hrecord]
    exact ⟨stored, confirm_keep_cases (hjournals.kept engine) h hsame (hjournals.apart engine)⟩
  refine ⟨?_, fun engine => ?_, fun engine hnames => ?_⟩
  · by_cases hother : NamesOther (journals .postgresql) row.producer row.eventKey body
    · refine .inr fun engine => ?_
      have hnames := namesOther_congr (hjournals.same .postgresql engine) hother
      obtain ⟨_, ⟨_, hconflict⟩ | ⟨hnone, _⟩ | ⟨hnone, _⟩⟩ := hcases engine
      · exact hconflict
      · exact absurd hnames hnone
      · exact absurd hnames hnone
    · refine .inl fun engine => ?_
      obtain ⟨stored, ⟨hnames, _⟩ | ⟨_, _, hok⟩ | ⟨_, _, hok⟩⟩ := hcases engine
      · exact absurd (namesOther_congr (hjournals.same engine .postgresql) hnames) hother
      · exact ⟨_, hok⟩
      · exact ⟨_, hok⟩
  · obtain ⟨stored, ⟨hnames, hconflict⟩ | ⟨hnone, _, hok⟩ | ⟨hnone, _, hok⟩⟩ := hcases engine
    · exact ⟨fun _ => hnames, fun _ => ⟨_, hconflict⟩⟩
    · refine ⟨fun ⟨_, herror⟩ => ?_, fun hnames => absurd hnames hnone⟩
      rw [hok] at herror
      cases herror
    · refine ⟨fun ⟨_, herror⟩ => ?_, fun hnames => absurd hnames hnone⟩
      rw [hok] at herror
      cases herror
  · obtain ⟨stored, ⟨hother, _⟩ | ⟨_, _, hok⟩ | ⟨_, hnone, _⟩⟩ := hcases engine
    · obtain ⟨prior, hprior, hproducer, hkey, hbody⟩ := hnames
      obtain ⟨other, hmem, hproducer', hkey', hne⟩ := hother
      have hsame : SameEvent row row := ⟨rfl, rfl, rfl, rfl, rfl⟩
      have hfound := held_of_names (hjournals.kept engine) h.row hsame hprior hproducer hkey
      cases hfound.symm.trans (held_of_names (hjournals.kept engine) h.row hsame hmem hproducer' hkey')
      exact absurd hbody hne
    · exact hok
    · exact absurd hnames hnone

theorem portable_of_oneContract (hlawful : LawfulCasts tools casts) (h : Given tools body hash p row)
    (hcontract : OneContract tools casts (fun _ => []) row.producer row.eventKey body hash) : Portable casts body row.occurredAt := by
  have hnone : ¬ NamesOther [] row.producer row.eventKey body := fun ⟨_, hmem, _⟩ => List.not_mem_nil hmem
  have haccepted : ∀ engine, ∃ after, recordEvent tools casts engine [] body hash = .ok after := by
    obtain hall | hconflict := hcontract.together
    · exact hall
    · exact absurd ((hcontract.refused .mysql).1 ⟨_, hconflict .mysql⟩) hnone
  obtain ⟨_, hpostgres⟩ := haccepted .postgresql
  obtain ⟨_, hmysql⟩ := haccepted .mysql
  obtain ⟨stored, hstored, _⟩ := Except.bind_eq_ok.1 hpostgres
  obtain ⟨stored', hstored', _⟩ := Except.bind_eq_ok.1 hmysql
  obtain ⟨hunicode, hstamp⟩ := (postgresRow_iff hlawful h).1 ⟨stored, hstored⟩
  refine ⟨hunicode, hstamp, ?_⟩
  rw [mysqlRow_eq hlawful h] at hstored'
  split_ifs at hstored' with hlength
  exact hlength

end EdgarPlatform.Control
