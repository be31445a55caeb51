import EdgarPlatform.Control.Canonical

/-!
# The change journal

An event is checked and prepared once, for every database engine: its canonical text, the digest of that and the digest of its key. What is stored is read back as a receipt, and a receipt is checked against the event it is for. Both go through the preparation again, from the canonical text.
-/

namespace EdgarPlatform.Control

open JsonText
open Records (Alike)

/-- A time with the offset it was written with, both in seconds and the parts of one. -/
structure Stamp where
  /-- Nanoseconds since the epoch. -/
  instant : Int
  /-- Seconds east of UTC. -/
  offset : Int
  deriving DecidableEq

/-- The libraries the journal is prepared with. -/
structure Tools where
  /-- The canonical text of the UUID a text is read as. -/
  readUuid : String → Option String
  readStamp : String → Option Stamp
  /-- The time of seconds since the epoch and the nanoseconds after them, where there is one. -/
  fromTimestamp : Int → Nat → Option Stamp
  /-- A time in UTC, to the microsecond. -/
  writeStamp : Stamp → String
  digest : String → String

variable (tools : Tools)

def eventKeys : List String :=
  ["version", "producer", "event_key", "run_id", "source", "feed", "event_type", "occurred_at", "scope", "evidence"]

def labelKeys : List String := ["producer", "source", "feed", "event_type"]

def isLabelChar (c : Char) : Bool := c.isAlphanum || c ∈ ['_', '.', ':', '/', '-']

def isLabel (label : String) : Bool :=
  label.utf8ByteSize ≤ 256 && (label.toList.head?.any Char.isAlphanum && label.toList.all isLabelChar)

def validHash (value : String) : Bool :=
  value.toList.length = 64 && value.toList.all fun c => c.isDigit || ('a'.toNat ≤ c.toNat && c.toNat ≤ 'f'.toNat)

def checkThat (condition : Bool) (fail : String) : Except String Unit := if condition then .ok () else .error fail

def checkEnvelope (event : Body) : Except String Unit := do
  checkThat (exactKeys event eventKeys) "Unsupported Change Journal envelope"
  let version ← field event "version"
  checkThat (isToken version "1") "Unsupported Change Journal envelope"

def checkLabel (event : Body) (key : String) : Except String Unit := do
  let label ← text event key
  checkThat (isLabel label) ("Invalid journal " ++ key)

def checkKey (event : Body) : Except String Unit := do
  let key ← text event "event_key"
  checkThat (1 ≤ key.toList.length && key.toList.length ≤ 2048) "An original event key is required"

def checkRun (event : Body) : Except String Unit := do
  let run ← text event "run_id"
  checkThat (tools.readUuid run = some run) "Journal root run_id must be a canonical UUID"

def checkOccurred (event : Body) : Except String Unit := do
  let occurred ← text event "occurred_at"
  checkThat ((tools.readStamp occurred).any fun stamp => stamp.offset = 0) "Journal timestamp must have UTC timezone"

/-- An identifier: a text that is not empty, under a key that is not. -/
def isIdentifier (entry : String × Except String String) : Bool :=
  entry.1 ≠ "" && entry.2.toOption.any (· ≠ "")

def checkScope (event : Body) : Except String Unit := do
  let scope ← field event "scope"
  let scope ← readBody invalidControlValue scope
  checkThat (scope.size ≤ 32 && (scope.mapValues fun _ value => readTextOf value).entries.all isIdentifier)
    "Journal scopes contain identifiers only"

def referenceFail : String := "A reference requires an exact URI and lowercase SHA-256"

def validateReference (raw : Doc) : Except String Unit := do
  let reference ← readBody invalidControlValue raw
  checkThat (exactKeys reference ["uri", "sha256"]) referenceFail
  let uri ← text reference "uri"
  checkThat (uri ≠ "") referenceFail
  let sha256 ← text reference "sha256"
  checkThat (validHash sha256) referenceFail

def checkEvidence (event : Body) : Except String Unit := do
  let evidence ← field event "evidence"
  let evidence ← readItems invalidControlValue evidence
  checkThat (1 ≤ evidence.length && evidence.length ≤ 100) "Journal events require bounded evidence references"
  evidence.forM validateReference

def checkEvent (event : Body) : Except String Unit := do
  checkEnvelope event
  labelKeys.forM (checkLabel event)
  checkKey event
  checkRun tools event
  checkOccurred tools event
  checkScope event
  checkEvidence event

def keptKeys : List String := ["producer", "event_key", "run_id", "source", "feed", "event_type", "occurred_at"]

def keepField (event : Body) (key : String) : Except String (String × Doc) := (field event key).map fun value => (key, value)

/-- What is prepared for an event whose canonical text and key are known. -/
def preparedFields (kept : List (String × Doc)) (body key : String) : Body :=
  SortedMap.ofList (kept ++ [("body", textDocument body), ("canonical_hash", textDocument (tools.digest body)),
    ("key_hash", textDocument (tools.digest key))])

def prepareEvent (raw : Doc) : Except String Body := do
  let event ← readBody invalidControlValue raw
  checkEvent tools event
  let key ← text event "event_key"
  let body ← canonical raw
  checkThat (body.utf8ByteSize ≤ 1048576) "Journal event exceeds its storage bound"
  let kept ← keptKeys.mapM (keepField event)
  .ok (preparedFields tools kept body key)

def prepareJournalEvent (raw : String) : Except String String := do
  let value ← readDocument "Invalid event JSON" raw
  let prepared ← prepareEvent tools value
  .ok (writeBody prepared)

def receiptFail : String := "Journal receipt content or hash mismatch"

def timestampFail : String := "Invalid receipt timestamp"

/-- The number a text of digits stands for, with a sign before it or none, in 64 bits. -/
def parseSeconds (value : String) : Option Int :=
  let digits := if value.toList.head? = some '+' then value.toList.tail else value.toList
  if JsonText.isDigits digits then
    let seconds := digits.foldl (fun n c => 10 * n + (c.toNat - '0'.toNat)) 0
    if seconds < 2 ^ 63 then some seconds else none
  else none

/-- The time a decimal number of seconds stands for, to the microsecond. -/
def readEpoch (epoch : String) : Except String Stamp :=
  let seconds := epoch.toList.takeWhile (· ≠ '.')
  let fraction := (epoch.toList.dropWhile (· ≠ '.')).tail
  if seconds.head? = some '-' ∨ 6 < fraction.length ∨ ¬ fraction.all Char.isDigit then .error timestampFail
  else
    let nanos := (fraction ++ List.replicate (9 - fraction.length) '0').foldl (fun n c => 10 * n + (c.toNat - '0'.toNat)) 0
    match (parseSeconds (String.ofList seconds)).bind fun seconds => tools.fromTimestamp seconds nanos with
    | none => .error timestampFail
    | some stamp => .ok stamp

def readRecordedAt (stored : Body) : Except String Stamp :=
  if stored.contains "recorded_at_epoch" then (text stored "recorded_at_epoch").bind (readEpoch tools)
  else (text stored "recorded_at").bind fun recorded =>
    match tools.readStamp recorded with
    | none => .error timestampFail
    | some stamp => .ok stamp

def receiptKeys : List String := ["id", "canonical_hash", "recorded_at", "event"]

def receiptOf (id hash : Doc) (recorded : Stamp) (event : Doc) : Body :=
  SortedMap.ofList
    [("id", id), ("canonical_hash", hash), ("recorded_at", textDocument (tools.writeStamp recorded)), ("event", event)]

def prepareJournalReceipt (raw : String) : Except String String := do
  let stored ← readDocument "Invalid stored event" raw
  let stored ← readBody "Invalid stored event" stored
  let body ← text stored "canonical_body"
  let event ← readDocument "Invalid stored event" body
  let prepared ← prepareEvent tools event
  let hash ← text prepared "canonical_hash"
  let storedHash ← text stored "canonical_hash"
  checkThat (hash = storedHash) receiptFail
  let preparedBody ← text prepared "body"
  checkThat (preparedBody = body) receiptFail
  let recorded ← readRecordedAt tools stored
  let id ← field stored "id"
  let hash ← field stored "canonical_hash"
  .ok (writeBody (receiptOf tools id hash recorded event))

/-- The event a receipt is expected to be for has the text the receipt's event was prepared with. -/
def isExpected (expected : Option String) (prepared : Body) : Bool :=
  expected.all fun event => (canonicalize event).toOption.any fun body =>
    body = ((text prepared "body").toOption.getD "")

def checkJournalReceipt (raw : String) (expected : Option String) : Except String String := do
  let receipt ← readDocument "Malformed Change Journal receipt" raw
  let receipt ← readBody "Malformed Change Journal receipt" receipt
  checkThat (exactKeys receipt receiptKeys) "Malformed Change Journal receipt"
  let event ← field receipt "event"
  let prepared ← prepareEvent tools event
  let hash ← text prepared "canonical_hash"
  let receiptHash ← text receipt "canonical_hash"
  checkThat (hash = receiptHash && isExpected expected prepared) receiptFail
  .ok (writeBody prepared)

theorem checkThat_eq_ok {condition : Bool} {fail : String} {done : Unit} :
    checkThat condition fail = .ok done ↔ condition = true := by
  rw [checkThat]
  split_ifs with h <;> simp [h]

variable {event other : Body}

theorem checkEnvelope_similar (h : Similar event other) (hok : checkEnvelope event = .ok ()) :
    checkEnvelope other = .ok () := by
  simp only [checkEnvelope, Except.bind_eq_ok, checkThat_eq_ok] at hok ⊢
  obtain ⟨_, hkeys, version, hversion, htoken⟩ := hok
  obtain ⟨version', hversion', halike⟩ := field_similar h hversion
  exact ⟨(), exactKeys_similar h _ ▸ hkeys, version', hversion', isToken_alike halike "1" ▸ htoken⟩

theorem checkLabel_similar (h : Similar event other) (key : String) :
    checkLabel event key = checkLabel other key := by
  rw [checkLabel, checkLabel, text_similar h]

theorem checkScope_similar (h : Similar event other) (hok : checkScope event = .ok ()) :
    checkScope other = .ok () := by
  simp only [checkScope, Except.bind_eq_ok, checkThat_eq_ok] at hok ⊢
  obtain ⟨raw, hraw, scope, hscope, hcheck⟩ := hok
  obtain ⟨raw', hraw', halike⟩ := field_similar h hraw
  obtain ⟨scope', hscope', hsimilar⟩ := readBody_alike halike hscope
  refine ⟨raw', hraw', scope', hscope', ?_⟩
  rw [← size_similar hsimilar, ← mapTexts_similar hsimilar]
  exact hcheck

theorem validateReference_alike {raw other : Doc} (h : Alike raw other) (hok : validateReference raw = .ok ()) :
    validateReference other = .ok () := by
  simp only [validateReference, Except.bind_eq_ok, checkThat_eq_ok] at hok ⊢
  obtain ⟨reference, hreference, _, hkeys, uri, huri, _, hempty, sha256, hsha256, hhash⟩ := hok
  obtain ⟨reference', hreference', hsimilar⟩ := readBody_alike h hreference
  rw [text_similar hsimilar] at huri hsha256
  exact ⟨reference', hreference', (), exactKeys_similar hsimilar _ ▸ hkeys, uri, huri, (), hempty, sha256, hsha256, hhash⟩

theorem forM_validateReference_alike {items others : List Doc} (h : List.Forall₂ Alike items others)
    (hok : items.forM validateReference = .ok ()) : others.forM validateReference = .ok () := by
  induction h with
  | nil => rfl
  | @cons raw other _ _ hhead _ ih =>
      have hrun : (validateReference raw).bind (fun _ => List.forM _ validateReference) = .ok () := hok
      obtain ⟨_, hfirst, hrest⟩ := Except.bind_eq_ok.1 hrun
      exact Except.bind_eq_ok.2 ⟨(), validateReference_alike hhead hfirst, ih hrest⟩

theorem checkEvidence_similar (h : Similar event other) (hok : checkEvidence event = .ok ()) :
    checkEvidence other = .ok () := by
  simp only [checkEvidence, Except.bind_eq_ok] at hok ⊢
  obtain ⟨raw, hraw, evidence, hevidence, _, hlength, hall⟩ := hok
  obtain ⟨raw', hraw', halike⟩ := field_similar h hraw
  obtain ⟨evidence', hevidence', hitems⟩ := readItems_alike halike hevidence
  refine ⟨raw', hraw', evidence', hevidence', (), ?_, forM_validateReference_alike hitems hall⟩
  rw [← hitems.length_eq]
  exact hlength

theorem checkEvent_similar (h : Similar event other) (hok : checkEvent tools event = .ok ()) :
    checkEvent tools other = .ok () := by
  simp only [checkEvent, Except.bind_eq_ok] at hok ⊢
  obtain ⟨_, henvelope, _, hlabels, _, hkey, _, hrun, _, hoccurred, _, hscope, hevidence⟩ := hok
  have hlabel : checkLabel event = checkLabel other := funext (checkLabel_similar h)
  rw [checkKey, text_similar h] at hkey
  rw [checkRun, text_similar h] at hrun
  rw [checkOccurred, text_similar h] at hoccurred
  exact ⟨(), checkEnvelope_similar h henvelope, (), hlabel ▸ hlabels, (), hkey, (), hrun, (), hoccurred, (),
    checkScope_similar h hscope, checkEvidence_similar h hevidence⟩

/-- What is prepared for an event: the fields it keeps, its canonical text and its key. -/
structure PreparedOf (raw : Doc) (prepared : Body) (body key : String) : Prop where
  kept : ∃ kept, kept.map Prod.fst = keptKeys ∧ (∀ entry ∈ kept, raw.Valid → Doc.Valid entry.2) ∧
    prepared = preparedFields tools kept body key
  body : canonical raw = .ok body
  key : ∃ event, readBody invalidControlValue raw = .ok event ∧ text event "event_key" = .ok key

theorem mapM_keepField {event : Body} {keys : List String} {kept : List (String × Doc)}
    (h : keys.mapM (keepField event) = .ok kept) :
    kept.map Prod.fst = keys ∧ ∀ entry ∈ kept, event.get? entry.1 = some entry.2 := by
  have hentry : ∀ key entry, keepField event key = .ok entry → entry.1 = key ∧ event.get? key = some entry.2 := by
    intro key entry hkeep
    obtain ⟨value, hvalue, rfl⟩ := Records.map_eq_ok.1 hkeep
    rw [field] at hvalue
    split at hvalue
    · cases hvalue
    · cases hvalue
      exact ⟨rfl, by assumption⟩
  refine ⟨Runs.mapM_map_eq Prod.fst (fun key entry hkeep => (hentry key entry hkeep).1) h, fun entry hmem => ?_⟩
  obtain ⟨key, _, hkeep⟩ := Runs.mapM_exists_of_mem h hmem
  obtain ⟨rfl, hget⟩ := hentry key entry hkeep
  exact hget

variable {prepared : Body}

theorem prepareEvent_preparedOf {raw : Doc} (h : prepareEvent tools raw = .ok prepared) :
    ∃ body key, PreparedOf tools raw prepared body key := by
  simp only [prepareEvent, Except.bind_eq_ok, Except.ok.injEq] at h
  obtain ⟨event, hevent, _, _, key, hkey, body, hbody, _, _, kept, hkept, rfl⟩ := h
  obtain ⟨hkeys, hvalues⟩ := mapM_keepField hkept
  refine ⟨body, key, ⟨kept, hkeys, fun entry hentry hvalid => ?_, rfl⟩, hbody, event, hevent, hkey⟩
  exact valid_of_readBody hvalid hevent entry.1 entry.2 (hvalues entry hentry)

theorem prepareEvent_alike {raw other : Doc} (h : Alike raw other) {body key : String}
    (hprepared : prepareEvent tools raw = .ok prepared) (hof : PreparedOf tools raw prepared body key) :
    ∃ prepared', prepareEvent tools other = .ok prepared' ∧ PreparedOf tools other prepared' body key := by
  simp only [prepareEvent, Except.bind_eq_ok, Except.ok.injEq] at hprepared
  obtain ⟨event, hevent, _, hcheck, key', hkey, body', hbody, _, hsize, kept, hkept, _⟩ := hprepared
  cases hof.body.symm.trans hbody
  obtain ⟨event', hevent', hsimilar⟩ := readBody_alike h hevent
  obtain ⟨_, hbody', hother⟩ := canonical_canonical.of_alike h
  cases hbody.symm.trans hbody'
  have hkept' : ∀ k ∈ keptKeys, ∃ entry, keepField event' k = .ok entry := by
    intro k hk
    obtain ⟨entry, hentry⟩ := Runs.mapM_ok_of_mem hkept k hk
    obtain ⟨value, hvalue, _⟩ := Records.map_eq_ok.1 hentry
    obtain ⟨value', hvalue', _⟩ := field_similar hsimilar hvalue
    exact ⟨_, Records.map_eq_ok.2 ⟨value', hvalue', rfl⟩⟩
  obtain ⟨kept', hkept'⟩ := Runs.mapM_ok_of_forall hkept'
  have hrun : prepareEvent tools other = .ok (preparedFields tools kept' body key') := by
    simp only [prepareEvent, Except.bind_eq_ok, Except.ok.injEq]
    exact ⟨event', hevent', (), checkEvent_similar tools hsimilar hcheck, key', text_similar hsimilar _ ▸ hkey, body,
      hother, (), hsize, kept', hkept', rfl⟩
  obtain ⟨event'', hevent'', hkey''⟩ := hof.key
  cases hevent.symm.trans hevent''
  cases hkey.symm.trans hkey''
  obtain ⟨hkeys, hvalues⟩ := mapM_keepField hkept'
  refine ⟨_, hrun, ⟨kept', hkeys, fun entry hentry hvalid => ?_, rfl⟩, hother, event', hevent', ?_⟩
  · exact valid_of_readBody hvalid hevent' entry.1 entry.2 (hvalues entry hentry)
  · rw [← text_similar hsimilar]
    exact hkey

theorem get?_ofList_append {front back : List (String × Doc)} {key : String} {value : Doc}
    (h : IndexMap.lookupEntry key back.reverse = some value) : (SortedMap.ofList (front ++ back)).get? key = some value := by
  rw [SortedMap.get?_ofList, List.reverse_append, IndexMap.lookupEntry_append, h, Option.some_or]

variable {body : Body}

theorem text_of_get? {key value : String} (h : body.get? key = some (textDocument value)) :
    text body key = .ok value := by
  rw [text, field, h]
  exact readTextOf_textDocument value

theorem PreparedOf.texts {raw : Doc} {body key : String} (h : PreparedOf tools raw prepared body key) :
    text prepared "body" = .ok body ∧ text prepared "canonical_hash" = .ok (tools.digest body) ∧
      text prepared "key_hash" = .ok (tools.digest key) := by
  obtain ⟨kept, _, _, rfl⟩ := h.kept
  exact ⟨text_of_get? (get?_ofList_append rfl), text_of_get? (get?_ofList_append rfl), text_of_get? (get?_ofList_append rfl)⟩

theorem PreparedOf.valid {raw : Doc} {body key : String} (h : PreparedOf tools raw prepared body key)
    (hraw : raw.Valid) : ∀ k value, prepared.get? k = some value → value.Valid := by
  obtain ⟨kept, _, hkept, rfl⟩ := h.kept
  intro k value hget
  have hmem : (k, value) ∈ kept ++ _ := Records.mem_of_mem_sorted (SortedMap.get?_eq_some_iff.1 hget)
  rcases List.mem_append.1 hmem with hmem | hmem
  · exact hkept _ hmem hraw
  · simp only [List.mem_cons, Prod.mk.injEq, List.not_mem_nil, or_false] at hmem
    obtain ⟨_, rfl⟩ | ⟨_, rfl⟩ | ⟨_, rfl⟩ := hmem <;> exact textDocument_valid _

theorem valid_of_field (h : ∀ key value, body.get? key = some value → value.Valid) {key : String}
    {value : Doc} (hfield : field body key = .ok value) : value.Valid := by
  rw [field] at hfield
  split at hfield
  · cases hfield
  · cases hfield
    exact h key value (by assumption)

theorem readBody_fail {fail fail' : String} {d : Doc} (h : readBody fail d = .ok body) :
    readBody fail' d = .ok body := by
  cases d with
  | plain token => cases h
  | text pieces => cases h
  | array items => cases h
  | object fields =>
      obtain ⟨read, hread, rfl⟩ := Records.map_eq_ok.1 h
      exact Records.map_eq_ok.2 ⟨read, Records.readKeys_eq_ok.2 (Records.readKeys_eq_ok.1 hread), rfl⟩

theorem columnText_writeBody (h : ∀ key value, body.get? key = some value → value.Valid) (key : String) :
    columnText (writeBody body) key = text body key := by
  have hread : readDocument invalidControlValue (writeBody body) = .ok (bodyDocument body) :=
    readDocument_eq_ok.2 (parse_writeBody h)
  rw [columnText, hread, Except.bind_ok, readBody_bodyDocument, Except.bind_ok]

def ReadsBody (raw : String) (body : Body) : Prop :=
  ∃ document, parse raw.toList = some document ∧ readBody invalidControlValue document = .ok body

/-- The columns an event is stored in: what was prepared for it, with an id and the time it was recorded at. -/
structure Stores (stored : Body) (written : String) : Prop where
  body : text stored "canonical_body" = columnText written "body"
  hash : text stored "canonical_hash" = columnText written "canonical_hash"
  id : ∃ id, field stored "id" = .ok id
  recorded : ∃ stamp, readRecordedAt tools stored = .ok stamp

theorem keys_receiptOf (id hash : Doc) (recorded : Stamp) (event : Doc) :
    (receiptOf tools id hash recorded event).keys = ["canonical_hash", "event", "id", "recorded_at"] := by
  rw [receiptOf, SortedMap.keys_ofList]
  exact (by decide +kernel : (SortedMap.ofList [("id", ()), ("canonical_hash", ()), ("recorded_at", ()), ("event", ())]).keys
    = ["canonical_hash", "event", "id", "recorded_at"])

theorem exactKeys_receiptOf (id hash : Doc) (recorded : Stamp) (event : Doc) :
    exactKeys (receiptOf tools id hash recorded event) receiptKeys = true := by
  have hkeys := keys_receiptOf tools id hash recorded event
  have hsize : (receiptOf tools id hash recorded event).size = 4 := by
    rw [SortedMap.size, ← List.length_map (f := Prod.fst)]
    exact congrArg List.length hkeys
  have hcontains : ∀ key ∈ receiptKeys, (receiptOf tools id hash recorded event).contains key = true := by
    intro key hkey
    rw [SortedMap.contains_iff, hkeys]
    revert key
    decide
  rw [exactKeys, hsize, List.all_eq_true.2 hcontains]
  rfl

theorem receiptOf_valid {id hash event : Doc} (hid : id.Valid) (hhash : hash.Valid) (hevent : event.Valid)
    (recorded : Stamp) : ∀ key value, (receiptOf tools id hash recorded event).get? key = some value → value.Valid := by
  intro key value hget
  have hmem := Records.mem_of_mem_sorted (SortedMap.get?_eq_some_iff.1 hget)
  simp only [List.mem_cons, Prod.mk.injEq, List.not_mem_nil, or_false] at hmem
  obtain ⟨_, rfl⟩ | ⟨_, rfl⟩ | ⟨_, rfl⟩ | ⟨_, rfl⟩ := hmem
  · exact hid
  · exact hhash
  · exact textDocument_valid _
  · exact hevent

/-- The receipt of an event is accepted for every event it is prepared alike with, and gives back what was prepared. -/
theorem checkJournalReceipt_receiptOf {event : Doc} {body key : String} {id hash : Doc}
    {recorded : Stamp} {expected : Option String} (hvalid : event.Valid) (hid : id.Valid) (hhash : hash.Valid)
    (hprepared : prepareEvent tools event = .ok prepared) (hof : PreparedOf tools event prepared body key)
    (htext : readTextOf hash = .ok (tools.digest body)) (hexpected : ∀ raw ∈ expected, canonicalize raw = .ok body) :
    checkJournalReceipt tools (writeBody (receiptOf tools id hash recorded event)) expected = .ok (writeBody prepared) := by
  obtain ⟨hbody, hdigest, _⟩ := hof.texts
  have hparse := parse_writeBody (receiptOf_valid tools hid hhash hvalid recorded)
  have hevent : field (receiptOf tools id hash recorded event) "event" = .ok event := by
    rw [field, receiptOf, SortedMap.get?_ofList]
    rfl
  have hreceipt : text (receiptOf tools id hash recorded event) "canonical_hash" = .ok (tools.digest body) := by
    have hget : field (receiptOf tools id hash recorded event) "canonical_hash" = .ok hash := by
      rw [field, receiptOf, SortedMap.get?_ofList]
      rfl
    rw [text, hget]
    exact htext
  have haccepted : isExpected expected prepared = true := by
    cases expected with
    | none => rfl
    | some raw =>
        rw [isExpected, Option.all_some, hexpected raw rfl, hbody]
        simp [Except.toOption]
  simp only [checkJournalReceipt, Except.bind_eq_ok, readDocument_eq_ok, checkThat_eq_ok, Except.ok.injEq]
  refine ⟨_, hparse, _, readBody_bodyDocument _ _, (), exactKeys_receiptOf tools id hash recorded event, event, hevent,
    prepared, hprepared, _, hdigest, _, hreceipt, (), ?_, rfl⟩
  rw [haccepted, decide_eq_true rfl]
  rfl

/-- An event read back from where it is stored is the event that was prepared. -/
theorem journal_event_reads_back (event written raw : String) (stored : Body)
    (hevent : prepareJournalEvent tools event = .ok written) (hraw : ReadsBody raw stored)
    (hstores : Stores tools stored written) :
    ∃ receipt checked, prepareJournalReceipt tools raw = .ok receipt ∧
      checkJournalReceipt tools receipt (some event) = .ok checked ∧
      columnText written "body" = canonicalize event ∧
      columnText checked "body" = columnText written "body" ∧
      columnText checked "canonical_hash" = columnText written "canonical_hash" ∧
      columnText checked "key_hash" = columnText written "key_hash" := by
  simp only [prepareJournalEvent, Except.bind_eq_ok, readDocument_eq_ok, Except.ok.injEq] at hevent
  obtain ⟨d, hd, prepared, hprepared, rfl⟩ := hevent
  obtain ⟨body, key, hof⟩ := prepareEvent_preparedOf tools hprepared
  have hvalid := valid_of_parse hd
  have hcolumn := columnText_writeBody (hof.valid tools hvalid)
  obtain ⟨hbody, hhash, hkey⟩ := hof.texts
  -- The stored text is that of a document alike to the event, and is prepared as the event was.
  obtain ⟨n, hn, hrender, halike⟩ := canonical_canonical.normal hvalid hof.body
  obtain ⟨prepared', hprepared', hof'⟩ := prepareEvent_alike tools halike hprepared hof
  obtain ⟨hbody', hhash', hkey'⟩ := hof'.texts
  have hcolumn' := columnText_writeBody (hof'.valid tools hn)
  obtain ⟨document, hdocument, hstored⟩ := hraw
  have hstoredValid := valid_of_readBody (valid_of_parse hdocument) hstored
  obtain ⟨id, hid⟩ := hstores.id
  obtain ⟨stamp, hstamp⟩ := hstores.recorded
  have hstoredBody : text stored "canonical_body" = .ok body := by rw [hstores.body, hcolumn, hbody]
  have hstoredHash : text stored "canonical_hash" = .ok (tools.digest body) := by rw [hstores.hash, hcolumn, hhash]
  obtain ⟨hashDocument, hhashDocument, hhashText⟩ := Except.bind_eq_ok.1 hstoredHash
  have hcanonical : canonicalize event = .ok body := canonicalize_eq_ok.2 ⟨d, hd, hof.body⟩
  refine ⟨writeBody (receiptOf tools id hashDocument stamp n), writeBody prepared', ?_, ?_, ?_, ?_, ?_, ?_⟩
  · simp only [prepareJournalReceipt, Except.bind_eq_ok, readDocument_eq_ok, checkThat_eq_ok, Except.ok.injEq]
    refine ⟨document, hdocument, stored, readBody_fail hstored, body, hstoredBody, n, hrender ▸ parse_render hn,
      prepared', hprepared', _, hhash', _, hstoredHash, (), decide_eq_true rfl, _, hbody', (), decide_eq_true rfl,
      stamp, hstamp, id, hid, hashDocument, hhashDocument, rfl⟩
  · refine checkJournalReceipt_receiptOf tools hn ?_ ?_ hprepared' hof' hhashText fun raw hraw => ?_
    · exact valid_of_field hstoredValid hid
    · exact valid_of_field hstoredValid hhashDocument
    · cases hraw
      exact hcanonical
  · rw [hcolumn, hbody, hcanonical]
  · rw [hcolumn', hcolumn, hbody, hbody']
  · rw [hcolumn', hcolumn, hhash, hhash']
  · rw [hcolumn', hcolumn, hkey, hkey']

theorem readsBody_writeBody (h : ∀ key value, body.get? key = some value → value.Valid) :
    ReadsBody (writeBody body) body := ⟨bodyDocument body, parse_writeBody h, readBody_bodyDocument _ body⟩

theorem valid_ofList {entries : List (String × Doc)} (h : ∀ entry ∈ entries, Doc.Valid entry.2) :
    ∀ key value, (SortedMap.ofList entries).get? key = some value → value.Valid :=
  fun key value hget => h (key, value) (Records.mem_of_mem_sorted (SortedMap.get?_eq_some_iff.1 hget))

theorem canonical_ofList {entries : List (String × Doc)} (h : ∀ entry ∈ entries, canonical entry.2 = .ok (String.ofList entry.2.render)) :
    canonical (bodyDocument (SortedMap.ofList entries)) = .ok (writeBody (SortedMap.ofList entries)) :=
  canonical_bodyDocument fun entry hentry => h entry (Records.mem_of_mem_sorted hentry)

def sampleReference : Body :=
  SortedMap.ofList [("uri", textDocument "s3://bronze/1"), ("sha256", textDocument (String.ofList (List.replicate 64 '0')))]

def sampleScope : Body := SortedMap.ofList [("cik", textDocument "1")]

def sampleEvent : Body :=
  SortedMap.ofList
    [("version", .plain ['1']), ("producer", textDocument "ingest"), ("event_key", textDocument "filing/1"),
      ("run_id", textDocument "00000000-0000-4000-8000-000000000001"), ("source", textDocument "sec"),
      ("feed", textDocument "daily"), ("event_type", textDocument "filing.accepted"),
      ("occurred_at", textDocument "2026-01-01T00:00:00Z"), ("scope", bodyDocument sampleScope),
      ("evidence", .array [bodyDocument sampleReference])]

def sampleTools : Tools where
  readUuid raw := if raw = "00000000-0000-4000-8000-000000000001" then some raw else none
  readStamp raw :=
    if raw = "2026-01-01T00:00:00Z" then some ⟨1767225600000000000, 0⟩
    else if raw = "2026-01-01T01:00:00+01:00" then some ⟨1767225600000000000, 3600⟩
    else none
  fromTimestamp seconds nanos := some ⟨seconds * 1000000000 + nanos, 0⟩
  writeStamp stamp := if stamp.instant = 1767225600000000000 then "2026-01-01T00:00:00.000000Z" else ""
  digest raw :=
    if raw = "\x7b\"event_key\":\"filing/1\",\"event_type\":\"filing.accepted\",\"evidence\":[\x7b\"sha256\":\"0000000000000000000000000000000000000000000000000000000000000000\",\"uri\":\"s3://bronze/1\"\x7d],\"feed\":\"daily\",\"occurred_at\":\"2026-01-01T00:00:00Z\",\"producer\":\"ingest\",\"run_id\":\"00000000-0000-4000-8000-000000000001\",\"scope\":\x7b\"cik\":\"1\"\x7d,\"source\":\"sec\",\"version\":1\x7d" then "abde9dd930a1dcd64c03e2ff999111ddaba5c737842fc39d22b2974b127693f6"
    else if raw = "filing/1" then "5363d6c4e0bb7f028ef9f60c209c0736f8c1a170338aae4117257b58903d2d26"
    else ""

def sampleStored (body : String) : Body :=
  SortedMap.ofList
    [("id", .plain ['7']), ("canonical_body", textDocument body),
      ("canonical_hash", textDocument (sampleTools.digest body)),
      ("recorded_at", textDocument "2026-01-01T01:00:00+01:00")]

theorem sampleEvent_valid : ∀ key value, sampleEvent.get? key = some value → value.Valid := by
  refine valid_ofList fun entry hentry => ?_
  have hscope : (bodyDocument sampleScope).Valid := bodyDocument_valid <| valid_ofList <|
    List.forall_mem_singleton.2 (textDocument_valid _)
  have hreference : (bodyDocument sampleReference).Valid := bodyDocument_valid <| valid_ofList <|
    List.forall_mem_cons.2 ⟨textDocument_valid _, List.forall_mem_singleton.2 (textDocument_valid _)⟩
  simp only [List.mem_cons, List.not_mem_nil, or_false] at hentry
  obtain rfl | rfl | rfl | rfl | rfl | rfl | rfl | rfl | rfl | rfl := hentry
  case inl => exact .plain (by decide)
  case inr.inr.inr.inr.inr.inr.inr.inr.inl => exact hscope
  case inr.inr.inr.inr.inr.inr.inr.inr.inr => exact .array (List.forall_mem_singleton.2 hreference)
  all_goals exact textDocument_valid _

theorem sampleStored_valid (body : String) : ∀ key value, (sampleStored body).get? key = some value → value.Valid := by
  refine valid_ofList fun entry hentry => ?_
  simp only [List.mem_cons, List.not_mem_nil, or_false] at hentry
  obtain rfl | rfl | rfl | rfl := hentry
  case inl => exact .plain (by decide)
  all_goals exact textDocument_valid _

theorem sampleEvent_prepared : ∃ prepared, prepareEvent sampleTools (bodyDocument sampleEvent) = .ok prepared ∧ True := by
  decide +kernel

theorem journal_event_reads_back_sample :
    ∃ written raw receipt checked, prepareJournalEvent sampleTools (writeBody sampleEvent) = .ok written ∧
      prepareJournalReceipt sampleTools raw = .ok receipt ∧
      checkJournalReceipt sampleTools receipt (some (writeBody sampleEvent)) = .ok checked ∧
      columnText checked "body" = columnText written "body" := by
  obtain ⟨prepared, hprepared, _⟩ := sampleEvent_prepared
  obtain ⟨body, key, hof⟩ := prepareEvent_preparedOf sampleTools hprepared
  obtain ⟨hbody, hhash, _⟩ := hof.texts
  have hcolumn := columnText_writeBody (hof.valid sampleTools (bodyDocument_valid sampleEvent_valid))
  have hwritten : prepareJournalEvent sampleTools (writeBody sampleEvent) = .ok (writeBody prepared) := by
    simp only [prepareJournalEvent, Except.bind_eq_ok, readDocument_eq_ok, Except.ok.injEq]
    exact ⟨_, parse_writeBody sampleEvent_valid, prepared, hprepared, rfl⟩
  have hstores : Stores sampleTools (sampleStored body) (writeBody prepared) := by
    refine ⟨?_, ?_, ⟨.plain ['7'], ?_⟩, ⟨⟨1767225600000000000, 3600⟩, ?_⟩⟩
    · rw [hcolumn, hbody]
      exact text_of_get? (SortedMap.get?_ofList _ _)
    · rw [hcolumn, hhash]
      exact text_of_get? (SortedMap.get?_ofList _ _)
    · rw [field, sampleStored, SortedMap.get?_ofList]
      rfl
    · have hepoch : (sampleStored body).contains "recorded_at_epoch" = false := by
        rw [SortedMap.contains, sampleStored, SortedMap.get?_ofList]
        rfl
      have hrecorded : text (sampleStored body) "recorded_at" = .ok "2026-01-01T01:00:00+01:00" :=
        text_of_get? (SortedMap.get?_ofList _ _)
      have hstamp : sampleTools.readStamp "2026-01-01T01:00:00+01:00" = some ⟨1767225600000000000, 3600⟩ := by
        decide +kernel
      rw [readRecordedAt, hepoch, hrecorded, if_neg Bool.false_ne_true, Except.bind, hstamp]
  obtain ⟨receipt, checked, hreceipt, hchecked, _, hsame, _⟩ := journal_event_reads_back sampleTools _ _ _ _ hwritten
    (readsBody_writeBody (sampleStored_valid body)) hstores
  exact ⟨_, _, receipt, checked, hwritten, hreceipt, hchecked, hsame⟩

end EdgarPlatform.Control
