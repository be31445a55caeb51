import EdgarPlatform.Library.Bounds
import EdgarPlatform.Sequences.Frames
import Mathlib.Data.List.Infix

/-!
# Scanning a streamed XML envelope

A document is a root with a header and a container of records. The scan takes the events a reader makes of it one by one, keeps the open elements as a stack, and hands the header and each record on when it ends. The bytes that may be read, and the errors of the reader itself, are left to the reader.
-/

namespace EdgarPlatform.Sequences

open Formats (isBlank)

structure Envelope where
  uri : Text
  root : Text
  header : Text
  container : Text
  record : Text
  recordWrapper : Option Text

def Envelope.wrapped (envelope : Envelope) (value : Value) : Value :=
  match envelope.recordWrapper with
  | some wrapper => .object [(wrapper, value)]
  | none => value

structure Limits where
  maxBytes : Nat
  maxRecord : Nat
  maxHeader : Nat
  maxRecords : Nat
  maxDepth : Nat

/-- What a reader makes of an attribute: a name and a value, or an error. -/
abbrev Attribute := Except String (Text × Text)

inductive Event where
  | docType
  | decl (version : Except String Text) (attributes : List Attribute)
  | start (name : Text) (attributes : List Attribute)
  | text (contents : Text)
  | cdata (contents : Text)
  | close
  | comment (contents : Text)
  | pi (target contents : Text)
  | other

/-- A scan under way: the open elements, innermost first, the records handed on, and what the two receivers hold. -/
structure State (σ : Type) where
  stack : List Frame
  rootSeen : Bool
  rootClosed : Bool
  headerSeen : Bool
  containerSeen : Bool
  eventSeen : Bool
  records : List Value
  held : σ

def State.begin {σ : Type} (held : σ) : State σ := ⟨[], false, false, false, false, false, [], held⟩

/-- A scan's settings: the envelope and its limits, how references are replaced, and the receivers of the header and the records. -/
structure Settings (σ : Type) where
  envelope : Envelope
  limits : Limits
  unescape : Text → Except String Text
  header : σ → Value → Except Rejected σ
  consume : σ → Value → Nat → Except Rejected σ

/-- The outermost element of a stack has the next one open in it, and that one has a name. -/
def inside (stack : List Frame) (name : Text) : Bool := (stack.map Frame.name).reverse[1]? = some name

def Frame.key (frame : Frame) (envelope : Envelope) : Text :=
  if frame.uri = some envelope.uri then frame.name
  else
    match frame.uri with
    | some uri => '{' :: uri ++ '}' :: frame.name
    | none => frame.name

/-- The elements below one that begins, of which the nearest has a child now. -/
def touched (stack : List Frame) : List Frame :=
  match stack with
  | [] => []
  | parent :: others => { parent with childSeen := true } :: others

/-- One attribute of a declaration, after the names of those before it. -/
def declared (keys : List Text) (entry : Attribute) : Except Rejected (List Text) := do
  let (key, value) ← entry.mapError reject
  if key = "version".toList ∧ keys = [] ∧ value = "1.0".toList then return keys ++ [key]
  else if key = "encoding".toList ∧ keys = ["version".toList] ∧ value.map Char.toLower = "utf-8".toList then return keys ++ [key]
  else if key = "standalone".toList ∧ keys ≠ [] ∧ keys.getLast? ≠ some "standalone".toList ∧ (value = "yes".toList ∨ value = "no".toList) then
    return keys ++ [key]
  else .error (reject "invalid XML declaration attribute or encoding")

/-- One attribute of an element joins the bindings of prefixes or the attributes that are kept. -/
def gathered (unescape : Text → Except String Text) (read : List (Text × Text) × List (Text × Text)) (entry : Attribute) :
    Except Rejected (List (Text × Text) × List (Text × Text)) := do
  let (raw, value) ← entry.mapError reject
  qname raw
  let value ← normalized unescape value true
  if raw = "xmlns".toList ∨ "xmlns:".toList.isPrefixOf raw = true then
    let key := if "xmlns:".toList.isPrefixOf raw then some (raw.drop 6) else none
    if value = "http://www.w3.org/2000/xmlns/".toList ∨ key = some "xmlns".toList ∨
        ¬ (key = some "xml".toList ↔ value = "http://www.w3.org/XML/1998/namespace".toList) ∨ (key.isSome = true ∧ value = []) ∨
        value.any isBlank = true then
      .error (reject "invalid reserved, empty or whitespace XML namespace binding")
    else return (read.1 ++ [(key.getD [], value)], read.2)
  else return (read.1, read.2 ++ [(raw, value)])

/-- One attribute that is kept becomes a field, and is counted. -/
def counted (bindings : List (Text × Text)) (stack : List Frame) (maximum : Nat) (read : List (Text × Value) × Nat) (entry : Text × Text) :
    Except Rejected (List (Text × Value) × Nat) := do
  let (uri, name) ← resolved entry.1 true bindings stack
  let key :=
    match uri with
    | some uri => '@' :: '{' :: uri ++ '}' :: name
    | none => '@' :: name
  let size := read.2 + textLength key + 1 + textLength entry.2 + if read.1.isEmpty then 0 else 1
  if maximum < size then .error (reject "XML normalized attributes exceed byte bound")
  else if key ∈ read.1.map Prod.fst then .error (reject "duplicate expanded XML attribute")
  else .ok (read.1 ++ [(key, .text entry.2)], size)

namespace Settings

variable {σ : Type} (settings : Settings σ)

def nodeBound (stack : List Frame) : Nat :=
  if 3 ≤ stack.length ∧ inside stack settings.envelope.container = true then settings.limits.maxRecord else settings.limits.maxHeader

def placed (s : State σ) (uri : Option Text) (name : Text) : Except Rejected (State σ) :=
  let sameNamespace : Bool := uri = some settings.envelope.uri
  match s.stack.length with
  | 0 =>
      if s.rootSeen = true ∨ sameNamespace = false ∨ name ≠ settings.envelope.root then .error (reject "invalid XML root/namespace")
      else .ok { s with rootSeen := true }
  | 1 =>
      if sameNamespace = false then .error (reject "invalid XML envelope namespace")
      else if name = settings.envelope.header ∧ s.headerSeen = false ∧ s.containerSeen = false then .ok s
      else if name = settings.envelope.container ∧ s.headerSeen = true ∧ s.containerSeen = false then .ok { s with containerSeen := true }
      else .error (reject "duplicate, unexpected or misplaced XML envelope element")
  | 2 =>
      if inside s.stack settings.envelope.container then
        if sameNamespace = false ∨ name ≠ settings.envelope.record then .error (reject "unexpected XML record")
        else if settings.limits.maxRecords ≤ s.records.length then .error (reject "XML record count exceeds bound")
        else .ok s
      else .ok s
  | _ => .ok s

def opened (s : State σ) (raw : Text) (attributes : List Attribute) : Except Rejected (State σ) := do
  qname raw
  if s.rootClosed = true ∨ settings.limits.maxDepth ≤ s.stack.length then .error (reject "XML root or depth bound exceeded")
  else
    let (bindings, attributes) ← attributes.foldlM (gathered settings.unescape) ([], [])
    let (uri, name) ← resolved raw false bindings s.stack
    let s ← settings.placed s uri name
    let maximum := if inside s.stack settings.envelope.container then settings.limits.maxRecord else settings.limits.maxHeader
    let (values, size) ← attributes.foldlM (counted bindings s.stack maximum) ([], 2)
    return { s with stack := ⟨bindings, uri, name, values, [], false, size⟩ :: touched s.stack }

def joinedText (s : State σ) (text : Text) : Except Rejected (State σ) :=
  match s.stack with
  | [] => .ok s
  | frame :: rest => do
      let frame ← frame.leadingText text (settings.nodeBound s.stack)
      return { s with stack := frame :: rest }

def inEnvelope (stack : List Frame) : Bool := stack.length = 2 && inside stack settings.envelope.container

def textRead (s : State σ) (raw : Text) : Except Rejected (State σ) := do
  if s.stack = [] ∧ '&' ∈ raw then .error (reject "entity reference outside XML root")
  else if "]]>".toList <:+: raw then .error (reject "CDATA terminator in XML text")
  else
    let text ← normalized settings.unescape raw false
    if s.stack.length ≤ 1 ∨ settings.inEnvelope s.stack = true then
      if text.all (fun c => c ∈ [' ', '\t', '\r', '\n']) then return s else .error (reject "unexpected XML envelope text")
    else settings.joinedText s text

def cdataRead (s : State σ) (raw : Text) : Except Rejected (State σ) := do
  if s.stack.length < 2 ∨ settings.inEnvelope s.stack = true then .error (reject "unexpected XML envelope CDATA")
  else
    let text := oneLineEnd raw
    xmlChars text
    settings.joinedText s text

/-- The innermost element ends: the header and a record are handed on, another joins its parent. -/
def closed (s : State σ) : Except Rejected (State σ) :=
  match s.stack with
  | [] => .error (reject "unbalanced XML end tag")
  | [_] => .ok { s with stack := [], rootClosed := true }
  | frame :: parent :: others => do
      let maximum := settings.nodeBound s.stack
      let key := frame.key settings.envelope
      if others = [] ∧ frame.name = settings.envelope.header then
        let value ← frame.finish settings.limits.maxHeader
        if settings.limits.maxHeader < encodedLength value then .error (reject "XML header exceeds byte bound")
        else
          let held ← settings.header s.held value
          return { s with stack := parent :: others, headerSeen := true, held := held }
      else if settings.inEnvelope (parent :: others) = true then
        let value ← frame.finish settings.limits.maxRecord
        let value := settings.envelope.wrapped value
        if settings.limits.maxRecord < encodedLength value then .error (reject "XML record exceeds encoded byte bound")
        else
          let held ← settings.consume s.held value s.records.length
          return { s with stack := parent :: others, records := s.records ++ [value], held := held }
      else if others ≠ [] then
        let value ← frame.finish maximum
        let parent ← parent.child key value maximum
        return { s with stack := parent :: others }
      else return { s with stack := parent :: others }

def instruction (s : State σ) (target contents : Text) : Except Rejected (State σ) := do
  qname target
  if ':' ∈ target then .error (reject "colon in XML processing instruction target")
  else if target.map Char.toLower = "xml".toList then .error (reject "reserved XML processing instruction target")
  else
    xmlChars contents
    if inside s.stack settings.envelope.header = true ∨ 3 ≤ s.stack.length then
      .error (reject "processing instruction inside a captured XML node")
    else return s

def handled (s : State σ) : Event → Except Rejected (State σ)
  | .docType => .error (reject "DTD is unsupported")
  | .decl version attributes => do
      if s.eventSeen = true ∨ s.rootSeen = true then .error (reject "invalid XML declaration")
      else
        let version ← version.mapError reject
        if version ≠ "1.0".toList then .error (reject "invalid XML declaration")
        else
          let _ ← attributes.foldlM declared []
          return s
  | .start name attributes => settings.opened s name attributes
  | .text contents => settings.textRead s contents
  | .cdata contents => settings.cdataRead s contents
  | .close => settings.closed s
  | .comment contents => do
      xmlChars contents
      return s
  | .pi target contents => settings.instruction s target contents
  | .other => .ok s

def step (s : State σ) (event : Event) : Except Rejected (State σ) := do
  let s ← settings.handled s event
  return { s with eventSeen := true }

def valid : Bool :=
  let envelope := settings.envelope
  let limits := settings.limits
  let names := [envelope.root, envelope.header, envelope.container, envelope.record]
  envelope.uri ≠ [] && names.all (fun name => name ≠ [] && name.all fun c => c ∉ [':', '{', '}']) && decide names.Nodup &&
    envelope.recordWrapper ≠ some [] && limits.maxBytes ≠ 0 && limits.maxRecord ≠ 0 && limits.maxHeader ≠ 0 && 3 ≤ limits.maxDepth

/-- A scan of all events of a document. Its receipt names how many records were handed on. -/
def scan (held : σ) (events : List Event) : Except Rejected (State σ) := do
  if settings.valid = false then .error ⟨"contract", "invalid XML stream envelope or bounds"⟩
  else
    let s ← events.foldlM settings.step (State.begin held)
    if s.rootClosed = false ∨ s.stack ≠ [] ∨ s.headerSeen = false ∨ s.containerSeen = false then .error (reject "incomplete XML envelope")
    else return s

end Settings

end EdgarPlatform.Sequences
