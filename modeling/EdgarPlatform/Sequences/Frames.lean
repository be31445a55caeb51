import EdgarPlatform.Formats.Trees
import Mathlib.Data.List.TakeWhile

/-!
# Open elements and the lengths of their records

An element of an XML record becomes an object: its attributes, its leading text and its children, those of one name in an array. While the element is open its frame keeps the object and counts the bytes the object is encoded in, adding at each change what the encoding grows by. Lengths stay far from the greatest of a machine word, so the additions that would stop there are additions.
-/

namespace EdgarPlatform.Sequences

open Formats (isBlank trimText)
open IndexMap (lookupEntry setEntry lookupEntry_eq_some sum_setEntry)

abbrev Text := List Char

structure Rejected where
  code : String
  detail : String
  deriving DecidableEq

def reject (detail : String) : Rejected := ⟨"xml_stream", detail⟩

/-- A JSON value of texts. The fields of an object keep their order. -/
inductive Value where
  | text (contents : Text)
  | array (items : List Value)
  | object (fields : List (Text × Value))

def escapedLength (c : Char) : Nat :=
  if c.toNat ∈ [34, 92, 8, 12, 10, 13, 9] then 2 else if c.toNat < 32 then 6 else c.utf8Size

def textLength (contents : Text) : Nat := 2 + (contents.map escapedLength).sum

mutual

def encodedLength : Value → Nat
  | .text contents => textLength contents
  | .array items => 2 + (items.length - 1) + itemsLength items
  | .object fields => 2 + (fields.length - 1) + fieldsLength fields

def itemsLength : List Value → Nat
  | [] => 0
  | item :: rest => encodedLength item + itemsLength rest

def fieldsLength : List (Text × Value) → Nat
  | [] => 0
  | (key, value) :: rest => textLength key + 1 + encodedLength value + fieldsLength rest

end

/-- An open element. -/
structure Frame where
  bindings : List (Text × Text)
  uri : Option Text
  name : Text
  values : List (Text × Value)
  text : Text
  childSeen : Bool
  size : Nat

def textKey : Text := ['$']

namespace Frame

def comma (frame : Frame) : Nat := if frame.values.isEmpty then 0 else 1

/-- What a child adds to the encoding: a field, an item of its array, or the brackets and the comma of a new one. -/
def growth (frame : Frame) (name : Text) (value : Value) : Nat :=
  match lookupEntry name frame.values with
  | none => textLength name + 1 + encodedLength value + frame.comma
  | some (.array _) => encodedLength value + 1
  | some _ => encodedLength value + 3

/-- A frame with one more child. The second of a name makes an array of the two. -/
def joined (frame : Frame) (name : Text) (value : Value) : Frame :=
  let values :=
    match lookupEntry name frame.values with
    | none => frame.values ++ [(name, value)]
    | some (.array items) => setEntry name (.array (items ++ [value])) frame.values
    | some previous => setEntry name (.array [previous, value]) frame.values
  { frame with values := values, size := frame.size + frame.growth name value }

def child (frame : Frame) (name : Text) (value : Value) (maximum : Nat) : Except Rejected Frame :=
  if maximum < frame.size + frame.growth name value then .error (reject "XML normalized node exceeds encoded byte bound")
  else .ok (frame.joined name value)

def heard (frame : Frame) (text : Text) : Frame := if frame.childSeen then frame else { frame with text := frame.text ++ text }

/-- Text before the first child. It is not counted until the element ends, but it has to fit at once. -/
def leadingText (frame : Frame) (text : Text) (maximum : Nat) : Except Rejected Frame :=
  if frame.childSeen then .ok frame
  else
    let frame := frame.heard text
    let trimmed := trimText frame.text
    if trimmed ≠ [] ∧ maximum < frame.size + (textLength trimmed + 4 + frame.comma) then
      .error (reject "XML normalized text exceeds encoded byte bound")
    else .ok frame

def finish (frame : Frame) (maximum : Nat) : Except Rejected Value := do
  let trimmed := trimText frame.text
  let frame ← if trimmed ≠ [] then frame.child textKey (.text trimmed) maximum else .ok frame
  return .object frame.values

/-- What the counter says, that no array is empty, and that no field has the name of the text. -/
structure Counts (frame : Frame) : Prop where
  size : frame.size = encodedLength (.object frame.values)
  arrays : ∀ entry ∈ frame.values, entry.2 ≠ .array []
  keys : ∀ entry ∈ frame.values, entry.1 ≠ textKey
  named : frame.name ≠ textKey

/-- The least a frame's object will be encoded in, its text with it. -/
def full (frame : Frame) : Nat :=
  if trimText frame.text = [] then frame.size else frame.size + (textLength (trimText frame.text) + 4 + frame.comma)

def whole (frame : Frame) : Value :=
  .object (if trimText frame.text = [] then frame.values else frame.values ++ [(textKey, .text (trimText frame.text))])

end Frame

theorem fieldsLength_eq (fields : List (Text × Value)) :
    fieldsLength fields = (fields.map fun field => textLength field.1 + 1 + encodedLength field.2).sum := by
  induction fields with
  | nil => rfl
  | cons field rest ih => rw [fieldsLength, ih, List.map_cons, List.sum_cons]

theorem itemsLength_append (items more : List Value) : itemsLength (items ++ more) = itemsLength items + itemsLength more := by
  induction items with
  | nil => exact (Nat.zero_add _).symm
  | cons item rest ih => rw [List.cons_append, itemsLength, itemsLength, ih, Nat.add_assoc]

variable {fields : List (Text × Value)} {name : Text} {value previous : Value} {items : List Value}

theorem encodedLength_append (fields : List (Text × Value)) (name : Text) (value : Value) : encodedLength (.object (fields ++ [(name, value)])) =
    encodedLength (.object fields) + (textLength name + 1 + encodedLength value + if fields.isEmpty then 0 else 1) := by
  rw [encodedLength, encodedLength, fieldsLength_eq, fieldsLength_eq, List.map_append, List.sum_append, List.length_append, List.map_singleton,
    List.sum_singleton, List.length_singleton]
  cases fields with
  | nil => simp only [List.length_nil, List.map_nil, List.sum_nil, List.isEmpty_nil, if_true]; omega
  | cons field rest => simp only [List.length_cons, List.isEmpty_cons, Bool.false_eq_true, if_false]; omega

theorem encodedLength_setEntry (h : lookupEntry name fields = some previous) :
    encodedLength (.object (setEntry name value fields)) + encodedLength previous = encodedLength (.object fields) + encodedLength value := by
  have hsum := sum_setEntry (fun key value => textLength key + 1 + encodedLength value) name value fields
  have hlength : (setEntry name value fields).length = fields.length := by
    have hkeys := congrArg List.length (IndexMap.keys_setEntry name value fields)
    rw [if_pos (List.mem_map_of_mem (lookupEntry_eq_some h)), List.length_map, List.length_map] at hkeys
    exact hkeys
  rw [h, Option.elim_some] at hsum
  rw [encodedLength, encodedLength, fieldsLength_eq, fieldsLength_eq, hlength]
  omega

theorem encodedLength_push (hne : items ≠ []) (value : Value) :
    encodedLength (.array (items ++ [value])) = encodedLength (.array items) + (encodedLength value + 1) := by
  have hpos := List.length_pos_of_ne_nil hne
  rw [encodedLength, encodedLength, itemsLength_append, itemsLength, itemsLength, List.length_append, List.length_singleton]
  omega

theorem encodedLength_pair (previous value : Value) : encodedLength (.array [previous, value]) = encodedLength previous + (encodedLength value + 3) := by
  rw [encodedLength, itemsLength, itemsLength, itemsLength]
  show 2 + (2 - 1) + _ = _
  omega

theorem trimText_append (text more : Text) (hne : trimText text ≠ []) : trimText text <+: trimText (text ++ more) := by
  have hfront : text.dropWhile isBlank ≠ [] := by
    intro hnil
    exact hne (by rw [trimText, hnil]; rfl)
  have hdrop : (text ++ more).dropWhile isBlank = text.dropWhile isBlank ++ more := by
    rw [List.dropWhile_append, if_neg (by simpa using hfront)]
  rw [trimText, trimText, hdrop, List.reverse_append, List.dropWhile_append, List.reverse_prefix]
  split_ifs
  · exact List.suffix_refl _
  · exact (List.dropWhile_suffix isBlank).trans (List.suffix_append _ _)

theorem textLength_le {text other : Text} (h : text <+: other) : textLength text ≤ textLength other := by
  obtain ⟨more, rfl⟩ := h
  rw [textLength, textLength, List.map_append, List.sum_append]
  omega

namespace Frame

variable {frame : Frame} {name text : Text} {value : Value} {maximum : Nat}

theorem size_joined (frame : Frame) (name : Text) (value : Value) : (frame.joined name value).size = frame.size + frame.growth name value := rfl

theorem growth_ge (frame : Frame) (name : Text) (value : Value) : encodedLength value < frame.growth name value := by
  unfold growth
  split <;> omega

theorem mem_setEntry {entries : List (Text × Value)} {entry : Text × Value} (h : entry ∈ setEntry name value entries) :
    entry = (name, value) ∨ entry ∈ entries := by
  induction entries with
  | nil => exact .inl (List.mem_singleton.1 h)
  | cons first rest ih =>
      rw [setEntry] at h
      split_ifs at h with hkey
      · exact (List.mem_cons.1 h).imp_right (List.mem_cons_of_mem _)
      · obtain rfl | h := List.mem_cons.1 h
        · exact .inr (List.mem_cons_self ..)
        · exact (ih h).imp_right (List.mem_cons_of_mem _)

theorem joined_cases (frame : Frame) (name : Text) (value : Value) :
    ((frame.joined name value).values = frame.values ++ [(name, value)] ∧ lookupEntry name frame.values = none ∧
        frame.growth name value = textLength name + 1 + encodedLength value + frame.comma) ∨
      ∃ previous next, (frame.joined name value).values = setEntry name next frame.values ∧ lookupEntry name frame.values = some previous ∧
        next ≠ .array [] ∧ (previous ≠ .array [] → encodedLength next = encodedLength previous + frame.growth name value) := by
  simp only [joined, growth]
  rcases hlook : lookupEntry name frame.values with _ | (contents | items | fields)
  · exact .inl ⟨rfl, rfl, rfl⟩
  · exact .inr ⟨_, _, rfl, rfl, by simp, fun _ => encodedLength_pair _ _⟩
  · refine .inr ⟨_, _, rfl, rfl, by simp, fun hne => encodedLength_push (fun hnil => hne ?_) value⟩
    rw [hnil]
  · exact .inr ⟨_, _, rfl, rfl, by simp, fun _ => encodedLength_pair _ _⟩

theorem joined_nonempty (frame : Frame) (name : Text) (value : Value) : (frame.joined name value).values ≠ [] := by
  obtain ⟨hvalues, _⟩ | ⟨previous, next, hvalues, hlook, _⟩ := joined_cases frame name value
  · rw [hvalues]
    exact List.append_ne_nil_of_right_ne_nil _ (List.cons_ne_nil _ _)
  · rw [hvalues]
    intro hnil
    have hself := IndexMap.lookupEntry_setEntry name name next frame.values
    rw [hnil, if_pos rfl] at hself
    cases hself

theorem size_joined_eq (h : frame.Counts) (name : Text) (value : Value) :
    (frame.joined name value).size = encodedLength (.object (frame.joined name value).values) := by
  rw [size_joined, h.size]
  obtain ⟨hvalues, _, hgrowth⟩ | ⟨previous, next, hvalues, hlook, _, hnext⟩ := joined_cases frame name value
  · rw [hvalues, hgrowth, encodedLength_append]
    rfl
  · have hset : encodedLength (.object (setEntry name next frame.values)) + _ = _ := encodedLength_setEntry hlook
    have hlonger := hnext (h.arrays _ (lookupEntry_eq_some hlook))
    rw [hvalues]
    omega

theorem joined_counts (h : frame.Counts) (hname : name ≠ textKey) (hvalue : value ≠ .array []) : (frame.joined name value).Counts where
  size := size_joined_eq h name value
  arrays entry hentry := by
    obtain ⟨hvalues, _⟩ | ⟨previous, next, hvalues, _, hnext, _⟩ := joined_cases frame name value
    · rw [hvalues] at hentry
      obtain hentry | hentry := List.mem_append.1 hentry
      · exact h.arrays entry hentry
      · rwa [List.mem_singleton.1 hentry]
    · rw [hvalues] at hentry
      obtain rfl | hentry := mem_setEntry hentry
      · exact hnext
      · exact h.arrays entry hentry
  keys entry hentry := by
    obtain ⟨hvalues, _⟩ | ⟨previous, next, hvalues, _⟩ := joined_cases frame name value
    · rw [hvalues] at hentry
      obtain hentry | hentry := List.mem_append.1 hentry
      · exact h.keys entry hentry
      · rwa [List.mem_singleton.1 hentry]
    · rw [hvalues] at hentry
      obtain rfl | hentry := mem_setEntry hentry
      · exact hname
      · exact h.keys entry hentry
  named := h.named

theorem comma_le_joined (frame : Frame) (name : Text) (value : Value) : frame.comma ≤ (frame.joined name value).comma := by
  have hnext : (frame.joined name value).comma = 1 := if_neg (by simpa using joined_nonempty frame name value)
  rw [hnext, comma]
  split <;> omega

theorem size_le_full (frame : Frame) : frame.size ≤ frame.full := by
  unfold full
  split <;> omega

theorem full_joined (frame : Frame) (name : Text) (value : Value) : frame.full + encodedLength value < (frame.joined name value).full := by
  have hgrowth := growth_ge frame name value
  have hcomma := comma_le_joined frame name value
  have htext : (frame.joined name value).text = frame.text := rfl
  rw [full, full, htext, size_joined]
  split <;> omega

theorem full_heard (frame : Frame) (text : Text) : frame.full ≤ (frame.heard text).full := by
  unfold heard
  split_ifs
  · exact le_rfl
  · unfold full
    show _ ≤ if trimText (frame.text ++ text) = [] then frame.size else frame.size + (textLength (trimText (frame.text ++ text)) + 4 + frame.comma)
    by_cases hnil : trimText frame.text = []
    · rw [if_pos hnil]
      split <;> omega
    · have hlength := textLength_le (trimText_append frame.text text hnil)
      have hmore : trimText (frame.text ++ text) ≠ [] := fun h => hnil (List.prefix_nil.1 (h ▸ trimText_append frame.text text hnil))
      rw [if_neg hnil, if_neg hmore]
      omega

theorem heard_counts (h : frame.Counts) (text : Text) : (frame.heard text).Counts := by
  unfold heard
  split
  · exact h
  · exact ⟨h.size, h.arrays, h.keys, h.named⟩

theorem leadingText_eq (frame : Frame) (text : Text) (maximum : Nat) : frame.leadingText text maximum =
    if frame.childSeen = false ∧ trimText (frame.heard text).text ≠ [] then
      if maximum < (frame.heard text).full then .error (reject "XML normalized text exceeds encoded byte bound") else .ok (frame.heard text)
    else .ok (frame.heard text) := by
  unfold leadingText
  cases hseen : frame.childSeen with
  | true => rw [if_pos rfl, if_neg (by simp), heard, if_pos hseen]
  | false =>
      by_cases hnil : trimText (frame.heard text).text = []
      · simp only [hnil, Bool.false_eq_true, if_false, ne_eq, not_true_eq_false, false_and, and_false]
      · simp only [full, hnil, Bool.false_eq_true, if_false, ne_eq, not_false_eq_true, true_and, and_true, if_true]

theorem lookupEntry_textKey (h : frame.Counts) : lookupEntry textKey frame.values = none := by
  cases hlook : lookupEntry textKey frame.values with
  | none => rfl
  | some value => exact absurd rfl (h.keys _ (lookupEntry_eq_some hlook))

theorem growth_textKey (h : frame.Counts) (text : Text) : frame.growth textKey (.text text) = textLength text + 4 + frame.comma := by
  have hkey : textLength textKey = 3 := by decide +kernel
  rw [growth, lookupEntry_textKey h]
  show textLength textKey + 1 + textLength text + frame.comma = _
  omega

theorem joined_textKey (h : frame.Counts) (text : Text) : (frame.joined textKey (.text text)).values = frame.values ++ [(textKey, .text text)] := by
  simp only [joined, lookupEntry_textKey h]

theorem finish_eq (h : frame.Counts) (maximum : Nat) : frame.finish maximum =
    if trimText frame.text ≠ [] then
      if maximum < frame.full then .error (reject "XML normalized node exceeds encoded byte bound") else .ok frame.whole
    else .ok frame.whole := by
  unfold finish full whole
  by_cases hnil : trimText frame.text = []
  · simp only [hnil, ne_eq, not_true_eq_false, if_true, if_false]
    rfl
  · simp only [hnil, ne_eq, not_false_eq_true, if_true, if_false, child, growth_textKey h]
    split
    · rfl
    · show Except.ok (Value.object (frame.joined textKey _).values) = _
      rw [joined_textKey h]

theorem encodedLength_whole (h : frame.Counts) : encodedLength frame.whole = frame.full := by
  unfold whole full
  by_cases hnil : trimText frame.text = []
  · rw [if_pos hnil, if_pos hnil, h.size]
  · rw [if_neg hnil, if_neg hnil, ← growth_textKey h, ← size_joined, size_joined_eq h, joined_textKey h]

end Frame

/-! ### Names and texts of a streamed XML document

A qualified name is one or two names of XML 1.0 with a colon between them. Its prefix stands for the namespace that the element itself or the nearest open element binds it to. The text of an element or an attribute is read with one line ending, its references replaced, and may hold only the characters of XML.
-/

open Formats (isBlank)

def within (ranges : List (Nat × Nat)) (c : Char) : Bool := ranges.any fun range => range.1 ≤ c.toNat && c.toNat ≤ range.2

def nameStart (c : Char) : Bool :=
  within [(0x41, 0x5A), (0x5F, 0x5F), (0x61, 0x7A), (0xC0, 0xD6), (0xD8, 0xF6), (0xF8, 0x2FF), (0x370, 0x37D), (0x37F, 0x1FFF), (0x200C, 0x200D),
    (0x2070, 0x218F), (0x2C00, 0x2FEF), (0x3001, 0xD7FF), (0xF900, 0xFDCF), (0xFDF0, 0xFFFD), (0x10000, 0xEFFFF)] c

def nameRest (c : Char) : Bool := nameStart c || within [(0x2D, 0x2E), (0x30, 0x39), (0xB7, 0xB7), (0x300, 0x36F), (0x203F, 0x2040)] c

def isName (part : Text) : Bool :=
  match part with
  | [] => false
  | c :: rest => nameStart c && rest.all nameRest

def qname (raw : Text) : Except Rejected Unit :=
  let parts := raw.splitOn ':'
  if 2 < parts.length ∨ parts.any (fun part => !isName part) = true then .error (reject "invalid XML qualified name") else .ok ()

def xmlChars (text : Text) : Except Rejected Unit :=
  if text.any (fun c => !within [(0x9, 0xA), (0xD, 0xD), (0x20, 0xD7FF), (0xE000, 0xFFFD), (0x10000, 0x10FFFF)] c) then
    .error (reject "invalid XML 1.0 character")
  else .ok ()

def oneLineEnd : Text → Text
  | '\r' :: '\n' :: rest => '\n' :: oneLineEnd rest
  | c :: rest => (if c = '\r' then '\n' else c) :: oneLineEnd rest
  | [] => []

def normalized (unescape : Text → Except String Text) (raw : Text) (isAttribute : Bool) : Except Rejected Text := do
  if isAttribute = true ∧ '<' ∈ raw then .error (reject "literal '<' in XML attribute")
  else
    let text := oneLineEnd raw
    let text := if isAttribute then text.map fun c => if c = '\n' ∨ c = '\t' then ' ' else c else text
    let text ← (unescape text).mapError reject
    xmlChars text
    return text

/-- What stands before the first colon and after it. Without one all of the name is local. -/
def splitName (raw : Text) : Text × Text :=
  match raw.dropWhile (· ≠ ':') with
  | [] => ([], raw)
  | _ :: rest => (raw.takeWhile (· ≠ ':'), rest)

def bound (key : Text) (bindings : List (Text × Text)) : Option Text := (bindings.reverse.find? fun binding => binding.1 = key).map Prod.snd

/-- A name with its namespace. Open elements are listed innermost first. -/
def resolved (raw : Text) (isAttribute : Bool) (bindings : List (Text × Text)) (stack : List Frame) : Except Rejected (Option Text × Text) := do
  qname raw
  let (key, name) := splitName raw
  if key = "xml".toList then return (some "http://www.w3.org/XML/1998/namespace".toList, name)
  else if key = [] ∧ isAttribute = true then return (none, name)
  else
    let uri := (bound key bindings).or (stack.findSome? fun frame => bound key frame.bindings)
    if uri.any (fun uri => !uri.isEmpty) then return (uri, name)
    else if key = [] then return (none, name)
    else .error (reject "undeclared XML namespace prefix")

theorem isName_ne_textKey {part : Text} (h : isName part = true) : part ≠ textKey := by
  rintro rfl
  exact absurd h (by decide)

theorem mem_parts {raw : Text} (h : qname raw = .ok ()) : (raw.splitOn ':').length ≤ 2 ∧ ∀ part ∈ raw.splitOn ':', isName part = true := by
  rw [qname] at h
  obtain ⟨hbad, _⟩ := Except.ite_error_eq_ok.1 h
  rw [not_or, not_lt, List.any_eq_true] at hbad
  refine ⟨hbad.1, fun part hpart => ?_⟩
  by_contra hname
  exact hbad.2 ⟨part, hpart, by simpa using hname⟩

theorem splitOn_of_length {text : Text} (h : (text.splitOn ':').length ≤ 1) : text.splitOn ':' = [text] := by
  apply List.splitOn_eq_singleton
  intro hmem
  obtain ⟨front, back, rfl⟩ := List.append_of_mem hmem
  have hfront := List.length_pos_of_ne_nil (List.splitOn_ne_nil ':' front)
  have hback := List.length_pos_of_ne_nil (List.splitOn_ne_nil ':' back)
  rw [List.splitOn_append_cons_self, List.length_append] at h
  omega

theorem isName_local {raw : Text} (h : qname raw = .ok ()) : isName (splitName raw).2 = true := by
  obtain ⟨hlength, hparts⟩ := mem_parts h
  unfold splitName
  cases hdrop : raw.dropWhile (· ≠ ':') with
  | nil =>
      have hnone : ':' ∉ raw := fun hmem => by simpa using List.dropWhile_eq_nil_iff.1 hdrop ':' hmem
      exact hparts raw (by rw [List.splitOn_eq_singleton hnone]; exact List.mem_singleton_self _)
  | cons c rest =>
      have hcolon : c = ':' := by
        have hhead := List.head?_dropWhile_not (fun d : Char => decide (d ≠ ':')) raw
        rw [hdrop] at hhead
        simpa using hhead
      subst hcolon
      have hraw : raw = raw.takeWhile (· ≠ ':') ++ ':' :: rest := by
        rw [← hdrop, List.takeWhile_append_dropWhile]
      have hfront := List.length_pos_of_ne_nil (List.splitOn_ne_nil ':' (raw.takeWhile (· ≠ ':')))
      rw [hraw, List.splitOn_append_cons_self] at hlength hparts
      rw [List.length_append] at hlength
      have hrest : rest.splitOn ':' = [rest] := splitOn_of_length (by omega)
      exact hparts rest (List.mem_append_right _ (by rw [hrest]; exact List.mem_singleton_self _))

theorem resolved_ne_textKey {raw : Text} {isAttribute : Bool} {bindings : List (Text × Text)} {stack : List Frame} {uri : Option Text}
    {name : Text} (h : resolved raw isAttribute bindings stack = .ok (uri, name)) : name ≠ textKey := by
  obtain ⟨_, hraw, h⟩ := Except.bind_eq_ok.1 h
  suffices hname : name = (splitName raw).2 from hname ▸ isName_ne_textKey (isName_local hraw)
  dsimp only at h
  split_ifs at h <;> cases h <;> rfl

end EdgarPlatform.Sequences
