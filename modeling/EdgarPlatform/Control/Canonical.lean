import EdgarPlatform.Records.Documents

/-!
# The canonical text of control documents

The control calculations have a canonical writer of their own. It reads an object straight into a sorted map. A text is hashed by one crate and checked by the other, so the two writers must agree on every document both accept.
-/

namespace EdgarPlatform.Control

open JsonText
open Records (readPlainText readKeys takeWritten joinItems joinFields writeString CanonicalWriter Alike writeSortedDocument)

def invalidControlValue : String := "Invalid control value"

mutual
def canonical : Doc → Except String String
  | .plain token => .ok (String.ofList token)
  | .text pieces => (readPlainText invalidControlValue pieces).map writeString
  | .array items => ((canonicalItems items).mapM id).map joinItems
  | .object fields =>
      (readKeys invalidControlValue (canonicalFields fields)).bind fun body =>
        ((SortedMap.ofList body).entries.mapM takeWritten).map joinFields

def canonicalItems : List Doc → List (Except String String)
  | [] => []
  | item :: rest => canonical item :: canonicalItems rest

def canonicalFields : List (List Piece × Doc) → List (List Piece × Except String String)
  | [] => []
  | (key, value) :: rest => (key, canonical value) :: canonicalFields rest
end

theorem canonicalItems_eq (items : List Doc) : canonicalItems items = items.map canonical := by
  induction items with
  | nil => rfl
  | cons item rest ih => rw [canonicalItems, ih, List.map_cons]

theorem canonicalFields_eq (fields : List (List Piece × Doc)) :
    canonicalFields fields = fields.map fun field => (field.1, canonical field.2) := by
  induction fields with
  | nil => rfl
  | cons field rest ih => rw [canonicalFields, ih, List.map_cons]

theorem canonical_canonical : CanonicalWriter canonical where
  plain token := by rw [canonical]
  text := by
    intro pieces s
    rw [canonical, Records.text_writer]
  array := by
    intro items s
    rw [canonical, canonicalItems_eq, Records.items_writer]
  object := by
    intro fields s
    rw [canonical, canonicalFields_eq]
    exact Records.fields_writer fun _ => rfl

def readDocument (fail : String) (raw : String) : Except String Doc :=
  match parse raw.toList with
  | none => .error fail
  | some document => .ok document

def canonicalize (raw : String) : Except String String := do
  let value ← readDocument "Invalid control JSON" raw
  canonical value

/-- The canonical text the record calculations write for a transported text. -/
def writeSortedText (raw : String) : Except String String := do
  let value ← readDocument Records.invalidRecordValue raw
  writeSortedDocument value

def AlikeTexts (raw other : String) : Prop :=
  ∃ d e, parse raw.toList = some d ∧ parse other.toList = some e ∧ Alike d e

theorem readDocument_eq_ok {fail raw : String} {d : Doc} : readDocument fail raw = .ok d ↔ parse raw.toList = some d := by
  rw [readDocument]
  cases parse raw.toList <;> simp

variable {raw s : String}

theorem canonicalize_eq_ok :
    canonicalize raw = .ok s ↔ ∃ d, parse raw.toList = some d ∧ canonical d = .ok s := by
  simp only [canonicalize, Except.bind_eq_ok, readDocument_eq_ok]

theorem writeSortedText_eq_ok :
    writeSortedText raw = .ok s ↔ ∃ d, parse raw.toList = some d ∧ writeSortedDocument d = .ok s := by
  simp only [writeSortedText, Except.bind_eq_ok, readDocument_eq_ok]

theorem writeSortedText_iff_canonicalize : writeSortedText raw = .ok s ↔ canonicalize raw = .ok s := by
  rw [writeSortedText_eq_ok, canonicalize_eq_ok]
  exact exists_congr fun d => and_congr_right fun _ =>
    Records.writeSortedDocument_canonical.agree canonical_canonical d s

theorem canonicalize_alike (h : canonicalize raw = .ok s) : AlikeTexts raw s := by
  obtain ⟨d, hd, hs⟩ := canonicalize_eq_ok.1 h
  obtain ⟨n, hn, hrender, halike⟩ := canonical_canonical.normal (valid_of_parse hd) hs
  exact ⟨d, n, hd, hrender ▸ parse_render hn, halike⟩

theorem canonicalize_same_iff {raw other s t : String} (hs : canonicalize raw = .ok s) (ht : canonicalize other = .ok t) :
    s = t ↔ AlikeTexts raw other := by
  obtain ⟨d, hd, hs⟩ := canonicalize_eq_ok.1 hs
  obtain ⟨e, he, ht⟩ := canonicalize_eq_ok.1 ht
  rw [canonical_canonical.same_iff (valid_of_parse hd) (valid_of_parse he) hs ht]
  constructor
  · exact fun h => ⟨d, e, hd, he, h⟩
  · rintro ⟨d', e', hd', he', h⟩
    cases hd.symm.trans hd'
    cases he.symm.trans he'
    exact h

theorem canonicalize_idempotent (h : canonicalize raw = .ok s) : canonicalize s = .ok s := by
  obtain ⟨d, hd, hs⟩ := canonicalize_eq_ok.1 h
  obtain ⟨d', n, hd', hn, halike⟩ := canonicalize_alike h
  cases hd.symm.trans hd'
  obtain ⟨t, ht, ht'⟩ := canonical_canonical.of_alike halike
  cases hs.symm.trans ht
  exact canonicalize_eq_ok.2 ⟨n, hn, ht'⟩

/-- The two writers agree on what both accept, and what they write is a normal form of documents up to being alike. -/
theorem canonical_text_is_normal_form (raw other s t u : String) (hs : writeSortedText raw = .ok s)
    (ht : canonicalize raw = .ok t) (hu : canonicalize other = .ok u) :
    s = t ∧ canonicalize t = .ok t ∧ writeSortedText t = .ok t ∧ (t = u ↔ AlikeTexts raw other) := by
  refine ⟨?_, canonicalize_idempotent ht, ?_, canonicalize_same_iff ht hu⟩
  · rw [writeSortedText_iff_canonicalize, ht] at hs
    exact (Except.ok.inj hs).symm
  · exact writeSortedText_iff_canonicalize.2 (canonicalize_idempotent ht)

/-- One key written twice, an escape in a key, blanks and another order of keys. -/
theorem canonical_text_is_normal_form_alike :
    AlikeTexts "\x7b\"b\": [1.0, \"\\u0041\"], \"a\": null, \"b\": [1.0]\x7d" "\x7b \"\\u0061\":null,\"b\":[1.0]\x7d" :=
  ((canonical_text_is_normal_form "\x7b\"b\": [1.0, \"\\u0041\"], \"a\": null, \"b\": [1.0]\x7d"
    "\x7b \"\\u0061\":null,\"b\":[1.0]\x7d" "\x7b\"a\":null,\"b\":[1.0]\x7d" "\x7b\"a\":null,\"b\":[1.0]\x7d"
    "\x7b\"a\":null,\"b\":[1.0]\x7d" (by decide +kernel) (by decide +kernel) (by decide +kernel)).2.2.2).1 rfl

/-! ### Reading control documents

An object is read as a sorted map of documents, its values left as they were written until one is asked for. Documents that are alike are read alike: the same keys, the same texts, the same refusals.
-/

open JsonText
open Records (readPlainText readKeys Alike ReadsAs lastValue piecesOf readString?)

abbrev Body := SortedMap String Doc

def readBody (fail : String) : Doc → Except String Body
  | .object fields => (readKeys fail fields).map SortedMap.ofList
  | _ => .error fail

def readItems (fail : String) : Doc → Except String (List Doc)
  | .array items => .ok items
  | _ => .error fail

def readTextOf : Doc → Except String String
  | .text pieces => readPlainText invalidControlValue pieces
  | _ => .error invalidControlValue

def field (body : Body) (key : String) : Except String Doc :=
  match body.get? key with
  | none => .error ("Missing control field: " ++ key)
  | some value => .ok value

def text (body : Body) (key : String) : Except String String := (field body key).bind readTextOf

def exactKeys (body : Body) (keys : List String) : Bool :=
  body.size = keys.length && keys.all body.contains

def isToken (document : Doc) (token : String) : Bool :=
  match document with
  | .plain found => found = token.toList
  | _ => false

def textDocument (value : String) : Doc := .text (piecesOf value)

def bodyDocument (body : Body) : Doc := .object (body.entries.map fun entry => (piecesOf entry.1, entry.2))

def writeBody (body : Body) : String := String.ofList (bodyDocument body).render

def columnText (raw : String) (key : String) : Except String String := do
  let document ← readDocument invalidControlValue raw
  let body ← readBody invalidControlValue document
  text body key

/-- Two objects whose fields are alike, key by key. -/
structure Similar (body other : Body) : Prop where
  keys : ∀ key, (body.get? key).isSome = (other.get? key).isSome
  values : ∀ key a b, body.get? key = some a → other.get? key = some b → Alike a b

theorem Similar.cases {body other : Body} (h : Similar body other) (key : String) :
    (body.get? key = none ∧ other.get? key = none) ∨
      ∃ a b, body.get? key = some a ∧ other.get? key = some b ∧ Alike a b := by
  have hkey := h.keys key
  cases ha : body.get? key with
  | none =>
      rw [ha] at hkey
      exact .inl ⟨rfl, Option.isNone_iff_eq_none.1 (Option.isSome_eq_false_iff.1 hkey.symm)⟩
  | some a =>
      rw [ha] at hkey
      obtain ⟨b, hb⟩ := Option.isSome_iff_exists.1 hkey.symm
      exact .inr ⟨a, b, rfl, hb, h.values key a b ha hb⟩

theorem readTextOf_alike {d e : Doc} (h : Alike d e) : readTextOf d = readTextOf e := by
  cases h with
  | plain token => rfl
  | text hpieces hothers => rw [readTextOf, readTextOf, readPlainText, readPlainText, hpieces, hothers]
  | array hlength hitems => rfl
  | object hbody hbody' hkeys hvalues => rfl

theorem isToken_alike {d e : Doc} (h : Alike d e) (token : String) : isToken d token = isToken e token := by
  cases h <;> rfl

theorem readBody_alike {fail : String} {d e : Doc} {body : Body} (h : Alike d e) (hbody : readBody fail d = .ok body) :
    ∃ other, readBody fail e = .ok other ∧ Similar body other := by
  cases h with
  | plain token => cases hbody
  | text hpieces hothers => cases hbody
  | array hlength hitems => cases hbody
  | object hfields hfields' hkeys hvalues =>
      obtain ⟨read, hread, rfl⟩ := Records.map_eq_ok.1 hbody
      cases (Records.readKeys_eq_ok.1 hread).unique hfields
      refine ⟨_, Records.map_eq_ok.2 ⟨_, Records.readKeys_eq_ok.2 hfields', rfl⟩, fun key => ?_, fun key a b ha hb => ?_⟩
      · rw [Records.get?_ofList_eq_lastValue, Records.get?_ofList_eq_lastValue]
        exact hkeys key
      · rw [Records.get?_ofList_eq_lastValue] at ha hb
        exact hvalues key a b ha hb

variable {body other : Body}

theorem text_similar (h : Similar body other) (key : String) : text body key = text other key := by
  rw [text, text, field, field]
  obtain ⟨hnone, hnone'⟩ | ⟨a, b, ha, hb, halike⟩ := h.cases key
  · rw [hnone, hnone']
  · rw [ha, hb]
    exact readTextOf_alike halike

theorem field_similar (h : Similar body other) {key : String} {a : Doc}
    (ha : field body key = .ok a) : ∃ b, field other key = .ok b ∧ Alike a b := by
  rw [field] at ha ⊢
  obtain ⟨hnone, _⟩ | ⟨a', b, ha', hb, halike⟩ := h.cases key
  · rw [hnone] at ha
    cases ha
  · rw [ha'] at ha
    cases ha
    exact ⟨b, by rw [hb], halike⟩

theorem keys_similar (h : Similar body other) : body.keys = other.keys := by
  have hunit : body.mapValues (fun _ _ => ()) = other.mapValues fun _ _ => () := by
    refine SortedMap.ext_get? fun key => ?_
    rw [SortedMap.get?_mapValues, SortedMap.get?_mapValues]
    obtain ⟨hnone, hnone'⟩ | ⟨a, b, ha, hb, _⟩ := h.cases key
    · rw [hnone, hnone']
    · rw [ha, hb]
      rfl
  rw [← body.keys_mapValues fun _ _ => (), hunit, SortedMap.keys_mapValues]

theorem size_similar (h : Similar body other) : body.size = other.size := by
  rw [SortedMap.size, SortedMap.size, ← List.length_map (f := Prod.fst), ← List.length_map (f := Prod.fst)]
  exact congrArg List.length (keys_similar h)

theorem exactKeys_similar (h : Similar body other) (keys : List String) :
    exactKeys body keys = exactKeys other keys := by
  have hcontains : body.contains = other.contains := funext fun key => h.keys key
  rw [exactKeys, exactKeys, size_similar h, hcontains]

theorem mapTexts_similar (h : Similar body other) :
    body.mapValues (fun _ value => readTextOf value) = other.mapValues fun _ value => readTextOf value := by
  refine SortedMap.ext_get? fun key => ?_
  rw [SortedMap.get?_mapValues, SortedMap.get?_mapValues]
  obtain ⟨hnone, hnone'⟩ | ⟨a, b, ha, hb, halike⟩ := h.cases key
  · rw [hnone, hnone']
  · rw [ha, hb, Option.map_some, Option.map_some, readTextOf_alike halike]

theorem readItems_alike {fail : String} {d e : Doc} {items : List Doc} (h : Alike d e)
    (hitems : readItems fail d = .ok items) : ∃ others, readItems fail e = .ok others ∧ List.Forall₂ Alike items others := by
  cases h with
  | plain token => cases hitems
  | text hpieces hothers => cases hitems
  | array hlength halike =>
      cases hitems
      exact ⟨_, rfl, Records.forall₂_of_getElem? hlength halike⟩
  | object hbody hbody' hkeys hvalues => cases hitems

theorem readsAs_piecesOf (entries : List (String × Doc)) :
    ReadsAs (entries.map fun entry => (piecesOf entry.1, entry.2)) entries := by
  rw [ReadsAs, List.forall₂_map_left_iff]
  exact List.forall₂_same.2 fun entry _ => ⟨Records.readString_piecesOf entry.1, rfl⟩

theorem readBody_bodyDocument (fail : String) (body : Body) : readBody fail (bodyDocument body) = .ok body := by
  have hread : Records.readKeys fail (body.entries.map fun entry => (piecesOf entry.1, entry.2)) = .ok body.entries :=
    Records.readKeys_eq_ok.2 (readsAs_piecesOf body.entries)
  rw [bodyDocument, readBody, hread, Except.map, SortedMap.ofList_entries]

theorem canonical_textDocument (value : String) : canonical (textDocument value) = .ok (String.ofList (textDocument value).render) := by
  have hwritten := canonical_canonical.text.2 ⟨value, Records.readString_piecesOf value, rfl⟩
  rw [textDocument, hwritten, Doc.render, ← Records.toList_writeString, String.ofList_toList]

theorem canonical_array {items : List Doc} (h : ∀ item ∈ items, canonical item = .ok (String.ofList item.render)) :
    canonical (.array items) = .ok (String.ofList (Doc.array items).render) := by
  refine canonical_canonical.array.2 ⟨items.map fun item => String.ofList item.render, ?_, ?_⟩
  · rw [List.forall₂_map_right_iff]
    exact List.forall₂_same.2 h
  · rw [← @Records.toList_joinItems (items.map fun item => String.ofList item.render), String.ofList_toList]
    rw [List.forall₂_map_left_iff]
    exact List.forall₂_same.2 fun item _ => String.toList_ofList.symm

theorem canonical_bodyDocument {body : Body} (h : ∀ entry ∈ body.entries, canonical entry.2 = .ok (String.ofList entry.2.render)) :
    canonical (bodyDocument body) = .ok (writeBody body) := by
  refine canonical_canonical.object.2 ⟨body.entries, readsAs_piecesOf body.entries,
    body.entries.map fun entry => (entry.1, String.ofList entry.2.render), ?_, ?_⟩
  · rw [Records.PartsOf, SortedMap.ofList_entries, List.forall₂_map_right_iff]
    exact List.forall₂_same.2 fun entry hentry => ⟨rfl, h entry hentry⟩
  · rw [writeBody, bodyDocument, ← @Records.toList_joinFields (body.entries.map fun entry => (entry.1, String.ofList entry.2.render)),
      String.ofList_toList]
    rw [List.forall₂_map_left_iff, List.forall₂_map_right_iff]
    exact List.forall₂_same.2 fun entry _ => ⟨rfl, String.toList_ofList.symm⟩

theorem bodyDocument_valid {body : Body} (h : ∀ key value, body.get? key = some value → value.Valid) :
    (bodyDocument body).Valid := by
  refine .object (fun field hfield => ?_) fun field hfield => ?_
  · obtain ⟨entry, _, rfl⟩ := List.mem_map.1 hfield
    exact Records.piecesOf_valid entry.1
  · obtain ⟨entry, hentry, rfl⟩ := List.mem_map.1 hfield
    exact h entry.1 entry.2 (SortedMap.get?_eq_some_iff.2 hentry)

theorem parse_writeBody {body : Body} (h : ∀ key value, body.get? key = some value → value.Valid) :
    parse (writeBody body).toList = some (bodyDocument body) := by
  rw [writeBody, String.toList_ofList]
  exact parse_render (bodyDocument_valid h)

theorem textDocument_valid (value : String) : (textDocument value).Valid := .text (Records.piecesOf_valid value)

theorem readTextOf_textDocument (value : String) : readTextOf (textDocument value) = .ok value := by
  rw [textDocument, readTextOf, readPlainText, Records.readString_piecesOf]

theorem valid_of_readBody {fail : String} {d : Doc} {body : Body} (hd : d.Valid) (h : readBody fail d = .ok body) :
    ∀ key value, body.get? key = some value → value.Valid := by
  intro key value hget
  cases hd with
  | plain htoken => cases h
  | text hpieces => cases h
  | array hitems => cases h
  | object hkeys hvalues =>
      obtain ⟨read, hread, rfl⟩ := Records.map_eq_ok.1 h
      obtain ⟨field, hfield, heq⟩ := (Records.readKeys_eq_ok.1 hread).mem
        (Records.mem_of_mem_sorted (SortedMap.get?_eq_some_iff.1 hget))
      have hvalue := hvalues field hfield
      rwa [heq] at hvalue

end EdgarPlatform.Control
