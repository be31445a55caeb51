import EdgarPlatform.Records.Documents

/-!
# Values as they are stored

A record is stored as its canonical text and read back from it. What is read back is the record with its keys in order, at every depth, so a calculation that only asks a record for the values of its keys sees no difference.
-/

namespace EdgarPlatform.Records

open JsonText

mutual
def Json.toDoc : Json → Doc
  | .null => .plain ['n', 'u', 'l', 'l']
  | .bool true => .plain ['t', 'r', 'u', 'e']
  | .bool false => .plain ['f', 'a', 'l', 's', 'e']
  | .num lexeme => .plain lexeme.toList
  | .str value => .text (piecesOf value)
  | .arr items => .array (itemsToDocs items)
  | .obj fields => .object (fieldsToDocs fields)

def itemsToDocs : List Json → List Doc
  | [] => []
  | item :: rest => item.toDoc :: itemsToDocs rest

def fieldsToDocs : List (String × Json) → List (List Piece × Doc)
  | [] => []
  | (key, value) :: rest => (piecesOf key, value.toDoc) :: fieldsToDocs rest
end

def plainValue (token : List Char) : Json :=
  if token = ['n', 'u', 'l', 'l'] then .null
  else if token = ['t', 'r', 'u', 'e'] then .bool true
  else if token = ['f', 'a', 'l', 's', 'e'] then .bool false
  else .num (String.ofList token)

mutual
/-- The value a document is read as, every string in it decoded. -/
def readValue : Doc → Option Json
  | .plain token => some (plainValue token)
  | .text pieces => (readString? pieces).map .str
  | .array items => (readValues items).map .arr
  | .object fields => (readMembers fields).map .obj

def readValues : List Doc → Option (List Json)
  | [] => some []
  | item :: rest => (readValue item).bind fun value => (readValues rest).map fun values => value :: values

def readMembers : List (List Piece × Doc) → Option (List (String × Json))
  | [] => some []
  | (pieces, value) :: rest =>
      (readString? pieces).bind fun key =>
        (readValue value).bind fun value => (readMembers rest).map fun members => (key, value) :: members
end

def readJson (raw : String) : Option Json := (parse raw.toList).bind readValue

/-- Every number of the value is the text of one. -/
inductive Json.Valid : Json → Prop
  | null : Valid .null
  | bool (value : Bool) : Valid (.bool value)
  | num {lexeme : String} (h : isNumber lexeme.toList = true) : Valid (.num lexeme)
  | str (value : String) : Valid (.str value)
  | arr {items : List Json} (h : ∀ item ∈ items, Valid item) : Valid (.arr items)
  | obj {fields : List (String × Json)} (h : ∀ field ∈ fields, Valid field.2) : Valid (.obj fields)

@[elab_as_elim]
theorem Json.induct {motive : Json → Prop} (null : motive .null) (bool : ∀ value, motive (.bool value))
    (num : ∀ lexeme, motive (.num lexeme)) (str : ∀ value, motive (.str value))
    (arr : ∀ items, (∀ item ∈ items, motive item) → motive (.arr items))
    (obj : ∀ fields, (∀ field ∈ fields, motive field.2) → motive (.obj fields)) (v : Json) : motive v :=
  @Json.rec motive (fun items => ∀ item ∈ items, motive item) (fun fields => ∀ field ∈ fields, motive field.2) (fun field => motive field.2)
    null bool num str arr obj (fun _ h => nomatch h) (fun _ _ h hrest => List.forall_mem_cons.2 ⟨h, hrest⟩)
    (fun _ h => nomatch h) (fun _ _ h hrest => List.forall_mem_cons.2 ⟨h, hrest⟩) (fun _ _ h => h) v

theorem itemsToDocs_eq (items : List Json) : itemsToDocs items = items.map Json.toDoc := by
  induction items with
  | nil => rfl
  | cons item rest ih => rw [itemsToDocs, ih, List.map_cons]

theorem fieldsToDocs_eq (fields : List (String × Json)) :
    fieldsToDocs fields = fields.map fun field => (piecesOf field.1, field.2.toDoc) := by
  induction fields with
  | nil => rfl
  | cons field rest ih => rw [fieldsToDocs, ih, List.map_cons]

theorem writeItems_eq (sorted : Bool) (items : List Json) : writeItems sorted items = items.map (writeJson sorted) := by
  induction items with
  | nil => rfl
  | cons item rest ih => rw [writeItems, ih, List.map_cons]

theorem writeFields_eq (sorted : Bool) (fields : List (String × Json)) :
    writeFields sorted fields = fields.map fun field => (field.1, writeJson sorted field.2) := by
  induction fields with
  | nil => rfl
  | cons field rest ih => rw [writeFields, ih, List.map_cons]

theorem render_toDoc (v : Json) : v.toDoc.render = (writeJson false v).toList := by
  induction v using Json.induct with
  | null => rfl
  | bool value => cases value <;> rfl
  | num lexeme => rfl
  | str value => rw [Json.toDoc, Doc.render, writeJson, toList_writeString]
  | arr items ih =>
      have hjoin : writeJson false (.arr items) = joinItems (items.map (writeJson false)) := by
        rw [writeJson, writeItems_eq, joinItems]
      rw [hjoin, Json.toDoc, itemsToDocs_eq]
      refine (toList_joinItems ?_).symm
      rw [List.forall₂_map_left_iff, List.forall₂_map_right_iff]
      exact List.forall₂_same.2 ih
  | obj fields ih =>
      have hjoin : writeJson false (.obj fields) = joinFields (fields.map fun field => (field.1, writeJson false field.2)) := by
        rw [writeJson, writeFields_eq, joinFields]
        rfl
      rw [hjoin, Json.toDoc, fieldsToDocs_eq]
      refine (toList_joinFields ?_).symm
      rw [List.forall₂_map_left_iff, List.forall₂_map_right_iff]
      exact List.forall₂_same.2 fun field hfield => ⟨rfl, ih field hfield⟩

theorem isPlain_of_isNumber {token : List Char} (h : isNumber token = true) : isPlain token = true := by
  rw [isPlain, h, Bool.or_true]

variable {v : Json}

theorem toDoc_valid (h : v.Valid) : v.toDoc.Valid := by
  induction h with
  | null => exact .plain (by decide)
  | bool value => cases value <;> exact .plain (by decide)
  | num h => exact .plain (isPlain_of_isNumber h)
  | str value => exact .text (piecesOf_valid value)
  | @arr items _ ih =>
      rw [Json.toDoc, itemsToDocs_eq]
      refine .array fun item hitem => ?_
      obtain ⟨value, hvalue, rfl⟩ := List.mem_map.1 hitem
      exact ih value hvalue
  | @obj fields _ ih =>
      rw [Json.toDoc, fieldsToDocs_eq]
      refine .object (fun field hfield => ?_) fun field hfield => ?_
      · obtain ⟨member, _, rfl⟩ := List.mem_map.1 hfield
        exact piecesOf_valid member.1
      · obtain ⟨member, hmember, rfl⟩ := List.mem_map.1 hfield
        exact ih member hmember

theorem plainValue_of_isNumber {lexeme : String} (h : isNumber lexeme.toList = true) :
    plainValue lexeme.toList = .num lexeme := by
  have hne : ∀ token, isNumber token = false → lexeme.toList ≠ token := by
    rintro token htoken rfl
    rw [h] at htoken
    cases htoken
  rw [plainValue, if_neg (hne _ (by decide)), if_neg (hne _ (by decide)), if_neg (hne _ (by decide)), String.ofList_toList]

theorem readValues_toDocs {items : List Json} (h : ∀ item ∈ items, readValue item.toDoc = some item) :
    readValues (items.map Json.toDoc) = some items := by
  induction items with
  | nil => rfl
  | cons item rest ih =>
      rw [List.map_cons, readValues, h item (List.mem_cons_self ..), Option.bind_some,
        ih fun other hother => h other (List.mem_cons_of_mem _ hother), Option.map_some]

theorem readMembers_toDocs {fields : List (String × Json)} (h : ∀ field ∈ fields, readValue field.2.toDoc = some field.2) :
    readMembers (fields.map fun field => (piecesOf field.1, field.2.toDoc)) = some fields := by
  induction fields with
  | nil => rfl
  | cons field rest ih =>
      rw [List.map_cons, readMembers, readString_piecesOf, Option.bind_some, h field (List.mem_cons_self ..),
        Option.bind_some, ih fun other hother => h other (List.mem_cons_of_mem _ hother), Option.map_some]

theorem readValue_toDoc (h : v.Valid) : readValue v.toDoc = some v := by
  induction h with
  | null => rfl
  | bool value => cases value <;> rfl
  | num h => rw [Json.toDoc, readValue, plainValue_of_isNumber h]
  | str value => rw [Json.toDoc, readValue, readString_piecesOf, Option.map_some]
  | @arr items _ ih => rw [Json.toDoc, itemsToDocs_eq, readValue, readValues_toDocs ih, Option.map_some]
  | @obj fields _ ih => rw [Json.toDoc, fieldsToDocs_eq, readValue, readMembers_toDocs ih, Option.map_some]

theorem readJson_writeJson (h : v.Valid) : readJson (writeJson false v) = some v := by
  rw [readJson, ← render_toDoc, parse_render (toDoc_valid h), Option.bind_some, readValue_toDoc h]

mutual
/-- A value with the keys of every object in order, each with what it was written with last. -/
def Json.normal : Json → Json
  | .arr items => .arr (normalItems items)
  | .obj fields => .obj (SortedMap.ofList (normalFields fields)).entries
  | other => other

def normalItems : List Json → List Json
  | [] => []
  | item :: rest => item.normal :: normalItems rest

def normalFields : List (String × Json) → List (String × Json)
  | [] => []
  | (key, value) :: rest => (key, value.normal) :: normalFields rest
end

theorem normalItems_eq (items : List Json) : normalItems items = items.map Json.normal := by
  induction items with
  | nil => rfl
  | cons item rest ih => rw [normalItems, ih, List.map_cons]

theorem normalFields_eq (fields : List (String × Json)) :
    normalFields fields = fields.map fun field => (field.1, field.2.normal) := by
  induction fields with
  | nil => rfl
  | cons field rest ih => rw [normalFields, ih, List.map_cons]

theorem sortByKey_ofList {α : Type} (entries : List (String × α)) :
    Sorting.sortByKey Prod.fst (IndexMap.ofList entries).entries = (SortedMap.ofList entries).entries := by
  have hperm := Sorting.sortByKey_perm Prod.fst (IndexMap.ofList entries).entries
  have hkeys : ((Sorting.sortByKey Prod.fst (IndexMap.ofList entries).entries).map Prod.fst).Nodup :=
    (hperm.map Prod.fst).nodup_iff.2 (IndexMap.ofList entries).nodup
  have hsorted : (Sorting.sortByKey Prod.fst (IndexMap.ofList entries).entries).Pairwise fun a b => a.1 < b.1 :=
    ((Sorting.sortByKey_sorted Prod.fst _).and (List.pairwise_map.1 hkeys)).imp fun h => lt_of_le_of_ne h.1 h.2
  have heq : (⟨_, hsorted⟩ : SortedMap String α) = SortedMap.ofList entries := by
    rw [← SortedMap.ofList_indexMap, ← SortedMap.ofList_entries ⟨_, hsorted⟩]
    refine SortedMap.ext_get? fun key => Option.ext fun value => ?_
    rw [SortedMap.ofList_entries, SortedMap.get?_eq_some_iff, SortedMap.ofList_indexMap, SortedMap.get?_ofList]
    have hget : IndexMap.lookupEntry key entries.reverse = (IndexMap.ofList entries).get? key := by
      rw [IndexMap.ofList, IndexMap.get?_extend, IndexMap.get?_empty, Option.or_none]
    rw [hget, IndexMap.get?_eq_some_iff]
    exact hperm.mem_iff
  exact congrArg SortedMap.entries heq

theorem writeSortedJson_eq (v : Json) : writeSortedJson v = writeJson false v.normal := by
  rw [writeSortedJson]
  induction v using Json.induct with
  | null => rfl
  | bool value => rfl
  | num lexeme => rfl
  | str value => rfl
  | arr items ih =>
      rw [Json.normal, writeJson, writeJson, writeItems_eq, writeItems_eq, normalItems_eq, List.map_map,
        List.map_congr_left ih]
      rfl
  | obj fields ih =>
      have hfields : fields.map (fun field => (field.1, writeJson true field.2))
          = (normalFields fields).map fun field => (field.1, writeJson false field.2) := by
        rw [normalFields_eq, List.map_map]
        exact List.map_congr_left fun field hfield => Prod.ext rfl (ih field hfield)
      rw [Json.normal, writeJson, writeJson, writeFields_eq, writeFields_eq, hfields]
      simp only [if_true, sortByKey_ofList, Bool.false_eq_true, if_false]
      rw [← SortedMap.mapValues_ofList (writeJson false)]
      rfl

theorem normal_valid (h : v.Valid) : v.normal.Valid := by
  induction h with
  | null => exact .null
  | bool value => exact .bool value
  | num h => exact .num h
  | str value => exact .str value
  | @arr items _ ih =>
      rw [Json.normal, normalItems_eq]
      refine .arr fun item hitem => ?_
      obtain ⟨value, hvalue, rfl⟩ := List.mem_map.1 hitem
      exact ih value hvalue
  | @obj fields _ ih =>
      rw [Json.normal, normalFields_eq]
      refine .obj fun field hfield => ?_
      obtain ⟨member, hmember, rfl⟩ := List.mem_map.1 (mem_of_mem_sorted hfield)
      exact ih member hmember

theorem normal_normal (v : Json) : v.normal.normal = v.normal := by
  induction v using Json.induct with
  | null => rfl
  | bool value => rfl
  | num lexeme => rfl
  | str value => rfl
  | arr items ih =>
      rw [Json.normal, Json.normal, normalItems_eq, normalItems_eq, List.map_map]
      exact congrArg Json.arr (List.map_congr_left fun item hitem => ih item hitem)
  | obj fields ih =>
      have hsame : normalFields (SortedMap.ofList (normalFields fields)).entries = (SortedMap.ofList (normalFields fields)).entries := by
        rw [normalFields_eq]
        refine (List.map_congr_left fun entry hentry => ?_).trans (List.map_id _)
        rw [normalFields_eq] at hentry
        obtain ⟨field, hfield, rfl⟩ := List.mem_map.1 (mem_of_mem_sorted hentry)
        exact Prod.ext rfl (ih field hfield)
      rw [Json.normal, Json.normal, hsame, SortedMap.ofList_entries]

theorem readJson_writeSortedJson (h : v.Valid) : readJson (writeSortedJson v) = some v.normal := by
  rw [writeSortedJson_eq]
  exact readJson_writeJson (normal_valid h)

theorem writeSortedJson_inj {v w : Json} (hv : v.Valid) (hw : w.Valid) (h : writeSortedJson v = writeSortedJson w) :
    v.normal = w.normal := by
  have hread := readJson_writeSortedJson hv
  rw [h, readJson_writeSortedJson hw] at hread
  exact (Option.some.inj hread).symm

def readObjectText (raw : String) : Option Object :=
  match readJson raw with
  | some (.obj fields) => some (.ofList fields)
  | _ => none

def Object.normal (body : Object) : Object where
  entries := (SortedMap.ofList (normalFields body.entries)).entries
  nodup := (SortedMap.ofList (normalFields body.entries)).keys_nodup

def Object.Valid (body : Object) : Prop := ∀ key value, body.get? key = some value → value.Valid

theorem Object.toJson_valid {body : Object} (h : Object.Valid body) : (Object.toJson body).Valid :=
  .obj fun field hfield => h field.1 field.2 (IndexMap.get?_eq_some_iff.2 hfield)

theorem ofList_of_nodup {α : Type} {entries : List (String × α)} (h : (entries.map Prod.fst).Nodup) :
    (IndexMap.ofList entries).entries = entries := by
  rw [IndexMap.ofList, IndexMap.entries_extend (by simpa using h)]
  rfl

theorem get?_normal (body : Object) (key : String) : (Object.normal body).get? key = (body.get? key).map Json.normal := by
  have hreverse : IndexMap.lookupEntry key body.entries.reverse = body.get? key := by
    have hnodup : (body.entries.reverse.map Prod.fst).Nodup := by
      rw [List.map_reverse]
      exact List.nodup_reverse.2 body.nodup
    refine Option.ext fun value => ?_
    rw [IndexMap.get?_eq_some_iff]
    constructor
    · exact fun h => List.mem_reverse.1 (IndexMap.lookupEntry_eq_some h)
    · exact fun h => IndexMap.lookupEntry_of_mem hnodup (List.mem_reverse.2 h)
  have hget : (Object.normal body).get? key = (SortedMap.ofList (normalFields body.entries)).get? key := rfl
  rw [hget, normalFields_eq, SortedMap.get?_ofList, ← List.map_reverse, IndexMap.lookupEntry_map, hreverse]

theorem toJson_normal (body : Object) : Object.toJson (Object.normal body) = (Object.toJson body).normal := by
  rw [Object.toJson, Object.toJson, Json.normal]
  rfl

theorem writeSortedJson_normal (body : Object) :
    writeSortedJson (Object.toJson (Object.normal body)) = writeSortedJson (Object.toJson body) := by
  rw [toJson_normal, writeSortedJson_eq, writeSortedJson_eq, normal_normal]

theorem readObjectText_writeSortedJson {body : Object} (h : Object.Valid body) :
    readObjectText (writeSortedJson (Object.toJson body)) = some (Object.normal body) := by
  have hread : readJson (writeSortedJson (Object.toJson body)) = some (.obj (Object.normal body).entries) := by
    rw [readJson_writeSortedJson (Object.toJson_valid h), ← toJson_normal]
    rfl
  rw [readObjectText, hread]
  exact congrArg some (IndexMap.ext_entries (ofList_of_nodup (Object.normal body).nodup))

theorem normal_eq_str {value : String} : v.normal = .str value ↔ v = .str value := by
  cases v <;> simp [Json.normal]

theorem readText_normal (body : Object) (key : String) : readText (Object.normal body) key = readText body key := by
  rw [readText, readText, get?_normal]
  cases body.get? key with
  | none => rfl
  | some value => cases value <;> rfl

end EdgarPlatform.Records
