import EdgarPlatform.Records.Stored

/-!
# Objects with the same contents

Two objects have the same contents when each key has the same value in both, up to the order of the keys at any depth. A calculation that asks an object for the values of its keys gives the same for both, and both are stored as one text.
-/

namespace EdgarPlatform.Records

/-- The objects hold the same under every key, up to the order of keys. -/
def Object.Same (body other : Object) : Prop := ∀ key, (body.get? key).map Json.normal = (other.get? key).map Json.normal

theorem Object.Same.refl (body : Object) : Object.Same body body := fun _ => rfl

variable {body other : Object}

theorem Object.Same.symm (h : Object.Same body other) : Object.Same other body := fun key => (h key).symm

theorem same_normal (body : Object) : Object.Same (Object.normal body) body := by
  intro key
  rw [get?_normal, Option.map_map]
  cases body.get? key with
  | none => rfl
  | some value => exact congrArg some (normal_normal value)

theorem normal_eq_of_same (h : Object.Same body other) : Object.normal body = Object.normal other := by
  have hfields : SortedMap.ofList (normalFields body.entries) = SortedMap.ofList (normalFields other.entries) := by
    refine SortedMap.ext_get? fun key => ?_
    have hbody := get?_normal body key
    have hother := get?_normal other key
    exact hbody.trans ((h key).trans hother.symm)
  exact IndexMap.ext_entries (congrArg SortedMap.entries hfields)

theorem same_of_normal_eq (h : Object.normal body = Object.normal other) : Object.Same body other := by
  intro key
  rw [← get?_normal, h, get?_normal]

namespace Object.Same

variable {body other : Object}

theorem get?_none (h : Object.Same body other) {key : String} (hnone : body.get? key = none) : other.get? key = none := by
  have hkey := h key
  rw [hnone, Option.map_none] at hkey
  exact Option.map_eq_none_iff.1 hkey.symm

theorem get?_some (h : Object.Same body other) {key : String} {value : Json} (hget : body.get? key = some value) :
    ∃ value', other.get? key = some value' ∧ value.normal = value'.normal := by
  have hkey := h key
  rw [hget, Option.map_some] at hkey
  obtain ⟨value', hget', hvalue⟩ := Option.map_eq_some_iff.1 hkey.symm
  exact ⟨value', hget', hvalue.symm⟩

theorem readText (h : Object.Same body other) (key : String) : Records.readText body key = Records.readText other key := by
  rw [← readText_normal, normal_eq_of_same h, readText_normal]

theorem readOptionalValue (h : Object.Same body other) (key : String) :
    (Records.readOptionalValue body key).normal = (Records.readOptionalValue other key).normal := by
  rw [Records.readOptionalValue, Records.readOptionalValue]
  cases hget : body.get? key with
  | none => rw [h.get?_none hget]
  | some value =>
      obtain ⟨value', hget', hvalue⟩ := h.get?_some hget
      rw [hget']
      exact hvalue

theorem writeSortedJson (h : Object.Same body other) :
    Records.writeSortedJson (Object.toJson body) = Records.writeSortedJson (Object.toJson other) := by
  rw [← writeSortedJson_normal, normal_eq_of_same h, writeSortedJson_normal]

end Object.Same

theorem length_sorted_eq_zero {fields : List (String × Json)} :
    (SortedMap.ofList (normalFields fields)).entries.length = 0 ↔ fields.length = 0 := by
  cases fields with
  | nil => exact iff_of_true rfl rfl
  | cons field rest =>
      refine iff_of_false (fun hempty => ?_) (Nat.succ_ne_zero _)
      have hkey : field.1 ∈ (SortedMap.ofList (normalFields (field :: rest))).keys := by
        rw [SortedMap.mem_keys_ofList, normalFields_eq]
        simp
      rw [SortedMap.keys, List.length_eq_zero_iff.1 hempty] at hkey
      cases hkey

theorem hasContent_normal (value : Json) : hasContent value.normal = hasContent value := by
  cases value with
  | arr items => simp [Json.normal, hasContent, normalItems_eq]
  | obj fields => simp only [Json.normal, hasContent, ne_eq, length_sorted_eq_zero]
  | _ => rfl

theorem Object.Same.hasValue (h : Object.Same body other) (key : String) :
    Records.hasValue body key = Records.hasValue other key := by
  rw [Records.hasValue, Records.hasValue]
  cases hget : body.get? key with
  | none => rw [h.get?_none hget]
  | some value =>
      obtain ⟨value', hget', hvalue⟩ := h.get?_some hget
      rw [hget', Option.any_some, Option.any_some, ← hasContent_normal, hvalue, hasContent_normal]

theorem normal_eq_null {value : Json} : value.normal = .null ↔ value = .null := by
  cases value <;> simp [Json.normal]

variable {value value' : Json}

theorem eq_null_of_normal_eq (h : value.normal = value'.normal) : value = .null ↔ value' = .null := by
  rw [← normal_eq_null, h, normal_eq_null]

theorem eq_str_of_normal_eq (h : value.normal = value'.normal) (text : String) :
    value = .str text ↔ value' = .str text := by
  rw [← normal_eq_str, h, normal_eq_str]

theorem readString_of_normal_eq (h : value.normal = value'.normal) :
    readString value = readString value' := by
  cases value <;> cases value' <;> simp_all [Json.normal, readString]

theorem same_of_obj_normal_eq {fields fields' : List (String × Json)} (h : (Json.obj fields).normal = (Json.obj fields').normal) :
    Object.Same (.ofList fields) (.ofList fields') := by
  have hsorted : SortedMap.ofList (normalFields fields) = SortedMap.ofList (normalFields fields') :=
    SortedMap.ext_entries (Json.obj.inj h)
  have hget : ∀ (fields : List (String × Json)) key, ((IndexMap.ofList fields).get? key).map Json.normal =
      (SortedMap.ofList (normalFields fields)).get? key := by
    intro fields key
    rw [normalFields_eq, SortedMap.get?_ofList, ← List.map_reverse, IndexMap.lookupEntry_map, IndexMap.ofList,
      IndexMap.get?_extend, IndexMap.get?_empty, Option.or_none]
  intro key
  rw [hget, hget, hsorted]

theorem Object.Same.toJson (h : Object.Same body other) :
    (Object.toJson body).normal = (Object.toJson other).normal := by
  rw [← toJson_normal, normal_eq_of_same h, toJson_normal]

theorem readFields_of_normal_eq (h : value.normal = value'.normal) {body : Object}
    (hread : readFields value = .ok body) : ∃ other, readFields value' = .ok other ∧ Object.Same body other := by
  cases value with
  | obj fields =>
      cases value' with
      | obj fields' =>
          rw [← Except.ok.inj hread]
          exact ⟨_, rfl, same_of_obj_normal_eq h⟩
      | _ => cases h
  | _ => cases hread

variable {key : String}

theorem readObject_of_get?
    (h : (body.get? key).map Json.normal = (other.get? key).map Json.normal) {value : Object}
    (hread : readObject body key = .ok value) : ∃ value', readObject other key = .ok value' ∧ Object.Same value value' := by
  rw [readObject] at hread
  cases hget : body.get? key with
  | none =>
      rw [hget] at hread h
      rw [readObject, Option.map_eq_none_iff.1 h.symm]
      exact ⟨.empty, rfl, Except.ok.inj hread ▸ .refl _⟩
  | some raw =>
      rw [hget, Option.map_some] at h
      rw [hget] at hread
      obtain ⟨raw', hget', hraw⟩ := Option.map_eq_some_iff.1 h.symm
      rw [readObject, hget']
      exact readFields_of_normal_eq hraw.symm hread

theorem Object.Same.readObject (h : Object.Same body other) {value : Object}
    (hread : Records.readObject body key = .ok value) :
    ∃ value', Records.readObject other key = .ok value' ∧ Object.Same value value' := readObject_of_get? (h key) hread

/-- A pass over the fields of objects with the same contents computes the same parts, in whatever order. -/
theorem Object.Same.mapM_entries (h : Object.Same body other) {β : Type}
    {f g : String × Json → Except String (List β)}
    (hfg : ∀ key value value', value.normal = value'.normal → f (key, value) = g (key, value')) {parts : List (List β)}
    (hparts : body.entries.mapM f = .ok parts) :
    ∃ parts', other.entries.mapM g = .ok parts' ∧ ∀ b, b ∈ parts.flatten ↔ b ∈ parts'.flatten := by
  have hmem : ∀ {body other : Object} {key : String} {value : Json}, Object.Same body other →
      (key, value) ∈ body.entries → ∃ value', (key, value') ∈ other.entries ∧ value.normal = value'.normal := by
    intro body other key value hsame hentry
    obtain ⟨value', hget', hvalue⟩ := hsame.get?_some (IndexMap.get?_eq_some_iff.2 hentry)
    exact ⟨value', IndexMap.get?_eq_some_iff.1 hget', hvalue⟩
  obtain ⟨parts', hparts'⟩ : ∃ parts', other.entries.mapM g = .ok parts' := by
    refine Runs.mapM_ok_of_forall fun ⟨key, value'⟩ hentry => ?_
    obtain ⟨value, hvalue, hnormal⟩ := hmem h.symm hentry
    rw [← hfg key value value' hnormal.symm]
    exact Runs.mapM_ok_of_mem hparts _ hvalue
  refine ⟨parts', hparts', fun b => ?_⟩
  rw [Runs.mem_flatten_mapM hparts, Runs.mem_flatten_mapM hparts']
  constructor
  · rintro ⟨⟨key, value⟩, hentry, part, hf, hb⟩
    obtain ⟨value', hentry', hnormal⟩ := hmem h hentry
    exact ⟨(key, value'), hentry', part, hfg key value value' hnormal ▸ hf, hb⟩
  · rintro ⟨⟨key, value'⟩, hentry, part, hg, hb⟩
    obtain ⟨value, hentry', hnormal⟩ := hmem h.symm hentry
    exact ⟨(key, value), hentry', part, (hfg key value value' hnormal.symm).trans hg, hb⟩

def Object.SameBut (names : List String) (body other : Object) : Prop :=
  ∀ key, key ∉ names → (body.get? key).map Json.normal = (other.get? key).map Json.normal

theorem Object.SameBut.insert {names : List String}
    (h : Object.SameBut (key :: names) body other) (hvalue : value.normal = value'.normal) :
    Object.SameBut names (body.insert key value) (other.insert key value') := by
  intro name hname
  rw [IndexMap.get?_insert, IndexMap.get?_insert]
  split_ifs with hkey
  · exact congrArg some hvalue
  · exact h name (by simp [hkey, hname])

theorem Object.SameBut.same {body other : Object} (h : Object.SameBut [] body other) : Object.Same body other :=
  fun key => h key (by simp)

theorem Object.Same.sameBut (h : Object.Same body other) (names : List String) :
    Object.SameBut names body other := fun key _ => h key

theorem Object.SameBut.trans {names : List String} {body other third : Object} (h : Object.SameBut names body other)
    (h' : Object.SameBut names other third) : Object.SameBut names body third :=
  fun key hkey => (h key hkey).trans (h' key hkey)

theorem Object.SameBut.symm {names : List String} (h : Object.SameBut names body other) :
    Object.SameBut names other body := fun key hkey => (h key hkey).symm

theorem Object.Valid.insert {body : Object} (h : Object.Valid body) {value : Json} (hvalue : value.Valid) :
    Object.Valid (body.insert key value) := by
  intro name held hget
  rw [IndexMap.get?_insert] at hget
  split_ifs at hget with hkey
  · exact Option.some.inj hget ▸ hvalue
  · exact h name held hget

theorem Object.Valid.ofList {entries : List (String × Json)} (h : ∀ entry ∈ entries, entry.2.Valid) :
    Object.Valid (.ofList entries) := by
  intro key value hget
  have hmem : IndexMap.lookupEntry key entries.reverse = some value := by
    rw [← hget, IndexMap.ofList, IndexMap.get?_extend, IndexMap.get?_empty, Option.or_none]
  exact h (key, value) (List.mem_reverse.1 (IndexMap.lookupEntry_eq_some hmem))

theorem Object.Valid.readOptionalValue {body : Object} (h : Object.Valid body) (key : String) :
    (Records.readOptionalValue body key).Valid := by
  rw [Records.readOptionalValue]
  cases hget : body.get? key with
  | none => exact .null
  | some value => exact h key value hget

theorem Object.Valid.readObject {body value : Object} (h : Object.Valid body)
    (hread : Records.readObject body key = .ok value) : Object.Valid value := by
  rw [Records.readObject] at hread
  cases hget : body.get? key with
  | none =>
      rw [hget] at hread
      rw [← Except.ok.inj hread]
      exact fun _ _ hnone => (nomatch hnone)
  | some raw =>
      rw [hget] at hread
      have hraw := h key raw hget
      cases hraw with
      | obj hfields =>
          rw [← Except.ok.inj hread]
          exact .ofList hfields
      | _ => cases hread

end EdgarPlatform.Records
