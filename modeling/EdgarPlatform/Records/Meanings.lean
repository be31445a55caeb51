import EdgarPlatform.Library.Agreed
import EdgarPlatform.Records.Documents

/-!
# What a document means

A document means the same whatever its blanks, the spelling of its strings, the order of its keys and the values it writes over. What its plain tokens mean is a parameter: the tokens themselves, or numbers. A writer that lays a meaning out in one way writes one text for each meaning, and the text means what was laid out.
-/

namespace EdgarPlatform.Records

open JsonText

/-- A document by its meaning, each object's fields in the order of their keys. -/
inductive Meaning (τ : Type)
  | plain (token : τ)
  | text (value : String)
  | array (items : List (Meaning τ))
  | object (fields : List (String × Meaning τ))

variable {τ σ κ : Type}

def takeMeant {α : Type} (entry : String × Except String α) : Except String (String × α) :=
  entry.2.map fun value => (entry.1, value)

mutual
/-- The meaning of a document. A value written over is not looked at. -/
def mean (plain : List Char → Except String τ) : Doc → Except String (Meaning τ)
  | .plain token => (plain token).map .plain
  | .text pieces => (readPlainText invalidRecordValue pieces).map .text
  | .array items => ((meanItems plain items).mapM id).map .array
  | .object fields =>
      (readKeys invalidRecordValue (meanFields plain fields)).bind fun body =>
        ((SortedMap.ofList body).entries.mapM takeMeant).map .object

def meanItems (plain : List Char → Except String τ) : List Doc → List (Except String (Meaning τ))
  | [] => []
  | item :: rest => mean plain item :: meanItems plain rest

def meanFields (plain : List Char → Except String τ) :
    List (List Piece × Doc) → List (List Piece × Except String (Meaning τ))
  | [] => []
  | (key, value) :: rest => (key, mean plain value) :: meanFields plain rest
end

mutual
def Meaning.map (f : τ → σ) : Meaning τ → Meaning σ
  | .plain token => .plain (f token)
  | .text value => .text value
  | .array items => .array (mapItems f items)
  | .object fields => .object (mapFields f fields)

def mapItems (f : τ → σ) : List (Meaning τ) → List (Meaning σ)
  | [] => []
  | item :: rest => item.map f :: mapItems f rest

def mapFields (f : τ → σ) : List (String × Meaning τ) → List (String × Meaning σ)
  | [] => []
  | (key, value) :: rest => (key, value.map f) :: mapFields f rest
end

@[elab_as_elim]
theorem Meaning.induct {motive : Meaning τ → Prop} (plain : ∀ token, motive (.plain token)) (text : ∀ value, motive (.text value))
    (array : ∀ items, (∀ item ∈ items, motive item) → motive (.array items))
    (object : ∀ fields, (∀ field ∈ fields, motive field.2) → motive (.object fields)) (v : Meaning τ) : motive v :=
  @Meaning.rec τ motive (fun items => ∀ item ∈ items, motive item) (fun fields => ∀ field ∈ fields, motive field.2) (fun field => motive field.2)
    plain text array object (fun _ h => nomatch h) (fun _ _ h hrest => List.forall_mem_cons.2 ⟨h, hrest⟩)
    (fun _ h => nomatch h) (fun _ _ h hrest => List.forall_mem_cons.2 ⟨h, hrest⟩) (fun _ _ h => h) v

theorem meanItems_eq (plain : List Char → Except String τ) (items : List Doc) : meanItems plain items = items.map (mean plain) := by
  induction items with
  | nil => rfl
  | cons item rest ih => rw [meanItems, ih, List.map_cons]

theorem meanFields_eq (plain : List Char → Except String τ) (fields : List (List Piece × Doc)) :
    meanFields plain fields = fields.map fun field => (field.1, mean plain field.2) := by
  induction fields with
  | nil => rfl
  | cons field rest ih => rw [meanFields, ih, List.map_cons]

theorem mapItems_eq (f : τ → σ) (items : List (Meaning τ)) : mapItems f items = items.map (Meaning.map f) := by
  induction items with
  | nil => rfl
  | cons item rest ih => rw [mapItems, ih, List.map_cons]

theorem mapFields_eq (f : τ → σ) (fields : List (String × Meaning τ)) :
    mapFields f fields = fields.map fun field => (field.1, field.2.map f) := by
  induction fields with
  | nil => rfl
  | cons field rest ih => rw [mapFields, ih, List.map_cons]

variable {plain : List Char → Except String τ}

variable {v : Meaning τ}

theorem mean_plain {token : List Char} :
    mean plain (.plain token) = .ok v ↔ ∃ t, plain token = .ok t ∧ v = .plain t := by
  rw [mean, map_eq_ok]

theorem mean_text {pieces : List Piece} :
    mean plain (.text pieces) = .ok v ↔ ∃ value, readString? pieces = some value ∧ v = .text value := by
  rw [mean, map_eq_ok]
  simp only [readPlainText_eq_ok]

theorem mean_array {items : List Doc} :
    mean plain (.array items) = .ok v ↔
      ∃ parts, List.Forall₂ (fun item part => mean plain item = .ok part) items parts ∧ v = .array parts := by
  rw [mean, meanItems_eq, map_eq_ok]
  simp only [Runs.mapM_eq_ok, List.forall₂_map_left_iff, id_eq]

/-- What the fields of an object mean, each key with the value it was written with last. -/
def MeantParts (plain : List Char → Except String τ) (body : List (String × Doc)) (parts : List (String × Meaning τ)) : Prop :=
  List.Forall₂ (fun entry part => entry.1 = part.1 ∧ mean plain entry.2 = .ok part.2) (SortedMap.ofList body).entries parts

theorem takeMeant_eq_ok {α : Type} {entry : String × Except String α} {part : String × α} :
    takeMeant entry = .ok part ↔ entry.1 = part.1 ∧ entry.2 = .ok part.2 := by
  rw [takeMeant, map_eq_ok]
  constructor
  · rintro ⟨value, hvalue, rfl⟩
    exact ⟨rfl, hvalue⟩
  · rintro ⟨hkey, hvalue⟩
    exact ⟨part.2, hvalue, Prod.ext hkey.symm rfl⟩

theorem mean_object {fields : List (List Piece × Doc)} :
    mean plain (.object fields) = .ok v ↔
      ∃ body, ReadsAs fields body ∧ ∃ parts, MeantParts plain body parts ∧ v = .object parts := by
  have hparts : ∀ (body : List (String × Doc)) (parts : List (String × Meaning τ)),
      List.Forall₂ (fun entry part => entry.1 = part.1 ∧ entry.2 = Except.ok part.2)
        (SortedMap.ofList (body.map fun entry => (entry.1, mean plain entry.2))).entries parts ↔ MeantParts plain body parts := by
    intro body parts
    rw [MeantParts, ← SortedMap.mapValues_ofList (mean plain) body, SortedMap.mapValues, List.forall₂_map_left_iff]
  rw [mean, meanFields_eq, bind_eq_ok']
  simp only [readKeys_eq_ok, map_eq_ok, Runs.mapM_eq_ok, takeMeant_eq_ok, ReadsAs.map_iff]
  constructor
  · rintro ⟨_, ⟨body, hbody, rfl⟩, parts, hmeant, rfl⟩
    exact ⟨body, hbody, parts, (hparts body parts).1 hmeant, rfl⟩
  · rintro ⟨body, hbody, parts, hmeant, rfl⟩
    exact ⟨_, ⟨body, hbody, rfl⟩, parts, (hparts body parts).2 hmeant, rfl⟩

theorem MeantParts.field {fields : List (List Piece × Doc)} {body : List (String × Doc)} (hbody : ReadsAs fields body)
    {entry : String × Doc} (hentry : entry ∈ (SortedMap.ofList body).entries) : ∃ field ∈ fields, field.2 = entry.2 :=
  hbody.mem (mem_of_mem_sorted hentry)

theorem MeantParts.sorted {body : List (String × Doc)} {parts : List (String × Meaning τ)} (h : MeantParts plain body parts) :
    parts.Pairwise fun a b => a.1 < b.1 := by
  refine Runs.pairwise_of_forall₂ (fun a b a' b' hab hab' hlt => ?_) h (SortedMap.ofList body).sorted
  rw [← hab.1, ← hab'.1]
  exact hlt

theorem mean_map {plain' : List Char → Except String σ} {f : τ → σ}
    (h : ∀ token t, isPlain token = true → plain token = .ok t → plain' token = .ok (f t)) {d : Doc} :
    ∀ {v : Meaning τ}, d.Valid → mean plain d = .ok v → mean plain' d = .ok (v.map f) := by
  induction d using Doc.induct with
  | plain token =>
      intro v hvalid hv
      obtain ⟨t, ht, rfl⟩ := mean_plain.1 hv
      cases hvalid with
      | plain htoken => exact mean_plain.2 ⟨f t, h token t htoken ht, rfl⟩
  | text pieces =>
      intro v _ hv
      obtain ⟨value, hvalue, rfl⟩ := mean_text.1 hv
      exact mean_text.2 ⟨value, hvalue, rfl⟩
  | array items ih =>
      intro v hvalid hv
      obtain ⟨parts, hparts, rfl⟩ := mean_array.1 hv
      refine mean_array.2 ⟨parts.map (Meaning.map f), ?_, by rw [Meaning.map, mapItems_eq]⟩
      rw [List.forall₂_map_right_iff]
      cases hvalid with
      | array hitems => exact Runs.forall₂_imp_of_mem hparts fun item part hitem hpart => ih item hitem (hitems item hitem) hpart
  | object fields ih =>
      intro v hvalid hv
      obtain ⟨body, hbody, parts, hparts, rfl⟩ := mean_object.1 hv
      refine mean_object.2 ⟨body, hbody, parts.map fun part => (part.1, part.2.map f), ?_, by rw [Meaning.map, mapFields_eq]⟩
      rw [MeantParts, List.forall₂_map_right_iff]
      refine Runs.forall₂_imp_of_mem hparts fun entry part hentry hpart => ⟨hpart.1, ?_⟩
      obtain ⟨field, hfield, heq⟩ := MeantParts.field hbody hentry
      cases hvalid with
      | object _ hfields => exact heq ▸ ih field hfield (hfields field hfield) (heq ▸ hpart.2)

theorem map_inj_of_mem {α β : Type} {f : α → β} {items others : List α} (h : ∀ a ∈ items, ∀ b ∈ others, f a = f b → a = b)
    (heq : items.map f = others.map f) : items = others := by
  refine List.ext_getElem? fun i => ?_
  have hi := congrArg (fun parts => parts[i]?) heq
  simp only [List.getElem?_map] at hi
  cases hitem : items[i]? with
  | none =>
      rw [hitem, Option.map_none] at hi
      exact (Option.map_eq_none_iff.1 hi.symm).symm
  | some item =>
      rw [hitem, Option.map_some] at hi
      obtain ⟨other, hother, himage⟩ := Option.map_eq_some_iff.1 hi.symm
      rw [hother, h item (List.mem_of_getElem? hitem) other (List.mem_of_getElem? hother) himage.symm]

/-- Every token has a property, and every object's keys are in order. -/
inductive Meaning.Regular (p : τ → Prop) : Meaning τ → Prop
  | plain {token : τ} (h : p token) : Regular p (.plain token)
  | text (value : String) : Regular p (.text value)
  | array {items : List (Meaning τ)} (h : ∀ item ∈ items, Regular p item) : Regular p (.array items)
  | object {fields : List (String × Meaning τ)} (hsorted : fields.Pairwise fun a b => a.1 < b.1)
      (h : ∀ field ∈ fields, Regular p field.2) : Regular p (.object fields)

theorem mean_regular {p : τ → Prop} (h : ∀ token t, isPlain token = true → plain token = .ok t → p t) {d : Doc} :
    ∀ {v : Meaning τ}, d.Valid → mean plain d = .ok v → v.Regular p := by
  induction d using Doc.induct with
  | plain token =>
      intro v hvalid hv
      obtain ⟨t, ht, rfl⟩ := mean_plain.1 hv
      cases hvalid with
      | plain htoken => exact .plain (h token t htoken ht)
  | text pieces =>
      intro v _ hv
      obtain ⟨value, _, rfl⟩ := mean_text.1 hv
      exact .text value
  | array items ih =>
      intro v hvalid hv
      obtain ⟨parts, hparts, rfl⟩ := mean_array.1 hv
      cases hvalid with
      | array hitems =>
          refine .array fun part hpart => ?_
          have hpaired := Runs.forall₂_imp_of_mem hparts fun item part hitem hpart =>
            (⟨hitem, hpart⟩ : item ∈ items ∧ mean plain item = .ok part)
          obtain ⟨item, hmem, hitem, hmean⟩ := Runs.forall₂_exists_left hpaired hpart
          exact ih item hitem (hitems item hitem) hmean
  | object fields ih =>
      intro v hvalid hv
      obtain ⟨body, hbody, parts, hparts, rfl⟩ := mean_object.1 hv
      cases hvalid with
      | object _ hfields =>
          refine .object ?_ fun part hpart => ?_
          · exact hparts.sorted
          · have hpaired := Runs.forall₂_imp_of_mem hparts fun entry part hentry hpart =>
              (⟨hentry, hpart.2⟩ : entry ∈ (SortedMap.ofList body).entries ∧ mean plain entry.2 = .ok part.2)
            obtain ⟨entry, _, hentry, hmean⟩ := Runs.forall₂_exists_left hpaired hpart
            obtain ⟨field, hfield, heq⟩ := MeantParts.field hbody hentry
            exact ih field hfield (hfields field hfield) (heq ▸ hmean)

theorem Meaning.Regular.map_inj {p : τ → Prop} {f : τ → σ} (hf : ∀ a b, p a → p b → f a = f b → a = b)
    (hv : v.Regular p) : ∀ {w : Meaning τ}, w.Regular p → v.map f = w.map f → v = w := by
  induction hv with
  | @plain token ht =>
      intro w hw h
      cases hw with
      | plain ht' => exact congrArg Meaning.plain (hf _ _ ht ht' (Meaning.plain.inj h))
      | _ => cases h
  | text value =>
      intro w hw h
      cases hw with
      | text value' => exact congrArg Meaning.text (Meaning.text.inj h)
      | _ => cases h
  | @array items _ ih =>
      intro w hw h
      cases hw with
      | @array items' hitems' =>
          have hitems := Meaning.array.inj h
          rw [mapItems_eq, mapItems_eq] at hitems
          refine congrArg Meaning.array (map_inj_of_mem (fun item hitem item' hitem' => ?_) hitems)
          exact ih item hitem (hitems' item' hitem')
      | _ => cases h
  | @object fields _ _ ih =>
      intro w hw h
      cases hw with
      | @object fields' _ hfields' =>
          have hfields := Meaning.object.inj h
          rw [mapFields_eq, mapFields_eq] at hfields
          refine congrArg Meaning.object (map_inj_of_mem (fun field hfield field' hfield' heq => ?_) hfields)
          obtain ⟨hkey, hvalue⟩ := Prod.ext_iff.1 heq
          exact Prod.ext hkey (ih field hfield (hfields' field' hfield') hvalue)
      | _ => cases h

/-- How a writer lays a meaning out: the text of a token, the order of an object's keys, the blanks after a comma and a colon. -/
structure Layout (τ κ : Type) where
  token : τ → List Char
  order : String → κ
  blanks : List Char := []

variable [LinearOrder κ]

def Layout.arrange (layout : Layout τ κ) (fields : List (String × Doc)) : List (List Piece × Doc) :=
  (Sorting.sortByKey (fun field => layout.order field.1) fields).map fun field => (piecesOf field.1, field.2)

mutual
def Meaning.toDoc (layout : Layout τ κ) : Meaning τ → Doc
  | .plain token => .plain (layout.token token)
  | .text value => .text (piecesOf value)
  | .array items => .array (docItems layout items)
  | .object fields => .object (layout.arrange (docFields layout fields))

def docItems (layout : Layout τ κ) : List (Meaning τ) → List Doc
  | [] => []
  | item :: rest => item.toDoc layout :: docItems layout rest

def docFields (layout : Layout τ κ) : List (String × Meaning τ) → List (String × Doc)
  | [] => []
  | (key, value) :: rest => (key, value.toDoc layout) :: docFields layout rest
end

def Meaning.spell (layout : Layout τ κ) (v : Meaning τ) : String := String.ofList ((v.toDoc layout).spaced layout.blanks)

theorem docItems_eq (layout : Layout τ κ) (items : List (Meaning τ)) : docItems layout items = items.map (Meaning.toDoc layout) := by
  induction items with
  | nil => rfl
  | cons item rest ih => rw [docItems, ih, List.map_cons]

theorem docFields_eq (layout : Layout τ κ) (fields : List (String × Meaning τ)) :
    docFields layout fields = fields.map fun field => (field.1, field.2.toDoc layout) := by
  induction fields with
  | nil => rfl
  | cons field rest ih => rw [docFields, ih, List.map_cons]

/-- A layout writes each token as one that means it, and blanks for blanks. -/
structure Layout.Lawful (layout : Layout τ κ) (plain : List Char → Except String τ) (p : τ → Prop) : Prop where
  blanks : layout.blanks.all isBlank = true
  token : ∀ t, p t → isPlain (layout.token t) = true ∧ plain (layout.token t) = .ok t
  regular : ∀ token t, isPlain token = true → plain token = .ok t → p t

variable {layout : Layout τ κ} {p : τ → Prop}

theorem Layout.Lawful.toDoc_valid (h : layout.Lawful plain p) (hv : v.Regular p) : (v.toDoc layout).Valid := by
  induction hv with
  | plain ht => exact .plain (h.token _ ht).1
  | text value => exact .text (piecesOf_valid value)
  | @array items _ ih =>
      rw [Meaning.toDoc, docItems_eq]
      refine .array fun item hitem => ?_
      obtain ⟨part, hpart, rfl⟩ := List.mem_map.1 hitem
      exact ih part hpart
  | @object fields _ _ ih =>
      rw [Meaning.toDoc, docFields_eq]
      refine .object (fun field hfield => ?_) fun field hfield => ?_
      · obtain ⟨entry, _, rfl⟩ := List.mem_map.1 hfield
        exact piecesOf_valid entry.1
      · obtain ⟨entry, hentry, rfl⟩ := List.mem_map.1 hfield
        obtain ⟨part, hpart, rfl⟩ := List.mem_map.1 (Sorting.mem_sortByKey.1 hentry)
        exact ih part hpart

theorem ofList_sortByKey {α : Type} {fields : List (String × α)} (h : fields.Pairwise fun a b => a.1 < b.1) (rank : String × α → κ) :
    (SortedMap.ofList (Sorting.sortByKey rank fields)).entries = fields := by
  have hnodup : ∀ key value other, (key, value) ∈ fields → (key, other) ∈ fields → value = other := by
    intro key value other hvalue hother
    have hget := (⟨fields, h⟩ : SortedMap String α).keys_nodup
    have hone := IndexMap.lookupEntry_of_mem hget hvalue
    exact Option.some.inj (hone.symm.trans (IndexMap.lookupEntry_of_mem hget hother))
  have hsame : SortedMap.ofList (Sorting.sortByKey rank fields) = SortedMap.ofList fields :=
    Agreed.ofList_congr (fun key value other hvalue hother =>
      hnodup key value other (Sorting.mem_sortByKey.1 hvalue) (Sorting.mem_sortByKey.1 hother)) fun _ => Sorting.mem_sortByKey
  rw [hsame, SortedMap.ofList_entries ⟨fields, h⟩]

theorem Layout.Lawful.mean_toDoc (h : layout.Lawful plain p) (hv : v.Regular p) :
    mean plain (v.toDoc layout) = .ok v := by
  induction hv with
  | plain ht => exact mean_plain.2 ⟨_, (h.token _ ht).2, rfl⟩
  | text value => exact mean_text.2 ⟨value, readString_piecesOf value, rfl⟩
  | @array items _ ih =>
      rw [Meaning.toDoc, docItems_eq]
      refine mean_array.2 ⟨items, ?_, rfl⟩
      rw [List.forall₂_map_left_iff]
      exact List.forall₂_same.2 ih
  | @object fields hsorted _ ih =>
      rw [Meaning.toDoc]
      refine mean_object.2 ⟨Sorting.sortByKey (fun field => layout.order field.1) (docFields layout fields), ?_, fields, ?_, rfl⟩
      · rw [Layout.arrange, ReadsAs, List.forall₂_map_left_iff]
        exact List.forall₂_same.2 fun field _ => ⟨readString_piecesOf field.1, rfl⟩
      · have hdocs : (docFields layout fields).Pairwise fun a b => a.1 < b.1 := by
          rw [docFields_eq]
          exact List.pairwise_map.2 hsorted
        rw [MeantParts, ofList_sortByKey hdocs, docFields_eq, List.forall₂_map_left_iff]
        exact List.forall₂_same.2 fun field hfield => ⟨rfl, ih field hfield⟩

theorem Layout.Lawful.read_spell (h : layout.Lawful plain p) {d : Doc} (hd : d.Valid) (hv : mean plain d = .ok v) :
    parse (v.spell layout).toList = some (v.toDoc layout) ∧ mean plain (v.toDoc layout) = .ok v := by
  have hregular := mean_regular h.regular hd hv
  refine ⟨?_, h.mean_toDoc hregular⟩
  rw [Meaning.spell, String.toList_ofList]
  exact parse_spaced h.blanks (h.toDoc_valid hregular)

theorem Layout.Lawful.spell_inj (h : layout.Lawful plain p) {d e : Doc} (hd : d.Valid) (he : e.Valid) {v w : Meaning τ}
    (hv : mean plain d = .ok v) (hw : mean plain e = .ok w) : v.spell layout = w.spell layout ↔ v = w := by
  refine ⟨fun heq => ?_, fun heq => by rw [heq]⟩
  obtain ⟨hparse, hmean⟩ := h.read_spell hd hv
  obtain ⟨hparse', hmean'⟩ := h.read_spell he hw
  rw [heq, hparse'] at hparse
  rw [← Option.some.inj hparse, hmean'] at hmean
  exact (Except.ok.inj hmean).symm

def Layout.compact (token : τ → List Char) : Layout τ String where
  token
  order := id

theorem spaced_nil (d : Doc) : d.spaced [] = d.render := by
  induction d using Doc.induct with
  | plain token => rfl
  | text pieces => rfl
  | array items ih =>
      have hitems : spacedItems [] items = renderItems items := by
        induction items with
        | nil => rfl
        | cons item rest ihRest =>
            have hitem := ih item (List.mem_cons_self ..)
            have hrest := ihRest fun other hother => ih other (List.mem_cons_of_mem _ hother)
            cases rest with
            | nil => rw [spacedItems, renderItems, hitem]
            | cons next more => rw [spacedItems, renderItems, hitem, hrest, List.nil_append]
      rw [Doc.spaced, Doc.render, hitems]
  | object fields ih =>
      have hfields : spacedFields [] fields = renderFields fields := by
        induction fields with
        | nil => rfl
        | cons field rest ihRest =>
            have hvalue := ih field (List.mem_cons_self ..)
            have hrest := ihRest fun other hother => ih other (List.mem_cons_of_mem _ hother)
            obtain ⟨key, value⟩ := field
            cases rest with
            | nil => rw [spacedFields, renderFields, hvalue, List.nil_append]
            | cons next more => rw [spacedFields, renderFields, hvalue, hrest, List.nil_append, List.nil_append]
      rw [Doc.spaced, Doc.render, hfields]

variable {token : τ → List Char}

theorem toList_spell_compact (v : Meaning τ) : (v.spell (.compact token)).toList = (v.toDoc (.compact token)).render := by
  rw [Meaning.spell, String.toList_ofList]
  exact spaced_nil _

theorem spell_compact_text (value : String) : (Meaning.text value : Meaning τ).spell (.compact token) = writeString value := by
  rw [← String.toList_inj, toList_spell_compact, toList_writeString]
  rfl

theorem spell_compact_array (items : List (Meaning τ)) :
    (Meaning.array items).spell (.compact token) = joinItems (items.map (Meaning.spell (.compact token))) := by
  rw [← String.toList_inj, toList_spell_compact, Meaning.toDoc, docItems_eq]
  refine (toList_joinItems ?_).symm
  rw [List.forall₂_map_left_iff, List.forall₂_map_right_iff]
  exact List.forall₂_same.2 fun item _ => (toList_spell_compact item).symm

theorem spell_compact_object {fields : List (String × Meaning τ)} (h : fields.Pairwise fun a b => a.1 < b.1) :
    (Meaning.object fields).spell (.compact token) =
      joinFields (fields.map fun field => (field.1, field.2.spell (.compact token))) := by
  have hsorted : Sorting.sortByKey (fun field => (Layout.compact token).order field.1) (docFields (.compact token) fields) =
      docFields (.compact token) fields := by
    rw [Sorting.sortByKey]
    refine List.Pairwise.insertionSort_eq ?_
    rw [docFields_eq, List.pairwise_map]
    exact h.imp fun hlt => le_of_lt hlt
  rw [← String.toList_inj, toList_spell_compact, Meaning.toDoc, Layout.arrange, hsorted, docFields_eq, List.map_map]
  refine (toList_joinFields ?_).symm
  rw [List.forall₂_map_left_iff, List.forall₂_map_right_iff]
  exact List.forall₂_same.2 fun field _ => ⟨rfl, (toList_spell_compact field.2).symm⟩

theorem compact_writer {write : Doc → Except String String}
    (hplain : ∀ t s, write (.plain t) = .ok s ↔ ∃ u, plain t = .ok u ∧ s = String.ofList (token u))
    (htext : ∀ pieces s, write (.text pieces) = .ok s ↔ ∃ value, readString? pieces = some value ∧ s = writeString value)
    (harray : ∀ items s, write (.array items) = .ok s ↔
      ∃ parts, List.Forall₂ (fun item part => write item = .ok part) items parts ∧ s = joinItems parts)
    (hobject : ∀ fields s, write (.object fields) = .ok s ↔
      ∃ body, ReadsAs fields body ∧ ∃ parts, PartsOf write body parts ∧ s = joinFields parts) (d : Doc) :
    ∀ s, write d = .ok s ↔ ∃ v, mean plain d = .ok v ∧ s = v.spell (.compact token) := by
  induction d using Doc.induct with
  | plain t =>
      intro s
      simp only [hplain, mean_plain]
      constructor
      · rintro ⟨u, hu, rfl⟩
        exact ⟨_, ⟨u, hu, rfl⟩, rfl⟩
      · rintro ⟨_, ⟨u, hu, rfl⟩, rfl⟩
        exact ⟨u, hu, rfl⟩
  | text pieces =>
      intro s
      simp only [htext, mean_text]
      constructor
      · rintro ⟨value, hvalue, rfl⟩
        exact ⟨_, ⟨value, hvalue, rfl⟩, (spell_compact_text value).symm⟩
      · rintro ⟨_, ⟨value, hvalue, rfl⟩, rfl⟩
        exact ⟨value, hvalue, spell_compact_text value⟩
  | array items ih =>
      intro s
      rw [harray]
      simp only [mean_array]
      constructor
      · rintro ⟨parts, hparts, rfl⟩
        obtain ⟨vs, hvs⟩ : ∃ vs : List (Meaning τ), List.Forall₂ (fun item v => mean plain item = .ok v ∧
            ∀ part, write item = .ok part → part = v.spell (.compact token)) items vs := by
          refine forall₂_exists fun item hitem => ?_
          obtain ⟨part, _, hpart⟩ := Runs.forall₂_exists_right hparts hitem
          obtain ⟨v, hv, rfl⟩ := (ih item hitem part).1 hpart
          exact ⟨v, hv, fun other hother => Except.ok.inj (hother.symm.trans hpart)⟩
        refine ⟨_, ⟨vs, hvs.imp fun _ _ h => h.1, rfl⟩, ?_⟩
        have hsame : List.Forall₂ (fun part v => part = Meaning.spell (.compact token) v) parts vs :=
          Runs.forall₂_comp (fun part item v hpart hv => hv.2 part hpart) hparts.flip hvs
        rw [spell_compact_array]
        refine congrArg joinItems ?_
        rw [← List.forall₂_eq_eq_eq, List.forall₂_map_right_iff]
        exact hsame
      · rintro ⟨_, ⟨vs, hvs, rfl⟩, rfl⟩
        refine ⟨vs.map (Meaning.spell (.compact token)), ?_, spell_compact_array vs⟩
        rw [List.forall₂_map_right_iff]
        exact Runs.forall₂_imp_of_mem hvs fun item v hitem hv => (ih item hitem _).2 ⟨v, hv, rfl⟩
  | object fields ih =>
      intro s
      rw [hobject]
      simp only [mean_object]
      refine ⟨?_, ?_⟩
      · rintro ⟨body, hbody, parts, hparts, rfl⟩
        obtain ⟨vs, hvs⟩ : ∃ vs : List (String × Meaning τ), List.Forall₂ (fun entry v => entry.1 = v.1 ∧
            mean plain entry.2 = .ok v.2 ∧ ∀ part, write entry.2 = .ok part → part = v.2.spell (.compact token))
            (SortedMap.ofList body).entries vs := by
          refine forall₂_exists fun entry hentry => ?_
          obtain ⟨part, _, _, hpart⟩ := Runs.forall₂_exists_right hparts hentry
          obtain ⟨field, hfield, heq⟩ := MeantParts.field hbody hentry
          obtain ⟨v, hv, hspell⟩ := (ih field hfield part.2).1 (heq ▸ hpart)
          refine ⟨(entry.1, v), rfl, heq ▸ hv, fun other hother => ?_⟩
          rw [← hspell]
          exact Except.ok.inj (hother.symm.trans hpart)
        have hmeant : MeantParts plain body vs := hvs.imp fun _ _ h => ⟨h.1, h.2.1⟩
        refine ⟨_, ⟨body, hbody, vs, hmeant, rfl⟩, ?_⟩
        have hsame : List.Forall₂ (fun part v => part = (v.1, v.2.spell (.compact token))) parts vs :=
          Runs.forall₂_comp (fun part entry v hpart hv => Prod.ext (hpart.1.symm.trans hv.1) (hv.2.2 part.2 hpart.2))
            hparts.flip hvs
        rw [spell_compact_object hmeant.sorted]
        refine congrArg joinFields ?_
        rw [← List.forall₂_eq_eq_eq, List.forall₂_map_right_iff]
        exact hsame
      · rintro ⟨_, ⟨body, hbody, vs, hvs, rfl⟩, rfl⟩
        have hmeant : MeantParts plain body vs := hvs
        refine ⟨body, hbody, vs.map fun v => (v.1, v.2.spell (.compact token)), ?_, spell_compact_object hmeant.sorted⟩
        rw [PartsOf, List.forall₂_map_right_iff]
        refine Runs.forall₂_imp_of_mem hvs fun entry v hentry hv => ⟨hv.1, ?_⟩
        obtain ⟨field, hfield, heq⟩ := MeantParts.field hbody hentry
        exact heq ▸ (ih field hfield _).2 ⟨v.2, heq ▸ hv.2, rfl⟩

end EdgarPlatform.Records
