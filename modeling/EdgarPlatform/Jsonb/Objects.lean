import EdgarPlatform.Jsonb.Text
import EdgarPlatform.Records.Stored

/-!
# Objects of stored values

An object is made of texts of values. Where the texts come out of the database they are joined as they stand, their keys in the order of stored objects; otherwise the object is put together and written as any other value. Where both give a text it is the same, since a stored text is written as it stands.
-/

namespace EdgarPlatform.Jsonb

open JsonText Records

def trimBlanks (s : List Char) : List Char := (skipBlanks (skipBlanks s).reverse).reverse

def rawValue (value : String) : Except String String :=
  match parse value.toList with
  | none => .error invalidJson
  | some _ => .ok (String.ofList (trimBlanks value.toList))

def appendFields : Nat → List (String × String) → String → Except String String
  | _, [], raw => .ok raw
  | i, (key, value) :: rest, raw => do
      let value ← rawValue value
      let key ← quote key
      let next := (if 0 < i then raw ++ "," else raw) ++ key ++ ":" ++ value
      if maxBytes < next.utf8ByteSize then .error "JSONB input exceeds 64 MiB" else appendFields (i + 1) rest next

def quoteField (field : String × String) : Except String (String × String) := (quote field.1).map fun key => (key, field.2)

def copyField (field : String × String) : Except String String := (rawValue field.2).map fun value => field.1 ++ ": " ++ value

def object (fields : IndexMap String String) (canonicalInputs : Bool) : Except String String :=
  if canonicalInputs then do
    let quoted ← (arranged fields.entries).mapM quoteField
    let parts ← quoted.mapM copyField
    .ok ("\x7b" ++ ", ".intercalate parts ++ "\x7d")
  else do
    let raw ← appendFields 0 fields.entries "\x7b"
    text (raw ++ "\x7d")

theorem skipBlanks_of_head {s : List Char} (h : ∀ c ∈ s.head?, isBlank c = false) : skipBlanks s = s := by
  cases s with
  | nil => rfl
  | cons c rest => exact skipBlanks_cons (h c rfl) rest

theorem trimBlanks_of_ends {s : List Char} (hfirst : ∀ c ∈ s.head?, isBlank c = false) (hlast : ∀ c ∈ s.getLast?, isBlank c = false) :
    trimBlanks s = s := by
  have hback : skipBlanks s.reverse = s.reverse := skipBlanks_of_head (by rwa [List.head?_reverse])
  rw [trimBlanks, skipBlanks_of_head hfirst, hback, List.reverse_reverse]

theorem not_blank_of_isPlain {token : List Char} (h : isPlain token = true) {c : Char} (hc : c ∈ token) : isBlank c = false := by
  have hstructural := not_structural_of_isPlain h c hc
  simp only [isStructural, Bool.or_eq_false_iff] at hstructural
  exact hstructural.1.1.1.1.1.1.1

theorem trimBlanks_enclosed {c d : Char} (hc : isBlank c = false) (hd : isBlank d = false) (inner : List Char) :
    trimBlanks (c :: (inner ++ [d])) = c :: (inner ++ [d]) := by
  refine trimBlanks_of_ends (fun e he => ?_) fun e he => ?_
  · obtain rfl := Option.some.inj he
    exact hc
  · rw [← List.cons_append, List.getLast?_concat] at he
    obtain rfl := Option.some.inj he
    exact hd

theorem trimBlanks_spaced {d : Doc} (h : d.Valid) (blanks : List Char) : trimBlanks (d.spaced blanks) = d.spaced blanks := by
  cases h with
  | plain htoken =>
      exact trimBlanks_of_ends (fun c hc => not_blank_of_isPlain htoken (List.mem_of_mem_head? hc))
        fun c hc => not_blank_of_isPlain htoken (List.mem_of_getLast? hc)
  | text _ => exact trimBlanks_enclosed rfl rfl _
  | array _ => exact trimBlanks_enclosed rfl rfl _
  | object _ _ => exact trimBlanks_enclosed rfl rfl _

/-- What a stored text is. -/
structure Stored (value : String) (d : Doc) (v : Meaning (List Char)) : Prop where
  parse : parse value.toList = some d
  means : mean plainText d = .ok v
  spells : value = v.spell layout
  reads : ∀ rest, Ends rest → Reads (value.toList ++ rest) d rest
  raw : rawValue value = .ok value

theorem stored {value : String} (h : text value = .ok value) : ∃ d v, Stored value d v := by
  obtain ⟨_, d, v, hparse, _, hv, hspell, _⟩ := text_eq_ok.1 h
  have hvalid := valid_of_parse hparse
  obtain ⟨hread, hmeans⟩ := layout_lawful.read_spell hvalid hv
  rw [← hspell, hparse] at hread
  have hdoc := Option.some.inj hread
  have hlist : value.toList = d.spaced [' '] := by rw [hspell, toList_spell, ← hdoc]
  refine ⟨d, v, hparse, hv, hspell, fun rest hends => ?_, ?_⟩
  · rw [hlist]
    exact hvalid.reads_spaced rfl rest hends
  · simp only [rawValue, hparse]
    rw [hlist, trimBlanks_spaced hvalid, ← hlist, String.ofList_toList]

theorem appendFields_eq_ok {fields : List (String × String)} (hraw : ∀ field ∈ fields, rawValue field.2 = .ok field.2) :
    ∀ {i : Nat} {raw out : String}, appendFields i fields raw = .ok out →
      (∀ field ∈ fields, '\x00' ∉ field.1.toList) ∧
        out = raw ++ (if 0 < i ∧ fields ≠ [] then "," else "") ++
          ",".intercalate (fields.map fun field => writeString field.1 ++ ":" ++ field.2) := by
  induction fields with
  | nil =>
      intro i raw out h
      obtain rfl := Except.ok.inj h
      refine ⟨fun field hfield => absurd hfield List.not_mem_nil, ?_⟩
      rw [if_neg (by simp)]
      simp
  | cons field rest ih =>
      intro i raw out h
      obtain ⟨key, value⟩ := field
      rw [appendFields, hraw _ (List.mem_cons_self ..)] at h
      obtain ⟨_, hvalue, h⟩ := Except.bind_eq_ok.1 h
      obtain rfl := Except.ok.inj hvalue
      obtain ⟨quoted, hkey, h⟩ := Except.bind_eq_ok.1 h
      obtain ⟨hzero, rfl⟩ := quote_eq_ok.1 hkey
      obtain ⟨_, h⟩ := Except.ite_error_eq_ok.1 h
      obtain ⟨hrest, rfl⟩ := ih (fun other hother => hraw other (List.mem_cons_of_mem _ hother)) h
      refine ⟨List.forall_mem_cons.2 ⟨hzero, hrest⟩, ?_⟩
      have hfirst : (if 0 < i then raw ++ "," else raw) = raw ++ (if 0 < i ∧ (key, value) :: rest ≠ [] then "," else "") := by
        simp only [ne_eq, reduceCtorEq, not_false_eq_true, and_true]
        split_ifs
        · rfl
        · exact String.append_empty.symm
      rw [hfirst]
      cases rest with
      | nil => simp [String.append_assoc]
      | cons next more =>
          rw [if_pos (⟨Nat.succ_pos i, List.cons_ne_nil _ _⟩ : 0 < i + 1 ∧ next :: more ≠ [])]
          simp only [List.map_cons, String.intercalate_cons_cons, String.append_assoc]

theorem reads_joined {parts : List (String × String)} {fields : List (List Piece × Doc)} (hne : parts ≠ [])
    (h : List.Forall₂ (fun part field => field.1 = piecesOf part.1 ∧
      ∀ rest, Ends rest → Reads (part.2.toList ++ rest) field.2 rest) parts fields) :
    ReadsFields ((",".intercalate (parts.map fun part => writeString part.1 ++ ":" ++ part.2)).toList ++ ['\x7d']) fields [] := by
  induction h with
  | nil => exact absurd rfl hne
  | @cons part field rest others hfield hrest ih =>
      obtain ⟨pieces, value⟩ := field
      obtain ⟨rfl, hvalue⟩ := hfield
      have hkey := piecesOf_valid part.1
      cases hrest with
      | nil =>
          rw [List.map_cons, List.map_nil, String.intercalate_singleton]
          simp only [String.toList_append, toList_writeString, List.append_assoc, List.cons_append]
          exact .last hkey .here .here (hvalue _ (ends_cons rfl)) .here
      | @cons next field' more others' hnext hmore =>
          rw [List.map_cons, List.map_cons, String.intercalate_cons_cons]
          simp only [String.toList_append, toList_writeString, List.append_assoc, List.cons_append]
          exact .more hkey .here .here (hvalue _ (ends_cons rfl)) .here (ih (List.cons_ne_nil _ _))

theorem parse_joined {parts : List (String × String)} {fields : List (List Piece × Doc)}
    (h : List.Forall₂ (fun part field => field.1 = piecesOf part.1 ∧
      ∀ rest, Ends rest → Reads (part.2.toList ++ rest) field.2 rest) parts fields) :
    parse (joinFields parts).toList = some (.object fields) := by
  have htext : (joinFields parts).toList =
      '\x7b' :: ((",".intercalate (parts.map fun part => writeString part.1 ++ ":" ++ part.2)).toList ++ ['\x7d']) := by
    rw [joinFields]
    simp
  rw [htext]
  refine parse_eq_some.2 ⟨[], rfl, ?_⟩
  cases h with
  | nil => exact .noFields .here .here
  | cons hfirst hrest => exact .object .here (reads_joined (List.cons_ne_nil _ _) (.cons hfirst hrest))

theorem arranged_perm {α : Type} (fields : List (String × α)) : (arranged fields).Perm fields := Sorting.sortByKey_perm _ fields

theorem arranged_congr {α : Type} {fields others : List (String × α)} (hperm : fields.Perm others)
    (hnodup : (fields.map Prod.fst).Nodup) : arranged fields = arranged others := by
  have hmap := @Sorting.sortByKey_map_eq (String × α) (Nat ×ₗ String) _ (String × α) (String × α) (fun field => keyOrder field.1)
    (fun field => keyOrder field.1) id id (fun field => keyOrder field.1) fields others (by simpa using hperm)
    (fun _ _ => rfl) (fun _ _ => rfl)
  rw [List.map_id, List.map_id, List.map_id] at hmap
  refine hmap fun a ha b hb heq => ?_
  have hkey : a.1 = b.1 := (Prod.mk.inj (toLex.injective heq)).2
  exact List.inj_on_of_nodup_map hnodup ha hb hkey

theorem object_of_stored {fields : IndexMap String String} (hraw : ∀ field ∈ fields.entries, rawValue field.2 = .ok field.2)
    (hzero : ∀ field ∈ fields.entries, '\x00' ∉ field.1.toList) :
    object fields true = .ok ("\x7b" ++
      ", ".intercalate ((arranged fields.entries).map fun field => writeString field.1 ++ ": " ++ field.2) ++ "\x7d") := by
  have hmem : ∀ field ∈ arranged fields.entries, field ∈ fields.entries := fun field => (arranged_perm fields.entries).mem_iff.1
  have hquoted : (arranged fields.entries).mapM quoteField =
      .ok ((arranged fields.entries).map fun field => (writeString field.1, field.2)) := by
    rw [Runs.mapM_eq_ok, List.forall₂_map_right_iff]
    exact List.forall₂_same.2 fun field hfield => map_eq_ok.2 ⟨_, quote_eq_ok.2 ⟨hzero field (hmem field hfield), rfl⟩, rfl⟩
  have hcopied : ((arranged fields.entries).map fun field => (writeString field.1, field.2)).mapM copyField =
      .ok ((arranged fields.entries).map fun field => writeString field.1 ++ ": " ++ field.2) := by
    rw [Runs.mapM_eq_ok, List.forall₂_map_left_iff, List.forall₂_map_right_iff]
    exact List.forall₂_same.2 fun field hfield => map_eq_ok.2 ⟨_, hraw field (hmem field hfield), rfl⟩
  rw [object, if_pos rfl, hquoted]
  exact Except.bind_eq_ok.2 ⟨_, rfl, Except.bind_eq_ok.2 ⟨_, hcopied, rfl⟩⟩

def joinedDoc (read : String → Doc) (fields : IndexMap String String) : Doc :=
  .object (fields.entries.map fun field => (piecesOf field.1, read field.2))

theorem spell_joined {fields : IndexMap String String} {doc : String → Doc} {meaning : String → Meaning (List Char)}
    (h : ∀ field ∈ fields.entries, Stored field.2 (doc field.2) (meaning field.2)) {v : Meaning (List Char)}
    (hv : mean plainText (joinedDoc doc fields) = .ok v) :
    v.spell layout =
      "\x7b" ++ ", ".intercalate ((arranged fields.entries).map fun field => writeString field.1 ++ ": " ++ field.2) ++ "\x7d" := by
  obtain ⟨body, hbody, parts, hparts, rfl⟩ := mean_object.1 hv
  have hreads : ReadsAs (fields.entries.map fun field => (piecesOf field.1, doc field.2))
      (fields.entries.map fun field => (field.1, doc field.2)) := by
    rw [ReadsAs, List.forall₂_map_left_iff, List.forall₂_map_right_iff]
    exact List.forall₂_same.2 fun field _ => ⟨readString_piecesOf field.1, rfl⟩
  obtain rfl := hbody.unique hreads
  have hsorted : (SortedMap.ofList fields.entries).entries.Perm fields.entries := by
    rw [← sortByKey_ofList, IndexMap.ofList_entries]
    exact Sorting.sortByKey_perm _ _
  have hspelled : parts.map (fun part => (part.1, part.2.spell layout)) = (SortedMap.ofList fields.entries).entries := by
    rw [MeantParts, ← SortedMap.mapValues_ofList doc, SortedMap.mapValues, List.forall₂_map_left_iff] at hparts
    rw [← List.forall₂_eq_eq_eq, List.forall₂_map_left_iff]
    refine (Runs.forall₂_imp_of_mem hparts fun field part hfield hpart => ?_).flip
    have hvalue := h field (hsorted.mem_iff.1 hfield)
    have hmeans : part.2 = meaning field.2 := Except.ok.inj (hpart.2.symm.trans hvalue.means)
    show (part.1, part.2.spell layout) = field
    rw [hmeans, ← hvalue.spells]
    exact Prod.ext hpart.1.symm rfl
  have hordered : arranged fields.entries = (arranged parts).map fun part => (part.1, part.2.spell layout) := by
    rw [← arranged_map, hspelled]
    exact arranged_congr hsorted.symm fields.nodup
  rw [spell_object, hordered, List.map_map]
  rfl

/-- Where an object of stored texts is written from its parts, the fast path writes the same, in whatever order either map holds them. -/
theorem object_of_stored_agrees {fields others : IndexMap String String} (hsame : ∀ key, others.get? key = fields.get? key)
    (hstored : ∀ key value, fields.get? key = some value → text value = .ok value) {s : String} (h : object others false = .ok s) :
    object fields true = .ok s := by
  have hperm : others.entries.Perm fields.entries := by
    refine (List.perm_ext_iff_of_nodup others.nodup.of_map fields.nodup.of_map).2 fun entry => ?_
    rw [← IndexMap.get?_eq_some_iff, ← IndexMap.get?_eq_some_iff, hsame]
  obtain ⟨doc, meaning, hread⟩ : ∃ (doc : String → Doc) (meaning : String → Meaning (List Char)),
      ∀ value, text value = .ok value → Stored value (doc value) (meaning value) := by
    have hchoose : ∀ value, ∃ d v, text value = .ok value → Stored value d v := by
      intro value
      by_cases hvalue : text value = .ok value
      · obtain ⟨d, v, hv⟩ := stored hvalue
        exact ⟨d, v, fun _ => hv⟩
      · exact ⟨.plain [], .plain [], fun hok => absurd hok hvalue⟩
    choose doc meaning hread using hchoose
    exact ⟨doc, meaning, hread⟩
  have hvalues : ∀ field ∈ others.entries, Stored field.2 (doc field.2) (meaning field.2) := by
    intro field hfield
    refine hread _ (hstored field.1 _ ?_)
    rw [← hsame]
    exact IndexMap.get?_eq_some_iff.2 hfield
  have hraw : ∀ field ∈ others.entries, rawValue field.2 = .ok field.2 := fun field hfield => (hvalues field hfield).raw
  rw [object, if_neg (by decide)] at h
  obtain ⟨raw, happend, h⟩ := Except.bind_eq_ok.1 h
  obtain ⟨hzero, rfl⟩ := appendFields_eq_ok hraw happend
  obtain ⟨_, d, v, hparse, _, hv, rfl, _⟩ := text_eq_ok.1 h
  have hjoined : "\x7b" ++ (if 0 < 0 ∧ others.entries ≠ [] then "," else "") ++
      ",".intercalate (others.entries.map fun field => writeString field.1 ++ ":" ++ field.2) ++ "\x7d" =
      joinFields others.entries := by
    rw [if_neg fun h => absurd h.1 (Nat.lt_irrefl 0), String.append_empty]
    rfl
  have hdoc : parse (joinFields others.entries).toList = some (joinedDoc doc others) := by
    refine parse_joined ?_
    rw [List.forall₂_map_right_iff]
    exact List.forall₂_same.2 fun field hfield => ⟨rfl, (hvalues field hfield).reads⟩
  rw [hjoined, hdoc] at hparse
  obtain rfl := Option.some.inj hparse
  have hmem : ∀ field, field ∈ fields.entries → field ∈ others.entries := fun field => hperm.mem_iff.2
  rw [spell_joined hvalues hv, arranged_congr hperm others.nodup]
  exact object_of_stored (fun field hfield => hraw field (hmem field hfield)) fun field hfield => hzero field (hmem field hfield)

def storedOne : IndexMap String String := IndexMap.ofList [("x", "1")]

theorem text_of_one : text "1" = .ok "1" := by
  have hspell : "1" = (Meaning.plain ['1']).spell layout := by rw [spell_plain]
  have hparse : parse "1".toList = some (.plain ['1']) := by
    have hrender : "1".toList = (Doc.plain ['1']).render := by decide
    rw [hrender]
    exact parse_render (.plain rfl)
  exact text_eq_ok.2 ⟨by decide, .plain ['1'], .plain ['1'], hparse, .plain rfl, rfl, hspell, by decide⟩

theorem object_one : object storedOne false = .ok "\x7b\"x\": 1\x7d" := by
  obtain ⟨d, v, hone⟩ := stored text_of_one
  have hquote : quote "x" = .ok "\"x\"" := quote_eq_ok.2 ⟨by decide, by decide⟩
  have happend : appendFields 0 storedOne.entries "\x7b" = .ok "\x7b\"x\":1" := by
    have hentries : storedOne.entries = [("x", "1")] := rfl
    rw [hentries, appendFields, hone.raw]
    refine Except.bind_eq_ok.2 ⟨_, rfl, Except.bind_eq_ok.2 ⟨_, hquote, ?_⟩⟩
    exact Except.ite_error_eq_ok.2 ⟨by decide, by decide⟩
  rw [object, if_neg (by decide), happend]
  exact Except.bind_eq_ok.2 ⟨_, rfl, text_one⟩

/-- An object of a stored number is written alike on both paths. -/
theorem object_of_stored_agrees_on_one : object storedOne true = .ok "\x7b\"x\": 1\x7d" := by
  refine object_of_stored_agrees (fun _ => rfl) (fun key value hget => ?_) object_one
  have hentry : (key, value) ∈ [("x", "1")] := IndexMap.get?_eq_some_iff.1 hget
  obtain ⟨_, rfl⟩ := Prod.mk.inj (List.mem_singleton.1 hentry)
  exact text_of_one

end EdgarPlatform.Jsonb
