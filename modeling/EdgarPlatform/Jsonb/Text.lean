import EdgarPlatform.Jsonb.Numeric
import EdgarPlatform.Records.Meanings

/-!
# The text of a stored value

A value is written with a blank after each comma and colon, an object's keys once each in the order of their lengths and then of their bytes. Every value is looked at before any is written, those written over among them. The writer takes parts from a list of what is left to write, so that no depth is too great for it.
-/

namespace EdgarPlatform.Jsonb

open JsonText Records Decimals

def maxBytes : Nat := 64 * 1024 * 1024

def invalidJson : String := "Invalid JSON"

def quote (text : String) : Except String String :=
  if '\x00' ∈ text.toList then .error "PostgreSQL JSONB refuses U+0000" else .ok (writeString text)

def plainText (token : List Char) : Except String (List Char) := if isName token then .ok token else numeric token

/-- The values a value holds, the last first, its keys and its own text looked at. -/
def held : Doc → Except String (List Doc)
  | .plain token => (plainText token).map fun _ => []
  | .text pieces => do
      let value ← readPlainText invalidJson pieces
      let _ ← quote value
      .ok []
  | .array items => .ok items.reverse
  | .object fields => do
      let pairs ← readKeys invalidJson fields
      let _ ← pairs.mapM fun pair => quote pair.1
      .ok (pairs.map Prod.snd).reverse

/-- What is left to write: a value, or a text that goes out as it stands. -/
inductive Part
  | value (value : Doc)
  | text (text : String)

def keyOrder (key : String) : Nat ×ₗ String := toLex (key.utf8ByteSize, key)

def sortedFields (fields : List (List Piece × Doc)) : Except String (List (String × Doc)) :=
  (readKeys invalidJson fields).map fun pairs => Sorting.sortByKey (fun pair => keyOrder pair.1) (SortedMap.ofList pairs).entries

def fieldParts (field : String × Doc) : Except String (List Part) :=
  (quote field.1).map fun key => [.text (key ++ ": "), .value field.2]

def openPart : Part → Except String (List Part × String)
  | .text text => .ok ([], text)
  | .value (.plain token) => (plainText token).map fun t => ([], String.ofList t)
  | .value (.text pieces) => do
      let value ← readPlainText invalidJson pieces
      let text ← quote value
      .ok ([], text)
  | .value (.array items) => .ok ([Part.text ", "].intercalate (items.map fun item => [.value item]) ++ [.text "]"], "[")
  | .value (.object fields) => do
      let fields ← sortedFields fields
      let parts ← fields.mapM fieldParts
      .ok ([Part.text ", "].intercalate parts ++ [.text "\x7d"], "\x7b")

mutual
def weight : Doc → Nat
  | .plain _ => 1
  | .text _ => 1
  | .array items => 2 + weightItems items
  | .object fields => 2 + weightFields fields

def weightItems : List Doc → Nat
  | [] => 0
  | item :: rest => weight item + 1 + weightItems rest

def weightFields : List (List Piece × Doc) → Nat
  | [] => 0
  | (_, value) :: rest => weight value + 2 + weightFields rest
end

def Part.weight : Part → Nat
  | .value d => Jsonb.weight d
  | .text _ => 1

def weights (parts : List Part) : Nat := (parts.map Part.weight).sum

theorem weightItems_eq (items : List Doc) : weightItems items = (items.map fun item => weight item + 1).sum := by
  induction items with
  | nil => rfl
  | cons item rest ih => rw [weightItems, ih, List.map_cons, List.sum_cons]

theorem weightFields_eq (fields : List (List Piece × Doc)) :
    weightFields fields = ((fields.map Prod.snd).map fun value => weight value + 2).sum := by
  induction fields with
  | nil => rfl
  | cons field rest ih => rw [weightFields, ih, List.map_cons, List.map_cons, List.sum_cons]

theorem ReadsAs.values {α : Type} {fields : List (List Piece × α)} {body : List (String × α)} (h : ReadsAs fields body) :
    fields.map Prod.snd = body.map Prod.snd := by
  rw [← List.forall₂_eq_eq_eq, List.forall₂_map_left_iff, List.forall₂_map_right_iff]
  exact h.imp fun field entry hread => hread.2

theorem sum_le_of_forall {α : Type} (f g : α → Nat) (h : ∀ a, f a ≤ g a) (items : List α) : (items.map f).sum ≤ (items.map g).sum :=
  List.sum_le_sum fun a _ => h a

variable {d : Doc}

theorem weight_held {values : List Doc} (h : held d = .ok values) : (values.map weight).sum < weight d := by
  cases d with
  | plain token =>
      obtain ⟨_, _, rfl⟩ := map_eq_ok.1 h
      exact Nat.one_pos
  | text pieces =>
      obtain ⟨_, _, h⟩ := Except.bind_eq_ok.1 h
      obtain ⟨_, _, h⟩ := Except.bind_eq_ok.1 h
      obtain rfl := Except.ok.inj h
      exact Nat.one_pos
  | array items =>
      obtain rfl := Except.ok.inj h
      have hle := sum_le_of_forall weight (fun item => weight item + 1) (fun _ => Nat.le_succ _) items
      rw [List.map_reverse, List.sum_reverse, weight, weightItems_eq]
      omega
  | object fields =>
      obtain ⟨pairs, hpairs, h⟩ := Except.bind_eq_ok.1 h
      obtain ⟨_, _, h⟩ := Except.bind_eq_ok.1 h
      obtain rfl := Except.ok.inj h
      have hle := sum_le_of_forall weight (fun value => weight value + 2) (fun _ => Nat.le_add_right _ 2) (pairs.map Prod.snd)
      rw [List.map_reverse, List.sum_reverse, weight, weightFields_eq, ReadsAs.values (readKeys_eq_ok.1 hpairs)]
      omega

theorem sum_insertEntry_le {α : Type} (f : String × α → Nat) (key : String) (value : α) (entries : List (String × α)) :
    ((SortedMap.insertEntry key value entries).map f).sum ≤ f (key, value) + (entries.map f).sum := by
  induction entries with
  | nil => exact le_refl _
  | cons entry rest ih =>
      obtain ⟨other, old⟩ := entry
      rw [SortedMap.insertEntry]
      split_ifs
      · exact le_refl _
      · simp only [List.map_cons, List.sum_cons]
        omega
      · simp only [List.map_cons, List.sum_cons]
        omega

theorem sum_ofList_le {α : Type} (f : String × α → Nat) (entries : List (String × α)) :
    ((SortedMap.ofList entries).entries.map f).sum ≤ (entries.map f).sum := by
  have hextend : ∀ m : SortedMap String α, ((m.extend entries).entries.map f).sum ≤ (m.entries.map f).sum + (entries.map f).sum := by
    induction entries with
    | nil => exact fun m => le_refl _
    | cons entry rest ih =>
        intro m
        have hinsert : _ ≤ f entry + _ := sum_insertEntry_le f entry.1 entry.2 m.entries
        have hrest := ih (m.insert entry.1 entry.2)
        have hentries : (m.insert entry.1 entry.2).entries = SortedMap.insertEntry entry.1 entry.2 m.entries := rfl
        rw [hentries] at hrest
        rw [SortedMap.extend_cons, List.map_cons, List.sum_cons]
        omega
  have hempty := hextend .empty
  rw [show ((SortedMap.empty : SortedMap String α).entries.map f).sum = 0 from rfl, Nat.zero_add] at hempty
  exact hempty

theorem weights_append (front back : List Part) : weights (front ++ back) = weights front + weights back := by
  rw [weights, List.map_append, List.sum_append]
  rfl

theorem weights_intercalate (text : String) (groups : List (List Part)) :
    weights ([Part.text text].intercalate groups) ≤ (groups.map fun group => weights group + 1).sum := by
  induction groups with
  | nil => exact le_refl _
  | cons group rest ih =>
      cases rest with
      | nil =>
          rw [List.intercalate_singleton, List.map_cons, List.sum_cons]
          omega
      | cons next more =>
          have htext : weights [Part.text text] = 1 := rfl
          rw [List.intercalate_cons_cons, weights_append, weights_append, htext, List.map_cons, List.sum_cons]
          omega

theorem weight_fieldParts {fields : List (String × Doc)} {parts : List (List Part)} (h : fields.mapM fieldParts = .ok parts) :
    (parts.map fun group => weights group + 1).sum = (fields.map fun field => weight field.2 + 2).sum := by
  have hparts := Runs.mapM_eq_ok.1 h
  induction hparts with
  | nil => rfl
  | @cons field group rest others hfield hrest ih =>
      obtain ⟨key, _, rfl⟩ := map_eq_ok.1 hfield
      rw [List.map_cons, List.map_cons, List.sum_cons, List.sum_cons, ih (Runs.mapM_eq_ok.2 hrest)]
      have hgroup : weights [.text (key ++ ": "), .value field.2] = 1 + (weight field.2 + 0) := rfl
      omega

theorem weight_openPart {part : Part} {pushed : List Part} {text : String} (h : openPart part = .ok (pushed, text)) :
    weights pushed < part.weight := by
  have hclose : ∀ s, weights [Part.text s] = 1 := fun s => rfl
  match part, h with
  | .text s, h =>
      obtain ⟨rfl, _⟩ := Prod.mk.inj (Except.ok.inj h)
      exact Nat.one_pos
  | .value (.plain token), h =>
      obtain ⟨_, _, h⟩ := map_eq_ok.1 h
      obtain ⟨rfl, _⟩ := Prod.mk.inj h
      exact Nat.one_pos
  | .value (.text pieces), h =>
      obtain ⟨_, _, h⟩ := Except.bind_eq_ok.1 h
      obtain ⟨_, _, h⟩ := Except.bind_eq_ok.1 h
      obtain ⟨rfl, _⟩ := Prod.mk.inj (Except.ok.inj h)
      exact Nat.one_pos
  | .value (.array items), h =>
      obtain ⟨rfl, _⟩ := Prod.mk.inj (Except.ok.inj h)
      have hle := weights_intercalate ", " (items.map fun item => [.value item])
      have hitems : ((items.map fun item => [Part.value item]).map fun group => weights group + 1).sum = weightItems items := by
        rw [weightItems_eq, List.map_map]
        rfl
      rw [weights_append, hclose, Part.weight, weight]
      omega
  | .value (.object fields), h =>
      obtain ⟨sorted, hsorted, h⟩ := Except.bind_eq_ok.1 h
      obtain ⟨parts, hparts, h⟩ := Except.bind_eq_ok.1 h
      obtain ⟨rfl, _⟩ := Prod.mk.inj (Except.ok.inj h)
      obtain ⟨pairs, hpairs, rfl⟩ := map_eq_ok.1 hsorted
      have hle := weights_intercalate ", " parts
      have hkept := sum_ofList_le (fun pair => weight pair.2 + 2) pairs
      have hperm := ((Sorting.sortByKey_perm (fun pair => keyOrder pair.1) (SortedMap.ofList pairs).entries).map
        fun pair => weight pair.2 + 2).sum_eq
      have hfields : (pairs.map fun pair => weight pair.2 + 2).sum = weightFields fields := by
        rw [weightFields_eq, ReadsAs.values (readKeys_eq_ok.1 hpairs), List.map_map]
        rfl
      rw [weight_fieldParts hparts] at hle
      rw [weights_append, hclose, Part.weight, weight]
      omega

/-- Every value is looked at, also those that are written over. -/
def validate : List Doc → Except String Unit
  | [] => .ok ()
  | d :: rest =>
      match _h : held d with
      | .error e => .error e
      | .ok values => validate (values ++ rest)
termination_by pending => (pending.map weight).sum
decreasing_by
  have hlt := weight_held _h
  rw [List.map_append, List.sum_append, List.map_cons, List.sum_cons]
  omega

def writeParts : List Part → String → Except String String
  | [], out => .ok out
  | part :: rest, out =>
      match _h : openPart part with
      | .error e => .error e
      | .ok (pushed, text) =>
          if maxBytes < (out ++ text).utf8ByteSize then .error "JSONB output exceeds 64 MiB"
          else writeParts (pushed ++ rest) (out ++ text)
termination_by pending => weights pending
decreasing_by
  have hlt := weight_openPart _h
  have hcons : weights (part :: rest) = part.weight + weights rest := by rw [weights, List.map_cons, List.sum_cons]; rfl
  rw [weights_append, hcons]
  omega

def text (raw : String) : Except String String :=
  if maxBytes < raw.utf8ByteSize then .error "JSONB input exceeds 64 MiB"
  else
    match parse raw.toList with
    | none => .error invalidJson
    | some root => do
        validate [root]
        writeParts [.value root] ""

/-- Every text a value holds can be quoted, and every number written. -/
inductive Accepted : Doc → Prop
  | plain {token t : List Char} (h : plainText token = .ok t) : Accepted (.plain token)
  | text {pieces : List Piece} {value : String} (hread : readString? pieces = some value) (hzero : '\x00' ∉ value.toList) :
      Accepted (.text pieces)
  | array {items : List Doc} (h : ∀ item ∈ items, Accepted item) : Accepted (.array items)
  | object {fields : List (List Piece × Doc)} {body : List (String × Doc)} (hbody : ReadsAs fields body)
      (hzero : ∀ entry ∈ body, '\x00' ∉ entry.1.toList) (h : ∀ entry ∈ body, Accepted entry.2) : Accepted (.object fields)

theorem quote_eq_ok {text s : String} : quote text = .ok s ↔ '\x00' ∉ text.toList ∧ writeString text = s := by
  rw [quote, Except.ite_error_eq_ok]
  exact and_congr_right fun _ => ⟨Except.ok.inj, congrArg Except.ok⟩

theorem quote_each {pairs : List (String × Doc)} {keys : List String} :
    (pairs.mapM fun pair => quote pair.1) = .ok keys ↔
      (∀ pair ∈ pairs, '\x00' ∉ pair.1.toList) ∧ keys = pairs.map fun pair => writeString pair.1 := by
  rw [Runs.mapM_eq_ok]
  constructor
  · intro h
    refine ⟨fun pair hpair => ?_, ?_⟩
    · obtain ⟨s, _, hs⟩ := Runs.forall₂_exists_right h hpair
      exact (quote_eq_ok.1 hs).1
    · rw [← List.forall₂_eq_eq_eq, List.forall₂_map_right_iff]
      exact h.flip.imp fun s pair hs => (quote_eq_ok.1 hs).2.symm
  · rintro ⟨h, rfl⟩
    rw [List.forall₂_map_right_iff]
    exact List.forall₂_same.2 fun pair hpair => quote_eq_ok.2 ⟨h pair hpair, rfl⟩

theorem accepted_iff : Accepted d ↔ ∃ values, held d = .ok values ∧ ∀ value ∈ values, Accepted value := by
  cases d with
  | plain token =>
      constructor
      · intro h
        cases h with
        | plain htoken => exact ⟨[], map_eq_ok.2 ⟨_, htoken, rfl⟩, fun _ hmem => absurd hmem List.not_mem_nil⟩
      · rintro ⟨values, hheld, _⟩
        obtain ⟨t, ht, _⟩ := map_eq_ok.1 hheld
        exact .plain ht
  | text pieces =>
      constructor
      · intro h
        cases h with
        | text hread hzero =>
            refine ⟨[], Except.bind_eq_ok.2 ⟨_, readPlainText_eq_ok.2 hread, ?_⟩, fun _ hmem => absurd hmem List.not_mem_nil⟩
            exact Except.bind_eq_ok.2 ⟨_, quote_eq_ok.2 ⟨hzero, rfl⟩, rfl⟩
      · rintro ⟨values, hheld, _⟩
        obtain ⟨value, hvalue, hheld⟩ := Except.bind_eq_ok.1 hheld
        obtain ⟨s, hs, _⟩ := Except.bind_eq_ok.1 hheld
        exact .text (readPlainText_eq_ok.1 hvalue) (quote_eq_ok.1 hs).1
  | array items =>
      constructor
      · intro h
        cases h with
        | array hitems => exact ⟨items.reverse, rfl, fun item hitem => hitems item (List.mem_reverse.1 hitem)⟩
      · rintro ⟨values, hheld, hvalues⟩
        obtain rfl := Except.ok.inj hheld
        exact .array fun item hitem => hvalues item (List.mem_reverse.2 hitem)
  | object fields =>
      constructor
      · intro h
        cases h with
        | object hbody hzero hvalues =>
            refine ⟨_, Except.bind_eq_ok.2 ⟨_, readKeys_eq_ok.2 hbody, Except.bind_eq_ok.2 ⟨_, quote_each.2 ⟨hzero, rfl⟩, rfl⟩⟩, ?_⟩
            intro value hvalue
            obtain ⟨entry, hentry, rfl⟩ := List.mem_map.1 (List.mem_reverse.1 hvalue)
            exact hvalues entry hentry
      · rintro ⟨values, hheld, hvalues⟩
        obtain ⟨pairs, hpairs, hheld⟩ := Except.bind_eq_ok.1 hheld
        obtain ⟨_, hkeys, hheld⟩ := Except.bind_eq_ok.1 hheld
        obtain rfl := Except.ok.inj hheld
        refine .object (readKeys_eq_ok.1 hpairs) (quote_each.1 hkeys).1 fun entry hentry => ?_
        exact hvalues entry.2 (List.mem_reverse.2 (List.mem_map_of_mem hentry))

theorem validate_eq_ok {pending : List Doc} : validate pending = .ok () ↔ ∀ d ∈ pending, Accepted d := by
  induction pending using validate.induct with
  | case1 => exact iff_of_true (by rw [validate]) fun _ h => absurd h List.not_mem_nil
  | case2 d rest e herror =>
      have hnot : ¬ Accepted d := fun h => by
        obtain ⟨values, hvalues, _⟩ := accepted_iff.1 h
        rw [herror] at hvalues
        cases hvalues
      rw [validate]
      split
      · exact iff_of_false (fun h => nomatch h) fun h => hnot (h d (List.mem_cons_self ..))
      · rename_i hok
        rw [herror] at hok
        cases hok
  | case3 d rest values hheld ih =>
      have hd : Accepted d ↔ ∀ value ∈ values, Accepted value := by
        rw [accepted_iff, hheld]
        refine ⟨?_, fun h => ⟨values, rfl, h⟩⟩
        rintro ⟨others, hothers, h⟩
        rwa [Except.ok.inj hothers]
      rw [validate]
      split
      · rename_i herror
        rw [hheld] at herror
        cases herror
      · rename_i others hothers
        obtain rfl := Except.ok.inj (hheld.symm.trans hothers)
        rw [ih, List.forall_mem_append, List.forall_mem_cons, hd]

def layout : Layout (List Char) (Nat ×ₗ String) where
  token := id
  order := keyOrder
  blanks := [' ']

def Settled (token : List Char) : Prop := isPlain token = true ∧ plainText token = .ok token

theorem layout_lawful : layout.Lawful plainText Settled where
  blanks := rfl
  token := fun _ h => h
  regular := by
    intro token t htoken ht
    rw [plainText] at ht
    split_ifs at ht with hname
    · obtain rfl := Except.ok.inj ht
      exact ⟨htoken, if_pos hname⟩
    · have hnumber : isNumber token = true := by
        rw [isPlain, Bool.or_eq_true] at htoken
        exact htoken.resolve_left hname
      obtain ⟨hwritten, _, _, _, _, _, hsettled⟩ := numeric_keeps_the_value hnumber ht
      refine ⟨by rw [isPlain, hwritten, Bool.or_true], ?_⟩
      rw [plainText]
      split_ifs
      · rfl
      · exact hsettled

theorem toList_spacedItems {parts : List String} {items : List Doc}
    (h : List.Forall₂ (fun part item => Doc.spaced [' '] item = part.toList) parts items) :
    (", ".intercalate parts).toList = spacedItems [' '] items := by
  induction h with
  | nil => rfl
  | @cons part item _ _ hhead htail ih =>
      cases htail with
      | nil => rw [String.intercalate_singleton, spacedItems, hhead]
      | cons hnext hmore =>
          rw [String.intercalate_cons_cons, spacedItems, hhead, ← ih]
          simp

theorem toList_spacedFields {parts : List String} {fields : List (List Piece × Doc)}
    (h : List.Forall₂ (fun part field => ∃ key, field.1 = piecesOf key ∧
      part.toList = (writeString key ++ ": ").toList ++ Doc.spaced [' '] field.2) parts fields) :
    (", ".intercalate parts).toList = spacedFields [' '] fields := by
  induction h with
  | nil => rfl
  | @cons part field _ _ hhead htail ih =>
      obtain ⟨pieces, value⟩ := field
      obtain ⟨key, rfl, hpart⟩ := hhead
      cases htail with
      | nil =>
          rw [String.intercalate_singleton, spacedFields, hpart]
          simp [toList_writeString]
      | cons hnext hmore =>
          rw [String.intercalate_cons_cons, spacedFields, ← ih, String.toList_append, String.toList_append, hpart]
          simp [toList_writeString]

theorem toList_spell (v : Meaning (List Char)) : (v.spell layout).toList = (v.toDoc layout).spaced [' '] := by
  rw [Meaning.spell, String.toList_ofList]
  rfl

theorem spell_plain (token : List Char) : (Meaning.plain token).spell layout = String.ofList token := rfl

theorem spell_text (value : String) : (Meaning.text value).spell layout = writeString value := by
  rw [← String.toList_inj, toList_spell, toList_writeString]
  rfl

theorem spell_array (items : List (Meaning (List Char))) :
    (Meaning.array items).spell layout = "[" ++ ", ".intercalate (items.map (Meaning.spell layout)) ++ "]" := by
  have hitems : (", ".intercalate (items.map (Meaning.spell layout))).toList = spacedItems [' '] (docItems layout items) := by
    refine toList_spacedItems ?_
    rw [docItems_eq, List.forall₂_map_left_iff, List.forall₂_map_right_iff]
    exact List.forall₂_same.2 fun item _ => (toList_spell item).symm
  rw [← String.toList_inj, toList_spell, Meaning.toDoc, Doc.spaced, ← hitems]
  simp

def arranged {α : Type} (fields : List (String × α)) : List (String × α) := Sorting.sortByKey (fun field => keyOrder field.1) fields

theorem arranged_map {α β : Type} (f : α → β) (fields : List (String × α)) :
    arranged (fields.map fun field => (field.1, f field.2)) = (arranged fields).map fun field => (field.1, f field.2) :=
  (List.map_insertionSort (fun a b : String × α => keyOrder a.1 ≤ keyOrder b.1) (fun a b : String × β => keyOrder a.1 ≤ keyOrder b.1)
    (fun field => (field.1, f field.2)) fields fun _ _ _ _ => Iff.rfl).symm

def spellField (field : String × Meaning (List Char)) : String := writeString field.1 ++ ": " ++ field.2.spell layout

theorem arrange_docs (fields : List (String × Meaning (List Char))) : layout.arrange (docFields layout fields) =
    (arranged fields).map fun field => (piecesOf field.1, field.2.toDoc layout) := by
  have hdocs : Sorting.sortByKey (fun field => layout.order field.1) (docFields layout fields) =
      (arranged fields).map fun field => (field.1, field.2.toDoc layout) := by
    rw [docFields_eq]
    exact arranged_map (Meaning.toDoc layout) fields
  rw [Layout.arrange, hdocs, List.map_map]
  rfl

theorem spell_object (fields : List (String × Meaning (List Char))) :
    (Meaning.object fields).spell layout = "\x7b" ++ ", ".intercalate ((arranged fields).map spellField) ++ "\x7d" := by
  have hfields : (", ".intercalate ((arranged fields).map spellField)).toList =
      spacedFields [' '] (layout.arrange (docFields layout fields)) := by
    refine toList_spacedFields ?_
    rw [arrange_docs, List.forall₂_map_left_iff, List.forall₂_map_right_iff]
    refine List.forall₂_same.2 fun field _ => ⟨field.1, rfl, ?_⟩
    rw [spellField, String.toList_append, toList_spell]
  rw [← String.toList_inj, toList_spell, Meaning.toDoc, Doc.spaced, ← hfields]
  simp

/-- Parts the loop writes as one text, within the bound, whatever is left after them. -/
def Writes (parts : List Part) (s : String) : Prop :=
  ∀ (rest : List Part) (out : String), out.utf8ByteSize ≤ maxBytes → writeParts (parts ++ rest) out =
    if maxBytes < (out ++ s).utf8ByteSize then .error "JSONB output exceeds 64 MiB" else writeParts rest (out ++ s)

theorem writes_nil : Writes [] "" := by
  intro rest out hout
  rw [List.nil_append, String.append_empty, if_neg (Nat.not_lt.2 hout)]

theorem long_append {a b : String} {x : Except String String} :
    (if maxBytes < a.utf8ByteSize then .error "JSONB output exceeds 64 MiB"
      else if maxBytes < (a ++ b).utf8ByteSize then .error "JSONB output exceeds 64 MiB" else x) =
      if maxBytes < (a ++ b).utf8ByteSize then .error "JSONB output exceeds 64 MiB" else x := by
  have hgrows : (a ++ b).utf8ByteSize = a.utf8ByteSize + b.utf8ByteSize := String.utf8ByteSize_append
  split_ifs with hlong hboth
  · rfl
  · omega
  · rfl
  · rfl

theorem writes_append {front back : List Part} {s t : String} (hfront : Writes front s) (hback : Writes back t) :
    Writes (front ++ back) (s ++ t) := by
  intro rest out hout
  rw [List.append_assoc, hfront (back ++ rest) out hout, ← String.append_assoc]
  refine Eq.trans (ite_congr rfl (fun _ => rfl) fun hfits => ?_) long_append
  exact hback rest (out ++ s) (Nat.not_lt.1 hfits)

theorem writes_open {part : Part} {pushed : List Part} {s t : String} (h : openPart part = .ok (pushed, s))
    (hpushed : Writes pushed t) : Writes [part] (s ++ t) := by
  intro rest out hout
  have hstep : writeParts (part :: rest) out =
      if maxBytes < (out ++ s).utf8ByteSize then .error "JSONB output exceeds 64 MiB" else writeParts (pushed ++ rest) (out ++ s) := by
    rw [writeParts]
    split
    · rename_i herror
      rw [h] at herror
      cases herror
    · rename_i others text hok
      obtain ⟨rfl, rfl⟩ := Prod.mk.inj (Except.ok.inj (h.symm.trans hok))
      rfl
  rw [List.singleton_append, hstep, ← String.append_assoc]
  refine Eq.trans (ite_congr rfl (fun _ => rfl) fun hfits => ?_) long_append
  exact hpushed rest (out ++ s) (Nat.not_lt.1 hfits)

theorem writes_out {part : Part} {s : String} (h : openPart part = .ok ([], s)) : Writes [part] s := by
  have hwrites := writes_open h writes_nil
  rwa [String.append_empty] at hwrites

theorem writes_text (s : String) : Writes [.text s] s := writes_out rfl

theorem writes_intercalate {groups : List (List Part)} {texts : List String} (h : List.Forall₂ Writes groups texts) (s : String) :
    Writes ([.text s].intercalate groups) (s.intercalate texts) := by
  induction h with
  | nil => exact writes_nil
  | @cons group t rest others hgroup hrest ih =>
      cases hrest with
      | nil =>
          rw [List.intercalate_singleton, String.intercalate_singleton]
          exact hgroup
      | cons hnext hmore =>
          rw [List.intercalate_cons_cons, String.intercalate_cons_cons]
          exact writes_append (writes_append hgroup (writes_text s)) ih

theorem forall₂_arranged {α β : Type} {rel : String × α → String × β → Prop} (hkey : ∀ a b, rel a b → a.1 = b.1)
    {fields : List (String × α)} {others : List (String × β)} (h : List.Forall₂ rel fields others) :
    List.Forall₂ rel (arranged fields) (arranged others) := by
  have hinsert : ∀ {a : String × α} {b : String × β} {items : List (String × α)} {others : List (String × β)},
      rel a b → List.Forall₂ rel items others → List.Forall₂ rel
        (items.orderedInsert (fun a b => keyOrder a.1 ≤ keyOrder b.1) a)
        (others.orderedInsert (fun a b => keyOrder a.1 ≤ keyOrder b.1) b) := by
    intro a b items others hab hitems
    induction hitems with
    | nil => exact .cons hab .nil
    | @cons c d rest more hcd hrest ih =>
        rw [List.orderedInsert_cons, List.orderedInsert_cons, ← hkey a b hab, ← hkey c d hcd]
        split_ifs
        · exact .cons hab (.cons hcd hrest)
        · exact .cons hcd ih
  induction h with
  | nil => exact .nil
  | cons hab hrest ih => exact hinsert hab ih

/-- A field that is written as one that means a part. -/
structure WritesField (entry : String × Doc) (part : String × Meaning (List Char)) : Prop where
  key : entry.1 = part.1
  zero : '\x00' ∉ entry.1.toList
  writes : Writes [.value entry.2] (part.2.spell layout)

theorem writes_fields {fields : List (String × Doc)} {parts : List (String × Meaning (List Char))}
    (h : List.Forall₂ WritesField fields parts) :
    ∃ groups, fields.mapM fieldParts = .ok groups ∧ List.Forall₂ Writes groups (parts.map spellField) := by
  refine ⟨fields.map fun entry => [.text (writeString entry.1 ++ ": "), .value entry.2], ?_, ?_⟩
  · rw [Runs.mapM_eq_ok, List.forall₂_map_right_iff]
    refine List.forall₂_same.2 fun entry hentry => ?_
    obtain ⟨part, _, hpart⟩ := Runs.forall₂_exists_right h hentry
    exact map_eq_ok.2 ⟨_, quote_eq_ok.2 ⟨hpart.zero, rfl⟩, rfl⟩
  · rw [List.forall₂_map_left_iff, List.forall₂_map_right_iff]
    refine h.imp fun entry part hpart => ?_
    rw [spellField, ← hpart.key]
    exact writes_append (writes_text (writeString entry.1 ++ ": ")) hpart.writes

theorem writes_value : ∀ {v : Meaning (List Char)}, Accepted d → mean plainText d = .ok v →
    Writes [.value d] (v.spell layout) := by
  induction d using Doc.induct with
  | plain token =>
      intro v _ hv
      obtain ⟨t, ht, rfl⟩ := mean_plain.1 hv
      exact writes_out (map_eq_ok.2 ⟨t, ht, rfl⟩)
  | text pieces =>
      intro v haccepted hv
      obtain ⟨value, hvalue, rfl⟩ := mean_text.1 hv
      cases haccepted with
      | text hread hzero =>
          obtain rfl := Option.some.inj (hread.symm.trans hvalue)
          rw [spell_text]
          refine writes_out (Except.bind_eq_ok.2 ⟨_, readPlainText_eq_ok.2 hvalue, ?_⟩)
          exact Except.bind_eq_ok.2 ⟨_, quote_eq_ok.2 ⟨hzero, rfl⟩, rfl⟩
  | array items ih =>
      intro v haccepted hv
      obtain ⟨parts, hparts, rfl⟩ := mean_array.1 hv
      cases haccepted with
      | array hitems =>
          have hgroups : List.Forall₂ Writes (items.map fun item => [Part.value item]) (parts.map (Meaning.spell layout)) := by
            rw [List.forall₂_map_left_iff, List.forall₂_map_right_iff]
            exact Runs.forall₂_imp_of_mem hparts fun item part hitem hpart => ih item hitem (hitems item hitem) hpart
          have hpushed := writes_append (writes_intercalate hgroups ", ") (writes_text "]")
          have hopen : openPart (.value (.array items)) =
              .ok ([Part.text ", "].intercalate (items.map fun item => [Part.value item]) ++ [.text "]"], "[") := rfl
          have hwrites := writes_open hopen hpushed
          rw [← String.append_assoc] at hwrites
          rw [spell_array]
          exact hwrites
  | object fields ih =>
      intro v haccepted hv
      obtain ⟨body, hbody, parts, hparts, rfl⟩ := mean_object.1 hv
      cases haccepted with
      | @object _ body' hbody' hzero hvalues =>
          obtain rfl := hbody.unique hbody'
          have hentries : List.Forall₂ WritesField (SortedMap.ofList body).entries parts := by
            refine Runs.forall₂_imp_of_mem hparts fun entry part hentry hpart => ?_
            have hmem := mem_of_mem_sorted hentry
            obtain ⟨field, hfield, heq⟩ := hbody.mem hmem
            exact ⟨hpart.1, hzero entry hmem, heq ▸ ih field hfield (heq ▸ hvalues entry hmem) (heq ▸ hpart.2)⟩
          obtain ⟨groups, hmapM, hforall⟩ := writes_fields (forall₂_arranged (fun _ _ h => h.key) hentries)
          have hpushed := writes_append (writes_intercalate hforall ", ") (writes_text "\x7d")
          have hsorted : sortedFields fields = .ok (arranged (SortedMap.ofList body).entries) :=
            map_eq_ok.2 ⟨body, readKeys_eq_ok.2 hbody, rfl⟩
          have hopen : openPart (.value (.object fields)) = .ok ([Part.text ", "].intercalate groups ++ [.text "\x7d"], "\x7b") :=
            Except.bind_eq_ok.2 ⟨_, hsorted, Except.bind_eq_ok.2 ⟨groups, hmapM, rfl⟩⟩
          have hwrites := writes_open hopen hpushed
          rw [← String.append_assoc] at hwrites
          rw [spell_object]
          exact hwrites

theorem Accepted.means (h : Accepted d) : ∃ v, mean plainText d = .ok v := by
  induction h with
  | plain htoken => exact ⟨_, mean_plain.2 ⟨_, htoken, rfl⟩⟩
  | text hread _ => exact ⟨_, mean_text.2 ⟨_, hread, rfl⟩⟩
  | array _ ih =>
      obtain ⟨parts, hparts⟩ := forall₂_exists ih
      exact ⟨_, mean_array.2 ⟨parts, hparts, rfl⟩⟩
  | @object fields body hbody _ _ ih =>
      have hparts : ∀ entry ∈ (SortedMap.ofList body).entries, ∃ part : String × Meaning (List Char),
          entry.1 = part.1 ∧ mean plainText entry.2 = .ok part.2 := by
        intro entry hentry
        obtain ⟨v, hv⟩ := ih entry (mem_of_mem_sorted hentry)
        exact ⟨(entry.1, v), rfl, hv⟩
      obtain ⟨parts, hmeant⟩ := forall₂_exists hparts
      exact ⟨_, mean_object.2 ⟨body, hbody, parts, hmeant, rfl⟩⟩

theorem text_eq_ok {raw s : String} : text raw = .ok s ↔ raw.utf8ByteSize ≤ maxBytes ∧
    ∃ d v, parse raw.toList = some d ∧ Accepted d ∧ mean plainText d = .ok v ∧ s = v.spell layout ∧ s.utf8ByteSize ≤ maxBytes := by
  have hwritten : ∀ {d : Doc} {v : Meaning (List Char)}, Accepted d → mean plainText d = .ok v →
      (writeParts [.value d] "" = .ok s ↔ s = v.spell layout ∧ s.utf8ByteSize ≤ maxBytes) := by
    intro d v haccepted hv
    have hwrites := writes_value haccepted hv [] "" (Nat.zero_le _)
    rw [List.append_nil, String.empty_append] at hwrites
    rw [hwrites, Except.ite_error_eq_ok, writeParts]
    constructor
    · rintro ⟨hfits, hs⟩
      obtain rfl := Except.ok.inj hs
      exact ⟨rfl, Nat.not_lt.1 hfits⟩
    · rintro ⟨rfl, hfits⟩
      exact ⟨Nat.not_lt.2 hfits, rfl⟩
  rw [text, Except.ite_error_eq_ok, Nat.not_lt]
  refine and_congr_right fun _ => ?_
  cases hparse : parse raw.toList with
  | none => exact iff_of_false (fun h => nomatch h) fun ⟨_, _, h, _⟩ => nomatch h
  | some root =>
      have hroot : validate [root] = .ok () ↔ Accepted root := by
        rw [validate_eq_ok]
        exact ⟨fun h => h root (List.mem_singleton.2 rfl), fun h d hd => List.mem_singleton.1 hd ▸ h⟩
      constructor
      · intro h
        obtain ⟨_, hvalidate, h⟩ := Except.bind_eq_ok.1 h
        have haccepted := hroot.1 hvalidate
        obtain ⟨v, hv⟩ := haccepted.means
        exact ⟨root, v, rfl, haccepted, hv, (hwritten haccepted hv).1 h⟩
      · rintro ⟨d, v, hd, haccepted, hv, h⟩
        obtain rfl := Option.some.inj hd
        exact Except.bind_eq_ok.2 ⟨(), hroot.2 haccepted, (hwritten haccepted hv).2 h⟩

theorem Accepted.toDoc (h : Accepted d) : ∀ {v : Meaning (List Char)}, d.Valid → mean plainText d = .ok v →
    Accepted (v.toDoc layout) := by
  induction h with
  | plain htoken =>
      intro v hvalid hv
      obtain ⟨t, ht, rfl⟩ := mean_plain.1 hv
      cases hvalid with
      | plain hplain => exact .plain (layout_lawful.regular _ t hplain ht).2
  | text hread hzero =>
      intro v _ hv
      obtain ⟨value, hvalue, rfl⟩ := mean_text.1 hv
      obtain rfl := Option.some.inj (hread.symm.trans hvalue)
      exact .text (readString_piecesOf _) hzero
  | array _ ih =>
      intro v hvalid hv
      obtain ⟨parts, hparts, rfl⟩ := mean_array.1 hv
      cases hvalid with
      | array hitems =>
          rw [Meaning.toDoc, docItems_eq]
          refine .array fun item hitem => ?_
          obtain ⟨part, hpart, rfl⟩ := List.mem_map.1 hitem
          obtain ⟨source, hsource, hmeans⟩ := Runs.forall₂_exists_left (Runs.forall₂_imp_of_mem hparts
            fun item part hitem hpart => (⟨hitem, hpart⟩ : item ∈ _ ∧ mean plainText item = .ok part)) hpart
          exact ih source hsource (hitems source hsource) hmeans.2
  | @object fields body hbody hzero _ ih =>
      intro v hvalid hv
      obtain ⟨body', hbody', parts, hparts, rfl⟩ := mean_object.1 hv
      obtain rfl := hbody.unique hbody'
      cases hvalid with
      | object _ hvalues =>
          have hdoc : (Meaning.object parts).toDoc layout =
              .object ((arranged parts).map fun part => (piecesOf part.1, part.2.toDoc layout)) := by
            rw [Meaning.toDoc, arrange_docs]
          rw [hdoc]
          have hpaired : ∀ part ∈ arranged parts, ∃ entry ∈ body, entry.1 = part.1 ∧ mean plainText entry.2 = .ok part.2 := by
            intro part hpart
            obtain ⟨entry, hentry, hmeans⟩ := Runs.forall₂_exists_left (Runs.forall₂_imp_of_mem hparts
              fun entry part hentry hpart => (⟨mem_of_mem_sorted hentry, hpart⟩ : entry ∈ body ∧ entry.1 = part.1 ∧
                mean plainText entry.2 = .ok part.2)) (Sorting.mem_sortByKey.1 hpart)
            exact ⟨entry, hmeans.1, hmeans.2⟩
          have hreads : ReadsAs ((arranged parts).map fun part => (piecesOf part.1, part.2.toDoc layout))
              ((arranged parts).map fun part => (part.1, part.2.toDoc layout)) := by
            rw [ReadsAs, List.forall₂_map_left_iff, List.forall₂_map_right_iff]
            exact List.forall₂_same.2 fun part _ => ⟨readString_piecesOf part.1, rfl⟩
          refine .object hreads (fun field hfield => ?_) fun field hfield => ?_
          · obtain ⟨part, hpart, rfl⟩ := List.mem_map.1 hfield
            obtain ⟨entry, hentry, hkey, _⟩ := hpaired part hpart
            rw [← hkey]
            exact hzero entry hentry
          · obtain ⟨part, hpart, rfl⟩ := List.mem_map.1 hfield
            obtain ⟨entry, hentry, _, hmeans⟩ := hpaired part hpart
            obtain ⟨source, hsource, heq⟩ := hbody.mem hentry
            exact ih entry hentry (heq ▸ hvalues source hsource) hmeans

theorem text_idempotent {raw s : String} (h : text raw = .ok s) : text s = .ok s := by
  obtain ⟨_, d, v, hparse, haccepted, hv, rfl, hfits⟩ := text_eq_ok.1 h
  have hvalid := valid_of_parse hparse
  obtain ⟨hread, hmeans⟩ := layout_lawful.read_spell hvalid hv
  exact text_eq_ok.2 ⟨hfits, v.toDoc layout, v, hread, haccepted.toDoc hvalid hv, hmeans, rfl, hfits⟩

/-- The texts differ in their blanks, the spelling of their strings, the order of their keys and the values they write over. -/
def SaysSame (raw other : String) : Prop :=
  ∃ d e, ∃ said : Meaning (List Char),
    parse raw.toList = some d ∧ parse other.toList = some e ∧ mean .ok d = .ok said ∧ mean .ok e = .ok said

theorem map_id (v : Meaning (List Char)) : v.map id = v := by
  induction v using Meaning.induct with
  | plain token => rfl
  | text value => rfl
  | array items ih =>
      rw [Meaning.map, mapItems_eq]
      exact congrArg Meaning.array ((List.map_congr_left ih).trans (List.map_id items))
  | object fields ih =>
      rw [Meaning.map, mapFields_eq]
      have hfields : ∀ field ∈ fields, (field.1, field.2.map id) = field := fun field hfield => Prod.ext rfl (ih field hfield)
      exact congrArg Meaning.object ((List.map_congr_left hfields).trans (List.map_id fields))

def writtenToken (token : List Char) : List Char := (plainText token).toOption.getD []

theorem mean_of_said {said v : Meaning (List Char)} (hvalid : d.Valid) (hsaid : mean .ok d = .ok said)
    (hv : mean plainText d = .ok v) : v = said.map writtenToken := by
  have hkept : mean (fun token => .ok (writtenToken token)) d = .ok (v.map id) :=
    mean_map (fun token t _ ht => by rw [writtenToken, ht]; rfl) hvalid hv
  have hwritten : mean (fun token => .ok (writtenToken token)) d = .ok (said.map writtenToken) :=
    mean_map (fun token t _ ht => by rw [Except.ok.inj ht]) hvalid hsaid
  rw [map_id, hwritten] at hkept
  exact (Except.ok.inj hkept).symm

theorem text_of_says_same {raw other s t : String} (hsame : SaysSame raw other) (h : text raw = .ok s) (h' : text other = .ok t) :
    s = t := by
  obtain ⟨d, e, said, hd, he, hsaid, hsaid'⟩ := hsame
  obtain ⟨_, d', v, hparse, _, hv, rfl, _⟩ := text_eq_ok.1 h
  obtain ⟨_, e', w, hparse', _, hw, rfl, _⟩ := text_eq_ok.1 h'
  obtain rfl := Option.some.inj (hd.symm.trans hparse)
  obtain rfl := Option.some.inj (he.symm.trans hparse')
  rw [mean_of_said (valid_of_parse hd) hsaid hv, mean_of_said (valid_of_parse he) hsaid' hw]

/-- Numbers in range are written as their rational, in one way; what was written is written as it stands, and texts that say the same are written alike. -/
theorem stored_text_keeps_what_was_said :
    (∀ token, isNumber token = true → InRange token → ∃ t, numeric token = .ok t ∧ isNumber t = true ∧
      rational t = rational token ∧ ((split t).fraction.length : Int) = max ((split token).fraction.length - (split token).power) 0 ∧
      (split t).exponent = none ∧ isWhole (split t).whole = true ∧ ((split t).negative = true → rational t ≠ 0) ∧
      numeric t = .ok t) ∧
    (∀ raw s, text raw = .ok s → text s = .ok s) ∧
    ∀ raw other s t, SaysSame raw other → text raw = .ok s → text other = .ok t → s = t := by
  refine ⟨fun token hnumber hrange => ?_, fun raw s => text_idempotent, fun raw other s t => text_of_says_same⟩
  have hok := (numeric_eq_ok hnumber).2 ⟨hrange, rfl⟩
  exact ⟨_, hok, numeric_keeps_the_value hnumber hok⟩

def one : Doc := .object [([.plain 'x'], .plain ['1'])]

def overwritten : Doc := .object [([.plain 'x'], .text [.code '0' '0' '0' '0']), ([.plain 'x'], .plain ['1'])]

theorem one_valid : one.Valid := by
  refine .object (fun field hfield => ?_) fun field hfield => ?_
  · rw [List.mem_singleton.1 hfield]
    rfl
  · rw [List.mem_singleton.1 hfield]
    exact .plain rfl

theorem overwritten_valid : overwritten.Valid := by
  refine .object (fun field hfield => ?_) fun field hfield => ?_
  · rcases List.mem_cons.1 hfield with rfl | hfield
    · rfl
    · rw [List.mem_singleton.1 hfield]
      rfl
  · rcases List.mem_cons.1 hfield with rfl | hfield
    · exact .text rfl
    · rw [List.mem_singleton.1 hfield]
      exact .plain rfl

theorem parse_one : parse "\x7b\"x\":1\x7d".toList = some one := by
  have hrender : "\x7b\"x\":1\x7d".toList = one.render := by decide
  rw [hrender]
  exact parse_render one_valid

theorem parse_overwritten : parse "\x7b\"x\":\"\\u0000\",\"x\":1\x7d".toList = some overwritten := by
  have hrender : "\x7b\"x\":\"\\u0000\",\"x\":1\x7d".toList = overwritten.render := by decide
  rw [hrender]
  exact parse_render overwritten_valid

theorem text_one : text "\x7b\"x\":1\x7d" = .ok "\x7b\"x\": 1\x7d" := by
  have hspell : "\x7b\"x\": 1\x7d" = (Meaning.object [("x", .plain ['1'])]).spell layout := by
    rw [spell_object, ← String.toList_inj]
    simp [arranged, Sorting.sortByKey, spellField, spell_plain, toList_writeString, piecesOf, pieceOf, spellPieces, Piece.spell]
  refine text_eq_ok.2 ⟨by decide, one, .object [("x", .plain ['1'])], parse_one, ?_, rfl, hspell, by decide⟩
  have hreads : ReadsAs [([Piece.plain 'x'], Doc.plain ['1'])] [("x", Doc.plain ['1'])] := .cons ⟨rfl, rfl⟩ .nil
  refine .object hreads (fun entry hentry => ?_) fun entry hentry => ?_
  · rw [List.mem_singleton.1 hentry]
    decide
  · rw [List.mem_singleton.1 hentry]
    exact .plain rfl

/-- A number of a hundredth is written with as many digits, and a text that was written as it stands. -/
theorem stored_text_keeps_what_was_said_of_one : (∃ t, numeric "1.20e1".toList = .ok t ∧ numeric t = .ok t) ∧
    text "\x7b\"x\": 1\x7d" = .ok "\x7b\"x\": 1\x7d" := by
  obtain ⟨hnumbers, htexts, _⟩ := stored_text_keeps_what_was_said
  obtain ⟨t, ht, _, _, _, _, _, _, hsettled⟩ := hnumbers "1.20e1".toList rfl ⟨by decide, by decide, by decide⟩
  exact ⟨⟨t, ht, hsettled⟩, htexts _ _ text_one⟩

/-- A value written over is refused all the same, and so is a number in the range of exponents with too many digits after the point. -/
theorem overwritten_values_are_refused : (SaysSame "\x7b\"x\":\"\\u0000\",\"x\":1\x7d" "\x7b\"x\":1\x7d" ∧
      text "\x7b\"x\":1\x7d" = .ok "\x7b\"x\": 1\x7d" ∧ ¬ ∃ s, text "\x7b\"x\":\"\\u0000\",\"x\":1\x7d" = .ok s) ∧
    isNumber "1e-16384".toList = true ∧ (split "1e-16384".toList).power = -16384 ∧
      ¬ ∃ t, numeric "1e-16384".toList = .ok t := by
  have hscale : ¬ ∃ t, numeric "1e-16384".toList = .ok t := by
    rintro ⟨t, ht⟩
    have hrange := ((numeric_eq_ok rfl).1 ht).1.scale
    have hvalue : scaleOf "1e-16384".toList = 16384 := by decide
    omega
  refine ⟨⟨⟨overwritten, one, _, parse_overwritten, parse_one, rfl, rfl⟩, text_one, ?_⟩, rfl, by decide, hscale⟩
  rintro ⟨s, h⟩
  obtain ⟨_, d, _, hparse, haccepted, _⟩ := text_eq_ok.1 h
  obtain rfl := Option.some.inj (parse_overwritten.symm.trans hparse)
  cases haccepted with
  | @object _ body hbody _ hvalues =>
      have hreads : ReadsAs [([Piece.plain 'x'], Doc.text [.code '0' '0' '0' '0']), ([.plain 'x'], .plain ['1'])]
          [("x", .text [.code '0' '0' '0' '0']), ("x", .plain ['1'])] := .cons ⟨rfl, rfl⟩ (.cons ⟨rfl, rfl⟩ .nil)
      obtain rfl := hbody.unique hreads
      cases hvalues _ (List.mem_cons_self ..) with
      | @text _ value hread hzero =>
          have hvalue : readString? [.code '0' '0' '0' '0'] = some (String.ofList ['\x00']) := rfl
          obtain rfl := Option.some.inj (hvalue.symm.trans hread)
          exact hzero (by decide)

end EdgarPlatform.Jsonb
