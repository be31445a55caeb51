import EdgarPlatform.SourceReadings.Cutting
import EdgarPlatform.SourceReadings.Loading

/-!
# The entry of an artifact in an index

Whoever writes an index names for each artifact its evidence, what was counted of it, its tables and its parts. The reader takes an entry whose parts follow one another from the first ordinal on, each within the bounds, and add up to the records counted.
-/

namespace EdgarPlatform.SourceReadings

open PythonJson

variable {F : Type}

/-- What the index says of an artifact. -/
structure Entry where
  input : Receipt
  context : Option Receipt
  lookups : Option Receipt
  recordCount : Nat
  expandedBytes : Nat
  names : List Text
  parts : List Part

def Entry.fields (e : Entry) : List (String × Value F) :=
  ("input", e.input.value) ::
      ((e.context.map fun r => ("context", r.value)).toList ++ (e.lookups.map fun r => ("lookups", r.value)).toList) ++ [
    ("record_count", .int e.recordCount),
    ("expanded_bytes", .int e.expandedBytes),
    ("table_names", .list (e.names.map .str)),
    ("partitions", .list (e.parts.map Part.value))]

def Entry.value (e : Entry) : Value F := Value.object e.fields

def Contiguous : Nat → List Part → Prop
  | _, [] => True
  | ordinal, part :: rest => part.firstOrdinal = ordinal ∧ Contiguous (ordinal + part.recordCount) rest

/-- A part as a reader takes it: an exact receipt, and counts within the bounds. -/
structure Part.Fits (part : Part) : Prop where
  exact : part.receipt.exact = true
  holds : 1 ≤ part.recordCount
  most : part.recordCount ≤ partRows
  some : 1 ≤ part.bytes
  room : part.bytes ≤ partBytes

def Part.named (part : Part) : Named F := ⟨part.receipt.value.normal, part.bytes⟩

theorem readInteger_nat {minimum maximum n : Nat} (hlow : minimum ≤ n) (hhigh : n ≤ maximum) :
    readInteger minimum maximum (some (.int (n : Int) : Value F)) = some n := by
  rw [readInteger, if_pos ⟨Int.ofNat_le.2 hlow, Int.ofNat_le.2 hhigh⟩, Int.toNat_natCast]

theorem readInteger_small {minimum maximum n : Nat} (h : n < minimum) :
    readInteger minimum maximum (some (.int (n : Int) : Value F)) = none := by
  rw [readInteger, if_neg fun hboth => Nat.not_le.2 h (Int.ofNat_le.1 hboth.1)]

theorem checkPart_value {part : Part} (h : part.Fits) {ordinal : Nat} (hfirst : part.firstOrdinal = ordinal) (hlow : 1 ≤ ordinal)
    (hhigh : ordinal ≤ artifactRows) :
    checkPart ordinal (part.value : Value F).normal = .ok (ordinal + part.recordCount, part.named) := by
  have hfield : ∀ key, Value.field (part.value : Value F).normal key =
      (IndexMap.lookupEntry key [("receipt", part.receipt.value), ("first_ordinal", (.int (part.firstOrdinal : Int) : Value F)),
        ("record_count", .int (part.recordCount : Int)), ("bytes", .int (part.bytes : Int))]).map Value.normal := field_normal (by simp)
  have hkeys : Value.hasKeys (part.value : Value F).normal ["receipt", "first_ordinal", "record_count", "bytes"] = true :=
    hasKeys_normal (by simp)
  have hordinal : readInteger 1 artifactRows (Value.field (part.value : Value F).normal "first_ordinal") = some ordinal := by
    rw [hfield, ← hfirst]
    exact readInteger_nat (hfirst ▸ hlow) (hfirst ▸ hhigh)
  have hcount : readInteger 1 partRows (Value.field (part.value : Value F).normal "record_count") = some part.recordCount := by
    rw [hfield]
    exact readInteger_nat h.holds h.most
  have hbytes : readInteger 1 partBytes (Value.field (part.value : Value F).normal "bytes") = some part.bytes := by
    rw [hfield]
    exact readInteger_nat h.some h.room
  have hreceipt : Value.field (part.value : Value F).normal "receipt" = some part.receipt.value.normal := hfield "receipt"
  rw [checkPart, if_pos ⟨hkeys, hordinal⟩, hcount, hbytes, hreceipt]
  simp only [Option.getD_some, reference_normal h.exact, Except.bind_ok]
  rfl

theorem checkParts_value {parts : List Part} (h : ∀ part ∈ parts, part.Fits) {ordinal : Nat} (hcontiguous : Contiguous ordinal parts)
    (hlow : 1 ≤ ordinal) (hhigh : ordinal + (parts.map Part.recordCount).sum ≤ artifactRows + 1) :
    checkParts ordinal (parts.map fun part => (part.value : Value F).normal) =
      .ok (ordinal + (parts.map Part.recordCount).sum, parts.map Part.named) := by
  induction parts generalizing ordinal with
  | nil => rfl
  | cons part rest ih =>
      have hpart := h part (List.mem_cons_self ..)
      have hholds := hpart.holds
      rw [List.map_cons, List.sum_cons] at hhigh
      rw [List.map_cons, checkParts, checkPart_value hpart hcontiguous.1 hlow (by omega), Except.bind_ok]
      show (checkParts (ordinal + part.recordCount) _ >>= _) = _
      rw [ih (fun other hother => h other (List.mem_cons_of_mem _ hother)) hcontiguous.2 (by omega) (by omega), Except.bind_ok,
        List.map_cons, List.sum_cons, List.map_cons, Nat.add_assoc]

theorem namesOf_map (names : List Text) : namesOf (names.map (.str : Text → Value F)) = some names := by
  induction names with
  | nil => rfl
  | cons name rest ih => rw [List.map_cons, namesOf, ih, Option.map_some]

def namesFail : String := "Streamed reading declares at most 64 distinct table names"

theorem tableNames_normal (names : List Text) :
    tableNames (some (Value.list (names.map (.str : Text → Value F))).normal) =
      if areTableNames names then .ok names else .error namesFail := by
  have hitems : normalItems (names.map (.str : Text → Value F)) = names.map .str := by
    rw [normalItems_eq, List.map_map]
    rfl
  rw [Value.normal, hitems, tableNames, namesOf_map]
  rfl

section

variable {e : Entry}

theorem Entry.nodup (e : Entry) : ((e.fields : List (String × Value F)).map Prod.fst).Nodup := by
  rw [Entry.fields]
  cases e.context <;> cases e.lookups <;> simp

theorem Entry.field (key : String) :
    Value.field (e.value : Value F).normal key = (IndexMap.lookupEntry key e.fields).map Value.normal :=
  field_normal e.nodup key

theorem Entry.input_eq : Value.field (e.value : Value F).normal "input" = some e.input.value.normal := Entry.field "input"

theorem Entry.context_eq : Value.field (e.value : Value F).normal "context" = e.context.map fun r => r.value.normal := by
  rw [Entry.field, Entry.fields]
  cases e.context <;> cases e.lookups <;> simp [IndexMap.lookupEntry]

theorem Entry.lookups_eq : Value.field (e.value : Value F).normal "lookups" = e.lookups.map fun r => r.value.normal := by
  rw [Entry.field, Entry.fields]
  cases e.context <;> cases e.lookups <;> simp [IndexMap.lookupEntry]

theorem Entry.names_eq : Value.field (e.value : Value F).normal "table_names" = some (Value.list (e.names.map (.str : Text → Value F))).normal := by
  rw [Entry.field, Entry.fields]
  cases e.context <;> cases e.lookups <;> simp [IndexMap.lookupEntry, Value.normal]

theorem Entry.count_eq : Value.field (e.value : Value F).normal "record_count" = some (.int (e.recordCount : Int)) := by
  rw [Entry.field, Entry.fields]
  cases e.context <;> cases e.lookups <;> simp [IndexMap.lookupEntry, Value.normal]

theorem Entry.expanded_eq : Value.field (e.value : Value F).normal "expanded_bytes" = some (.int (e.expandedBytes : Int)) := by
  rw [Entry.field, Entry.fields]
  cases e.context <;> cases e.lookups <;> simp [IndexMap.lookupEntry, Value.normal]

theorem Entry.partitions_eq : Value.field (e.value : Value F).normal "partitions" =
    some (.list (e.parts.map fun part => (part.value : Value F).normal)) := by
  have hitems : (Value.list (e.parts.map Part.value) : Value F).normal = .list (e.parts.map fun part => (part.value : Value F).normal) := by
    rw [Value.normal, normalItems_eq, List.map_map]
    rfl
  rw [← hitems, Entry.field, Entry.fields]
  cases e.context <;> cases e.lookups <;> simp [IndexMap.lookupEntry]

theorem Entry.keys_eq : Value.isDict (e.value : Value F).normal = true ∧
    (artifactKeys.all fun key => Text.ofString key ∈ Value.keys (e.value : Value F).normal) = true ∧
    ((Value.keys (e.value : Value F).normal).all fun key => key ∈ (artifactKeys ++ ["context", "lookups"]).map Text.ofString) = true := by
  have hdict : Value.isDict (e.value : Value F).normal = true := by
    rw [Entry.value, Value.object, Value.normal]
    rfl
  refine ⟨hdict, List.all_eq_true.2 fun key hkey => decide_eq_true ?_, List.all_eq_true.2 fun key hkey => decide_eq_true ?_⟩
  · rw [Entry.value, mem_keys_object, Entry.fields]
    simp only [artifactKeys, List.mem_cons, List.not_mem_nil, or_false] at hkey
    obtain rfl | rfl | rfl | rfl | rfl := hkey <;> simp
  · rw [Entry.value, Value.object, mem_keys_normal, object_keys] at hkey
    obtain ⟨text, htext, rfl⟩ := List.mem_map.1 hkey
    refine List.mem_map_of_mem ?_
    obtain ⟨field, hfield, rfl⟩ := List.mem_map.1 htext
    rw [Entry.fields] at hfield
    simp only [List.cons_append, List.mem_cons, List.mem_append, Option.mem_toList, Option.map_eq_some_iff, List.not_mem_nil, or_false] at hfield
    obtain rfl | (⟨_, _, rfl⟩ | ⟨_, _, rfl⟩) | rfl | rfl | rfl | rfl := hfield <;> simp [artifactKeys]

theorem Entry.value_valid (htexts : ∀ name ∈ e.names, Text.Valid name) : (e.value : Value F).Valid := by
  refine object_valid e.nodup fun field hfield => ?_
  rw [Entry.fields] at hfield
  simp only [List.cons_append, List.mem_cons, List.mem_append, Option.mem_toList, Option.map_eq_some_iff, List.not_mem_nil, or_false] at hfield
  obtain rfl | (⟨_, _, rfl⟩ | ⟨_, _, rfl⟩) | rfl | rfl | rfl | rfl := hfield
  · exact receipt_valid _
  · exact receipt_valid _
  · exact receipt_valid _
  · exact .int _
  · exact .int _
  · refine .list fun item hitem => ?_
    obtain ⟨name, hname, rfl⟩ := List.mem_map.1 hitem
    exact .str (htexts name hname)
  · refine .list fun item hitem => ?_
    obtain ⟨part, _, rfl⟩ := List.mem_map.1 hitem
    refine object_valid (by simp) fun field hfield => ?_
    simp only [List.mem_cons, List.not_mem_nil, or_false] at hfield
    obtain rfl | rfl | rfl | rfl := hfield
    · exact receipt_valid _
    · exact .int _
    · exact .int _
    · exact .int _

theorem optionalReference_normal {v : Value F} {key : String} {found : Option Receipt}
    (hfield : Value.field v key = found.map fun r => r.value.normal) (hexact : ∀ r ∈ found, r.exact = true) :
    optionalReference v key = .ok () := by
  rw [optionalReference, hfield]
  cases found with
  | none => rfl
  | some r =>
      show (reference (r.value : Value F).normal).map _ = _
      rw [reference_normal (hexact r rfl)]
      rfl

/-- An entry a reader could take, but for its table names and the bytes it was expanded to. -/
structure Entry.Sound (e : Entry) : Prop where
  input : e.input.exact = true
  context : ∀ r ∈ e.context, r.exact = true
  lookups : ∀ r ∈ e.lookups, r.exact = true
  rows : e.recordCount ≤ artifactRows
  expanded : e.expandedBytes ≤ artifactBytes
  fits : ∀ part ∈ e.parts, part.Fits
  contiguous : Contiguous 1 e.parts
  total : (e.parts.map Part.recordCount).sum = e.recordCount

def accountingFail : String := "Partitioned artifact has invalid source accounting"

theorem checkArtifact_value (h : e.Sound) : checkArtifact (e.value : Value F).normal =
    if areTableNames e.names then
      if 1 ≤ e.expandedBytes then .ok (e.names, e.parts.map Part.named) else .error accountingFail
    else .error namesFail := by
  rw [checkArtifact, if_pos Entry.keys_eq, Entry.input_eq, Option.getD_some, reference_normal h.input, Except.bind_ok,
    optionalReference_normal Entry.context_eq h.context, Except.bind_ok, optionalReference_normal Entry.lookups_eq h.lookups,
    Except.bind_ok, Entry.names_eq, tableNames_normal]
  split_ifs with hnames hexpanded
  · have htotal := h.total
    have hrows := h.rows
    rw [Except.bind_ok, Entry.count_eq, Entry.expanded_eq, Entry.partitions_eq, readInteger_nat (Nat.zero_le _) hrows,
      readInteger_nat hexpanded h.expanded, listOf]
    simp only [checkParts_value h.fits h.contiguous le_rfl (show 1 + (e.parts.map Part.recordCount).sum ≤ _ by omega), Except.bind_ok]
    rw [if_neg (by omega)]
  · rw [Except.bind_ok, Entry.count_eq, Entry.expanded_eq, readInteger_nat (Nat.zero_le _) h.rows,
      readInteger_small (Nat.lt_of_not_le hexpanded)]
    rfl
  · rfl

end

end EdgarPlatform.SourceReadings
