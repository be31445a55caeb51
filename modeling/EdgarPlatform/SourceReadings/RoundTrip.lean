import EdgarPlatform.SourceReadings.Entries

/-!
# What is cut is put together again

A reading cut into pieces is read back through its index as what it was: for every table its rows in order, and the deferred records in order, each row with its columns in the order of their names. The reader asks more of the names of the tables than the writer does, so this holds exactly for the readings whose names the reader takes.
-/

namespace EdgarPlatform.SourceReadings

open PythonJson

variable {F : Type} {codec : Codec F} {outputUri : String} {sink : Receipt → List Char → Except String Unit} {store : Store}
variable {names : List Text} {maxBytes maxRows : Nat}

/-- A row as it is read back: the same columns and values, the columns in order. -/
def normalRow (row : Row F) : Value F := (Value.dict row).normal

theorem rowsValue_normal (rows : List (Row F)) : (rowsValue rows).normal = .list (rows.map normalRow) := by
  rw [rowsValue, Value.normal, normalItems_eq, List.map_map]
  rfl

theorem normalRow_isDict (row : Row F) : Value.isDict (normalRow row) = true := by
  rw [normalRow, Value.normal]
  rfl

theorem objectRows_normal (rows : List (Row F)) : objectRows (rowsValue rows).normal = some (rows.map normalRow) := by
  rw [rowsValue_normal, objectRows, if_pos]
  refine List.all_eq_true.2 fun row hrow => ?_
  obtain ⟨row, _, rfl⟩ := List.mem_map.1 hrow
  exact normalRow_isDict row

theorem rowsValue_valid {rows : List (Row F)} (h : ∀ row ∈ rows, (Value.dict row).Valid) : (rowsValue rows).Valid := by
  refine .list fun item hitem => ?_
  obtain ⟨row, hrow, rfl⟩ := List.mem_map.1 hitem
  exact h row hrow

theorem Pending.value_valid {p : Pending F} (hkeys : ∀ name ∈ p.tables.keys, Text.Valid name) (hrows : p.RowsValid) : p.value.Valid := by
  have htables : ∀ entry ∈ p.tables.entries, entry.1.Valid ∧ (rowsValue entry.2).Valid := by
    intro entry hentry
    have hget := IndexMap.get?_eq_some_iff.2 hentry
    refine ⟨hkeys _ (IndexMap.mem_keys_of_get? hget), rowsValue_valid fun row hrow => ?_⟩
    refine hrows (some entry.1) row ?_
    rw [Pending.target, hget]
    exact hrow
  refine object_valid (by simp) fun field hfield => ?_
  simp only [List.mem_cons, List.not_mem_nil, or_false] at hfield
  obtain rfl | rfl | rfl := hfield
  · exact .int 1
  · refine .dict ?_ (fun entry hentry => ?_) fun entry hentry => ?_
    · rw [List.map_map]
      exact p.tables.nodup
    · obtain ⟨table, htable, rfl⟩ := List.mem_map.1 hentry
      exact (htables table htable).1
    · obtain ⟨table, htable, rfl⟩ := List.mem_map.1 hentry
      exact (htables table htable).2
  · exact rowsValue_valid fun row hrow => hrows none row hrow

theorem Made.Sound.valid_value {m : Made F} (h : m.Sound codec names) (htexts : ∀ name ∈ names, Text.Valid name) :
    m.pending.value.Valid := Pending.value_valid (fun name hname => htexts name ((h.keys name).1 hname)) h.valid

def readTables (p : Pending F) : List (Text × List (Value F)) :=
  (Sorting.sortByKey Prod.fst p.tables.entries).map fun entry => (entry.1, entry.2.map normalRow)

theorem tables_normal (p : Pending F) :
    (Value.dict (p.tables.entries.map fun entry => (entry.1, rowsValue entry.2))).normal =
      .dict ((Sorting.sortByKey Prod.fst p.tables.entries).map fun entry => (entry.1, (rowsValue entry.2).normal)) := by
  rw [Value.normal, normalFields_eq, List.map_map]
  exact congrArg Value.dict (sortByKey_map (fun rows => (rowsValue rows).normal) p.tables.entries)

theorem keys_readTables (p : Pending F) (name : Text) : name ∈ (readTables p).map Prod.fst ↔ name ∈ p.tables.keys := by
  rw [readTables, List.map_map]
  exact ((Sorting.sortByKey_perm Prod.fst p.tables.entries).map Prod.fst).mem_iff

theorem lookupEntry_readTables (p : Pending F) (name : Text) :
    IndexMap.lookupEntry name (readTables p) = (p.tables.get? name).map fun rows => rows.map normalRow := by
  have hlookup : IndexMap.lookupEntry name (Sorting.sortByKey Prod.fst p.tables.entries) = p.tables.get? name :=
    (lookupEntry_perm (Sorting.sortByKey_perm Prod.fst p.tables.entries).symm p.tables.nodup name).symm
  rw [readTables, IndexMap.lookupEntry_map, hlookup]

theorem lookup_readTables (p : Pending F) (name : Text) :
    (IndexMap.lookupEntry name (readTables p)).getD [] = (p.target (some name)).map normalRow := by
  rw [lookupEntry_readTables, Pending.target]
  cases p.tables.get? name <;> rfl

theorem countTables_normal (tables : List (Text × List (Row F))) (rows : Nat)
    (h : rows + (tables.map fun entry => entry.2.length).sum ≤ maxRows) :
    countTables maxRows rows (tables.map fun entry => (entry.1, (rowsValue entry.2).normal)) =
      .ok (rows + (tables.map fun entry => entry.2.length).sum, tables.map fun entry => (entry.1, entry.2.map normalRow)) := by
  induction tables generalizing rows with
  | nil => rfl
  | cons table rest ih =>
      rw [List.map_cons, List.sum_cons] at h
      have hcount : countTable maxRows rows (table.1, (rowsValue table.2).normal) =
          .ok (rows + table.2.length, table.1, table.2.map normalRow) := by
        simp only [countTable, objectRows_normal, List.length_map]
        rw [if_neg (by omega)]
      rw [List.map_cons, countTables, hcount, Except.bind_ok]
      show (countTables maxRows (rows + table.2.length) _ >>= _) = _
      rw [ih (rows + table.2.length) (by omega), Except.bind_ok, List.map_cons, List.sum_cons, Nat.add_assoc]
      rfl

theorem readChunk_pending {p : Pending F} (h : ∀ name, name ∈ p.tables.keys ↔ name ∈ names) {rows : Nat} (hrows : rows + p.rows ≤ maxRows) :
    readChunk maxRows names rows p.value.normal = .ok (rows + p.rows, readTables p, p.deferred.map normalRow) := by
  have hfields : ([("version", (.int 1 : Value F)), ("tables", .dict (p.tables.entries.map fun entry => (entry.1, rowsValue entry.2))),
      ("deferred", rowsValue p.deferred)].map Prod.fst).Nodup := by simp
  have hversion : Value.field p.value.normal "version" = some (.int 1) := field_normal hfields "version"
  have htables : Value.field p.value.normal "tables" =
      some (.dict ((Sorting.sortByKey Prod.fst p.tables.entries).map fun entry => (entry.1, (rowsValue entry.2).normal))) := by
    rw [← tables_normal]
    exact field_normal hfields "tables"
  have hdeferred : Value.field p.value.normal "deferred" = some (rowsValue p.deferred).normal := field_normal hfields "deferred"
  have hkeys : Value.hasKeys p.value.normal ["version", "tables", "deferred"] = true := hasKeys_normal (by simp)
  have hsum : ((Sorting.sortByKey Prod.fst p.tables.entries).map fun entry => entry.2.length).sum +
      p.deferred.length = p.rows := by
    rw [Pending.rows, IndexMap.total]
    exact congrArg (· + p.deferred.length)
      ((Sorting.sortByKey_perm Prod.fst p.tables.entries).map fun entry => entry.2.length).sum_nat
  have hmem : ∀ name, name ∈ ((Sorting.sortByKey Prod.fst p.tables.entries).map
      fun entry => (entry.1, (rowsValue entry.2).normal)).map Prod.fst ↔ name ∈ names := by
    intro name
    rw [← h name, List.map_map]
    exact ((Sorting.sortByKey_perm Prod.fst p.tables.entries).map Prod.fst).mem_iff
  rw [readChunk, if_pos ⟨hkeys, by rw [hversion]; rfl⟩, htables, hdeferred, Option.bind_some, objectRows_normal]
  simp only
  rw [if_pos (by simp only [List.all_eq_true, decide_eq_true_eq]; exact ⟨fun name hname => (hmem name).1 hname, fun name hname => (hmem name).2 hname⟩),
    countTables_normal _ _ (by omega), Except.bind_ok]
  simp only [List.length_map]
  rw [if_neg (by omega), ← hsum, Nat.add_assoc]
  rfl

theorem readChunk_made {m : Made F} (h : m.Sound codec names) {rows : Nat} (hrows : rows + m.count ≤ maxRows) :
    readChunk maxRows names rows m.pending.value.normal =
      .ok (rows + m.count, readTables m.pending, m.pending.deferred.map normalRow) := by
  rw [← h.rows] at hrows ⊢
  exact readChunk_pending h.keys hrows

theorem readPart_made {m : Made F} (h : m.Sound codec names) (htexts : ∀ name ∈ names, Text.Valid name) {c : Consumed}
    (hexact : (receiptOf codec outputUri m.data).exact = true) (hstore : store (receiptOf codec outputUri m.data).uri = some m.data)
    (hbytes : c.size + m.data.length ≤ maxBytes) (hrows : c.rows + m.count ≤ maxRows) :
    readPart codec store maxBytes maxRows names c ⟨(receiptOf codec outputUri m.data).value.normal, m.data.length⟩ =
      .ok (⟨c.size + m.data.length, c.rows + m.count⟩, readTables m.pending, m.pending.deferred.map normalRow) := by
  rw [readPart, if_neg (Nat.not_lt.2 hbytes), verified_normal hexact hstore rfl le_rfl, Except.bind_ok, if_neg (fun h => h rfl),
    loads_dumps (h.valid_value htexts) h.text, Except.bind_ok, readChunk_made h hrows]
  rfl

theorem receiptOf_exact (data : List Char) : (receiptOf codec outputUri data).exact = true := by
  rw [Receipt.exact, Bool.and_eq_true, decide_eq_true_eq]
  refine ⟨fun h => ?_, codec.sha256_valid data⟩
  have hlength := congrArg String.length h
  simp only [receiptOf, String.length_append, String.length_empty] at hlength
  have hparts : ".parts/".length = 7 := rfl
  omega

theorem Made.Sound.data_pos {m : Made F} (h : m.Sound codec names) : 1 ≤ m.data.length := by
  rw [length_of_dumps h.text, size_eq_weight, weight_pending marks_one, frameWeight]
  omega

def namedOf (codec : Codec F) (outputUri : String) (m : Made F) : Named F :=
  ⟨(receiptOf codec outputUri m.data).value.normal, m.data.length⟩

theorem contiguous_partsFrom (ordinal : Nat) (made : List (Made F)) : Contiguous ordinal (partsFrom codec outputUri ordinal made) := by
  induction made generalizing ordinal with
  | nil => trivial
  | cons m rest ih => exact ⟨rfl, ih (ordinal + m.count)⟩

theorem fits_partsFrom {made : List (Made F)} (h : ∀ m ∈ made, m.Sound codec names) (ordinal : Nat) :
    ∀ part ∈ partsFrom codec outputUri ordinal made, part.Fits := by
  induction made generalizing ordinal with
  | nil => exact fun _ hpart => (List.not_mem_nil hpart).elim
  | cons m rest ih =>
      intro part hpart
      obtain rfl | hpart := List.mem_cons.1 hpart
      · have hm := h m (List.mem_cons_self ..)
        exact ⟨receiptOf_exact m.data, Nat.one_le_iff_ne_zero.2 hm.holds, hm.most, hm.data_pos, hm.room⟩
      · exact ih (fun other hother => h other (List.mem_cons_of_mem _ hother)) _ part hpart

theorem counts_partsFrom (ordinal : Nat) (made : List (Made F)) :
    (partsFrom codec outputUri ordinal made).map Part.recordCount = made.map Made.count := by
  induction made generalizing ordinal with
  | nil => rfl
  | cons m rest ih => rw [partsFrom, List.map_cons, ih, List.map_cons, partOf]

theorem named_partsFrom (ordinal : Nat) (made : List (Made F)) :
    (partsFrom codec outputUri ordinal made).map Part.named = made.map (namedOf codec outputUri) := by
  induction made generalizing ordinal with
  | nil => rfl
  | cons m rest ih => rw [partsFrom, List.map_cons, ih, List.map_cons, partOf, Part.named, namedOf]

section

variable {i : Input F} {c : Cutting F} {made : List (Made F)}

def entryIn (i : Input F) (c : Cutting F) : Entry where
  input := i.input
  context := i.context
  lookups := i.lookups
  recordCount := c.ordinal - 1
  expandedBytes := max 1 i.inputBytes
  names := i.names
  parts := c.parts

theorem entryOf_eq (i : Input F) (c : Cutting F) : entryOf i c = (entryIn i c).value := rfl

theorem entry_input : Value.field (entryOf i c).normal "input" = some i.input.value.normal := by
  rw [entryOf_eq, Entry.input_eq]
  rfl

theorem entry_lookups : Value.field (entryOf i c).normal "lookups" = i.lookups.map fun r => r.value.normal := by
  rw [entryOf_eq, Entry.lookups_eq]
  rfl

theorem entry_sound (hsound : i.Sound) (h : i.CutInto codec outputUri c made) (hrows : i.items.length ≤ artifactRows)
    (hbytes : i.inputBytes ≤ artifactBytes) : (entryIn i c).Sound := by
  have hordinal := h.ordinal
  refine ⟨hsound.input, hsound.context, hsound.lookups, ?_, max_le (by decide) hbytes, ?_, ?_, ?_⟩
  · show c.ordinal - 1 ≤ artifactRows
    rw [h.total]
    exact hrows
  · show ∀ part ∈ c.parts, part.Fits
    rw [h.parts]
    exact fits_partsFrom h.sound 1
  · show Contiguous 1 c.parts
    rw [h.parts]
    exact contiguous_partsFrom 1 made
  · show (c.parts.map Part.recordCount).sum = c.ordinal - 1
    rw [h.parts, counts_partsFrom]
    omega

theorem checkArtifact_entry (hsound : i.Sound) (h : i.CutInto codec outputUri c made) (hrows : i.items.length ≤ artifactRows)
    (hbytes : i.inputBytes ≤ artifactBytes) :
    checkArtifact (entryOf i c).normal =
      if areTableNames i.names then .ok (i.names, made.map (namedOf codec outputUri))
      else .error "Streamed reading declares at most 64 distinct table names" := by
  have hparts : (entryIn i c).parts.map Part.named = made.map (namedOf codec outputUri) := by
    show c.parts.map Part.named = _
    rw [h.parts, named_partsFrom]
  rw [entryOf_eq, checkArtifact_value (entry_sound hsound h hrows hbytes), hparts]
  exact if_congr Iff.rfl (if_pos (le_max_left _ _)) rfl

end

end EdgarPlatform.SourceReadings
