import EdgarPlatform.SourceStreams.Reader

/-!
# What is streamed is read

The bytes counted for a piece are always those of its text. The parts of every source hold its readings in order and each once, and the reader takes the entries written for them exactly where every source was expanded to some bytes: it refuses an artifact of none, which an empty file of delimited text is.
-/

namespace EdgarPlatform.SourceStreams

open PythonJson SourceReadings

variable {F : Type} {codec : Codec F} {spec : Spec} {outputUri : String} {store : Store} {maxBytes maxRows : Nat}

variable {readings : List (Reading F)}

theorem known_of_declared (hfront : ∀ r ∈ readings, Declared spec.names r) {r : Reading F}
    (h : Declared spec.names r) : Known (pieceOf spec.names readings) r := by
  rw [Known, keys_pieceOf spec.nodup hfront]
  exact h

theorem target_pieceOf (names : List Text) (readings : List (Reading F)) (name : Option Text) :
    (pieceOf names readings).target name = readings.flatMap fun r => r.target name := by
  induction readings using List.reverseRecOn with
  | nil => exact target_fresh name
  | append_singleton front r ih => rw [pieceOf_append, target_extend, ih, List.flatMap_append, List.flatMap_singleton]

theorem rows_pieceOf (h : ∀ r ∈ readings, Declared spec.names r) :
    (pieceOf spec.names readings).rows = (readings.map Reading.rows).sum := by
  induction readings using List.reverseRecOn with
  | nil => exact rows_fresh
  | append_singleton front r ih =>
      have hfront : ∀ other ∈ front, Declared spec.names other := fun other hother => h other (List.mem_append_left _ hother)
      rw [pieceOf_append, rows_extend (known_of_declared hfront (h r (List.mem_append_right _ (List.mem_singleton_self r)))), ih hfront,
        List.map_append, List.sum_append, List.map_singleton, List.sum_singleton]

theorem pieceOf_valid (hdeclared : ∀ r ∈ readings, Declared spec.names r) (h : ∀ r ∈ readings, r.Valid)
    (htexts : ∀ name ∈ spec.names, Text.Valid name) : (pieceOf spec.names readings).value.Valid := by
  refine Pending.value_valid (fun name hname => ?_) fun name row hrow => ?_
  · rw [keys_pieceOf spec.nodup hdeclared] at hname
    exact htexts name hname
  · rw [target_pieceOf] at hrow
    obtain ⟨r, hr, hrow⟩ := List.mem_flatMap.1 hrow
    exact h r hr name row hrow

theorem name_valid {name : Text} (h : name ∈ spec.names) : Text.Valid name := by
  have hnames := spec.names_ok
  simp only [areTableNames, Bool.and_eq_true, decide_eq_true_eq, List.all_eq_true] at hnames
  have hname := hnames.1.2 name h
  have hchar : ∀ n, isNameChar n = true → n < 128 := by
    intro n hn
    simp only [isNameChar, isFirstOfName, Bool.or_eq_true, Bool.and_eq_true, decide_eq_true_eq] at hn
    omega
  have hsmall : ∀ n ∈ name, n < 128 := by
    cases name with
    | nil => cases hname
    | cons first rest =>
        simp only [isName, Bool.and_eq_true, List.all_eq_true] at hname
        intro n hn
        obtain rfl | hn := List.mem_cons.1 hn
        · exact hchar n (by rw [isNameChar, hname.1.1, Bool.true_or])
        · exact hchar n (hname.2 n hn)
  refine ⟨fun n hn => Nat.lt_trans (hsmall n hn) (by decide), List.Pairwise.isChain (List.Pairwise.imp_of_mem ?_ (List.pairwise_of_forall fun _ _ => trivial))⟩
  intro a b ha _ _ hboth
  have hlow := hsmall a ha
  have hleading := hboth.1
  simp only [isLeading, Bool.and_eq_true, decide_eq_true_eq] at hleading
  omega

theorem receiptOf_exact (data : List UInt8) : (receiptOf codec outputUri data).exact = true := by
  rw [Receipt.exact, Bool.and_eq_true, decide_eq_true_eq]
  refine ⟨fun h => ?_, codec.sha256_valid data⟩
  have hlength := congrArg String.length h
  simp only [receiptOf, String.length_append, String.length_empty] at hlength
  have hparts : ".parts/".length = 7 := rfl
  omega

theorem verified_normal {r : Receipt} {data : List UInt8} {bound : Nat} (h : r.exact = true) (hstore : store r.uri = some data)
    (hsha : r.sha256 = codec.sha256 data) (hbytes : data.length ≤ bound) :
    verified codec store (r.value : Value F).normal bound = .ok data := by
  rw [verified, reference_normal h, Except.bind_ok]
  rw [hstore]
  show (if _ then _ else if _ then _ else _) = _
  rw [if_neg (Nat.not_lt.2 hbytes), if_neg (by rw [hsha]; exact fun h => h rfl)]

theorem gives_pieceOf (hdeclared : ∀ r ∈ readings, Declared spec.names r) (at' : Nat) (d : Streamed F) :
    Gives spec.names (at', d, readings)
      ⟨at', d.entry.value.normal, readTables (pieceOf spec.names readings), (pieceOf spec.names readings).deferred.map normalRow⟩ := by
  refine ⟨rfl, rfl, fun name => ?_, ?_⟩
  · have hrows := target_pieceOf spec.names readings (some name)
    show IndexMap.lookupEntry name (readTables (pieceOf spec.names readings)) = _
    rw [lookupEntry_readTables, ← hrows, Pending.target]
    cases hget : (pieceOf spec.names readings).tables.get? name with
    | none =>
        rw [IndexMap.get?_eq_none_iff, keys_pieceOf spec.nodup hdeclared] at hget
        exact (if_neg hget).symm
    | some rows =>
        have hname := IndexMap.mem_keys_of_get? hget
        rw [keys_pieceOf spec.nodup hdeclared] at hname
        exact (if_pos hname).symm
  · show (pieceOf spec.names readings).deferred.map normalRow = _
    exact congrArg (List.map normalRow) (target_pieceOf spec.names readings none)

variable {c : Consumed}

theorem readPart_stored {part : Part} (h : Stored codec spec outputUri store readings part)
    (hvalid : ∀ r ∈ readings, r.Valid) (hbytes : c.size + part.bytes ≤ maxBytes)
    (hrows : c.rows + (readings.map Reading.rows).sum ≤ maxRows) :
    readPart codec store maxBytes maxRows spec.names c part.named =
      .ok (⟨c.size + part.bytes, c.rows + (readings.map Reading.rows).sum⟩, readTables (pieceOf spec.names readings),
        (pieceOf spec.names readings).deferred.map normalRow) := by
  obtain ⟨data, hdata, hreceipt, hlength, _, hstore⟩ := h.data
  have hkeys : ∀ name, name ∈ (pieceOf spec.names readings).tables.keys ↔ name ∈ spec.names := by
    intro name
    rw [keys_pieceOf spec.nodup h.declared]
  have hexact : part.receipt.exact = true := by rw [hreceipt]; exact receiptOf_exact data
  rw [← rows_pieceOf h.declared] at hrows ⊢
  rw [readPart, Part.named, if_neg (Nat.not_lt.2 hbytes), verified_normal hexact hstore (by rw [hreceipt]; rfl) (le_of_eq hlength.symm),
    Except.bind_ok, if_neg (not_not.2 hlength.symm),
    jsonValue_encode (pieceOf_valid h.declared hvalid fun name hname => name_valid hname) hdata, Except.bind_ok,
    readChunk_pending hkeys hrows, hlength]
  rfl

theorem readParts_stored {groups : List (List (Reading F))} {parts : List Part}
    (h : List.Forall₂ (Stored codec spec outputUri store) groups parts) (hvalid : ∀ readings ∈ groups, ∀ r ∈ readings, r.Valid) (at' : Nat)
    (d : Streamed F) (hbytes : c.size + (parts.map Part.bytes).sum ≤ maxBytes)
    (hrows : c.rows + (groups.flatten.map Reading.rows).sum ≤ maxRows) :
    ∃ chunks, readParts codec store maxBytes maxRows spec.names at' d.entry.value.normal c (parts.map Part.named) =
      .ok (⟨c.size + (parts.map Part.bytes).sum, c.rows + (groups.flatten.map Reading.rows).sum⟩, chunks) ∧
        List.Forall₂ (Gives spec.names) (groups.map fun readings => (at', d, readings)) chunks := by
  induction h generalizing c with
  | nil => exact ⟨[], rfl, .nil⟩
  | @cons readings part groups parts hpart _ ih =>
      rw [List.map_cons, List.sum_cons] at hbytes
      rw [List.flatten_cons, List.map_append, List.sum_append] at hrows
      obtain ⟨chunks, hchunks, hgives⟩ := ih (fun other hother => hvalid other (List.mem_cons_of_mem _ hother))
        (c := ⟨c.size + part.bytes, c.rows + (readings.map Reading.rows).sum⟩) (by show _ + _ + _ ≤ _; omega) (by show _ + _ + _ ≤ _; omega)
      refine ⟨_ :: chunks, ?_, .cons (gives_pieceOf hpart.declared at' d) hgives⟩
      rw [List.map_cons, readParts, readPart_stored hpart (hvalid readings (List.mem_cons_self ..)) (by omega) (by omega), Except.bind_ok]
      show (readParts codec store maxBytes maxRows spec.names at' d.entry.value.normal
        ⟨c.size + part.bytes, c.rows + (readings.map Reading.rows).sum⟩ _ >>= _) = _
      rw [hchunks, Except.bind_ok, List.map_cons, List.sum_cons, List.flatten_cons, List.map_append, List.sum_append, ← Nat.add_assoc,
        ← Nat.add_assoc]

theorem fits_of_stored {part : Part} (h : Stored codec spec outputUri store readings part) : part.Fits := by
  obtain ⟨data, hdata, hreceipt, hlength, hroom, _⟩ := h.data
  have hpos : 0 < readings.length := List.length_pos_iff.2 h.filled
  have hmost := h.most.trans spec.records_le
  refine ⟨by rw [hreceipt]; exact receiptOf_exact data, ?_, ?_, ?_, ?_⟩
  · rw [h.count]
    exact hpos
  · rw [h.count]
    exact hmost
  · rw [hlength, length_of_encode hdata, Value.byteSize, weight_pending marks_utf8, frameWeight]
    omega
  · rw [hlength]
    exact hroom.trans spec.bytes_le

theorem counts_stored {groups : List (List (Reading F))} {parts : List Part} (h : List.Forall₂ (Stored codec spec outputUri store) groups parts) :
    (parts.map Part.recordCount).sum = groups.flatten.length := by
  induction h with
  | nil => rfl
  | cons hstored _ ih => rw [List.map_cons, List.sum_cons, hstored.count, ih, List.flatten_cons, List.length_append]

variable {d : Streamed F}

theorem Streamed.Sound.entry_sound (h : d.Sound codec spec outputUri store) : d.entry.Sound := by
  obtain ⟨expanded, parts, hexpanded, hentry⟩ := h.expanded
  have hparts := h.parts
  have hcontiguous := h.contiguous
  have hrecords := h.source.records.trans spec.maxRecords_le
  have hbytes := (h.source.bytes expanded hexpanded).trans (spec.maxBytes_le.trans (show 2 ^ 40 ≤ artifactBytes by decide))
  rw [hentry] at hparts hcontiguous ⊢
  refine ⟨h.source.input, h.source.context, h.source.lookups, hrecords, hbytes, fun part hpart => ?_, hcontiguous, ?_⟩
  · obtain ⟨readings, _, hstored⟩ := Runs.forall₂_exists_left hparts hpart
    exact fits_of_stored hstored
  · rw [counts_stored hparts, h.readings]
    rfl

theorem Streamed.Sound.names_eq (h : d.Sound codec spec outputUri store) : d.entry.names = spec.names := by
  obtain ⟨_, _, _, hentry⟩ := h.expanded
  rw [hentry]
  rfl

theorem Streamed.Sound.checked (h : d.Sound codec spec outputUri store) :
    checkArtifact (d.entry.value : Value F).normal =
      if 1 ≤ d.entry.expandedBytes then .ok (spec.names, d.entry.parts.map Part.named) else .error accountingFail := by
  rw [checkArtifact_value h.entry_sound, h.names_eq, if_pos spec.names_ok]

theorem artifactChunks_streamed (h : d.Sound codec spec outputUri store) (hsome : 1 ≤ d.entry.expandedBytes) (at' : Nat)
    (hbytes : c.size + d.bytes ≤ maxBytes) (hrows : c.rows + d.rows ≤ maxRows) :
    ∃ chunks, artifactChunks codec store maxBytes maxRows c at' (d.entry.value : Value F).normal = .ok (⟨c.size + d.bytes, c.rows + d.rows⟩, chunks) ∧
      List.Forall₂ (Gives spec.names) (d.chunks.map fun readings => (at', d, readings)) chunks := by
  have hvalid : ∀ readings ∈ d.groups, ∀ r ∈ readings, r.Valid := by
    intro readings hreadings r hr
    refine h.source.rows r ?_
    rw [← h.readings]
    exact List.mem_flatten.2 ⟨readings, hreadings, hr⟩
  have hrowsOf : (d.groups.flatten.map Reading.rows).sum = d.rows := by rw [h.readings, Streamed.rows]
  have hread : ∃ chunks, readParts codec store maxBytes maxRows spec.names at' d.entry.value.normal c (d.entry.parts.map Part.named) =
      .ok (⟨c.size + d.bytes, c.rows + d.rows⟩, chunks) ∧
        List.Forall₂ (Gives spec.names) (d.groups.map fun readings => (at', d, readings)) chunks := by
    rw [← hrowsOf] at hrows ⊢
    exact readParts_stored h.parts hvalid at' d hbytes hrows
  obtain ⟨chunks, hchunks, hgives⟩ := hread
  by_cases hnone : d.groups = []
  · have hpaired := h.parts
    rw [hnone] at hpaired
    have hparts : d.entry.parts = [] := List.forall₂_nil_left_iff.1 hpaired
    have hzero : d.bytes = 0 ∧ d.rows = 0 := by
      rw [Streamed.bytes, hparts, ← hrowsOf, hnone]
      exact ⟨rfl, rfl⟩
    refine ⟨[⟨at', d.entry.value.normal, spec.names.map fun name => (name, []), []⟩], ?_, ?_⟩
    · rw [artifactChunks, h.checked, if_pos hsome, Except.bind_ok, hzero.1, hzero.2, hparts]
      rfl
    · rw [Streamed.chunks, if_pos hnone]
      refine .cons ⟨rfl, rfl, fun name => ?_, rfl⟩ .nil
      have hempty : (spec.names.map fun name => (name, ([] : List (Value F)))) =
          (spec.names.map fun name => (name, ())).map fun entry => (entry.1, []) := by
        rw [List.map_map]
        rfl
      have hkeys : (spec.names.map fun name => (name, ())).map Prod.fst = spec.names := by
        rw [List.map_map]
        exact List.map_id spec.names
      show IndexMap.lookupEntry name (spec.names.map fun name => (name, ([] : List (Value F)))) = _
      rw [hempty, lookupEntry_keys (fun _ => ([] : List (Value F))), hkeys]
      rfl
  · refine ⟨chunks, ?_, ?_⟩
    · have hparts : d.entry.parts.map Part.named ≠ ([] : List (Named F)) := by
        intro hnil
        have hlength := h.parts.length_eq
        rw [List.map_eq_nil_iff.1 hnil, List.length_nil] at hlength
        exact hnone (List.eq_nil_of_length_eq_zero hlength)
      rw [artifactChunks, h.checked, if_pos hsome, Except.bind_ok]
      show (if d.entry.parts.map Part.named = [] then _ else _) = _
      rw [if_neg hparts, hchunks]
    · rw [Streamed.chunks, if_neg hnone]
      exact hgives

theorem partitionChunks_streamed {delivered : List (Streamed F)} (h : ∀ d ∈ delivered, d.Sound codec spec outputUri store)
    (hsome : ∀ d ∈ delivered, 1 ≤ d.entry.expandedBytes) (at' : Nat)
    (hbytes : c.size + (delivered.map Streamed.bytes).sum ≤ maxBytes) (hrows : c.rows + (delivered.map Streamed.rows).sum ≤ maxRows) :
    ∃ consumed chunks, partitionChunks codec store maxBytes maxRows c at' (delivered.map fun d => (d.entry.value : Value F).normal) =
      .ok (consumed, chunks) ∧ List.Forall₂ (Gives spec.names) (chunksFrom at' delivered) chunks := by
  induction delivered generalizing at' c with
  | nil => exact ⟨c, [], rfl, .nil⟩
  | cons d rest ih =>
      rw [List.map_cons, List.sum_cons] at hbytes hrows
      have hfirst : ∃ chunks, artifactChunks codec store maxBytes maxRows c at' (d.entry.value : Value F).normal =
          .ok (⟨c.size + d.bytes, c.rows + d.rows⟩, chunks) ∧
            List.Forall₂ (Gives spec.names) (d.chunks.map fun readings => (at', d, readings)) chunks :=
        artifactChunks_streamed (h d (List.mem_cons_self ..)) (hsome d (List.mem_cons_self ..)) at' (by omega) (by omega)
      obtain ⟨chunks, hchunks, hgives⟩ := hfirst
      obtain ⟨consumed, more, hmore, hrest⟩ := ih (fun other hother => h other (List.mem_cons_of_mem _ hother))
        (fun other hother => hsome other (List.mem_cons_of_mem _ hother)) (at' + 1) (c := ⟨c.size + d.bytes, c.rows + d.rows⟩)
        (by show _ + _ + _ ≤ _; omega) (by show _ + _ + _ ≤ _; omega)
      refine ⟨consumed, chunks ++ more, ?_, List.rel_append hgives hrest⟩
      rw [List.map_cons, partitionChunks, hchunks, Except.bind_ok]
      show (partitionChunks codec store maxBytes maxRows ⟨c.size + d.bytes, c.rows + d.rows⟩ (at' + 1) _ >>= _) = _
      rw [hmore]
      rfl

theorem expanded_of_partitionChunks {delivered : List (Streamed F)} (h : ∀ d ∈ delivered, d.Sound codec spec outputUri store) {at' : Nat}
    {found : Consumed × List (Chunk F)}
    (hread : partitionChunks codec store maxBytes maxRows c at' (delivered.map fun d => (d.entry.value : Value F).normal) = .ok found) :
    ∀ d ∈ delivered, 1 ≤ d.entry.expandedBytes := by
  induction delivered generalizing at' c found with
  | nil => exact fun d hd => (List.not_mem_nil hd).elim
  | cons d rest ih =>
      obtain ⟨first, hfirst, hread⟩ := Except.bind_eq_ok.1 hread
      obtain ⟨more, hmore, _⟩ := Except.bind_eq_ok.1 hread
      obtain ⟨checked, hchecked, _⟩ := Except.bind_eq_ok.1 hfirst
      rw [(h d (List.mem_cons_self ..)).checked] at hchecked
      intro other hother
      obtain rfl | hother := List.mem_cons.1 hother
      · by_contra hnone
        rw [if_neg hnone] at hchecked
        cases hchecked
      · exact ih (fun other hother => h other (List.mem_cons_of_mem _ hother)) hmore other hother

section

variable {contract : Receipt} {workers maxIndexBytes : Nat} {hand : Receipt → List UInt8 → Except String Unit}
variable {sources : List (Except String (Source F))} {encoded : List UInt8}

theorem output_eq_ok (h : output codec spec outputUri contract workers maxIndexBytes hand sources = .ok encoded) :
    ∃ found, readSources codec spec outputUri opened sources = .ok found ∧
      encode codec.floats (indexOf contract (found.2.map Entry.value)) = .ok encoded ∧
      ∀ staged ∈ found.1.staged, hand staged.2.2 (respool found.1.spool staged.1 staged.2.1) = .ok () := by
  rw [output, Except.ite_error_eq_ok] at h
  obtain ⟨found, hfound, hindexed⟩ := Except.bind_eq_ok.1 h.2
  obtain ⟨index, hindex, hbounded⟩ := Except.bind_eq_ok.1 hindexed
  rw [Except.ite_error_eq_ok] at hbounded
  obtain ⟨_, hhanded, hdone⟩ := Except.bind_eq_ok.1 hbounded.2
  rw [← Except.ok.inj hdone]
  exact ⟨found, hfound, outside_eq_ok hindex, fun staged hstaged => outside_eq_ok (Runs.forM_ok_of_mem hhanded staged hstaged)⟩

theorem stored_of_holds {s : Streaming F} {readings : List (Reading F)} {part : Part} (h : Holds codec spec outputUri s readings part)
    (hstore : ∀ staged ∈ s.staged, store staged.2.2.uri = some (respool s.spool staged.1 staged.2.1)) :
    Stored codec spec outputUri store readings part := by
  obtain ⟨data, hdata, hreceipt, hlength, hroom, offset, size, hmem, _, hspooled⟩ := h.data
  exact ⟨h.filled, h.declared, h.most, h.count, data, hdata, hreceipt, hlength, hroom, hspooled ▸ hstore _ hmem⟩

theorem delivered_of_cut {s : Streaming F} {entries : List Entry}
    (h : List.Forall₂ (fun prepared entry => ∃ source groups, prepared = .ok source ∧ Cut codec spec outputUri s source entry groups) sources entries)
    (hsound : ∀ source, .ok source ∈ sources → source.Sound spec)
    (hstore : ∀ staged ∈ s.staged, store staged.2.2.uri = some (respool s.spool staged.1 staged.2.1)) :
    ∃ delivered : List (Streamed F), sources = delivered.map (fun d => .ok d.source) ∧ entries = delivered.map Streamed.entry ∧
      ∀ d ∈ delivered, d.Sound codec spec outputUri store := by
  induction h with
  | nil => exact ⟨[], rfl, rfl, fun d hd => (List.not_mem_nil hd).elim⟩
  | @cons prepared entry sources entries hcut _ ih =>
      obtain ⟨delivered, rfl, rfl, hdelivered⟩ := ih fun source hsource => hsound source (List.mem_cons_of_mem _ hsource)
      obtain ⟨source, groups, rfl, hcut⟩ := hcut
      refine ⟨⟨source, entry, groups⟩ :: delivered, rfl, rfl, fun d hd => ?_⟩
      obtain rfl | hd := List.mem_cons.1 hd
      · exact ⟨hsound source (List.mem_cons_self ..), hcut.expanded, hcut.parts.imp fun _ _ hholds => stored_of_holds hholds hstore,
          hcut.contiguous, hcut.readings⟩
      · exact hdelivered d hd

theorem indexOf_valid {entries : List Entry} (h : ∀ e ∈ entries, e.names = spec.names) :
    (indexOf contract (entries.map Entry.value) : Value F).Valid := by
  refine object_valid (by simp) fun field hfield => ?_
  simp only [List.mem_cons, List.not_mem_nil, or_false] at hfield
  obtain rfl | rfl | rfl := hfield
  · exact .int 2
  · exact receipt_valid contract
  · refine .list fun item hitem => ?_
    obtain ⟨e, he, rfl⟩ := List.mem_map.1 hitem
    exact Entry.value_valid fun name hname => name_valid (h e he ▸ hname)

theorem artifacts_indexOf (entries : List Entry) : Value.field (indexOf contract (entries.map Entry.value) : Value F).normal "artifacts" =
    some (.list (entries.map fun e => (e.value : Value F).normal)) := by
  have hfield : Value.field (indexOf contract (entries.map Entry.value) : Value F).normal "artifacts" =
      some (Value.list (entries.map Entry.value)).normal := field_normal (by simp) "artifacts"
  rw [hfield, Value.normal, normalItems_eq, List.map_map]
  rfl

theorem written (h : output codec spec outputUri contract workers maxIndexBytes hand sources = .ok encoded)
    (hsound : ∀ source, .ok source ∈ sources → source.Sound spec)
    (hkept : ∀ receipt data, hand receipt data = .ok () → store receipt.uri = some data) :
    ∃ (delivered : List (Streamed F)) (body : Value F), sources = delivered.map (fun d => .ok d.source) ∧
      jsonValue codec.floats encoded = .ok body ∧
      Value.field body "artifacts" = some (.list (delivered.map fun d => d.entry.value.normal)) ∧
      ∀ d ∈ delivered, d.Sound codec spec outputUri store := by
  obtain ⟨found, hfound, hencoded, hhanded⟩ := output_eq_ok h
  obtain ⟨_, hcut⟩ := readSources_eq_ok hfound
  obtain ⟨delivered, hsources, hentries, hdelivered⟩ := delivered_of_cut hcut hsound fun staged hstaged => hkept _ _ (hhanded staged hstaged)
  have hnames : ∀ e ∈ found.2, e.names = spec.names := by
    intro e he
    rw [hentries] at he
    obtain ⟨d, hd, rfl⟩ := List.mem_map.1 he
    exact (hdelivered d hd).names_eq
  refine ⟨delivered, _, hsources, jsonValue_encode (indexOf_valid hnames) hencoded, ?_, hdelivered⟩
  rw [artifacts_indexOf, hentries, List.map_map]
  rfl

theorem Streamed.Sound.expanded_eq {d : Streamed F} (h : d.Sound codec spec outputUri store) : d.source.expanded = .ok d.entry.expandedBytes := by
  obtain ⟨expanded, parts, hexpanded, hentry⟩ := h.expanded
  rw [hexpanded, hentry]
  rfl

theorem expanded_of_delivered (h : Delivered codec spec outputUri store sources encoded) :
    ∀ source, .ok source ∈ sources → ∀ n, source.expanded = .ok n → 1 ≤ n := by
  intro source hsource n hn
  obtain ⟨delivered, body, hsources, _, _, hsounds, hreads⟩ := h
  obtain ⟨consumed, chunks, hread, _⟩ := hreads _ _ le_rfl le_rfl
  rw [hsources] at hsource
  obtain ⟨d, hd, hprepared⟩ := List.mem_map.1 hsource
  have hexpanded := (hsounds d hd).expanded_eq
  rw [Except.ok.inj hprepared, hn] at hexpanded
  rw [Except.ok.inj hexpanded]
  exact expanded_of_partitionChunks hsounds hread d hd

/-- No piece is ever found to differ from what was counted for it, and what a successful output wrote is delivered exactly where every source was expanded to some bytes. -/
theorem delivered_iff (hsound : ∀ source, .ok source ∈ sources → source.Sound spec)
    (hkept : ∀ receipt data, hand receipt data = .ok () → store receipt.uri = some data) :
    output codec spec outputUri contract workers maxIndexBytes hand sources ≠ .error .size ∧
      ∀ encoded, output codec spec outputUri contract workers maxIndexBytes hand sources = .ok encoded →
        (Delivered codec spec outputUri store sources encoded ↔ ∀ source, .ok source ∈ sources → ∀ n, source.expanded = .ok n → 1 ≤ n) := by
  refine ⟨output_ne_size contract workers maxIndexBytes hand sources, fun encoded h => ⟨expanded_of_delivered, fun hsome => ?_⟩⟩
  obtain ⟨delivered, body, hsources, hbody, hartifacts, hsounds⟩ := written h hsound hkept
  refine ⟨delivered, body, hsources, hbody, hartifacts, hsounds, fun maxBytes maxRows hbytes hrows => ?_⟩
  refine partitionChunks_streamed hsounds (fun d hd => ?_) 0 hbytes ((Nat.zero_add _).symm ▸ hrows)
  exact hsome d.source (hsources ▸ List.mem_map.2 ⟨d, hd, rfl⟩) _ (hsounds d hd).expanded_eq

end

/-- An interpreter that meets no float, and the hash of the piece of one row. -/
def sampleCodec : Codec Empty where
  floats := { write := Empty.elim, read := fun _ => none, lawful := fun h => nomatch h }
  sha256 _ := "2a56fbf23faa3dc9cd1622f9e254dca5baea8bbc4678366214d70bcad83217e4"
  sha256_valid _ := by decide +kernel

def sampleSpec : Spec where
  names := [Text.ofString "rows"]
  partitionBytes := 1024
  partitionRecords := 10
  maxRecords := 100
  maxBytes := 4096
  maxPartitions := 10
  maxSpoolBytes := 4096
  maxOutputRows := 100
  names_ok := by decide +kernel
  bytes_le := by decide
  records_pos := by decide
  records_le := by decide
  maxRecords_le := by decide
  maxBytes_le := by decide

def sampleSource (readings : List (Reading Empty)) (expanded : Nat) : Source Empty where
  input := ⟨"file:///in.csv", "582967534d0f909d196b97f9e6921342777aea87b46fa52df165389db1fb8ccf"⟩
  context := none
  lookups := none
  readings := readings
  expanded := .ok expanded

/-- A record with one column, which holds a letter of two bytes. -/
def sampleReading : Reading Empty := ⟨.ofList [(Text.ofString "rows", [[(Text.ofString "id", .str (Text.ofString "é"))]])], []⟩

def sampleStore : Store := fun uri =>
  if uri = (receiptOf sampleCodec "file:///out.json" []).uri then
    (encode sampleCodec.floats (pieceOf sampleSpec.names [sampleReading]).value).toOption
  else none

def compared (store : Store) (receipt : Receipt) (data : List UInt8) : Except String Unit :=
  if store receipt.uri = some data then .ok () else .error "Written partition differs from independent configured projection"

theorem kept_of_compared {store : Store} (receipt : Receipt) (data : List UInt8) (h : compared store receipt data = .ok ()) :
    store receipt.uri = some data := by
  rw [compared] at h
  split_ifs at h with hstore
  exact hstore

theorem sample_sound {readings : List (Reading Empty)} {expanded : Nat} (hrows : ∀ r ∈ readings, r.Valid) (hrecords : readings.length ≤ 100)
    (hbytes : expanded ≤ 4096) (source : Source Empty) (h : .ok source ∈ [(.ok (sampleSource readings expanded) : Except String (Source Empty))]) :
    source.Sound sampleSpec := by
  rw [Except.ok.inj (List.mem_singleton.1 h)]
  have hexact : Receipt.exact ⟨"file:///in.csv", "582967534d0f909d196b97f9e6921342777aea87b46fa52df165389db1fb8ccf"⟩ = true := by decide +kernel
  exact ⟨hexact, (fun r hr => nomatch hr), (fun r hr => nomatch hr), hrows, hrecords, fun n hn => Except.ok.inj hn ▸ hbytes⟩

theorem sampleReading_valid : sampleReading.Valid := by
  intro name row hrow
  have hrows : ∀ row ∈ sampleReading.target name, row = [(Text.ofString "id", .str (Text.ofString "é"))] := by
    intro row hrow
    cases name with
    | none => exact (List.not_mem_nil hrow).elim
    | some name =>
        cases hget : sampleReading.tables.get? name with
        | none =>
            rw [Reading.target, hget] at hrow
            exact (List.not_mem_nil hrow).elim
        | some rows =>
            have hmem : (name, rows) ∈ [(Text.ofString "rows", [[(Text.ofString "id", (.str (Text.ofString "é") : Value Empty))]])] :=
              IndexMap.lookupEntry_eq_some hget
            have hrows : rows = [[(Text.ofString "id", .str (Text.ofString "é"))]] := congrArg Prod.snd (List.mem_singleton.1 hmem)
            rw [Reading.target, hget, Option.getD_some, hrows] at hrow
            exact List.mem_singleton.1 hrow
  rw [hrows row hrow]
  refine .dict (List.nodup_singleton _) (fun field hfield => ?_) fun field hfield => ?_
  · rw [List.mem_singleton.1 hfield]
    exact ofString_valid "id"
  · rw [List.mem_singleton.1 hfield]
    exact .str (ofString_valid "é")

/-- The output of a source as it is compared with what is stored. -/
def sampleOutput (readings : List (Reading Empty)) (expanded : Nat) : Except Failure (List UInt8) :=
  output sampleCodec sampleSpec "file:///out.json" ⟨"file:///contract.yaml", "cc8321d6375c494d043fdd0260f21bc0ec51dacc9f6abb7f909cdcd3041b78bf"⟩
    1 1000 (compared sampleStore) [.ok (sampleSource readings expanded)]

/-- The output of an empty file is written, and its reader refuses it. -/
theorem empty_file_is_refused : ∃ encoded, sampleOutput [] 0 = .ok encoded ∧
    (∀ source, .ok source ∈ [(.ok (sampleSource [] 0) : Except String (Source Empty))] → source.Sound sampleSpec) ∧
    (∀ receipt data, compared sampleStore receipt data = .ok () → sampleStore receipt.uri = some data) ∧
    ¬Delivered sampleCodec sampleSpec "file:///out.json" sampleStore [.ok (sampleSource [] 0)] encoded := by
  have hsome : (sampleOutput [] 0).toOption.isSome = true := by decide +kernel
  cases houtput : sampleOutput [] 0 with
  | error e =>
      rw [houtput] at hsome
      cases hsome
  | ok encoded =>
      refine ⟨encoded, rfl, sample_sound (fun _ hr => (List.not_mem_nil hr).elim) (by decide) (by decide), kept_of_compared, fun hdelivered => ?_⟩
      exact absurd (expanded_of_delivered hdelivered (sampleSource [] 0) (List.mem_singleton_self _) 0 rfl) (by decide)

/-- The output of a file with a row is written, and its reader takes it. -/
theorem row_is_delivered : ∃ encoded, sampleOutput [sampleReading] 10 = .ok encoded ∧
    Delivered sampleCodec sampleSpec "file:///out.json" sampleStore [.ok (sampleSource [sampleReading] 10)] encoded := by
  have hsome : (sampleOutput [sampleReading] 10).toOption.isSome = true := by decide +kernel
  cases houtput : sampleOutput [sampleReading] 10 with
  | error e =>
      rw [houtput] at hsome
      cases hsome
  | ok encoded =>
      have hsound : ∀ source, .ok source ∈ [(.ok (sampleSource [sampleReading] 10) : Except String (Source Empty))] → source.Sound sampleSpec :=
        sample_sound (fun r hr => List.mem_singleton.1 hr ▸ sampleReading_valid) (by decide) (by decide)
      refine ⟨encoded, rfl, ((delivered_iff hsound kept_of_compared).2 encoded houtput).2 fun source hsource n hn => ?_⟩
      rw [Except.ok.inj (List.mem_singleton.1 hsource)] at hn
      rw [← Except.ok.inj hn]
      decide

end EdgarPlatform.SourceStreams
