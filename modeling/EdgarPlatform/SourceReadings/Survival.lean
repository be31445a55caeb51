import EdgarPlatform.SourceReadings.Gathering

/-!
# A reading survives being cut

Every piece within its bounds, the ordinals without a gap, the bytes counted as they are, and every input read back whole: a reading in pieces is all of this exactly where the reader takes the names of its tables. A reader refuses a list of more than 64 names, a name twice and a name that is no identifier; the writer asks none of this.
-/

namespace EdgarPlatform.SourceReadings

open PythonJson

variable {F : Type} {codec : Codec F} {outputUri : String} {sink : Receipt → List Char → Except String Unit} {store : Store}
variable {names : List Text} {maxBytes maxRows : Nat}

/-- An input with how it was cut and the pieces made of it. -/
structure Filed (F : Type) where
  input : Input F
  cutting : Cutting F
  made : List (Made F)

def Filed.entry (f : Filed F) : Value F := (entryOf f.input f.cutting).normal

/-- An input whose pieces are in the store, within the bounds of an artifact. -/
structure Filed.Sound (codec : Codec F) (outputUri : String) (store : Store) (f : Filed F) : Prop where
  sound : f.input.Sound
  cut : f.input.CutInto codec outputUri f.cutting f.made
  rows : f.input.items.length ≤ artifactRows
  bytes : f.input.inputBytes ≤ artifactBytes
  kept : Kept codec outputUri store f.made

def chunksFrom : Nat → List (Filed F) → List (Chunk F)
  | _, [] => []
  | at', f :: rest => chunksOf at' f.entry f.input.names f.made ++ chunksFrom (at' + 1) rest

theorem partitionChunks_filed {filed : List (Filed F)} (h : ∀ f ∈ filed, f.Sound codec outputUri store)
    (hnames : ∀ f ∈ filed, areTableNames f.input.names = true) (at' : Nat) {c : Consumed}
    (hsize : c.size + (filed.map fun f => bytesOf f.made).sum ≤ maxBytes)
    (hcount : c.rows + (filed.map fun f => countOf f.made).sum ≤ maxRows) :
    partitionChunks codec store maxBytes maxRows c at' (filed.map Filed.entry) =
      .ok (⟨c.size + (filed.map fun f => bytesOf f.made).sum, c.rows + (filed.map fun f => countOf f.made).sum⟩, chunksFrom at' filed) := by
  induction filed generalizing at' c with
  | nil => rfl
  | cons f rest ih =>
      have hf := h f (List.mem_cons_self ..)
      rw [List.map_cons, List.sum_cons] at hsize hcount
      rw [List.map_cons, partitionChunks, Filed.entry, artifactChunks_entry hf.sound hf.cut (hnames f (List.mem_cons_self ..)) hf.rows
        hf.bytes hf.kept at' (by omega) (by omega), Except.bind_ok]
      show (partitionChunks codec store maxBytes maxRows ⟨c.size + bytesOf f.made, c.rows + countOf f.made⟩ _ _ >>= _) = _
      rw [ih (fun other hother => h other (List.mem_cons_of_mem _ hother)) (fun other hother => hnames other (List.mem_cons_of_mem _ hother)) _
        (by show _ + _ + _ ≤ _; omega) (by show _ + _ + _ ≤ _; omega), Except.bind_ok]
      simp only [List.map_cons, List.sum_cons, Nat.add_assoc]
      rfl

theorem names_of_partitionChunks {filed : List (Filed F)} (h : ∀ f ∈ filed, f.Sound codec outputUri store) {at' : Nat} {c : Consumed}
    {found : Consumed × List (Chunk F)} (hok : partitionChunks codec store maxBytes maxRows c at' (filed.map Filed.entry) = .ok found) :
    ∀ f ∈ filed, areTableNames f.input.names = true := by
  induction filed generalizing at' c found with
  | nil => exact fun _ hf => (List.not_mem_nil hf).elim
  | cons f rest ih =>
      have hf := h f (List.mem_cons_self ..)
      rw [List.map_cons, partitionChunks, Except.bind_eq_ok] at hok
      obtain ⟨chunks, hchunks, hok⟩ := hok
      obtain ⟨more, hmore, _⟩ := Except.bind_eq_ok.1 hok
      intro other hother
      obtain rfl | hother := List.mem_cons.1 hother
      · rw [artifactChunks, Except.bind_eq_ok] at hchunks
        obtain ⟨checked, hchecked, _⟩ := hchunks
        rw [Filed.entry, checkArtifact_entry hf.sound hf.cut hf.rows hf.bytes] at hchecked
        by_contra hnames
        rw [if_neg hnames] at hchecked
        cases hchecked
      · exact ih (fun other hother => h other (List.mem_cons_of_mem _ hother)) hmore other hother

theorem chunksOf_index (at' : Nat) (artifact : Value F) (names : List Text) (made : List (Made F)) :
    chunksOf at' artifact names made ≠ [] ∧ ∀ chunk ∈ chunksOf at' artifact names made, chunk.index = at' := by
  rw [chunksOf]
  split_ifs with hmade
  · refine ⟨List.cons_ne_nil _ _, fun chunk hchunk => ?_⟩
    rw [List.mem_singleton.1 hchunk]
  · refine ⟨by simpa using hmade, fun chunk hchunk => ?_⟩
    obtain ⟨m, _, rfl⟩ := List.mem_map.1 hchunk
    rfl

theorem gather_chunksFrom {filed : List (Filed F)} (h : ∀ f ∈ filed, f.Sound codec outputUri store)
    (hnames : ∀ f ∈ filed, areTableNames f.input.names = true) (at' : Nat) (g : Gathering F) (hcurrent : ∀ entry ∈ g.current, entry.1 < at') :
    ∃ ws, ((chunksFrom at' filed).foldl gather g).all = g.all ++ ws ∧
      List.Forall₂ (fun f w => w.artifact = f.entry ∧ w.Restores f.input) filed ws := by
  induction filed generalizing at' g with
  | nil => exact ⟨[], (List.append_nil _).symm, .nil⟩
  | cons f rest ih =>
      obtain ⟨hne, hindex⟩ := chunksOf_index at' f.entry f.input.names f.made
      obtain ⟨hall, hlast⟩ := foldl_gather_new g (fun entry hentry => ne_of_lt (hcurrent entry hentry)) hne hindex
      obtain ⟨w, hw, hartifact, hrestores⟩ := assembled_chunksOf (h f (List.mem_cons_self ..)).cut (hnames f (List.mem_cons_self ..)) at' f.entry
      obtain ⟨ws, hws, hforall⟩ := ih (fun other hother => h other (List.mem_cons_of_mem _ hother))
        (fun other hother => hnames other (List.mem_cons_of_mem _ hother)) (at' + 1) _
        fun entry hentry => by rw [hlast entry hentry]; exact Nat.lt_succ_self at'
      refine ⟨w :: ws, ?_, .cons ⟨hartifact, hrestores⟩ hforall⟩
      rw [chunksFrom, List.foldl_append, hws, hall, hw, List.append_assoc]
      rfl

def indexOf (contract : Receipt) (entries : List (Value F)) : Value F :=
  Value.object [("version", .int 2), ("contract", contract.value), ("artifacts", .list entries)]

theorem object_entry_valid {f : Filed F} (h : f.Sound codec outputUri store) : (entryOf f.input f.cutting).Valid :=
  (show (entryIn f.input f.cutting).value.Valid from Entry.value_valid h.sound.texts)

theorem checkLookups_entry {f : Filed F} (h : f.Sound codec outputUri store) {allow : Bool} (hallow : f.input.lookups = none ∨ allow = true) :
    checkLookups allow f.entry = .ok () := by
  rw [checkLookups, Filed.entry, entry_lookups]
  cases hget : f.input.lookups with
  | none => rfl
  | some r =>
      have htrue : allow = true := hallow.resolve_left (by rw [hget]; exact fun h => nomatch h)
      show (reference (r.value : Value F).normal >>= _) = _
      rw [reference_normal (h.sound.lookups r hget), Except.bind_ok, if_pos htrue]

theorem forM_ok {α : Type} {f : α → Except String Unit} {items : List α} (h : ∀ a ∈ items, f a = .ok ()) : items.forM f = .ok () := by
  induction items with
  | nil => rfl
  | cons a rest ih =>
      show (f a >>= fun _ => rest.forM f) = _
      rw [h a (List.mem_cons_self ..), Except.bind_ok]
      exact ih fun b hb => h b (List.mem_cons_of_mem _ hb)

theorem index_read {filed : List (Filed F)} (h : ∀ f ∈ filed, f.Sound codec outputUri store) {contract : Receipt}
    (hcontract : contract.exact = true) (hsome : 1 ≤ filed.length) (hmost : filed.length ≤ maxArtifacts) {data : List Char}
    (htext : dumps codec.floats (indexOf contract (filed.map fun f => entryOf f.input f.cutting)) = .ok data) {ref : Value F}
    (href : verified codec store ref maxBytes = .ok data) {allow : Bool} (hallow : ∀ f ∈ filed, f.input.lookups = none ∨ allow = true) :
    index codec store maxBytes ref allow = .ok ((indexOf contract (filed.map fun f => entryOf f.input f.cutting)).normal, data.length) := by
  have hfield : ∀ key, Value.field (indexOf contract (filed.map fun f => entryOf f.input f.cutting)).normal key =
      (IndexMap.lookupEntry key [("version", (.int 2 : Value F)), ("contract", contract.value),
        ("artifacts", .list (filed.map fun f => entryOf f.input f.cutting))]).map Value.normal := field_normal (by simp)
  have hentries : (Value.list (filed.map fun f => entryOf f.input f.cutting)).normal = .list (filed.map Filed.entry) := by
    rw [Value.normal, normalItems_eq, List.map_map]
    rfl
  have hversion : Value.field (indexOf contract (filed.map fun f => entryOf f.input f.cutting)).normal "version" = some (.int 2) :=
    hfield "version"
  have hreceipt : Value.field (indexOf contract (filed.map fun f => entryOf f.input f.cutting)).normal "contract" =
      some (contract.value : Value F).normal := hfield "contract"
  have hartifacts : listOf (Value.field (indexOf contract (filed.map fun f => entryOf f.input f.cutting)).normal "artifacts") =
      some (filed.map Filed.entry) := by
    rw [hfield]
    show listOf (some (Value.list _).normal) = _
    rw [hentries]
    rfl
  have hvalid : (indexOf contract (filed.map fun f => entryOf f.input f.cutting)).Valid := by
    refine object_valid (by simp) fun field hmem => ?_
    simp only [List.mem_cons, List.not_mem_nil, or_false] at hmem
    obtain rfl | rfl | rfl := hmem
    · exact .int 2
    · exact receipt_valid contract
    · refine .list fun item hitem => ?_
      obtain ⟨f, hf, rfl⟩ := List.mem_map.1 hitem
      exact object_entry_valid (h f hf)
  have hlookups : (filed.map Filed.entry).forM (checkLookups allow) = .ok () := by
    refine forM_ok fun entry hentry => ?_
    obtain ⟨f, hf, rfl⟩ := List.mem_map.1 hentry
    exact checkLookups_entry (h f hf) (hallow f hf)
  have hkeys : Value.hasKeys (indexOf contract (filed.map fun f => entryOf f.input f.cutting)).normal ["version", "contract", "artifacts"] = true :=
    hasKeys_normal (by simp)
  rw [index, href, Except.bind_ok, loads_dumps hvalid htext, Except.bind_ok, hversion]
  simp only [show readInteger 1 2 (some (.int 2 : Value F)) = some 2 from rfl, Except.bind_ok, hartifacts, Option.getD_some, hlookups]
  rw [if_neg (by decide), if_neg, hreceipt, Option.getD_some, reference_normal hcontract]
  · rfl
  · rw [not_not]
    refine ⟨hkeys, ?_⟩
    rw [Option.any_some, List.length_map, Bool.and_eq_true, decide_eq_true_eq, decide_eq_true_eq]
    exact ⟨hsome, hmost⟩

theorem field_with {v : Value F} (h : Value.isDict v = true) (key other : String) (value : Value F) :
    Value.field (Value.with v key value) other = if other = key then some value else Value.field v other := by
  cases v with
  | dict fields =>
      show IndexMap.lookupEntry (Text.ofString other) (IndexMap.setEntry (Text.ofString key) value fields) = _
      rw [IndexMap.lookupEntry_setEntry]
      exact if_congr ofString_injective.eq_iff rfl rfl
  | null => cases h
  | bool => cases h
  | int => cases h
  | float => cases h
  | str => cases h
  | list => cases h

theorem isDict_with {v : Value F} (h : Value.isDict v = true) (key : String) (value : Value F) : Value.isDict (Value.with v key value) = true := by
  cases v with
  | dict fields => rfl
  | null => cases h
  | bool => cases h
  | int => cases h
  | float => cases h
  | str => cases h
  | list => cases h

theorem object_normal_isDict (fields : List (String × Value F)) : Value.isDict (Value.object fields).normal = true := by
  rw [Value.object, Value.normal]
  rfl

/-- An artifact of the normalized reading holds what the input held: for each table its rows in order, and the deferred records in order. -/
structure Restored (i : Input F) (artifact : Value F) : Prop where
  tables : ∃ found, Value.field artifact "tables" = some (.dict found) ∧ ∀ name, IndexMap.lookupEntry name found =
    if name ∈ i.names then some (.list (((i.tables.get? name).getD []).map normalRow)) else none
  deferred : Value.field artifact "deferred" = some (.list (i.deferred.map normalRow))
  input : Value.field artifact "input" = some i.input.value.normal

theorem Whole.Restores.restored {w : Whole F} {f : Filed F} (hartifact : w.artifact = f.entry) (h : w.Restores f.input) :
    Restored f.input w.value := by
  have hdict : Value.isDict w.artifact = true := by
    rw [hartifact]
    exact object_normal_isDict _
  have hfield : ∀ key, Value.field w.value key = if key = "deferred" then some (.list w.deferred)
      else if key = "tables" then some (.dict (w.tables.map fun table => (table.1, .list table.2))) else Value.field w.artifact key := by
    intro key
    rw [Whole.value, field_with (isDict_with hdict _ _), field_with hdict]
  refine ⟨⟨_, hfield "tables", fun name => ?_⟩, ?_, ?_⟩
  · rw [IndexMap.lookupEntry_map, h.tables name]
    split_ifs <;> rfl
  · rw [hfield, if_pos rfl, h.deferred]
  · rw [hfield, if_neg (by decide), if_neg (by decide), hartifact]
    exact entry_input

def Part.Bounded (part : Part) : Prop := 1 ≤ part.recordCount ∧ part.recordCount ≤ partRows ∧ part.bytes ≤ partBytes

theorem bounded_partsFrom {made : List (Made F)} (h : ∀ m ∈ made, m.Sound codec names) (ordinal : Nat) :
    ∀ part ∈ partsFrom codec outputUri ordinal made, part.Bounded := by
  induction made generalizing ordinal with
  | nil => exact fun _ hpart => (List.not_mem_nil hpart).elim
  | cons m rest ih =>
      intro part hpart
      obtain rfl | hpart := List.mem_cons.1 hpart
      · have hm := h m (List.mem_cons_self ..)
        exact ⟨Nat.one_le_iff_ne_zero.2 hm.holds, hm.most, hm.room⟩
      · exact ih (fun other hother => h other (List.mem_cons_of_mem _ hother)) _ part hpart

/-- Wherever the cutting of an input stands, the bytes counted for the piece being filled are those of its text. -/
def Counted (codec : Codec F) (outputUri : String) (sink : Receipt → List Char → Except String Unit) (i : Input F) : Prop :=
  ∀ empty, emptySize codec i.names = .ok empty → ∀ front, front <+: i.items → ∀ c,
    front.foldlM (addItem codec outputUri sink i.names empty) (start i.names empty) = .ok c →
      ∀ data, dumps codec.floats c.pending.value = .ok data → c.size = data.length

theorem counted_of_sound {i : Input F} (h : i.Sound) : Counted codec outputUri sink i := by
  intro empty hempty front hfront c hrun data hdata
  obtain ⟨made, hcut⟩ := cut_of_run h (filling_fresh hempty) hfront hrun
  rw [length_of_dumps hdata, hcut.filling.sized]

/-- A reading cut into pieces and published: every input was cut, the index of the entries was written, and the store holds the index and what was handed on. -/
structure Published (codec : Codec F) (outputUri : String) (sink : Receipt → List Char → Except String Unit) (contract : Receipt)
    (inputs : List (Input F)) (written : List (Value F × Cutting F)) (store : Store) (ref : Value F) (data : List Char) : Prop where
  cut : List.Forall₂ (fun i w => pieces codec outputUri sink i = .ok w) inputs written
  nonempty : 1 ≤ inputs.length
  most : inputs.length ≤ maxArtifacts
  exact : contract.exact = true
  text : dumps codec.floats (indexOf contract (written.map Prod.fst)) = .ok data
  receipt : ∃ r, reference ref = .ok r ∧ store r.uri = some data ∧ r.sha256 = codec.sha256 data
  kept : ∀ w ∈ written, ∀ handed ∈ w.2.handed, store handed.1.uri = some handed.2

/-- The inputs are within the bounds of an artifact, and the reading within the bounds of its reader. -/
structure Within (inputs : List (Input F)) (written : List (Value F × Cutting F)) (data : List Char) (maxBytes maxRows : Nat)
    (allowLookupReceipts : Bool) : Prop where
  rows : ∀ i ∈ inputs, i.items.length ≤ artifactRows
  bytes : ∀ i ∈ inputs, i.inputBytes ≤ artifactBytes
  totalBytes : data.length + (written.map fun w => (w.2.parts.map Part.bytes).sum).sum ≤ maxBytes
  totalRows : (inputs.map fun i => i.items.length).sum ≤ maxRows
  lookups : ∀ i ∈ inputs, i.lookups = none ∨ allowLookupReceipts = true

/-- The reading is in pieces within their bounds, with ordinals from one on without a gap and their bytes counted as they are, and the reader reads every input back. -/
structure Survives (codec : Codec F) (outputUri : String) (sink : Receipt → List Char → Except String Unit) (inputs : List (Input F))
    (written : List (Value F × Cutting F)) (store : Store) (ref : Value F) (maxBytes maxRows : Nat) (allowLookupReceipts : Bool) :
    Prop where
  bounded : ∀ w ∈ written, ∀ part ∈ w.2.parts, part.Bounded
  contiguous : ∀ w ∈ written, Contiguous 1 w.2.parts
  counted : ∀ i ∈ inputs, Counted codec outputUri sink i
  read : ∃ body size artifacts, load codec store maxBytes maxRows ref allowLookupReceipts = .ok (body, size) ∧
    Value.field body "artifacts" = some (.list artifacts) ∧ List.Forall₂ Restored inputs artifacts

def Filed.written (f : Filed F) : Value F × Cutting F := (entryOf f.input f.cutting, f.cutting)

section

variable {contract : Receipt} {inputs : List (Input F)} {written : List (Value F × Cutting F)} {ref : Value F} {data : List Char}
variable {allowLookupReceipts : Bool}

theorem filed_of_cut (hsound : ∀ i ∈ inputs, i.Sound) (hcut : List.Forall₂ (fun i w => pieces codec outputUri sink i = .ok w) inputs written) :
    ∃ filed : List (Filed F), inputs = filed.map Filed.input ∧ written = filed.map Filed.written ∧
      ∀ f ∈ filed, f.input.CutInto codec outputUri f.cutting f.made := by
  induction hcut with
  | nil => exact ⟨[], rfl, rfl, fun _ hf => (List.not_mem_nil hf).elim⟩
  | @cons i w inputs written hpieces _ ih =>
      obtain ⟨filed, rfl, rfl, hfiled⟩ := ih fun other hother => hsound other (List.mem_cons_of_mem _ hother)
      obtain ⟨entry, cutting⟩ := w
      obtain ⟨rfl, made, hmade⟩ := pieces_eq_ok (hsound i (List.mem_cons_self ..)) hpieces
      refine ⟨⟨i, cutting, made⟩ :: filed, rfl, rfl, fun f hf => ?_⟩
      obtain rfl | hf := List.mem_cons.1 hf
      · exact hmade
      · exact hfiled f hf

theorem sum_bytes_partsFrom (ordinal : Nat) (made : List (Made F)) :
    ((partsFrom codec outputUri ordinal made).map Part.bytes).sum = bytesOf made := by
  induction made generalizing ordinal with
  | nil => rfl
  | cons m rest ih =>
      rw [partsFrom, List.map_cons, List.sum_cons, ih, bytesOf, bytesOf, List.map_cons, List.sum_cons]
      rfl

theorem Input.CutInto.count {i : Input F} {c : Cutting F} {made : List (Made F)} (h : i.CutInto codec outputUri c made) :
    countOf made = i.items.length := by
  have hordinal := h.ordinal
  have htotal := h.total
  rw [countOf]
  omega

/-- The reading as its inputs with the pieces made of them, all of them in the store and read within the bounds. -/
theorem Published.filed (h : Published codec outputUri sink contract inputs written store ref data) (hsound : ∀ i ∈ inputs, i.Sound)
    (hwithin : Within inputs written data maxBytes maxRows allowLookupReceipts) :
    ∃ filed : List (Filed F), inputs = filed.map Filed.input ∧ written = filed.map Filed.written ∧
      (∀ f ∈ filed, f.Sound codec outputUri store) ∧ data.length + (filed.map fun f => bytesOf f.made).sum ≤ maxBytes ∧
      0 + (filed.map fun f => countOf f.made).sum ≤ maxRows := by
  obtain ⟨filed, rfl, rfl, hcut⟩ := filed_of_cut hsound h.cut
  refine ⟨filed, rfl, rfl, fun f hf => ?_, ?_, ?_⟩
  · refine ⟨hsound _ (List.mem_map_of_mem hf), hcut f hf, hwithin.rows _ (List.mem_map_of_mem hf), hwithin.bytes _ (List.mem_map_of_mem hf),
      fun m hm => ?_⟩
    refine h.kept f.written (List.mem_map_of_mem hf) (receiptOf codec outputUri m.data, m.data) ?_
    rw [Filed.written, (hcut f hf).handed]
    exact List.mem_map_of_mem hm
  · have hbytes : (filed.map fun f => bytesOf f.made) = (filed.map Filed.written).map fun w => (w.2.parts.map Part.bytes).sum := by
      rw [List.map_map]
      refine List.map_congr_left fun f hf => ?_
      rw [Function.comp_apply, Filed.written, (hcut f hf).parts, sum_bytes_partsFrom]
    rw [hbytes]
    exact hwithin.totalBytes
  · have hcount : (filed.map fun f => countOf f.made) = (filed.map Filed.input).map fun i => i.items.length := by
      rw [List.map_map]
      exact List.map_congr_left fun f hf => (hcut f hf).count
    rw [hcount, Nat.zero_add]
    exact hwithin.totalRows

theorem Published.index_read (h : Published codec outputUri sink contract inputs written store ref data) {filed : List (Filed F)}
    (hinputs : inputs = filed.map Filed.input) (hwritten : written = filed.map Filed.written)
    (hfiled : ∀ f ∈ filed, f.Sound codec outputUri store) (hbytes : data.length ≤ maxBytes)
    (hlookups : ∀ i ∈ inputs, i.lookups = none ∨ allowLookupReceipts = true) :
    index codec store maxBytes ref allowLookupReceipts =
      .ok ((indexOf contract (filed.map fun f => entryOf f.input f.cutting)).normal, data.length) := by
  subst hinputs hwritten
  obtain ⟨r, href, hstore, hsha⟩ := h.receipt
  have hverified : verified codec store ref maxBytes = .ok data := by
    rw [verified, href, Except.bind_ok]
    rw [hstore]
    show (if _ then _ else if _ then _ else _) = _
    rw [if_neg (by omega), if_neg (by rw [hsha]; exact fun h => h rfl)]
  have htext := h.text
  rw [List.map_map] at htext
  refine SourceReadings.index_read hfiled h.exact ?_ ?_ htext hverified fun f hf => hlookups _ (List.mem_map_of_mem hf)
  · have hsome := h.nonempty
    rwa [List.length_map] at hsome
  · have hmost := h.most
    rwa [List.length_map] at hmost

theorem load_eq {body : Value F} {size : Nat} {entries : List (Value F)}
    (hindex : index codec store maxBytes ref allowLookupReceipts = .ok (body, size)) (hversion : Value.field body "version" = some (.int 2))
    (hartifacts : Value.field body "artifacts" = some (.list entries)) :
    load codec store maxBytes maxRows ref allowLookupReceipts = (partitionChunks codec store maxBytes maxRows ⟨size, 0⟩ 0 entries).map
      fun read => (Value.with (Value.with body "version" (.int 1)) "artifacts" (.list ((wholes read.2).map Whole.value)), read.1.size) := by
  rw [load, hindex, Except.bind_ok]
  simp only [hversion, hartifacts, listOf, Option.getD_some]
  rw [show readInteger 1 1 (some (.int 2 : Value F)) = none from rfl, if_neg (by simp)]
  cases partitionChunks codec store maxBytes maxRows ⟨size, 0⟩ 0 entries <;> rfl

theorem Published.load_eq {maxBytes : Nat} (maxRows : Nat) (h : Published codec outputUri sink contract inputs written store ref data) {filed : List (Filed F)}
    (hinputs : inputs = filed.map Filed.input) (hwritten : written = filed.map Filed.written)
    (hfiled : ∀ f ∈ filed, f.Sound codec outputUri store) (hbytes : data.length ≤ maxBytes)
    (hlookups : ∀ i ∈ inputs, i.lookups = none ∨ allowLookupReceipts = true) :
    ∃ body : Value F, Value.isDict body = true ∧ load codec store maxBytes maxRows ref allowLookupReceipts =
      (partitionChunks codec store maxBytes maxRows ⟨data.length, 0⟩ 0 (filed.map Filed.entry)).map
        fun read => (Value.with (Value.with body "version" (.int 1)) "artifacts" (.list ((wholes read.2).map Whole.value)), read.1.size) := by
  have hfield : ∀ key, Value.field (indexOf contract (filed.map fun f => entryOf f.input f.cutting)).normal key =
      (IndexMap.lookupEntry key [("version", (.int 2 : Value F)), ("contract", contract.value),
        ("artifacts", .list (filed.map fun f => entryOf f.input f.cutting))]).map Value.normal := field_normal (by simp)
  have hartifacts : Value.field (indexOf contract (filed.map fun f => entryOf f.input f.cutting)).normal "artifacts" =
      some (.list (filed.map Filed.entry)) := by
    rw [hfield]
    show some (Value.list _).normal = _
    rw [Value.normal, normalItems_eq, List.map_map]
    rfl
  exact ⟨_, object_normal_isDict _, SourceReadings.load_eq (h.index_read hinputs hwritten hfiled hbytes hlookups) (hfield "version") hartifacts⟩

theorem names_of_load (h : Published codec outputUri sink contract inputs written store ref data) (hsound : ∀ i ∈ inputs, i.Sound)
    (hwithin : Within inputs written data maxBytes maxRows allowLookupReceipts) {found : Value F × Nat}
    (hload : load codec store maxBytes maxRows ref allowLookupReceipts = .ok found) : ∀ i ∈ inputs, areTableNames i.names = true := by
  obtain ⟨filed, hinputs, hwritten, hfiled, hbytes, _⟩ := h.filed hsound hwithin
  obtain ⟨_, _, heq⟩ := h.load_eq maxRows hinputs hwritten hfiled (le_trans (Nat.le_add_right _ _) hbytes) hwithin.lookups
  rw [heq] at hload
  cases hread : partitionChunks codec store maxBytes maxRows ⟨data.length, 0⟩ 0 (filed.map Filed.entry) with
  | error e =>
      rw [hread] at hload
      cases hload
  | ok read =>
      have hnames := names_of_partitionChunks hfiled hread
      intro i hi
      rw [hinputs] at hi
      obtain ⟨f, hf, rfl⟩ := List.mem_map.1 hi
      exact hnames f hf

theorem load_restores (h : Published codec outputUri sink contract inputs written store ref data) (hsound : ∀ i ∈ inputs, i.Sound)
    (hwithin : Within inputs written data maxBytes maxRows allowLookupReceipts) (hnames : ∀ i ∈ inputs, areTableNames i.names = true) :
    ∃ body size artifacts, load codec store maxBytes maxRows ref allowLookupReceipts = .ok (body, size) ∧
      Value.field body "artifacts" = some (.list artifacts) ∧ List.Forall₂ Restored inputs artifacts := by
  obtain ⟨filed, hinputs, hwritten, hfiled, hbytes, hcount⟩ := h.filed hsound hwithin
  obtain ⟨body, hdict, heq⟩ := h.load_eq maxRows hinputs hwritten hfiled (le_trans (Nat.le_add_right _ _) hbytes) hwithin.lookups
  have hread := partitionChunks_filed hfiled (fun f hf => hnames _ (hinputs ▸ List.mem_map_of_mem hf)) 0
    (c := ⟨data.length, 0⟩) hbytes hcount
  obtain ⟨ws, hws, hforall⟩ := gather_chunksFrom hfiled (fun f hf => hnames _ (hinputs ▸ List.mem_map_of_mem hf)) 0 ⟨[], none⟩
    fun _ hentry => nomatch hentry
  refine ⟨_, _, ws.map Whole.value, by rw [heq, hread]; rfl, ?_, ?_⟩
  · rw [field_with (isDict_with hdict _ _), if_pos rfl]
    have hwholes : wholes (chunksFrom 0 filed) = ws := hws
    rw [hwholes]
  · rw [hinputs, List.forall₂_map_left_iff, List.forall₂_map_right_iff]
    exact hforall.imp fun f w hw => hw.2.restored hw.1

/-- A reading cut into pieces survives exactly where every input's table names are at most 64 distinct identifiers. -/
theorem survives_iff (h : Published codec outputUri sink contract inputs written store ref data) (hsound : ∀ i ∈ inputs, i.Sound)
    (hwithin : Within inputs written data maxBytes maxRows allowLookupReceipts) :
    Survives codec outputUri sink inputs written store ref maxBytes maxRows allowLookupReceipts ↔
      ∀ i ∈ inputs, areTableNames i.names = true := by
  refine ⟨fun hsurvives => ?_, fun hnames => ?_⟩
  · obtain ⟨body, size, _, hload, _⟩ := hsurvives.read
    exact names_of_load h hsound hwithin hload
  · obtain ⟨filed, hinputs, hwritten, hfiled, _⟩ := h.filed hsound hwithin
    refine ⟨fun w hw => ?_, fun w hw => ?_, fun i hi => counted_of_sound (hsound i hi), load_restores h hsound hwithin hnames⟩
    · rw [hwritten] at hw
      obtain ⟨f, hf, rfl⟩ := List.mem_map.1 hw
      rw [Filed.written, (hfiled f hf).cut.parts]
      exact bounded_partsFrom (hfiled f hf).cut.sound 1
    · rw [hwritten] at hw
      obtain ⟨f, hf, rfl⟩ := List.mem_map.1 hw
      rw [Filed.written, (hfiled f hf).cut.parts]
      exact contiguous_partsFrom 1 f.made

end

/-- An interpreter that meets no float, and the hashes of the documents of these readings, which are told apart by their lengths. -/
def sampleCodec : Codec Empty where
  floats := { write := fun _ => none, read := fun _ => none, lawful := fun h => nomatch h }
  sha256 data :=
    if data.length = 65 then "534930af542dadd90afbd2a612fa28fc31c395e1c1fb5821cedb1383dffb879c"
    else if data.length = 58 then "317a9ad707ab8c844745704b4ff7216283f25b4b514ed170551c4ccdf36af428"
    else if data.length = 576 then "ae4d1a045be28b562ba6a380636eea4e6b149d7364a2058cff639bf41db23c02"
    else "a1967c9ff4ad6af6f2a760c39e72facbd370756a9f2693154c63014c1fa2e803"
  sha256_valid data := by
    split_ifs <;> decide +kernel

def sampleInput (name : String) : Input Empty where
  input := ⟨"file:///in.json", "582967534d0f909d196b97f9e6921342777aea87b46fa52df165389db1fb8ccf"⟩
  context := none
  lookups := none
  tables := .ofList [(Text.ofString name, [[(Text.ofString "id", .str (Text.ofString "1"))]])]
  deferred := []
  names := [Text.ofString name]
  inputBytes := 2

def sampleContract : Receipt := ⟨"file:///contract.yaml", "cc8321d6375c494d043fdd0260f21bc0ec51dacc9f6abb7f909cdcd3041b78bf"⟩

def takeAll : Receipt → List Char → Except String Unit := fun _ _ => .ok ()

def sampleWritten (name : String) : List (Value Empty × Cutting Empty) :=
  (pieces sampleCodec "file:///out.json" takeAll (sampleInput name)).toOption.toList

def sampleIndex (name : String) : List Char :=
  ((dumps sampleCodec.floats (indexOf sampleContract ((sampleWritten name).map Prod.fst))).toOption).getD []

def sampleStore (name : String) : Store := fun uri =>
  if uri = "file:///out.json" then some (sampleIndex name)
  else (((sampleWritten name).flatMap fun w => w.2.handed).find? fun handed => handed.1.uri = uri).map Prod.snd

def sampleRef (name : String) : Receipt := ⟨"file:///out.json", sampleCodec.sha256 (sampleIndex name)⟩

theorem sampleInput_sound (name : String) : (sampleInput name).Sound := by
  have hexact : Receipt.exact ⟨"file:///in.json", "582967534d0f909d196b97f9e6921342777aea87b46fa52df165389db1fb8ccf"⟩ = true := by decide +kernel
  refine ⟨hexact, (fun r hr => nomatch hr), (fun r hr => nomatch hr), fun other hother => ?_, fun other hother => ?_,
    fun rows hrows row hrow => ?_, (fun row hrow => nomatch hrow)⟩
  · rw [sampleInput, IndexMap.mem_keys_ofList] at hother
    exact hother
  · rw [List.mem_singleton.1 hother]
    exact ofString_valid name
  · obtain ⟨other, hget⟩ := IndexMap.mem_values_iff.1 hrows
    have hmem : (other, rows) ∈ [(Text.ofString name, [[(Text.ofString "id", Value.str (Text.ofString "1"))]])] :=
      IndexMap.lookupEntry_eq_some hget
    have hrows : rows = [[(Text.ofString "id", Value.str (Text.ofString "1"))]] := congrArg Prod.snd (List.mem_singleton.1 hmem)
    rw [hrows] at hrow
    rw [List.mem_singleton.1 hrow]
    refine .dict (List.nodup_singleton _) (fun field hfield => ?_) fun field hfield => ?_
    · rw [List.mem_singleton.1 hfield]
      exact ofString_valid "id"
    · rw [List.mem_singleton.1 hfield]
      exact .str (ofString_valid "1")

theorem sample_published {name : String} (hwritten : (sampleWritten name).length = 1) (hindex : (sampleIndex name).length ≠ 0)
    (hkept : ∀ w ∈ sampleWritten name, ∀ handed ∈ w.2.handed, sampleStore name handed.1.uri = some handed.2) :
    Published sampleCodec "file:///out.json" takeAll sampleContract [sampleInput name] (sampleWritten name) (sampleStore name)
      (sampleRef name).value.normal (sampleIndex name) := by
  refine ⟨?_, le_rfl, show 1 ≤ 512 by decide, by decide +kernel, ?_, ⟨sampleRef name, reference_normal ?_, if_pos rfl, rfl⟩, hkept⟩
  · rw [sampleWritten] at hwritten ⊢
    cases hpieces : pieces sampleCodec "file:///out.json" takeAll (sampleInput name) with
    | error e =>
        rw [hpieces] at hwritten
        cases hwritten
    | ok w => exact .cons hpieces .nil
  · rw [sampleIndex] at hindex ⊢
    cases hdumps : dumps sampleCodec.floats (indexOf sampleContract ((sampleWritten name).map Prod.fst)) with
    | error e =>
        rw [hdumps] at hindex
        exact absurd rfl hindex
    | ok data => rfl
  · exact Bool.and_eq_true_iff.2 ⟨show decide ("file:///out.json" ≠ "") = true by decide, sampleCodec.sha256_valid _⟩

theorem sample_within {name : String} (hbytes : (sampleIndex name).length + ((sampleWritten name).map fun w => (w.2.parts.map Part.bytes).sum).sum ≤ 1000)
    (hrows : (sampleInput name).items.length = 1) : Within [sampleInput name] (sampleWritten name) (sampleIndex name) 1000 10 false := by
  refine ⟨fun i hi => ?_, fun i hi => ?_, hbytes, ?_, fun i hi => ?_⟩
  · rw [List.mem_singleton.1 hi, hrows]
    decide
  · rw [List.mem_singleton.1 hi]
    show 2 ≤ artifactBytes
    decide
  · rw [List.map_singleton, List.sum_singleton, hrows]
    decide
  · rw [List.mem_singleton.1 hi]
    exact .inl rfl

/-- A reading of one table under a name with a hyphen is cut and published, and its reader refuses it. -/
theorem hyphen_is_lost :
    Published sampleCodec "file:///out.json" takeAll sampleContract [sampleInput "share-class"] (sampleWritten "share-class")
        (sampleStore "share-class") (sampleRef "share-class").value.normal (sampleIndex "share-class") ∧
      (∀ i ∈ [sampleInput "share-class"], i.Sound) ∧
      Within [sampleInput "share-class"] (sampleWritten "share-class") (sampleIndex "share-class") 1000 10 false ∧
      ¬Survives sampleCodec "file:///out.json" takeAll [sampleInput "share-class"] (sampleWritten "share-class") (sampleStore "share-class")
        (sampleRef "share-class").value.normal 1000 10 false := by
  have hpublished := sample_published (show (sampleWritten "share-class").length = 1 by decide +kernel) (by decide +kernel) (by decide +kernel)
  have hsound : ∀ i ∈ [sampleInput "share-class"], i.Sound := fun i hi => by
    rw [List.mem_singleton.1 hi]
    exact sampleInput_sound _
  have hwithin : Within [sampleInput "share-class"] (sampleWritten "share-class") (sampleIndex "share-class") 1000 10 false :=
    sample_within (by decide +kernel) (by decide +kernel)
  refine ⟨hpublished, hsound, hwithin, fun hsurvives => ?_⟩
  obtain ⟨body, size, _, hload, _⟩ := hsurvives.read
  have hnames := names_of_load hpublished hsound hwithin hload (sampleInput "share-class") (List.mem_singleton.2 rfl)
  exact absurd hnames (by decide +kernel)

/-- A reading of one row in a table under an identifier survives. -/
theorem rows_survive :
    Survives sampleCodec "file:///out.json" takeAll [sampleInput "rows"] (sampleWritten "rows") (sampleStore "rows")
      (sampleRef "rows").value.normal 1000 10 false := by
  refine (survives_iff (sample_published (by decide +kernel) (by decide +kernel) (by decide +kernel)) (fun i hi => ?_)
    (sample_within (by decide +kernel) (by decide +kernel))).2 fun i hi => ?_
  · rw [List.mem_singleton.1 hi]
    exact sampleInput_sound _
  · rw [List.mem_singleton.1 hi]
    decide +kernel

end EdgarPlatform.SourceReadings
