import EdgarPlatform.SourceReadings.Receipts

/-!
# What the pieces of an input hold

The size counted for the piece being filled is the length of its text, because each added row takes its own text and a comma where the list it goes into is not empty. So every piece that is made is within the bound of bytes, and the pieces hold the rows of every table and the deferred records in order, each once.
-/

namespace EdgarPlatform.SourceReadings

open PythonJson

variable {F : Type} {codec : Codec F} {floats : Floats F} {outputUri : String} {sink : Receipt → List Char → Except String Unit}
variable {names : List Text}

theorem addedWeight_one (rows : List (Row F)) (row : Row F) :
    addedWeight (fun _ => 1) spellText floats rows [row] = (Value.dict row).size floats + if rows = [] then 0 else 1 := by
  rw [addedWeight, List.map_singleton, List.sum_singleton, ← size_eq_weight, List.length_singleton]

/-- An item that has a table in the piece, if it goes into one. -/
def Pending.Takes (p : Pending F) (item : Item F) : Prop := ∀ name, item.1 = some name → name ∈ p.tables.keys

theorem size_insert_of_mem {α : Type} {m : IndexMap Text α} {key : Text} (h : key ∈ m.keys) (value : α) :
    (m.insert key value).size = m.size := by
  rw [← IndexMap.length_keys, ← IndexMap.length_keys, IndexMap.keys_insert, if_pos h]

theorem size_append {p : Pending F} {item : Item F} (h : p.Takes item) :
    (p.append item).value.size floats =
      p.value.size floats + ((Value.dict item.2).size floats + if p.target item.1 = [] then 0 else 1) := by
  rw [size_eq_weight, size_eq_weight, weight_pending marks_one, weight_pending marks_one, ← addedWeight_one]
  obtain ⟨_ | name, row⟩ := item
  · rw [Pending.append, weight_rowsValue_append marks_one]
    show _ + p.tables.total _ + (p.tables.size - 1) + _ = _ + addedWeight _ _ _ p.deferred [row]
    omega
  · obtain ⟨rows, hrows⟩ := IndexMap.mem_keys_iff.1 (h name rfl)
    have htarget : p.target (some name) = rows := by
      rw [Pending.target, hrows]
      rfl
    have htotal := IndexMap.total_insert (tableWeight (fun _ => 1) spellText floats) p.tables name (rows ++ [row])
    rw [hrows, Option.elim_some, tableWeight, tableWeight, weight_rowsValue_append marks_one] at htotal
    show _ + (p.tables.insert name (p.target (some name) ++ [row])).total _ + ((p.tables.insert name _).size - 1) + (rowsValue p.deferred).weight _ _ _ =
      _ + addedWeight _ _ _ (p.target (some name)) [row]
    rw [htarget, size_insert_of_mem (h name rfl)]
    omega

theorem target_append (p : Pending F) (item : Item F) (name : Option Text) :
    (p.append item).target name = p.target name ++ if item.1 = name then [item.2] else [] := by
  obtain ⟨_ | table, row⟩ := item
  · cases name with
    | none => rfl
    | some other => simp [Pending.append, Pending.target]
  · cases name with
    | none => simp [Pending.append, Pending.target]
    | some other =>
        simp only [Pending.append, Pending.target, IndexMap.get?_insert, Option.some_inj]
        by_cases heq : other = table
        · rw [if_pos heq, if_pos heq.symm, heq]
          rfl
        · rw [if_neg heq, if_neg (Ne.symm heq), List.append_nil]

/-- The rows of items that go into one table, or the deferred ones. -/
def rowsOf (items : List (Item F)) (name : Option Text) : List (Row F) :=
  items.filterMap fun item => if item.1 = name then some item.2 else none

theorem rowsOf_append (items : List (Item F)) (item : Item F) (name : Option Text) :
    rowsOf (items ++ [item]) name = rowsOf items name ++ if item.1 = name then [item.2] else [] := by
  rw [rowsOf, List.filterMap_append, rowsOf]
  split_ifs with h <;> simp [h]

def Pending.rows (p : Pending F) : Nat := p.tables.total (fun _ rows => rows.length) + p.deferred.length

theorem rows_append {p : Pending F} {item : Item F} (h : p.Takes item) : (p.append item).rows = p.rows + 1 := by
  obtain ⟨_ | name, row⟩ := item
  · rw [Pending.append, Pending.rows, Pending.rows]
    dsimp only
    rw [List.length_append, List.length_singleton]
    omega
  · obtain ⟨rows, hrows⟩ := IndexMap.mem_keys_iff.1 (h name rfl)
    have htotal := IndexMap.total_insert (fun _ rows => rows.length) p.tables name (p.target (some name) ++ [row])
    rw [hrows, Option.elim_some, Pending.target, hrows, Option.getD_some, List.length_append, List.length_singleton] at htotal
    rw [Pending.append, Pending.rows, Pending.rows]
    dsimp only
    rw [Pending.target, hrows, Option.getD_some]
    omega

theorem keys_append {p : Pending F} {item : Item F} (h : p.Takes item) : (p.append item).tables.keys = p.tables.keys := by
  obtain ⟨_ | name, row⟩ := item
  · rfl
  · show (p.tables.insert name _).keys = _
    rw [IndexMap.keys_insert, if_pos (h name rfl)]

def Pending.RowsValid (p : Pending F) : Prop := ∀ name, ∀ row ∈ p.target name, (Value.dict row).Valid

theorem mem_keys_fresh {name : Text} : name ∈ (Pending.fresh names : Pending F).tables.keys ↔ name ∈ names := by
  rw [Pending.fresh, IndexMap.mem_keys_ofList, List.map_map]
  show name ∈ names.map id ↔ _
  rw [List.map_id]

theorem get?_fresh {name : Text} {rows : List (Row F)} (h : (Pending.fresh names : Pending F).tables.get? name = some rows) :
    rows = [] := by
  obtain hmem | hempty := IndexMap.get?_extend_cases h
  · obtain ⟨_, _, heq⟩ := List.mem_map.1 hmem
    exact (congrArg Prod.snd heq).symm
  · cases hempty

theorem target_fresh (name : Option Text) : (Pending.fresh names : Pending F).target name = [] := by
  cases name with
  | none => rfl
  | some name =>
      rw [Pending.target]
      cases hget : (Pending.fresh names : Pending F).tables.get? name with
      | none => rfl
      | some rows => exact get?_fresh hget

theorem rows_fresh : (Pending.fresh names : Pending F).rows = 0 := by
  have hzero : ∀ n ∈ (Pending.fresh names : Pending F).tables.entries.map fun entry => entry.2.length, n = 0 := by
    intro n hn
    obtain ⟨⟨name, rows⟩, hentry, rfl⟩ := List.mem_map.1 hn
    exact congrArg List.length (get?_fresh (IndexMap.get?_eq_some_iff.2 hentry))
  show (List.map _ _).sum + 0 = 0
  rw [List.sum_eq_zero hzero]

/-- A piece that was made: what it holds, the rows counted in it, and its text. -/
structure Made (F : Type) where
  pending : Pending F
  count : Nat
  data : List Char

/-- What is known of the piece being filled: it has every table, its rows and bytes are counted right, and unless it is empty it is within both bounds. -/
structure Filling (codec : Codec F) (names : List Text) (p : Pending F) (count size : Nat) : Prop where
  keys : ∀ name, name ∈ p.tables.keys ↔ name ∈ names
  counted : p.rows = count
  sized : p.value.size codec.floats = size
  room : count ≠ 0 → size ≤ partBytes
  most : count ≤ partRows
  valid : p.RowsValid

/-- A piece that was made holds something and is within both bounds. -/
structure Made.Sound (codec : Codec F) (names : List Text) (m : Made F) : Prop where
  keys : ∀ name, name ∈ m.pending.tables.keys ↔ name ∈ names
  rows : m.pending.rows = m.count
  holds : m.count ≠ 0
  most : m.count ≤ partRows
  room : m.data.length ≤ partBytes
  text : dumps codec.floats m.pending.value = .ok m.data
  valid : m.pending.RowsValid

def partOf (codec : Codec F) (outputUri : String) (ordinal : Nat) (m : Made F) : Part :=
  ⟨receiptOf codec outputUri m.data, ordinal, m.count, m.data.length⟩

/-- The parts of pieces made one after another, from an ordinal on. -/
def partsFrom (codec : Codec F) (outputUri : String) : Nat → List (Made F) → List Part
  | _, [] => []
  | ordinal, m :: rest =>
      partOf codec outputUri ordinal m :: partsFrom codec outputUri (ordinal + m.count) rest

/-- Where the cutting stands after some items: the pieces made and the one being filled hold them in order. -/
structure Cut (codec : Codec F) (outputUri : String) (names : List Text) (items : List (Item F)) (c : Cutting F) (made : List (Made F)) :
    Prop where
  sound : ∀ m ∈ made, m.Sound codec names
  parts : c.parts = partsFrom codec outputUri 1 made
  handed : c.handed = made.map fun m => (receiptOf codec outputUri m.data, m.data)
  ordinal : c.ordinal = 1 + (made.map Made.count).sum
  filling : Filling codec names c.pending c.count c.size
  targets : ∀ name, (made.flatMap fun m => m.pending.target name) ++ c.pending.target name = rowsOf items name
  total : c.ordinal - 1 + c.count = items.length

theorem partsFrom_append (ordinal : Nat) (made : List (Made F)) (m : Made F) :
    partsFrom codec outputUri ordinal (made ++ [m]) =
      partsFrom codec outputUri ordinal made ++ [partOf codec outputUri (ordinal + (made.map Made.count).sum) m] := by
  induction made generalizing ordinal with
  | nil => rfl
  | cons first rest ih =>
      rw [List.cons_append, partsFrom, ih, partsFrom, List.cons_append, List.map_cons, List.sum_cons, Nat.add_assoc]

variable {c next : Cutting F}

theorem flush_eq_ok (h : flush codec outputUri sink c = .ok next) :
    ∃ data, dumps codec.floats c.pending.value = .ok data ∧ next = { c with
      parts := c.parts ++ [⟨receiptOf codec outputUri data, c.ordinal, c.count, data.length⟩]
      handed := c.handed ++ [(receiptOf codec outputUri data, data)]
      ordinal := c.ordinal + c.count } := by
  rw [flush, Except.bind_eq_ok] at h
  obtain ⟨data, hdata, h⟩ := h
  obtain ⟨_, _, h⟩ := Except.bind_eq_ok.1 h
  exact ⟨data, hdata, (Except.ok.inj h).symm⟩

theorem place_eq_ok {item : Item F} {extra : Nat} (h : place c item extra = .ok next) :
    c.size + extra ≤ partBytes ∧
      next = { c with pending := c.pending.append item, size := c.size + extra, count := c.count + 1 } := by
  rw [place, Except.ite_error_eq_ok] at h
  exact ⟨Nat.le_of_not_lt h.1, (Except.ok.inj h.2).symm⟩

variable {empty : Nat}

theorem Cut.flush {items : List (Item F)} {made : List (Made F)} (h : Cut codec outputUri names items c made)
    (hcount : c.count ≠ 0) (hflush : SourceReadings.flush codec outputUri sink c = .ok next)
    (hempty : Filling codec names (.fresh names) 0 empty) :
    ∃ data, Cut codec outputUri names items { next with pending := .fresh names, count := 0, size := empty }
      (made ++ [⟨c.pending, c.count, data⟩]) := by
  obtain ⟨data, hdata, rfl⟩ := flush_eq_ok hflush
  have hsize : data.length = c.size := (length_of_dumps hdata).trans h.filling.sized
  have hsound : Made.Sound codec names ⟨c.pending, c.count, data⟩ :=
    ⟨h.filling.keys, h.filling.counted, hcount, h.filling.most, hsize ▸ h.filling.room hcount, hdata, h.filling.valid⟩
  refine ⟨data, fun m hm => ?_, ?_, ?_, ?_, hempty, fun name => ?_, ?_⟩
  · obtain hm | hm := List.mem_append.1 hm
    · exact h.sound m hm
    · rw [List.mem_singleton.1 hm]
      exact hsound
  · show c.parts ++ _ = _
    rw [partsFrom_append, h.parts, h.ordinal]
    rfl
  · show c.handed ++ _ = _
    rw [h.handed, List.map_append]
    rfl
  · show c.ordinal + c.count = _
    rw [h.ordinal, List.map_append, List.sum_append, List.map_singleton, List.sum_singleton, Nat.add_assoc]
  · show List.flatMap _ _ ++ (Pending.fresh names).target name = _
    rw [target_fresh, List.append_nil, List.flatMap_append, List.flatMap_singleton]
    exact h.targets name
  · have htotal := h.total
    have hordinal := h.ordinal
    show c.ordinal + c.count - 1 + 0 = _
    omega

theorem Cut.place {items : List (Item F)} {made : List (Made F)} {item : Item F} {extra : Nat}
    (h : Cut codec outputUri names items c made) (hroom : c.count < partRows) (hnames : ∀ name, item.1 = some name → name ∈ names)
    (hvalid : (Value.dict item.2).Valid)
    (hextra : extra = (Value.dict item.2).size codec.floats + if c.pending.target item.1 = [] then 0 else 1)
    (hplace : SourceReadings.place c item extra = .ok next) : Cut codec outputUri names (items ++ [item]) next made := by
  obtain ⟨hbytes, rfl⟩ := place_eq_ok hplace
  have htakes : c.pending.Takes item := fun name hname => (h.filling.keys name).2 (hnames name hname)
  refine ⟨h.sound, h.parts, h.handed, h.ordinal, ⟨fun name => ?_, ?_, ?_, fun _ => hbytes, hroom, fun name row hrow => ?_⟩,
    fun name => ?_, ?_⟩
  · rw [keys_append htakes]
    exact h.filling.keys name
  · rw [rows_append htakes, h.filling.counted]
  · rw [size_append htakes, h.filling.sized, hextra]
  · rw [target_append, List.mem_append] at hrow
    obtain hrow | hrow := hrow
    · exact h.filling.valid name row hrow
    · split_ifs at hrow
      · rw [List.mem_singleton.1 hrow]
        exact hvalid
      · exact absurd hrow List.not_mem_nil
  · rw [target_append, rowsOf_append, ← List.append_assoc, h.targets]
  · have htotal := h.total
    rw [List.length_append, List.length_singleton]
    show c.ordinal - 1 + (c.count + 1) = _
    omega

theorem targets_of_rows {p : Pending F} {size : Nat} {count : Nat} (h : Filling codec names p count size) (hzero : count = 0)
    (name : Option Text) : p.target name = [] := by
  have hrows : p.tables.total (fun _ rows => rows.length) + p.deferred.length = 0 := h.counted.trans hzero
  cases name with
  | none => exact List.eq_nil_of_length_eq_zero (show p.deferred.length = 0 by omega)
  | some name =>
      have hle := IndexMap.elim_le_total (fun _ rows => rows.length) p.tables name
      rw [Pending.target]
      cases hget : p.tables.get? name with
      | none => rfl
      | some rows =>
          rw [hget, Option.elim_some] at hle
          exact List.eq_nil_of_length_eq_zero (show rows.length = 0 by omega)

theorem Cut.addItem {items : List (Item F)} {made : List (Made F)} {item : Item F}
    (h : Cut codec outputUri names items c made) (hempty : Filling codec names (.fresh names) 0 empty)
    (hnames : ∀ name, item.1 = some name → name ∈ names) (hvalid : (Value.dict item.2).Valid)
    (hadd : SourceReadings.addItem codec outputUri sink names empty c item = .ok next) :
    ∃ made, Cut codec outputUri names (items ++ [item]) next made := by
  rw [SourceReadings.addItem, Except.bind_eq_ok] at hadd
  obtain ⟨encoded, hencoded, hadd⟩ := hadd
  have hlength := length_of_dumps hencoded
  by_cases hfull : c.count ≠ 0 ∧ (partBytes < c.size + (encoded.length + if c.pending.target item.1 = [] then 0 else 1) ∨ c.count = partRows)
  · rw [if_pos hfull] at hadd
    obtain ⟨flushed, hflushed, hadd⟩ := Except.bind_eq_ok.1 hadd
    obtain ⟨data, hcut⟩ := h.flush hfull.1 hflushed hempty
    refine ⟨_, hcut.place (Nat.lt_of_lt_of_le Nat.zero_lt_one (by decide)) hnames hvalid ?_ hadd⟩
    show _ = _ + if (Pending.fresh names).target item.1 = [] then 0 else 1
    rw [if_pos (target_fresh item.1), Nat.add_zero, hlength]
  · rw [if_neg hfull] at hadd
    refine ⟨made, h.place ?_ hnames hvalid (by rw [hlength]) hadd⟩
    by_cases hzero : c.count = 0
    · rw [hzero]
      decide
    · exact lt_of_le_of_ne h.filling.most fun heq => hfull ⟨hzero, .inr heq⟩

/-- What a caller hands over: its evidence by exact receipts, rows and names a document can hold, and no table that is not named. -/
structure Input.Sound (i : Input F) : Prop where
  input : i.input.exact = true
  context : ∀ r ∈ i.context, r.exact = true
  lookups : ∀ r ∈ i.lookups, r.exact = true
  named : ∀ name ∈ i.tables.keys, name ∈ i.names
  texts : ∀ name ∈ i.names, Text.Valid name
  rows : ∀ rows ∈ i.tables.values, ∀ row ∈ rows, (Value.dict row).Valid
  deferred : ∀ row ∈ i.deferred, (Value.dict row).Valid

theorem mem_items {i : Input F} {item : Item F} (h : item ∈ i.items) :
    (∃ name rows, name ∈ i.names ∧ i.tables.get? name = some rows ∧ item.2 ∈ rows ∧ item.1 = some name) ∨
      item.2 ∈ i.deferred ∧ item.1 = none := by
  obtain h | h := List.mem_append.1 h
  · obtain ⟨name, hname, hrow⟩ := List.mem_flatMap.1 h
    cases hget : i.tables.get? name with
    | none =>
        rw [hget] at hrow
        exact (List.not_mem_nil hrow).elim
    | some rows =>
        rw [hget] at hrow
        obtain ⟨row, hmem, rfl⟩ := List.mem_map.1 hrow
        exact .inl ⟨name, rows, hname, hget, hmem, rfl⟩
  · obtain ⟨row, hrow, rfl⟩ := List.mem_map.1 h
    exact .inr ⟨hrow, rfl⟩

theorem Input.Sound.item {i : Input F} (h : i.Sound) {item : Item F} (hitem : item ∈ i.items) :
    (∀ name, item.1 = some name → name ∈ i.names) ∧ (Value.dict item.2).Valid := by
  obtain ⟨name, rows, hname, hget, hrow, heq⟩ | ⟨hrow, heq⟩ := mem_items hitem
  · refine ⟨fun other hother => ?_, h.rows rows (IndexMap.mem_values_of_get? hget) _ hrow⟩
    rw [heq] at hother
    exact Option.some.inj hother ▸ hname
  · refine ⟨fun other hother => ?_, h.deferred _ hrow⟩
    rw [heq] at hother
    cases hother

theorem filling_fresh (h : emptySize codec names = .ok empty) :
    Filling codec names (Pending.fresh names) 0 empty := by
  rw [emptySize] at h
  obtain ⟨data, hdata, rfl⟩ : ∃ data, dumps codec.floats (Pending.fresh names : Pending F).value = .ok data ∧ data.length = empty := by
    cases hdumps : dumps codec.floats (Pending.fresh names : Pending F).value with
    | error e =>
        rw [hdumps] at h
        cases h
    | ok data =>
        rw [hdumps] at h
        exact ⟨data, rfl, Except.ok.inj h⟩
  refine ⟨fun _ => mem_keys_fresh, rows_fresh, (length_of_dumps hdata).symm, fun h => absurd rfl h, Nat.zero_le _, fun name row hrow => ?_⟩
  rw [target_fresh] at hrow
  exact (List.not_mem_nil hrow).elim

theorem cut_start (h : Filling codec names (Pending.fresh names) 0 empty) :
    Cut codec outputUri names [] (start names empty) [] := by
  refine ⟨fun _ hm => (List.not_mem_nil hm).elim, rfl, rfl, rfl, h, fun name => ?_, rfl⟩
  exact target_fresh name

theorem cut_of_run {i : Input F} (hsound : i.Sound) (hempty : Filling codec i.names (Pending.fresh i.names) 0 empty)
    {front : List (Item F)} (hfront : front <+: i.items) {c : Cutting F}
    (hrun : front.foldlM (addItem codec outputUri sink i.names empty) (start i.names empty) = .ok c) :
    ∃ made, Cut codec outputUri i.names front c made := by
  refine Runs.run_invariant (fun items mid => ∃ made, Cut codec outputUri i.names items mid made) hrun ⟨[], cut_start hempty⟩ ?_
  intro done item rest mid next hitems hmid hnext
  obtain ⟨made, hmid⟩ := hmid
  have hmem : item ∈ i.items := hfront.subset (by rw [hitems]; simp)
  exact hmid.addItem hempty (hsound.item hmem).1 (hsound.item hmem).2 hnext

/-- The pieces made of an input hold it. -/
structure Input.CutInto (codec : Codec F) (outputUri : String) (i : Input F) (c : Cutting F) (made : List (Made F)) : Prop where
  sound : ∀ m ∈ made, m.Sound codec i.names
  parts : c.parts = partsFrom codec outputUri 1 made
  handed : c.handed = made.map fun m => (receiptOf codec outputUri m.data, m.data)
  ordinal : c.ordinal = 1 + (made.map Made.count).sum
  targets : ∀ name, (made.flatMap fun m => m.pending.target name) = rowsOf i.items name
  total : c.ordinal - 1 = i.items.length

theorem pieces_eq_ok {i : Input F} {entry : Value F} {c : Cutting F} (hsound : i.Sound)
    (h : pieces codec outputUri sink i = .ok (entry, c)) : entry = entryOf i c ∧ ∃ made, Input.CutInto codec outputUri i c made := by
  rw [pieces, Except.bind_eq_ok] at h
  obtain ⟨empty, hempty, h⟩ := h
  obtain ⟨cut, hcut, h⟩ := Except.bind_eq_ok.1 h
  obtain ⟨last, hlast, h⟩ := Except.bind_eq_ok.1 h
  cases h
  have hfresh := filling_fresh hempty
  obtain ⟨made, hmade⟩ := cut_of_run hsound hfresh (List.prefix_refl _) hcut
  refine ⟨rfl, ?_⟩
  rw [finish] at hlast
  by_cases hcount : cut.count ≠ 0
  · rw [if_pos hcount] at hlast
    obtain ⟨data, hdone⟩ := hmade.flush hcount hlast hfresh
    refine ⟨_, hdone.sound, hdone.parts, hdone.handed, hdone.ordinal, fun name => ?_, hdone.total⟩
    have htargets := hdone.targets name
    rwa [target_fresh, List.append_nil] at htargets
  · have hzero : cut.count = 0 := not_not.1 hcount
    rw [if_neg hcount] at hlast
    cases hlast
    refine ⟨made, hmade.sound, hmade.parts, hmade.handed, hmade.ordinal, fun name => ?_, ?_⟩
    · rw [← hmade.targets name, targets_of_rows hmade.filling hzero, List.append_nil]
    · rw [← hmade.total, hzero, Nat.add_zero]

end EdgarPlatform.SourceReadings
