import EdgarPlatform.SourceReadings.RoundTrip

/-!
# Pieces put together

The pieces of an artifact are yielded one after another and gathered until the next artifact begins. What is gathered of an input that was cut holds, for every table, the rows the input held, in order, and its deferred records.
-/

namespace EdgarPlatform.SourceReadings

open PythonJson

variable {F : Type} {codec : Codec F} {outputUri : String} {sink : Receipt → List Char → Except String Unit} {store : Store}
variable {names : List Text} {maxBytes maxRows : Nat}

def rowsIn (chunks : List (Chunk F)) (name : Text) : List (Value F) :=
  chunks.flatMap fun chunk => (IndexMap.lookupEntry name chunk.tables).getD []

theorem foldl_extend (w : Whole F) (chunks : List (Chunk F)) :
    chunks.foldl Whole.extend w =
      ⟨w.artifact, w.tables.map fun table => (table.1, table.2 ++ rowsIn chunks table.1), w.deferred ++ chunks.flatMap Chunk.deferred⟩ := by
  induction chunks generalizing w with
  | nil =>
      have htables : (w.tables.map fun table => (table.1, table.2 ++ rowsIn ([] : List (Chunk F)) table.1)) = w.tables := by
        refine (List.map_congr_left fun table _ => ?_).trans (List.map_id _)
        exact Prod.ext rfl (List.append_nil _)
      rw [htables, List.flatMap_nil, List.append_nil]
      rfl
  | cons chunk rest ih =>
      rw [List.foldl_cons, ih]
      simp only [Whole.extend, List.map_map, List.flatMap_cons, List.append_assoc]
      refine congrArg (fun tables => (⟨w.artifact, tables, _⟩ : Whole F)) (List.map_congr_left fun table _ => ?_)
      refine Prod.ext rfl ?_
      show (table.2 ++ _) ++ _ = table.2 ++ rowsIn (chunk :: rest) table.1
      rw [List.append_assoc, rowsIn, rowsIn, List.flatMap_cons]

def assembled : List (Chunk F) → Option (Whole F)
  | [] => none
  | first :: rest => some ⟨first.artifact, first.tables.map fun table => (table.1, rowsIn (first :: rest) table.1),
      (first :: rest).flatMap Chunk.deferred⟩

theorem foldl_opened (first : Chunk F) (rest : List (Chunk F)) :
    some (rest.foldl Whole.extend ((Whole.opened first).extend first)) = assembled (first :: rest) := by
  have hfold : rest.foldl Whole.extend ((Whole.opened first).extend first) =
      (first :: rest).foldl Whole.extend (Whole.opened first) := rfl
  rw [hfold, foldl_extend, assembled]
  simp only [Whole.opened, List.map_map, List.nil_append]
  rfl

theorem foldl_gather_same {at' : Nat} (done : List (Whole F)) (w : Whole F) {chunks : List (Chunk F)}
    (h : ∀ chunk ∈ chunks, chunk.index = at') :
    chunks.foldl gather ⟨done, some (at', w)⟩ = ⟨done, some (at', chunks.foldl Whole.extend w)⟩ := by
  induction chunks generalizing w with
  | nil => rfl
  | cons chunk rest ih =>
      rw [List.foldl_cons, List.foldl_cons, gather]
      simp only [if_pos (h chunk (List.mem_cons_self ..))]
      exact ih _ fun other hother => h other (List.mem_cons_of_mem _ hother)

/-- The artifacts gathered so far, the last of them under a place. -/
def Gathering.all (g : Gathering F) : List (Whole F) := g.done ++ (g.current.map Prod.snd).toList

theorem foldl_gather_new {at' : Nat} (g : Gathering F) (hnew : ∀ entry ∈ g.current, entry.1 ≠ at') {chunks : List (Chunk F)}
    (hne : chunks ≠ []) (h : ∀ chunk ∈ chunks, chunk.index = at') :
    (chunks.foldl gather g).all = g.all ++ (assembled chunks).toList ∧
      ∀ entry ∈ (chunks.foldl gather g).current, entry.1 = at' := by
  obtain ⟨first, rest, rfl⟩ := List.exists_cons_of_ne_nil hne
  have hfirst := h first (List.mem_cons_self ..)
  have hstep : gather g first = ⟨g.all, some (at', (Whole.opened first).extend first)⟩ := by
    obtain ⟨done, current⟩ := g
    cases current with
    | none =>
        rw [gather, Gathering.all, hfirst]
        simp
    | some entry =>
        have hne : ¬at' = entry.1 := fun heq => hnew entry rfl heq.symm
        rw [gather, Gathering.all]
        simp only [hfirst, if_neg hne]
        rfl
  rw [List.foldl_cons, hstep, foldl_gather_same _ _ fun chunk hchunk => h chunk (List.mem_cons_of_mem _ hchunk), Gathering.all]
  refine ⟨?_, fun entry hentry => ?_⟩
  · rw [← foldl_opened]
    rfl
  · rw [← Option.some.inj hentry]

def chunkOf (at' : Nat) (artifact : Value F) (m : Made F) : Chunk F :=
  ⟨at', artifact, readTables m.pending, m.pending.deferred.map normalRow⟩

def chunksOf (at' : Nat) (artifact : Value F) (names : List Text) (made : List (Made F)) : List (Chunk F) :=
  if made = [] then [⟨at', artifact, names.map fun name => (name, []), []⟩] else made.map (chunkOf at' artifact)

def Kept (codec : Codec F) (outputUri : String) (store : Store) (made : List (Made F)) : Prop :=
  ∀ m ∈ made, store (receiptOf codec outputUri m.data).uri = some m.data

def bytesOf (made : List (Made F)) : Nat := (made.map fun m => m.data.length).sum

def countOf (made : List (Made F)) : Nat := (made.map Made.count).sum

theorem readParts_made {made : List (Made F)} (h : ∀ m ∈ made, m.Sound codec names) (htexts : ∀ name ∈ names, Text.Valid name)
    (hkept : Kept codec outputUri store made) (at' : Nat) (artifact : Value F) {c : Consumed} (hbytes : c.size + bytesOf made ≤ maxBytes)
    (hrows : c.rows + countOf made ≤ maxRows) :
    readParts codec store maxBytes maxRows names at' artifact c (made.map (namedOf codec outputUri)) =
      .ok (⟨c.size + bytesOf made, c.rows + countOf made⟩, made.map (chunkOf at' artifact)) := by
  induction made generalizing c with
  | nil => rfl
  | cons m rest ih =>
      have hsplit : bytesOf (m :: rest) = m.data.length + bytesOf rest := by rw [bytesOf, List.map_cons, List.sum_cons, bytesOf]
      have hcount : countOf (m :: rest) = m.count + countOf rest := by rw [countOf, List.map_cons, List.sum_cons, countOf]
      rw [List.map_cons, readParts, namedOf, readPart_made (h m (List.mem_cons_self ..)) htexts (receiptOf_exact m.data)
        (hkept m (List.mem_cons_self ..)) (by omega) (by omega), Except.bind_ok]
      show (readParts codec store maxBytes maxRows names at' artifact ⟨c.size + m.data.length, c.rows + m.count⟩ _ >>= _) = _
      rw [ih (fun other hother => h other (List.mem_cons_of_mem _ hother)) (fun other hother => hkept other (List.mem_cons_of_mem _ hother))
        (by show _ + _ + _ ≤ _; omega) (by show _ + _ + _ ≤ _; omega), Except.bind_ok]
      show Except.ok ((⟨c.size + m.data.length + bytesOf rest, c.rows + m.count + countOf rest⟩ : Consumed), _) = _
      rw [hsplit, hcount, Nat.add_assoc, Nat.add_assoc]
      rfl

theorem artifactChunks_entry {i : Input F} {c : Cutting F} {made : List (Made F)} (hsound : i.Sound)
    (h : i.CutInto codec outputUri c made) (hnames : areTableNames i.names = true) (hrows : i.items.length ≤ artifactRows)
    (hbytes : i.inputBytes ≤ artifactBytes) (hkept : Kept codec outputUri store made) (at' : Nat) {consumed : Consumed}
    (hsize : consumed.size + bytesOf made ≤ maxBytes) (hcount : consumed.rows + countOf made ≤ maxRows) :
    artifactChunks codec store maxBytes maxRows consumed at' (entryOf i c).normal =
      .ok (⟨consumed.size + bytesOf made, consumed.rows + countOf made⟩, chunksOf at' (entryOf i c).normal i.names made) := by
  rw [artifactChunks, checkArtifact_entry hsound h hrows hbytes, if_pos hnames, Except.bind_ok]
  by_cases hmade : made = []
  · subst hmade
    rfl
  · show (if made.map (namedOf codec outputUri) = [] then _ else _) = _
    rw [if_neg (by simpa using hmade), readParts_made h.sound hsound.texts hkept at' _ hsize hcount, chunksOf, if_neg hmade]

/-- An artifact read back holds what the input held. -/
structure Whole.Restores (w : Whole F) (i : Input F) : Prop where
  tables : ∀ name, IndexMap.lookupEntry name w.tables =
    if name ∈ i.names then some (((i.tables.get? name).getD []).map normalRow) else none
  deferred : w.deferred = i.deferred.map normalRow

theorem rowsOf_none (i : Input F) : rowsOf i.items none = i.deferred := by
  rw [rowsOf, Input.items, List.filterMap_append]
  have htables : (i.names.flatMap fun name => ((i.tables.get? name).getD []).map fun row => ((some name, row) : Item F)).filterMap
      (fun item => if item.1 = none then some item.2 else none) = [] := by
    refine List.filterMap_eq_nil_iff.2 fun item hitem => ?_
    obtain ⟨name, _, hrow⟩ := List.mem_flatMap.1 hitem
    obtain ⟨row, _, rfl⟩ := List.mem_map.1 hrow
    rfl
  rw [htables, List.nil_append, List.filterMap_map]
  exact List.filterMap_some

theorem rowsOf_some {i : Input F} (hnodup : i.names.Nodup) {name : Text} (hname : name ∈ i.names) :
    rowsOf i.items (some name) = (i.tables.get? name).getD [] := by
  have hone : ∀ names : List Text, names.Nodup → (names.flatMap fun name => ((i.tables.get? name).getD []).map
      fun row => ((some name, row) : Item F)).filterMap (fun item => if item.1 = some name then some item.2 else none) =
        if name ∈ names then (i.tables.get? name).getD [] else [] := by
    intro names hnodup
    induction names with
    | nil => rfl
    | cons other rest ih =>
        rw [List.nodup_cons] at hnodup
        rw [List.flatMap_cons, List.filterMap_append, ih hnodup.2, List.filterMap_map]
        by_cases heq : other = name
        · subst heq
          rw [if_neg hnodup.1, List.append_nil, if_pos (List.mem_cons_self ..)]
          refine (List.filterMap_congr fun row _ => ?_).trans List.filterMap_some
          exact if_pos rfl
        · have hempty : ((i.tables.get? other).getD []).filterMap ((fun item : Item F => if item.1 = some name then some item.2 else none) ∘
              fun row => (some other, row)) = [] := by
            refine List.filterMap_eq_nil_iff.2 fun row _ => ?_
            exact if_neg fun h => heq (Option.some.inj h)
          rw [hempty, List.nil_append]
          refine if_congr ?_ rfl rfl
          rw [List.mem_cons]
          exact ⟨.inr, fun h => h.resolve_left fun h => heq h.symm⟩
  have hdeferred : (i.deferred.map fun row => ((none, row) : Item F)).filterMap
      (fun item => if item.1 = some name then some item.2 else none) = [] := by
    refine List.filterMap_eq_nil_iff.2 fun item hitem => ?_
    obtain ⟨row, _, rfl⟩ := List.mem_map.1 hitem
    rfl
  rw [rowsOf, Input.items, List.filterMap_append, hone i.names hnodup, if_pos hname, hdeferred, List.append_nil]

theorem lookupEntry_keys {α β : Type} (f : Text → β) (entries : List (Text × α)) (name : Text) :
    IndexMap.lookupEntry name (entries.map fun entry => (entry.1, f entry.1)) =
      if name ∈ entries.map Prod.fst then some (f name) else none := by
  induction entries with
  | nil => rfl
  | cons entry rest ih =>
      rw [List.map_cons, IndexMap.lookupEntry, ih, List.map_cons]
      by_cases heq : entry.1 = name
      · rw [if_pos heq, if_pos (List.mem_cons.2 (.inl heq.symm)), heq]
      · rw [if_neg heq]
        refine if_congr ?_ rfl rfl
        rw [List.mem_cons]
        exact ⟨.inr, fun h => h.resolve_left fun h => heq h.symm⟩

theorem flatMap_map_rows (made : List (Made F)) (name : Option Text) :
    (made.flatMap fun m => (m.pending.target name).map normalRow) = (made.flatMap fun m => m.pending.target name).map normalRow := by
  rw [List.map_flatMap]

theorem assembled_chunksOf {i : Input F} {c : Cutting F} {made : List (Made F)} (h : i.CutInto codec outputUri c made)
    (hnames : areTableNames i.names = true) (at' : Nat) (artifact : Value F) :
    ∃ w, assembled (chunksOf at' artifact i.names made) = some w ∧ w.artifact = artifact ∧ w.Restores i := by
  have hnodup : i.names.Nodup := by
    rw [areTableNames, Bool.and_eq_true] at hnames
    exact of_decide_eq_true hnames.2
  have hrows : ∀ name ∈ i.names, (made.flatMap fun m => (m.pending.target (some name)).map normalRow) =
      ((i.tables.get? name).getD []).map normalRow := by
    intro name hname
    rw [flatMap_map_rows, h.targets, rowsOf_some hnodup hname]
  have hdeferred : (made.flatMap fun m => m.pending.deferred.map normalRow) = i.deferred.map normalRow := by
    rw [← rowsOf_none i, ← h.targets none, ← flatMap_map_rows]
    rfl
  cases made with
  | nil =>
      refine ⟨_, rfl, rfl, fun name => ?_, hdeferred⟩
      show IndexMap.lookupEntry name ((i.names.map fun name => (name, [])).map fun table => (table.1, rowsIn _ table.1)) = _
      rw [lookupEntry_keys, List.map_map]
      show (if name ∈ i.names.map id then _ else _) = _
      rw [List.map_id]
      refine ite_congr rfl (fun hname => ?_) fun _ => rfl
      rw [← hrows name hname, rowsIn, List.flatMap_cons, List.flatMap_nil, List.flatMap_nil]
      show some ((IndexMap.lookupEntry name (i.names.map fun name => (name, ([] : List (Value F))))).getD [] ++ []) = some []
      rw [List.append_nil]
      cases hlookup : IndexMap.lookupEntry name (i.names.map fun name => (name, ([] : List (Value F)))) with
      | none => rfl
      | some rows =>
          obtain ⟨_, _, heq⟩ := List.mem_map.1 (IndexMap.lookupEntry_eq_some hlookup)
          exact congrArg some (congrArg Prod.snd heq).symm
  | cons m rest =>
      have hchunks : ∀ name, rowsIn ((m :: rest).map (chunkOf at' artifact)) name =
          (m :: rest).flatMap fun m => (m.pending.target (some name)).map normalRow := by
        intro name
        rw [rowsIn, List.flatMap_map]
        exact List.flatMap_congr fun other _ => lookup_readTables other.pending name
      refine ⟨_, rfl, rfl, fun name => ?_, ?_⟩
      · show IndexMap.lookupEntry name ((readTables m.pending).map fun table => (table.1, rowsIn ((m :: rest).map (chunkOf at' artifact)) table.1)) = _
        rw [lookupEntry_keys]
        refine ite_congr (propext ?_) (fun hname => ?_) fun _ => rfl
        · rw [keys_readTables]
          exact (h.sound m (List.mem_cons_self ..)).keys name
        · rw [hchunks, hrows name hname]
      · show ((m :: rest).map (chunkOf at' artifact)).flatMap Chunk.deferred = _
        rw [List.flatMap_map]
        exact hdeferred

end EdgarPlatform.SourceReadings
