import EdgarPlatform.SourceStreams.Output

/-!
# The pieces of a source

Wherever the reading of a source stands, its parts and the piece being filled hold its readings so far, in order and each once. The parts' ordinals run from the first reading on without a gap, each part's text is in the spool, and the bytes counted for the piece being filled are those of its text. So no piece is ever found to differ from what was counted.
-/

namespace EdgarPlatform.SourceStreams

open PythonJson SourceReadings

variable {F : Type} {codec : Codec F} {spec : Spec} {outputUri : String} {s t : Streaming F}

def pieceOf (names : List Text) (readings : List (Reading F)) : Pending F := readings.foldl extend (.fresh names)

theorem pieceOf_append (names : List Text) (readings : List (Reading F)) (r : Reading F) :
    pieceOf names (readings ++ [r]) = extend (pieceOf names readings) r := List.foldl_append

theorem keys_fresh {names : List Text} (h : names.Nodup) : (Pending.fresh names : Pending F).tables.keys = names := by
  have hkeys : (names.map fun name => (name, ([] : List (Row F)))).map Prod.fst = names := by
    rw [List.map_map]
    exact List.map_id names
  have hentries : (Pending.fresh names : Pending F).tables.entries = names.map fun name => (name, []) :=
    IndexMap.entries_extend (show ([] ++ (names.map fun name => (name, ([] : List (Row F)))).map Prod.fst).Nodup from hkeys.symm ▸ h)
  rw [IndexMap.keys, hentries, hkeys]

def Declared (names : List Text) (r : Reading F) : Prop := ∀ entry ∈ r.tables.entries, entry.1 ∈ names

variable {readings : List (Reading F)}

theorem keys_pieceOf {names : List Text} (hnames : names.Nodup) (h : ∀ r ∈ readings, Declared names r) :
    (pieceOf names readings).tables.keys = names := by
  induction readings using List.reverseRecOn with
  | nil => exact keys_fresh hnames
  | append_singleton front r ih =>
      have hfront := ih fun other hother => h other (List.mem_append_left _ hother)
      have hknown : Known (pieceOf names front) r := by
        rw [Known, hfront]
        exact h r (List.mem_append_right _ (List.mem_singleton_self r))
      rw [pieceOf_append, keys_extend hknown, hfront]

/-- More was staged after what was. -/
structure Grows (s t : Streaming F) : Prop where
  spool : s.spool <+: t.spool
  staged : s.staged ⊆ t.staged

theorem Grows.refl (s : Streaming F) : Grows s s := ⟨List.prefix_refl _, List.Subset.refl _⟩

theorem Grows.trans {u : Streaming F} (h : Grows s t) (hnext : Grows t u) : Grows s u :=
  ⟨h.spool.trans hnext.spool, fun _ hmem => hnext.staged (h.staged hmem)⟩

def Stages (s : Streaming F) (receipt : Receipt) (data : List UInt8) : Prop :=
  ∃ offset size, (offset, size, receipt) ∈ s.staged ∧ offset + size ≤ s.spool.length ∧ respool s.spool offset size = data

theorem respool_append {spool more : List UInt8} {offset size : Nat} (h : offset + size ≤ spool.length) :
    respool (spool ++ more) offset size = respool spool offset size := by
  rw [respool, respool, List.drop_append_of_le_length (by omega), List.take_append_of_le_length (by rw [List.length_drop]; omega)]

theorem Stages.mono {receipt : Receipt} {data : List UInt8} (h : Stages s receipt data) (hgrows : Grows s t) : Stages t receipt data := by
  obtain ⟨offset, size, hmem, hle, hdata⟩ := h
  obtain ⟨more, hmore⟩ := hgrows.spool
  refine ⟨offset, size, hgrows.staged hmem, ?_, ?_⟩
  · rw [← hmore, List.length_append]
    omega
  · rw [← hmore, respool_append hle, hdata]

/-- A part holds some readings, and its text is staged. -/
structure Holds (codec : Codec F) (spec : Spec) (outputUri : String) (s : Streaming F) (readings : List (Reading F)) (part : Part) : Prop where
  filled : readings ≠ []
  declared : ∀ r ∈ readings, Declared spec.names r
  most : readings.length ≤ spec.partitionRecords
  count : part.recordCount = readings.length
  data : ∃ data, encode codec.floats (pieceOf spec.names readings).value = .ok data ∧ part.receipt = receiptOf codec outputUri data ∧
    part.bytes = data.length ∧ data.length ≤ spec.partitionBytes ∧ Stages s part.receipt data

/-- The parts hold the readings of each group, and the piece being filled holds the current ones, its bytes counted as they are. -/
structure At (codec : Codec F) (spec : Spec) (outputUri : String) (s : Streaming F) (groups : List (List (Reading F)))
    (current : List (Reading F)) : Prop where
  parts : List.Forall₂ (Holds codec spec outputUri s) groups s.parts
  contiguous : Contiguous 1 s.parts
  pending : s.pending = pieceOf spec.names current
  declared : ∀ r ∈ current, Declared spec.names r
  count : s.count = current.length
  size : s.size = s.pending.value.byteSize codec.floats
  most : s.count ≤ spec.partitionRecords
  first : current ≠ [] → s.first = 1 + groups.flatten.length

theorem Spec.nodup (spec : Spec) : spec.names.Nodup := by
  have hnames := spec.names_ok
  simp only [areTableNames, Bool.and_eq_true, decide_eq_true_eq] at hnames
  exact hnames.2

theorem Holds.mono {part : Part} (h : Holds codec spec outputUri s readings part) (hgrows : Grows s t) :
    Holds codec spec outputUri t readings part := by
  obtain ⟨data, hdata, hreceipt, hbytes, hroom, hstages⟩ := h.data
  exact ⟨h.filled, h.declared, h.most, h.count, data, hdata, hreceipt, hbytes, hroom, hstages.mono hgrows⟩

theorem contiguous_append {ordinal : Nat} {parts : List Part} {part : Part} (h : Contiguous ordinal parts)
    (hfirst : part.firstOrdinal = ordinal + (parts.map Part.recordCount).sum) : Contiguous ordinal (parts ++ [part]) := by
  induction parts generalizing ordinal with
  | nil => exact ⟨hfirst, trivial⟩
  | cons other rest ih =>
      refine ⟨h.1, ih h.2 ?_⟩
      rw [hfirst, List.map_cons, List.sum_cons, Nat.add_assoc]

variable {groups : List (List (Reading F))}

theorem sum_counts {parts : List Part} (h : List.Forall₂ (Holds codec spec outputUri s) groups parts) :
    (parts.map Part.recordCount).sum = groups.flatten.length := by
  induction h with
  | nil => rfl
  | cons hholds _ ih => rw [List.map_cons, List.sum_cons, hholds.count, ih, List.flatten_cons, List.length_append]

theorem outside_ne_size {α : Type} (found : Except String α) : outside found ≠ .error .size := by
  cases found <;> exact fun h => nomatch h

theorem outside_eq_ok {α : Type} {found : Except String α} {a : α} (h : outside found = .ok a) : found = .ok a := by
  cases found with
  | error e => cases h
  | ok b => exact congrArg Except.ok (Except.ok.inj h)

theorem bind_ne_size {α β : Type} {x : Except Failure α} {f : α → Except Failure β} (hx : x ≠ .error .size)
    (hf : ∀ a, x = .ok a → f a ≠ .error .size) : (x >>= f) ≠ .error .size := by
  intro h
  obtain h | ⟨a, ha, h⟩ := Except.bind_eq_error.1 h
  · exact hx h
  · exact hf a ha h

theorem forM_ne_size {α : Type} {f : α → Except Failure Unit} {items : List α} (h : ∀ a ∈ items, f a ≠ .error .size) :
    items.forM f ≠ .error .size := by
  induction items with
  | nil => exact fun h => nomatch h
  | cons a rest ih => exact bind_ne_size (h a (List.mem_cons_self ..)) fun _ _ => ih fun b hb => h b (List.mem_cons_of_mem _ hb)

theorem flush_eq_ok (hcount : s.count ≠ 0) (h : flush codec spec outputUri s = .ok t) :
    ∃ data empty, encode codec.floats s.pending.value = .ok data ∧ data.length ≤ spec.partitionBytes ∧
      encode codec.floats (Pending.fresh s.pending.tables.keys : Pending F).value = .ok empty ∧ t = { s with
        spool := s.spool ++ data
        staged := s.staged ++ [(s.spool.length, data.length, receiptOf codec outputUri data)]
        parts := s.parts ++ [⟨receiptOf codec outputUri data, s.first, s.count, data.length⟩]
        pending := .fresh s.pending.tables.keys
        count := 0
        size := empty.length } := by
  rw [flush, if_neg hcount] at h
  obtain ⟨data, hdata, h⟩ := Except.bind_eq_ok.1 h
  rw [Except.ite_error_eq_ok, Except.ite_error_eq_ok, Except.ite_error_eq_ok] at h
  obtain ⟨_, hroom, _, h⟩ := h
  obtain ⟨empty, hempty, h⟩ := Except.bind_eq_ok.1 h
  exact ⟨data, empty, outside_eq_ok hdata, Nat.le_of_not_lt hroom, outside_eq_ok hempty, (Except.ok.inj h).symm⟩

theorem flush_ne_size (h : s.size = s.pending.value.byteSize codec.floats) : flush codec spec outputUri s ≠ .error .size := by
  rw [flush]
  split_ifs with hcount
  · exact fun h => nomatch h
  · refine bind_ne_size (outside_ne_size _) fun data hdata => ?_
    rw [if_neg (not_not.2 ((length_of_encode (outside_eq_ok hdata)).trans h.symm))]
    split_ifs
    · exact fun h => nomatch h
    · exact fun h => nomatch h
    · exact bind_ne_size (outside_ne_size _) fun _ _ => fun h => nomatch h

variable {current : List (Reading F)}

/-- After a flush nothing is being filled, and the parts hold what they held and what was being filled. -/
theorem At.flush (h : At codec spec outputUri s groups current)
    (hok : SourceStreams.flush codec spec outputUri s = .ok t) :
    Grows s t ∧ ∃ more, At codec spec outputUri t more [] ∧ more.flatten = groups.flatten ++ current := by
  by_cases hcount : s.count = 0
  · rw [SourceStreams.flush, if_pos hcount] at hok
    have hcurrent : current = [] := List.eq_nil_of_length_eq_zero (h.count.symm.trans hcount)
    rw [← Except.ok.inj hok]
    refine ⟨Grows.refl s, groups, hcurrent ▸ h, ?_⟩
    rw [hcurrent, List.append_nil]
  · obtain ⟨data, empty, hdata, hroom, hempty, rfl⟩ := flush_eq_ok hcount hok
    have hcurrent : current ≠ [] := by
      intro hnil
      rw [h.count, hnil] at hcount
      exact hcount rfl
    have hkeys : s.pending.tables.keys = spec.names := by rw [h.pending, keys_pieceOf spec.nodup h.declared]
    have hgrows : Grows s { s with
        spool := s.spool ++ data
        staged := s.staged ++ [(s.spool.length, data.length, receiptOf codec outputUri data)]
        parts := s.parts ++ [⟨receiptOf codec outputUri data, s.first, s.count, data.length⟩]
        pending := .fresh s.pending.tables.keys
        count := 0
        size := empty.length } := ⟨List.prefix_append _ _, List.subset_append_left _ _⟩
    refine ⟨hgrows, groups ++ [current], ⟨?_, ?_, ?_, (fun r hr => nomatch hr), rfl, length_of_encode hempty, Nat.zero_le _,
      fun hne => absurd rfl hne⟩, by rw [List.flatten_append, List.flatten_singleton]⟩
    · refine List.rel_append (h.parts.imp fun _ _ hholds => hholds.mono hgrows) (.cons ?_ .nil)
      refine ⟨hcurrent, h.declared, h.count ▸ h.most, h.count, data, h.pending ▸ hdata, rfl, rfl, hroom, s.spool.length, data.length,
        List.mem_append_right _ (List.mem_singleton_self _), le_of_eq List.length_append.symm, ?_⟩
      show respool (s.spool ++ data) s.spool.length data.length = data
      rw [respool, List.drop_left, List.take_length]
    · refine contiguous_append h.contiguous ?_
      rw [sum_counts h.parts]
      exact h.first hcurrent
    · show Pending.fresh s.pending.tables.keys = pieceOf spec.names []
      rw [hkeys]
      rfl

theorem At.declared_of_known (h : At codec spec outputUri s groups current)
    {r : Reading F} (hknown : Known s.pending r) : Declared spec.names r := by
  rw [Known, h.pending, keys_pieceOf spec.nodup h.declared] at hknown
  exact hknown

theorem At.extend (h : At codec spec outputUri s groups current)
    {r : Reading F} (hknown : Known s.pending r) (hroom : s.count < spec.partitionRecords) {index : Nat}
    (hindex : index = groups.flatten.length + current.length) :
    At codec spec outputUri { s with
      first := if s.count = 0 then index + 1 else s.first
      pending := SourceStreams.extend s.pending r
      size := s.size + ((listsOf s.pending r).map fun added => addedBytes codec.floats added.1 added.2).sum
      count := s.count + 1 } groups (current ++ [r]) := by
  refine ⟨h.parts.imp fun _ _ hholds => hholds.mono ⟨List.prefix_refl _, List.Subset.refl _⟩, h.contiguous, ?_, fun other hother => ?_, ?_, ?_,
    hroom, fun _ => ?_⟩
  · show SourceStreams.extend s.pending r = _
    rw [h.pending, pieceOf_append]
  · obtain hother | hother := List.mem_append.1 hother
    · exact h.declared other hother
    · rw [List.mem_singleton.1 hother]
      exact h.declared_of_known hknown
  · rw [List.length_append, ← h.count]
    rfl
  · show s.size + _ = (SourceStreams.extend s.pending r).value.byteSize codec.floats
    rw [h.size, byteSize_extend hknown]
  · show (if s.count = 0 then index + 1 else s.first) = _
    split_ifs with hcount
    · rw [hindex, ← h.count, hcount]
      omega
    · refine h.first ?_
      intro hnil
      rw [h.count, hnil] at hcount
      exact hcount rfl

theorem At.turn (h : At codec spec outputUri s groups current)
    {r : Reading F} {sizes : List Nat} {found : Streaming F × List (List (Row F) × List (Row F))} (hknown : Known s.pending r)
    (hok : SourceStreams.turn codec spec outputUri s r (listsOf s.pending r) sizes = .ok found) :
    Grows s found.1 ∧ Known found.1.pending r ∧ found.2 = listsOf found.1.pending r ∧ found.1.count < spec.partitionRecords ∧
      ∃ more rest, At codec spec outputUri found.1 more rest ∧ more.flatten ++ rest = groups.flatten ++ current := by
  rw [SourceStreams.turn] at hok
  split_ifs at hok with hfull
  · obtain ⟨flushed, hflushed, hok⟩ := Except.bind_eq_ok.1 hok
    obtain ⟨added, hadded, hok⟩ := Except.bind_eq_ok.1 hok
    obtain ⟨hgrows, more, hmore, hflatten⟩ := h.flush hflushed
    obtain ⟨hknown, rfl⟩ := additions_eq_ok (outside_eq_ok hadded)
    rw [← Except.ok.inj hok]
    refine ⟨hgrows, hknown, rfl, ?_, more, [], hmore, ?_⟩
    · show flushed.count < _
      rw [hmore.count]
      exact spec.records_pos
    · rw [List.append_nil, hflatten]
  · rw [← Except.ok.inj hok]
    refine ⟨Grows.refl s, hknown, rfl, ?_, groups, current, h, rfl⟩
    by_cases hcount : s.count = 0
    · show s.count < _
      rw [hcount]
      exact spec.records_pos
    · exact Nat.lt_of_not_le fun hle => hfull ⟨hcount, .inl hle⟩

theorem At.project (h : At codec spec outputUri s groups current)
    {r : Reading F} {index : Nat} (hindex : index = (groups.flatten ++ current).length)
    (hok : SourceStreams.project codec spec outputUri s (r, index) = .ok t) :
    Grows s t ∧ ∃ more rest, At codec spec outputUri t more rest ∧ more.flatten ++ rest = groups.flatten ++ current ++ [r] := by
  rw [SourceStreams.project, Except.ite_error_eq_ok] at hok
  obtain ⟨added, hadded, hsized⟩ := Except.bind_eq_ok.1 hok.2
  obtain ⟨sizes, hsizes, hturned⟩ := Except.bind_eq_ok.1 hsized
  obtain ⟨found, hfound, hplaced⟩ := Except.bind_eq_ok.1 hturned
  rw [Except.ite_error_eq_ok] at hplaced
  obtain ⟨hknown, rfl⟩ := additions_eq_ok (outside_eq_ok hadded)
  have hcounted : At codec spec outputUri { s with totalRows := s.totalRows + r.rows } groups current :=
    ⟨h.parts.imp fun _ _ hholds => hholds.mono ⟨List.prefix_refl _, List.Subset.refl _⟩, h.contiguous, h.pending, h.declared, h.count, h.size,
      h.most, h.first⟩
  obtain ⟨hgrows, hknown', hlists, hroom, more, rest, hat, hflatten⟩ := hcounted.turn hknown hfound
  have hextra : extraSize found.2 sizes =
      ((listsOf found.1.pending r).map fun added => addedBytes codec.floats added.1 added.2).sum := by
    rw [hlists, sizes_eq_ok (outside_eq_ok hsizes), snd_listsOf s.pending found.1.pending r, extraSize_eq]
  have hnext := hat.extend hknown' hroom (show index = more.flatten.length + rest.length by rw [hindex, ← hflatten, List.length_append])
  refine ⟨⟨hgrows.spool.trans ?_, fun _ hmem => ?_⟩, more, rest ++ [r], ?_, ?_⟩
  · exact Except.ok.inj hplaced.2 ▸ List.prefix_refl _
  · rw [← Except.ok.inj hplaced.2]
    exact hgrows.staged hmem
  · rw [← Except.ok.inj hplaced.2, hextra]
    exact hnext
  · rw [← List.append_assoc, hflatten]

theorem project_ne_size (h : s.size = s.pending.value.byteSize codec.floats) (numbered : Reading F × Nat) :
    project codec spec outputUri s numbered ≠ .error .size := by
  rw [project]
  split_ifs
  · exact fun h => nomatch h
  · refine bind_ne_size (outside_ne_size _) fun added _ => bind_ne_size (outside_ne_size _) fun sizes _ => bind_ne_size ?_ fun found _ => ?_
    · rw [turn]
      split_ifs
      · exact bind_ne_size (flush_ne_size h) fun _ _ => bind_ne_size (outside_ne_size _) fun _ _ => fun h => nomatch h
      · exact fun h => nomatch h
    · obtain ⟨mid, lists⟩ := found
      show (if _ then _ else _) ≠ _
      split_ifs <;> exact fun h => nomatch h

theorem zipIdx_at {α : Type} {items : List α} {front back : List (α × Nat)} {a : α × Nat} (h : items.zipIdx = front ++ a :: back) :
    a.2 = front.length := by
  have hat : items.zipIdx[front.length]? = some a := by rw [h, List.getElem?_append_right le_rfl, Nat.sub_self, List.getElem?_cons_zero]
  rw [List.getElem?_zipIdx] at hat
  obtain ⟨b, _, hb⟩ := Option.map_eq_some_iff.1 hat
  rw [← hb, Nat.zero_add]

theorem at_of_run {front : List (Reading F × Nat)} (hfront : front <+: readings.zipIdx)
    (hstart : At codec spec outputUri s [] []) (hrun : front.foldlM (project codec spec outputUri) s = .ok t) :
    Grows s t ∧ ∃ groups current, At codec spec outputUri t groups current ∧ groups.flatten ++ current = front.map Prod.fst := by
  refine Runs.run_invariant (fun done mid => Grows s mid ∧
    ∃ groups current, At codec spec outputUri mid groups current ∧ groups.flatten ++ current = done.map Prod.fst) hrun
      ⟨Grows.refl s, [], [], hstart, rfl⟩ ?_
  intro done numbered back mid next hitems hmid hnext
  obtain ⟨hgrows, groups, current, hat, hflatten⟩ := hmid
  obtain ⟨after, hafter⟩ := hfront
  have hindex := zipIdx_at (show readings.zipIdx = done ++ numbered :: (back ++ after) by rw [← hafter, hitems]; simp)
  obtain ⟨hmore, more, rest, hat, heq⟩ := hat.project (by rw [hflatten, List.length_map, hindex]) hnext
  refine ⟨hgrows.trans hmore, more, rest, hat, ?_⟩
  rw [heq, hflatten, List.map_append, List.map_singleton]

theorem at_start {empty : List UInt8} (hempty : encode codec.floats (Pending.fresh spec.names : Pending F).value = .ok empty) (s : Streaming F) :
    At codec spec outputUri { s with parts := [], pending := .fresh spec.names, count := 0, size := empty.length, first := 0 } [] [] :=
  ⟨.nil, trivial, rfl, (fun _ hr => nomatch hr), rfl, length_of_encode hempty, Nat.zero_le _, fun hne => absurd rfl hne⟩

/-- What was made of a source: its entry names parts that hold its readings, in order and each once. -/
structure Cut (codec : Codec F) (spec : Spec) (outputUri : String) (s : Streaming F) (source : Source F) (entry : Entry)
    (groups : List (List (Reading F))) : Prop where
  expanded : ∃ expanded parts, source.expanded = .ok expanded ∧ entry = entryOf spec source expanded parts
  parts : List.Forall₂ (Holds codec spec outputUri s) groups entry.parts
  contiguous : Contiguous 1 entry.parts
  readings : groups.flatten = source.readings

theorem Cut.mono {source : Source F} {entry : Entry} (h : Cut codec spec outputUri s source entry groups)
    (hgrows : Grows s t) : Cut codec spec outputUri t source entry groups :=
  ⟨h.expanded, h.parts.imp fun _ _ hholds => hholds.mono hgrows, h.contiguous, h.readings⟩

theorem readSource_eq_ok {source : Source F} {found : Streaming F × Entry} (h : readSource codec spec outputUri s source = .ok found) :
    Grows s found.1 ∧ ∃ groups, Cut codec spec outputUri found.1 source found.2 groups := by
  obtain ⟨empty, hempty, h⟩ := Except.bind_eq_ok.1 h
  obtain ⟨mid, hmid, h⟩ := Except.bind_eq_ok.1 h
  obtain ⟨expanded, hexpanded, h⟩ := Except.bind_eq_ok.1 h
  obtain ⟨last, hlast, h⟩ := Except.bind_eq_ok.1 h
  obtain ⟨hgrows, groups, current, hat, hflatten⟩ := at_of_run (List.prefix_refl _) (at_start (outside_eq_ok hempty) s) hmid
  obtain ⟨hmore, more, hdone, heq⟩ := hat.flush hlast
  rw [← Except.ok.inj h]
  refine ⟨⟨hgrows.spool.trans hmore.spool, fun _ hmem => hmore.staged (hgrows.staged hmem)⟩, more,
    ⟨expanded, last.parts, outside_eq_ok hexpanded, rfl⟩, hdone.parts, hdone.contiguous, ?_⟩
  rw [heq, hflatten, List.zipIdx_map_fst]

theorem readSource_ne_size (s : Streaming F) (source : Source F) : readSource codec spec outputUri s source ≠ .error .size := by
  refine bind_ne_size (outside_ne_size _) fun empty hempty => ?_
  have hstart : At codec spec outputUri _ [] [] := at_start (outside_eq_ok hempty) s
  refine bind_ne_size (fun hrun => ?_) fun mid hmid => bind_ne_size (outside_ne_size _) fun _ _ => bind_ne_size ?_ fun _ _ => fun h => nomatch h
  · obtain ⟨front, numbered, back, mid, hitems, hmid, hfails⟩ := Runs.run_error hrun
    have hfront : front <+: source.readings.zipIdx := hitems ▸ List.prefix_append front _
    obtain ⟨_, groups, current, hat, _⟩ := at_of_run hfront hstart hmid
    exact project_ne_size hat.size numbered hfails
  · obtain ⟨_, groups, current, hat, _⟩ := at_of_run (List.prefix_refl _) hstart hmid
    exact flush_ne_size hat.size

theorem readSources_eq_ok {sources : List (Except String (Source F))} {found : Streaming F × List Entry}
    (h : readSources codec spec outputUri s sources = .ok found) :
    Grows s found.1 ∧ List.Forall₂ (fun prepared entry =>
      ∃ source groups, prepared = .ok source ∧ Cut codec spec outputUri found.1 source entry groups) sources found.2 := by
  induction sources generalizing s found with
  | nil =>
      rw [← Except.ok.inj h]
      exact ⟨Grows.refl s, .nil⟩
  | cons prepared rest ih =>
      obtain ⟨source, hsource, h⟩ := Except.bind_eq_ok.1 h
      obtain ⟨⟨mid, entry⟩, hmid, h⟩ := Except.bind_eq_ok.1 h
      obtain ⟨⟨last, entries⟩, hlast, h⟩ := Except.bind_eq_ok.1 h
      obtain ⟨hgrows, groups, hcut⟩ := readSource_eq_ok hmid
      obtain ⟨hmore, hrest⟩ := ih hlast
      rw [← Except.ok.inj h]
      exact ⟨hgrows.trans hmore, .cons ⟨source, groups, outside_eq_ok hsource, hcut.mono hmore⟩ hrest⟩

theorem readSources_ne_size (s : Streaming F) (sources : List (Except String (Source F))) :
    readSources codec spec outputUri s sources ≠ .error .size := by
  induction sources generalizing s with
  | nil => exact fun h => nomatch h
  | cons prepared rest ih =>
      refine bind_ne_size (outside_ne_size _) fun source _ => bind_ne_size (readSource_ne_size s source) fun found _ => ?_
      exact bind_ne_size (ih found.1) fun _ _ => fun h => nomatch h

theorem output_ne_size (contract : Receipt) (workers maxIndexBytes : Nat) (hand : Receipt → List UInt8 → Except String Unit)
    (sources : List (Except String (Source F))) :
    output codec spec outputUri contract workers maxIndexBytes hand sources ≠ .error .size := by
  rw [output]
  split_ifs
  · exact fun h => nomatch h
  · refine bind_ne_size (readSources_ne_size opened sources) fun found _ => bind_ne_size (outside_ne_size _) fun encoded _ => ?_
    split_ifs
    · exact fun h => nomatch h
    · exact bind_ne_size (forM_ne_size fun _ _ => outside_ne_size _) fun _ _ => fun h => nomatch h

end EdgarPlatform.SourceStreams
