import EdgarPlatform.Pages.Holding

/-!
# The numbers of rows

The kept rows of a table are numbered from one, in the order they close. No table has two rows open, so its rows close in the order they open.
-/

namespace EdgarPlatform.Pages

def Record.numberIn (table : Nat) (record : Record) : Option Nat :=
  match record.table with
  | none => none
  | some (found, number) => if found = table then some number else none

def numbersIn (table : Nat) (records : List Record) : List Nat := records.filterMap (Record.numberIn table)

def Record.isIn (table : Nat) (record : Record) : Bool := (record.numberIn table).isSome

structure Numbered (frames : List Frame) (s : Walk) : Prop where
  runs : ∀ table, numbersIn table s.records = List.range' 1 (numbersIn table s.records).length
  counts : ∀ entry ∈ s.opened, entry.2 = (numbersIn entry.1 s.records).length
  distinct : (s.opened.map Prod.fst).Nodup
  tables : ∀ entry ∈ s.opened, entry.1 ≤ s.tables
  rows : ∀ frame ∈ frames, frame.row.table ≤ s.tables
  records : ∀ record ∈ s.records, ∀ table, record.isIn table = true → table ≤ s.tables
  single : (frames.map fun frame => frame.row.table).Nodup
  later : ∀ frame ∈ frames, ∀ record ∈ s.records, record.isIn frame.row.table = true → record.place < frame.row.place
  rising : ∀ table, (s.records.filter (Record.isIn table)).Pairwise fun a b => a.place < b.place

def Frame.key (frame : Frame) : Nat × Nat := (frame.row.place, frame.row.table)

variable {frames others : List Frame} {s s' : Walk} {maxRecords : Nat}

theorem numbersIn_append_block (table place : Nat) (texts : List Text) (records : List Record) :
    numbersIn table (records ++ [⟨place, none, texts⟩]) = numbersIn table records := by
  rw [numbersIn, List.filterMap_append]
  exact List.append_nil _

theorem numbersIn_append_row (table place number : Nat) (texts : List Text) (records : List Record) (wanted : Nat) :
    numbersIn wanted (records ++ [⟨place, some (table, number), texts⟩]) =
      if table = wanted then numbersIn wanted records ++ [number] else numbersIn wanted records := by
  rw [numbersIn, List.filterMap_append, numbersIn]
  by_cases htable : table = wanted
  · rw [if_pos htable, List.filterMap_cons]
    simp [Record.numberIn, htable]
  · rw [if_neg htable, List.filterMap_cons]
    simp [Record.numberIn, htable]

theorem isIn_row {place table number wanted : Nat} {texts : List Text} : (⟨place, some (table, number), texts⟩ : Record).isIn wanted = decide (table = wanted) := by
  rw [Record.isIn, Record.numberIn]
  by_cases htable : table = wanted <;> simp [htable]

theorem Numbered.congr (h : Numbered frames s) (hkeys : others.map Frame.key = frames.map Frame.key) (hrecords : s'.records = s.records)
    (hopened : s'.opened = s.opened) (htables : s'.tables = s.tables) : Numbered others s' := by
  have hframes : ∀ frame ∈ others, ∃ other ∈ frames, other.key = frame.key := by
    intro frame hframe
    have hkey := List.mem_map_of_mem (f := Frame.key) hframe
    rw [hkeys] at hkey
    exact List.mem_map.1 hkey
  have hplaces : (others.map fun frame => frame.row.table) = frames.map fun frame => frame.row.table := by
    have := congrArg (List.map Prod.snd) hkeys
    rw [List.map_map, List.map_map] at this
    exact this
  refine ⟨?_, ?_, ?_, ?_, fun frame hframe => ?_, ?_, ?_, fun frame hframe => ?_, ?_⟩
  · rw [hrecords]
    exact h.runs
  · rw [hrecords, hopened]
    exact h.counts
  · rw [hopened]
    exact h.distinct
  · rw [hopened, htables]
    exact h.tables
  · obtain ⟨other, hother, hkey⟩ := hframes frame hframe
    rw [htables, ← (Prod.mk.inj hkey).2]
    exact h.rows other hother
  · rw [hrecords, htables]
    exact h.records
  · rw [hplaces]
    exact h.single
  · obtain ⟨other, hother, hkey⟩ := hframes frame hframe
    rw [hrecords, ← (Prod.mk.inj hkey).1, ← (Prod.mk.inj hkey).2]
    exact h.later other hother
  · rw [hrecords]
    exact h.rising

theorem Numbered.flush (h : Numbered frames s) (hflush : flush maxRecords s = .ok s') : Numbered frames s' := by
  obtain ⟨_, rfl⟩ | rfl := flush_eq_ok hflush
  · exact h.congr rfl rfl rfl rfl
  · have hnone : ∀ table, (⟨s.places + 1, none, [clean s.text]⟩ : Record).isIn table = false := fun _ => rfl
    have hold : ∀ record ∈ s.records ++ [⟨s.places + 1, none, [clean s.text]⟩], ∀ table, record.isIn table = true → record ∈ s.records := by
      intro record hrecord table hin
      obtain hrecord | hrecord := List.mem_append.1 hrecord
      · exact hrecord
      · rw [List.mem_singleton.1 hrecord, hnone] at hin
        cases hin
    refine ⟨fun table => ?_, fun entry hentry => ?_, h.distinct, h.tables, h.rows, fun record hrecord table hin => ?_, h.single,
      fun frame hframe record hrecord hin => ?_, fun table => ?_⟩
    · rw [numbersIn_append_block]
      exact h.runs table
    · rw [numbersIn_append_block]
      exact h.counts entry hentry
    · exact h.records record (hold record hrecord table hin) table hin
    · exact h.later frame hframe record (hold record hrecord _ hin) hin
    · rw [List.filter_append, List.filter_cons_of_neg (by rw [hnone]; exact Bool.false_ne_true), List.filter_nil, List.append_nil]
      exact h.rising table

theorem Numbered.openTable (h : Numbered frames s) :
    Numbered frames { s with tables := s.tables + 1, opened := (s.tables + 1, 0) :: s.opened } := by
  refine ⟨h.runs, fun entry hentry => ?_, ?_, fun entry hentry => ?_, fun frame hframe => (h.rows frame hframe).trans (Nat.le_succ _),
    fun record hrecord table hin => (h.records record hrecord table hin).trans (Nat.le_succ _), h.single, h.later, h.rising⟩
  · obtain rfl | hentry := List.mem_cons.1 hentry
    · have hnone : numbersIn (s.tables + 1) s.records = [] := by
        apply List.filterMap_eq_nil_iff.2
        intro record hrecord
        by_contra hne
        have := h.records record hrecord (s.tables + 1) (Option.isSome_iff_ne_none.2 hne)
        omega
      show 0 = (numbersIn (s.tables + 1) s.records).length
      rw [hnone]
      rfl
    · exact h.counts entry hentry
  · rw [List.map_cons, List.nodup_cons]
    refine ⟨fun hmem => ?_, h.distinct⟩
    obtain ⟨entry, hentry, htable⟩ := List.mem_map.1 hmem
    have := h.tables entry hentry
    omega
  · show entry.1 ≤ s.tables + 1
    obtain rfl | hentry := List.mem_cons.1 hentry
    · exact le_rfl
    · exact (h.tables entry hentry).trans (Nat.le_succ _)

theorem Numbered.closeTable (h : Numbered frames s) : Numbered frames (closeTable s) :=
  { h with
    counts := fun entry hentry => h.counts entry (List.mem_of_mem_tail hentry)
    distinct := by
      show (s.opened.tail.map Prod.fst).Nodup
      rw [List.map_tail]
      exact h.distinct.tail
    tables := fun entry hentry => h.tables entry (List.mem_of_mem_tail hentry) }

theorem Numbered.openRow {table count : Nat} {opened : List (Nat × Nat)} (h : Numbered frames s) (hopened : s.opened = (table, count) :: opened)
    (hfree : table ∉ frames.map fun frame => frame.row.table) (hbound : ∀ record ∈ s.records, record.place ≤ s.places) :
    Numbered (⟨nextRow s, none⟩ :: frames) (openRow s) := by
  have htable : (nextRow s).table = table := by
    show (s.opened.head?.map Prod.fst).getD 0 = table
    rw [hopened]
    rfl
  refine ⟨h.runs, h.counts, h.distinct, h.tables, fun frame hframe => ?_, h.records, ?_, fun frame hframe record hrecord hin => ?_, h.rising⟩
  · obtain rfl | hframe := List.mem_cons.1 hframe
    · show (nextRow s).table ≤ s.tables
      rw [htable]
      exact h.tables (table, count) (hopened ▸ List.mem_cons_self)
    · exact h.rows frame hframe
  · rw [List.map_cons, List.nodup_cons]
    refine ⟨?_, h.single⟩
    show (nextRow s).table ∉ _
    rw [htable]
    exact hfree
  · obtain rfl | hframe := List.mem_cons.1 hframe
    · exact Nat.lt_succ_of_le (hbound record hrecord)
    · exact h.later frame hframe record hrecord hin

theorem Numbered.closeRow {row : OpenRow} (h : Numbered (⟨row, none⟩ :: frames) s) (hrows : s.rows = row :: frames.map Frame.row)
    (htable : s.opened.head?.map Prod.fst = some row.table) (hclose : closeRow maxRecords s = .ok s') : Numbered frames s' := by
  have hmem : (⟨row, none⟩ : Frame) ∈ (⟨row, none⟩ : Frame) :: frames := List.mem_cons_self
  have hrest : ∀ frame ∈ frames, frame ∈ (⟨row, none⟩ : Frame) :: frames := fun _ => List.mem_cons_of_mem _
  have hsingle := h.single
  rw [List.map_cons, List.nodup_cons] at hsingle
  obtain ⟨_, rfl⟩ | ⟨table, count, opened, hopened, rfl⟩ := closeRow_eq_ok hrows hclose
  · exact ⟨h.runs, h.counts, h.distinct, h.tables, fun frame hframe => h.rows frame (hrest frame hframe), h.records, hsingle.2,
      fun frame hframe => h.later frame (hrest frame hframe), h.rising⟩
  · rw [hopened] at htable
    obtain rfl : table = row.table := Option.some.inj htable
    have hcount : count = (numbersIn row.table s.records).length := h.counts (row.table, count) (hopened ▸ List.mem_cons_self)
    have hdistinct := h.distinct
    rw [hopened, List.map_cons, List.nodup_cons] at hdistinct
    refine ⟨fun wanted => ?_, fun entry hentry => ?_, ?_, fun entry hentry => ?_, fun frame hframe => h.rows frame (hrest frame hframe),
      fun record hrecord wanted hin => ?_, hsingle.2, fun frame hframe record hrecord hin => ?_, fun wanted => ?_⟩
    · rw [numbersIn_append_row]
      split_ifs with heq
      · subst heq
        rw [List.length_append, List.length_singleton, List.range'_1_concat, ← h.runs, ← hcount, Nat.add_comm 1]
      · exact h.runs wanted
    · show entry.2 = _
      rw [numbersIn_append_row]
      obtain rfl | hentry := List.mem_cons.1 hentry
      · rw [if_pos rfl, List.length_append, List.length_singleton, ← hcount]
      · have hne : row.table ≠ entry.1 := by
          intro heq
          have hin := List.mem_map_of_mem (f := Prod.fst) hentry
          rw [← heq] at hin
          exact hdistinct.1 hin
        rw [if_neg hne]
        exact h.counts entry (hopened ▸ List.mem_cons_of_mem _ hentry)
    · exact List.nodup_cons.2 hdistinct
    · obtain rfl | hentry := List.mem_cons.1 hentry
      · exact h.tables (row.table, count) (hopened ▸ List.mem_cons_self)
      · exact h.tables entry (hopened ▸ List.mem_cons_of_mem _ hentry)
    · obtain hrecord | hrecord := List.mem_append.1 hrecord
      · exact h.records record hrecord wanted hin
      · rw [List.mem_singleton.1 hrecord, isIn_row, decide_eq_true_eq] at hin
        rw [← hin]
        exact h.rows _ hmem
    · obtain hrecord | hrecord := List.mem_append.1 hrecord
      · exact h.later frame (hrest frame hframe) record hrecord hin
      · rw [List.mem_singleton.1 hrecord, isIn_row, decide_eq_true_eq] at hin
        exact absurd (hin ▸ List.mem_map_of_mem (f := fun frame : Frame => frame.row.table) hframe) hsingle.1
    · rw [List.filter_append, List.filter_cons, isIn_row]
      by_cases heq : row.table = wanted
      · rw [decide_eq_true heq, if_pos rfl, List.filter_nil, List.pairwise_append]
        refine ⟨h.rising wanted, List.pairwise_singleton _ _, fun a ha b hb => ?_⟩
        obtain ⟨ha, hin⟩ := List.mem_filter.1 ha
        rw [List.mem_singleton.1 hb]
        exact h.later _ hmem a ha (heq ▸ hin)
      · rw [decide_eq_false heq, if_neg Bool.false_ne_true, List.filter_nil, List.append_nil]
        exact h.rising wanted

end EdgarPlatform.Pages
