import EdgarPlatform.Pages.Faithful

/-!
# All visible text, once and in order

A page keeps every visible character in one block or one cell, each with its characters in page order. Blocks and the openings of rows stand in the order of their places. A row takes its place when it opens, so a row whose first characters follow a table in its cells has its place before the rows of that table.
-/

namespace EdgarPlatform.Pages

/-- Records in the order of their places that hold the tokens of a page, each once, and the rows of every table numbered from one in that order. -/
structure Keeps (gone : List Token) (records : List Record) : Prop where
  places : (records.map Record.place).Pairwise (· < ·)
  numbered : ∀ table, numbersIn table records = List.range' 1 (numbersIn table records).length
  events : ∃ events, events.map Event.token = gone ∧ Ordered events ∧ (∀ record ∈ records, record.Holds events) ∧
    (∀ slot, charsIn events slot ≠ [] → ∃! record, record ∈ records ∧ record.Has slot) ∧
    ∀ record ∈ records, record.table ≠ none → .row record.place ∈ events

/-- What a walk has kept once nothing is open. -/
structure Kept (gone : List Token) (records : List Record) : Prop where
  distinct : (records.map Record.place).Nodup
  rising : ∀ table, (records.filter (Record.isIn table)).Pairwise fun a b => a.place < b.place
  numbered : ∀ table, numbersIn table records = List.range' 1 (numbersIn table records).length
  events : ∃ events, events.map Event.token = gone ∧ Ordered events ∧ (∀ record ∈ records, record.Holds events) ∧
    (∀ slot, charsIn events slot ≠ [] → ∃ record ∈ records, record.Has slot) ∧
    ∀ record ∈ records, record.table ≠ none → .row record.place ∈ events

theorem Record.slot_place {record : Record} {column : Nat} {slot : Slot} (h : slot = record.slot column) :
    slot = .block record.place ∨ slot = .cell record.place column := by
  rw [h, Record.slot]
  split_ifs
  · exact .inl rfl
  · exact .inr rfl

theorem place_of_slot {record other : Record} {slot : Slot} (h : record.Has slot) (h' : other.Has slot) : record.place = other.place := by
  obtain ⟨column, _, hslot⟩ := h
  obtain ⟨column', _, hslot'⟩ := h'
  obtain hslot | hslot := Record.slot_place hslot <;> obtain hslot' | hslot' := Record.slot_place hslot'
  · exact Slot.block.inj (hslot.symm.trans hslot')
  · exact nomatch hslot.symm.trans hslot'
  · exact nomatch hslot.symm.trans hslot'
  · exact (Slot.cell.inj (hslot.symm.trans hslot')).1

variable {records : List Record}

theorem filter_sortRecords {keep : Record → Bool} (h : (records.filter keep).Pairwise fun a b => a.place < b.place) :
    (sortRecords records).filter keep = records.filter keep := by
  have hperm : ((sortRecords records).filter keep).Perm (records.filter keep) := (Sorting.sortByKey_perm Record.place records).filter keep
  have hnodup : ((records.filter keep).map Record.place).Nodup := (List.pairwise_map.2 h).imp ne_of_lt
  refine hperm.eq_of_pairwise (fun a b ha hb hab hba => ?_) ((Sorting.sortByKey_sorted Record.place records).filter keep) (h.imp le_of_lt)
  exact List.inj_on_of_nodup_map hnodup (hperm.mem_iff.1 ha) hb (le_antisymm hab hba)

theorem numbersIn_filter (table : Nat) (records : List Record) : numbersIn table (records.filter (Record.isIn table)) = numbersIn table records := by
  rw [numbersIn, numbersIn, List.filterMap_filter]
  apply List.filterMap_congr
  intro record _
  rw [Record.isIn]
  cases record.numberIn table <;> rfl

theorem numbersIn_sortRecords {table : Nat}
    (h : (records.filter (Record.isIn table)).Pairwise fun a b => a.place < b.place) :
    numbersIn table (sortRecords records) = numbersIn table records := by
  rw [← numbersIn_filter, filter_sortRecords h, numbersIn_filter]

theorem Kept.keeps {gone : List Token} (h : Kept gone records) : Keeps gone (sortRecords records) := by
  have hmem : ∀ record, record ∈ sortRecords records ↔ record ∈ records := fun _ => Sorting.mem_sortByKey
  have hperm := Sorting.sortByKey_perm Record.place records
  have hnodup : ((sortRecords records).map Record.place).Nodup := (hperm.map Record.place).nodup_iff.2 h.distinct
  obtain ⟨events, htokens, hordered, hholds, hlive, hopened⟩ := h.events
  refine ⟨?_, fun table => ?_, events, htokens, hordered, fun record hrecord => hholds record ((hmem record).1 hrecord), fun slot hslot => ?_,
    fun record hrecord => hopened record ((hmem record).1 hrecord)⟩
  · have hsorted : ((sortRecords records).map Record.place).Pairwise (· ≤ ·) :=
      List.pairwise_map.2 (Sorting.sortByKey_sorted Record.place records)
    exact hsorted.imp₂ (fun _ _ hle hne => lt_of_le_of_ne hle hne) hnodup
  · rw [numbersIn_sortRecords (h.rising table)]
    exact h.numbered table
  · obtain ⟨record, hrecord, hhas⟩ := hlive slot hslot
    refine ⟨record, ⟨(hmem record).2 hrecord, hhas⟩, fun other hother => ?_⟩
    exact List.inj_on_of_nodup_map hnodup hother.1 ((hmem record).2 hrecord) (place_of_slot hother.2 hhas)

def textNode (contents : String) : Node := .text contents.toList

def rowNode (children : List Node) : Node := .element "tr" [] children

def cellNode (children : List Node) : Node := .element "td" [] children

def tableNode (rows : List Node) : Node := .element "table" [] [.element "tbody" [] rows]

def pageOf (children : List Node) : Node := .document [.element "html" [] [.element "head" [] [], .element "body" [] children]]

end EdgarPlatform.Pages
