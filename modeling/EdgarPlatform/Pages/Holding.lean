import EdgarPlatform.Pages.Walks

/-!
# The texts a walk holds

Every open row is paired with the cell open in it, if one is. The characters given to a slot so far are those of the kept text, of the open row's cell or of the pending block the slot names, and nothing was given to any other slot. Every step of a walk keeps this.
-/

namespace EdgarPlatform.Pages

/-- An open row and the cell open in it. -/
structure Frame where
  row : OpenRow
  cell : Option Text

structure Frame.Holds (frame : Frame) (log : List Event) : Prop where
  cells : ∀ column text, frame.row.cells[column]? = some text → visible text = charsIn log (.cell frame.row.place column)
  current : visible (frame.cell.getD []) = charsIn log (.cell frame.row.place frame.row.cells.length)

def Frame.Has (frame : Frame) (slot : Slot) : Prop := ∃ column, column ≤ frame.row.cells.length ∧ slot = .cell frame.row.place column

def placesOf (frames : List Frame) (s : Walk) : List Nat := s.records.map Record.place ++ frames.map fun frame => frame.row.place

/-- What a walk has kept and still holds are the events of its log. -/
structure Holds (log : List Event) (frames : List Frame) (s : Walk) : Prop where
  rows : s.rows = frames.map Frame.row
  cells : s.cells = frames.filterMap Frame.cell
  kept : ∀ record ∈ s.records, record.Holds log
  filed : ∀ frame ∈ frames, frame.Holds log
  pending : visible s.text = charsIn log (.block (s.places + 1))
  live : ∀ slot, charsIn log slot ≠ [] →
    slot = .block (s.places + 1) ∨ (∃ record ∈ s.records, record.Has slot) ∨ ∃ frame ∈ frames, frame.Has slot
  apart : (placesOf frames s).Nodup
  bound : ∀ place ∈ placesOf frames s, place ≤ s.places
  begun : ∀ frame ∈ frames, .row frame.row.place ∈ log
  opened : ∀ record ∈ s.records, record.table ≠ none → .row record.place ∈ log
  ordered : Ordered log
  latest : ∀ place ∈ log.filterMap Event.start, place ≤ s.places + 1
  openings : ∀ place ∈ log.filterMap Event.opening, place ≤ s.places

variable {log more : List Event} {frames : List Frame} {s s' : Walk} {maxRecords : Nat}

variable {record : Record}

theorem Record.Holds.append (h : record.Holds log) (hmore : ∀ column, column < record.texts.length → charsIn more (record.slot column) = []) :
    record.Holds (log ++ more) where
  single := h.single
  texts := fun column text htext => by
    rw [charsIn_append, hmore column (List.getElem?_eq_some_iff.1 htext).1, List.append_nil]
    exact h.texts column text htext

theorem Frame.Holds.append {frame : Frame} (h : frame.Holds log)
    (hmore : ∀ column, column ≤ frame.row.cells.length → charsIn more (.cell frame.row.place column) = []) : frame.Holds (log ++ more) where
  cells := fun column text htext => by
    rw [charsIn_append, hmore column (List.getElem?_eq_some_iff.1 htext).1.le, List.append_nil]
    exact h.cells column text htext
  current := by
    rw [charsIn_append, hmore _ le_rfl, List.append_nil]
    exact h.current

theorem Ordered.append (h : Ordered log) (hstarts : (more.filterMap Event.start).Pairwise (· ≤ ·))
    (hlater : ∀ a ∈ log.filterMap Event.start, ∀ b ∈ more.filterMap Event.start, a ≤ b)
    (hopenings : (more.filterMap Event.opening).Pairwise (· < ·))
    (hafter : ∀ a ∈ log.filterMap Event.opening, ∀ b ∈ more.filterMap Event.opening, a < b)
    (hcells : ∀ c place column, .char c (.cell place column) ∈ more → .row place ∈ log) : Ordered (log ++ more) where
  starts := by
    rw [List.filterMap_append]
    exact List.pairwise_append.2 ⟨h.starts, hstarts, hlater⟩
  openings := by
    rw [List.filterMap_append]
    exact List.pairwise_append.2 ⟨h.openings, hopenings, hafter⟩
  preceded := fun front c place column back hsplit => by
    obtain ⟨between, hfront, hmore⟩ | ⟨between, hlog, hback⟩ := List.append_eq_append_iff.1 hsplit
    · rw [hfront]
      exact List.mem_append_left _ (hcells c place column (hmore ▸ List.mem_append_right _ List.mem_cons_self))
    · cases between with
      | nil =>
          rw [List.append_nil] at hlog
          rw [List.nil_append] at hback
          rw [← hlog]
          exact hcells c place column (hback ▸ List.mem_cons_self)
      | cons e between =>
          rw [List.cons_append, List.cons.injEq] at hback
          exact h.preceded front c place column between (hback.1 ▸ hlog)

theorem start_inSlot {text : Text} {slot : Slot} {place : Nat} (h : place ∈ (inSlot text slot).filterMap Event.start) : slot = .block place := by
  obtain ⟨event, hevent, hstart⟩ := List.mem_filterMap.1 h
  obtain ⟨c, _, rfl⟩ := List.mem_map.1 hevent
  cases slot with
  | block found => exact congrArg Slot.block (Option.some.inj hstart)
  | cell => cases hstart

theorem opening_inSlot (text : Text) (slot : Slot) : (inSlot text slot).filterMap Event.opening = [] := by
  apply List.filterMap_eq_nil_iff.2
  intro event hevent
  obtain ⟨c, _, rfl⟩ := List.mem_map.1 hevent
  rfl

theorem Ordered.inSlot (h : Ordered log) (text : Text) (slot : Slot) (hblock : ∀ place, slot = .block place → ∀ a ∈ log.filterMap Event.start, a ≤ place)
    (hcell : ∀ place column, slot = .cell place column → .row place ∈ log) : Ordered (log ++ Pages.inSlot text slot) := by
  apply h.append
  · apply List.Pairwise.imp_of_mem (R := fun _ _ => True)
    · intro a b ha hb _
      rw [Slot.block.inj ((start_inSlot ha).symm.trans (start_inSlot hb))]
    · exact List.pairwise_of_forall fun _ _ => trivial
  · exact fun a ha b hb => hblock b (start_inSlot hb) a ha
  · rw [opening_inSlot]
    exact .nil
  · rw [opening_inSlot]
    exact fun _ _ _ hb => absurd hb List.not_mem_nil
  · intro c place column hmem
    obtain ⟨_, _, heq⟩ := List.mem_map.1 hmem
    exact hcell place column (Event.char.inj heq).2

theorem mem_placesOf_record (h : record ∈ s.records) : record.place ∈ placesOf frames s :=
  List.mem_append_left _ (List.mem_map_of_mem h)

theorem mem_placesOf_frame {frame : Frame} (h : frame ∈ frames) : frame.row.place ∈ placesOf frames s :=
  List.mem_append_right _ (List.mem_map_of_mem (f := fun frame : Frame => frame.row.place) h)

theorem Holds.push_outside (h : Holds log frames s) (hcells : s.cells = []) (text : Text) :
    Holds (log ++ inSlot text (.block (s.places + 1))) frames (push text s) := by
  have hpush : push text s = { s with text := s.text ++ text } := by rw [push, hcells]
  rw [hpush]
  refine ⟨h.rows, h.cells, fun record hrecord => (h.kept record hrecord).append fun column _ => ?_,
    fun frame hframe => (h.filed frame hframe).append fun column _ => ?_, ?_, fun slot hslot => ?_, h.apart, h.bound,
    fun frame hframe => List.mem_append_left _ (h.begun frame hframe), fun record hrecord htable => List.mem_append_left _ (h.opened record hrecord htable),
    h.ordered.inSlot text _ ?_ ?_, fun place hplace => ?_, fun place hplace => ?_⟩
  · rw [charsIn_inSlot, if_neg]
    rw [Record.slot]
    split_ifs
    · intro heq
      have hle := h.bound _ (mem_placesOf_record hrecord)
      have := Slot.block.inj heq
      omega
    · exact fun heq => nomatch heq
  · rw [charsIn_inSlot, if_neg]
    exact fun heq => nomatch heq
  · rw [charsIn_append, charsIn_inSlot, if_pos rfl, visible_append, h.pending]
  · rw [charsIn_append, charsIn_inSlot] at hslot
    split_ifs at hslot with heq
    · exact .inl heq.symm
    · rw [List.append_nil] at hslot
      exact h.live slot hslot
  · intro place heq a ha
    rw [← Slot.block.inj heq]
    exact h.latest a ha
  · exact fun _ _ heq => nomatch heq
  · rw [List.filterMap_append, List.mem_append] at hplace
    obtain hplace | hplace := hplace
    · exact h.latest place hplace
    · exact (Slot.block.inj (start_inSlot hplace)).ge
  · rw [List.filterMap_append, opening_inSlot, List.append_nil] at hplace
    exact h.openings place hplace

theorem Holds.record_ne (h : Holds log frames s) {frame : Frame} (hrecord : record ∈ s.records) (hframe : frame ∈ frames) :
    record.place ≠ frame.row.place :=
  (List.nodup_append.1 h.apart).2.2 _ (List.mem_map_of_mem hrecord) _ (List.mem_map_of_mem (f := fun frame : Frame => frame.row.place) hframe)

variable {front back : List Frame}

theorem Holds.frame_ne {frame other : Frame} (h : Holds log (front ++ frame :: back) s) (hother : other ∈ front ∨ other ∈ back) :
    other.row.place ≠ frame.row.place := by
  have hnodup := (List.nodup_append.1 h.apart).2.1
  rw [List.map_append, List.map_cons, List.nodup_append, List.nodup_cons] at hnodup
  obtain hother | hother := hother
  · exact hnodup.2.2 _ (List.mem_map_of_mem (f := fun frame : Frame => frame.row.place) hother) _ List.mem_cons_self
  · exact fun heq => hnodup.2.1.1 (heq ▸ List.mem_map_of_mem (f := fun frame : Frame => frame.row.place) hother)

theorem Holds.reframe {frame new : Frame} {text : Text} (h : Holds log (front ++ frame :: back) s)
    (hplace : new.row.place = frame.row.place) (hlength : frame.row.cells.length ≤ new.row.cells.length)
    (hnew : new.Holds (log ++ inSlot text (.cell frame.row.place frame.row.cells.length)))
    (hrows : s'.rows = (front ++ new :: back).map Frame.row) (hcells : s'.cells = (front ++ new :: back).filterMap Frame.cell)
    (hrecords : s'.records = s.records) (htext : s'.text = s.text) (hplaces : s'.places = s.places) :
    Holds (log ++ inSlot text (.cell frame.row.place frame.row.cells.length)) (front ++ new :: back) s' := by
  have hmem : frame ∈ front ++ frame :: back := List.mem_append_right _ List.mem_cons_self
  have hmem' : new ∈ front ++ new :: back := List.mem_append_right _ List.mem_cons_self
  have hset : placesOf (front ++ new :: back) s' = placesOf (front ++ frame :: back) s := by
    rw [placesOf, placesOf, hrecords]
    simp only [List.map_append, List.map_cons, hplace]
  have hold : ∀ other : Frame, other ∈ front ∨ other ∈ back → other ∈ front ++ frame :: back := fun other hother =>
    hother.elim (List.mem_append_left _) fun hback => List.mem_append_right _ (List.mem_cons_of_mem _ hback)
  have hothers : ∀ other ∈ front ++ new :: back, other = new ∨ (other ∈ front ∨ other ∈ back) := by
    intro other hother
    obtain hfront | hother := List.mem_append.1 hother
    · exact .inr (.inl hfront)
    · exact (List.mem_cons.1 hother).imp id .inr
  refine ⟨hrows, hcells, fun record hrecord => ?_, fun other hother => ?_, ?_, fun slot hslot => ?_, hset ▸ h.apart, ?_, fun other hother => ?_,
    fun record hrecord htable => ?_, h.ordered.inSlot text _ (fun _ heq => nomatch heq) fun place column heq => ?_, fun place hstart => ?_,
    fun place hopening => ?_⟩
  · rw [hrecords] at hrecord
    refine (h.kept record hrecord).append fun column _ => ?_
    rw [charsIn_inSlot, if_neg]
    rw [Record.slot]
    split_ifs
    · exact fun heq => nomatch heq
    · exact fun heq => h.record_ne hrecord hmem (Slot.cell.inj heq).1.symm
  · obtain rfl | hother := hothers other hother
    · exact hnew
    · refine (h.filed other (hold other hother)).append fun column _ => ?_
      rw [charsIn_inSlot, if_neg]
      exact fun heq => h.frame_ne hother (Slot.cell.inj heq).1.symm
  · rw [charsIn_append, charsIn_inSlot, if_neg (fun heq => nomatch heq), List.append_nil, htext, hplaces]
    exact h.pending
  · rw [hplaces, hrecords]
    rw [charsIn_append, charsIn_inSlot] at hslot
    split_ifs at hslot with heq
    · exact .inr (.inr ⟨new, hmem', frame.row.cells.length, hlength, by rw [← heq, hplace]⟩)
    · rw [List.append_nil] at hslot
      obtain hpending | hrecord | ⟨other, hother, column, hcolumn, hslot⟩ := h.live slot hslot
      · exact .inl hpending
      · exact .inr (.inl hrecord)
      · obtain hfront | hother := List.mem_append.1 hother
        · exact .inr (.inr ⟨other, List.mem_append_left _ hfront, column, hcolumn, hslot⟩)
        · obtain rfl | hback := List.mem_cons.1 hother
          · exact .inr (.inr ⟨new, hmem', column, hcolumn.trans hlength, by rw [hslot, hplace]⟩)
          · exact .inr (.inr ⟨other, List.mem_append_right _ (List.mem_cons_of_mem _ hback), column, hcolumn, hslot⟩)
  · rw [hset, hplaces]
    exact h.bound
  · apply List.mem_append_left
    obtain rfl | hother := hothers other hother
    · rw [hplace]
      exact h.begun frame hmem
    · exact h.begun other (hold other hother)
  · rw [hrecords] at hrecord
    exact List.mem_append_left _ (h.opened record hrecord htable)
  · rw [← (Slot.cell.inj heq).1]
    exact h.begun frame hmem
  · rw [List.filterMap_append, List.mem_append] at hstart
    rw [hplaces]
    exact hstart.elim (h.latest place) fun hin => nomatch start_inSlot hin
  · rw [List.filterMap_append, opening_inSlot, List.append_nil] at hopening
    rw [hplaces]
    exact h.openings place hopening

variable {row : OpenRow}

theorem Holds.push_inside {cell : Text} (h : Holds log (front ++ ⟨row, some cell⟩ :: back) s)
    (hfront : ∀ frame ∈ front, frame.cell = none) (text : Text) :
    Holds (log ++ inSlot text (.cell row.place row.cells.length)) (front ++ ⟨row, some (cell ++ text)⟩ :: back) (push text s) := by
  have hnone : front.filterMap Frame.cell = [] := List.filterMap_eq_nil_iff.2 hfront
  have hcells : s.cells = cell :: back.filterMap Frame.cell := by
    rw [h.cells, List.filterMap_append, hnone, List.nil_append, List.filterMap_cons]
  have hpush : push text s = { s with cells := (cell ++ text) :: back.filterMap Frame.cell } := by rw [push, hcells]
  have hself := h.filed ⟨row, some cell⟩ (List.mem_append_right _ List.mem_cons_self)
  rw [hpush]
  refine h.reframe rfl le_rfl ⟨fun column text' htext => ?_, ?_⟩ ?_ ?_ rfl rfl rfl
  · have hlt : column < row.cells.length := (List.getElem?_eq_some_iff.1 htext).1
    rw [charsIn_append, charsIn_inSlot, if_neg, List.append_nil]
    · exact hself.cells column text' htext
    · exact fun heq => hlt.ne' (Slot.cell.inj heq).2
  · show visible (cell ++ text) = _
    rw [charsIn_append, charsIn_inSlot, if_pos rfl, visible_append, ← hself.current]
    rfl
  · show s.rows = _
    rw [h.rows]
    simp only [List.map_append, List.map_cons]
  · rw [List.filterMap_append, hnone, List.nil_append, List.filterMap_cons]

theorem Holds.block_fresh (h : Holds log frames s) {place : Nat} (hplace : s.places + 1 < place) : charsIn log (.block place) = [] := by
  by_contra hne
  obtain heq | ⟨record, hrecord, column, _, heq⟩ | ⟨_, _, _, _, heq⟩ := h.live _ hne
  · have := Slot.block.inj heq
    omega
  · have hle := h.bound _ (mem_placesOf_record hrecord)
    rw [Record.slot] at heq
    split_ifs at heq
    have := Slot.block.inj heq
    omega
  · exact nomatch heq

theorem Holds.cell_fresh (h : Holds log frames s) {place : Nat} (hplace : s.places < place) (column : Nat) : charsIn log (.cell place column) = [] := by
  by_contra hne
  obtain heq | ⟨record, hrecord, _, _, heq⟩ | ⟨frame, hframe, _, _, heq⟩ := h.live _ hne
  · exact nomatch heq
  · have hle := h.bound _ (mem_placesOf_record hrecord)
    rw [Record.slot] at heq
    split_ifs at heq
    have := (Slot.cell.inj heq).1
    omega
  · have hle := h.bound _ (mem_placesOf_frame hframe)
    have := (Slot.cell.inj heq).1
    omega

theorem keep_eq_ok (h : keep maxRecords record s = .ok s') : s' = { s with records := s.records ++ [record] } := by
  rw [keep] at h
  split_ifs at h
  exact (Except.ok.inj h).symm

theorem flush_eq_ok (h : flush maxRecords s = .ok s') : (visible s.text = [] ∧ s' = { s with text := [] }) ∨
    s' = { s with text := [], places := s.places + 1, records := s.records ++ [⟨s.places + 1, none, [clean s.text]⟩] } := by
  rw [flush] at h
  split_ifs at h with _ hclean
  · refine .inl ⟨?_, (Except.ok.inj h).symm⟩
    rw [← visible_clean, hclean]
    rfl
  · exact .inr (keep_eq_ok h)

theorem Holds.flush (h : Holds log frames s) (hflush : flush maxRecords s = .ok s') : Holds log frames s' := by
  obtain ⟨hblank, rfl⟩ | rfl := flush_eq_ok hflush
  · exact { h with pending := hblank.symm.trans h.pending }
  · have hperm : (placesOf frames { s with text := [], places := s.places + 1, records := s.records ++ [⟨s.places + 1, none, [clean s.text]⟩] }).Perm
        ((s.places + 1) :: placesOf frames s) := by
      rw [placesOf, placesOf, List.map_append, List.append_assoc]
      exact List.perm_middle
    refine ⟨h.rows, h.cells, fun record hrecord => ?_, h.filed, ?_, fun slot hslot => ?_, ?_, fun place hplace => ?_, h.begun,
      fun record hrecord htable => ?_, h.ordered, fun place hplace => (h.latest place hplace).trans (by simp), fun place hplace => (h.openings place hplace).trans (by simp)⟩
    · obtain hrecord | hrecord := List.mem_append.1 hrecord
      · exact h.kept record hrecord
      · obtain rfl := List.mem_singleton.1 hrecord
        refine ⟨fun _ => rfl, fun column text htext => ?_⟩
        cases column with
        | zero =>
            rw [← Option.some.inj htext, visible_clean]
            exact h.pending
        | succ column => cases htext
    · exact (h.block_fresh (Nat.lt_succ_self _)).symm
    · obtain rfl | ⟨record, hrecord, hhas⟩ | hframe := h.live slot hslot
      · exact .inr (.inl ⟨_, List.mem_append_right _ (List.mem_singleton.2 rfl), 0, Nat.one_pos, rfl⟩)
      · exact .inr (.inl ⟨record, List.mem_append_left _ hrecord, hhas⟩)
      · exact .inr (.inr hframe)
    · rw [hperm.nodup_iff, List.nodup_cons]
      refine ⟨fun hmem => ?_, h.apart⟩
      have := h.bound _ hmem
      omega
    · show place ≤ s.places + 1
      obtain rfl | hplace := List.mem_cons.1 (hperm.mem_iff.1 hplace)
      · exact le_rfl
      · have := h.bound _ hplace
        omega
    · obtain hrecord | hrecord := List.mem_append.1 hrecord
      · exact h.opened record hrecord htable
      · obtain rfl := List.mem_singleton.1 hrecord
        exact absurd rfl htable

theorem Holds.reframe_head {frames : List Frame} {frame new : Frame} (h : Holds log (frame :: frames) s)
    (hplace : new.row.place = frame.row.place) (hlength : frame.row.cells.length ≤ new.row.cells.length) (hnew : new.Holds log)
    (hrows : s'.rows = (new :: frames).map Frame.row) (hcells : s'.cells = (new :: frames).filterMap Frame.cell)
    (hrecords : s'.records = s.records) (htext : s'.text = s.text) (hplaces : s'.places = s.places) : Holds log (new :: frames) s' := by
  have hempty : log ++ inSlot [] (.cell frame.row.place frame.row.cells.length) = log := List.append_nil _
  have hsame : Holds log ([] ++ frame :: frames) s := h
  have hresult := hsame.reframe hplace hlength (hempty.symm ▸ hnew) hrows hcells hrecords htext hplaces
  rwa [hempty] at hresult

theorem Holds.openCell {row : OpenRow} (h : Holds log (⟨row, none⟩ :: frames) s) : Holds log (⟨row, some []⟩ :: frames) (openCell s) := by
  have hself := h.filed _ List.mem_cons_self
  refine h.reframe_head rfl le_rfl ⟨hself.cells, hself.current⟩ h.rows ?_ rfl rfl rfl
  show [] :: s.cells = _
  rw [h.cells]
  rfl

theorem Holds.cell_later {frame : Frame} (h : Holds log frames s) (hframe : frame ∈ frames) {column : Nat} (hcolumn : frame.row.cells.length < column) :
    charsIn log (.cell frame.row.place column) = [] := by
  by_contra hne
  obtain heq | ⟨record, hrecord, _, _, heq⟩ | ⟨other, hother, column', hle, heq⟩ := h.live _ hne
  · exact nomatch heq
  · rw [Record.slot] at heq
    split_ifs at heq
    exact h.record_ne hrecord hframe (Slot.cell.inj heq).1.symm
  · obtain ⟨hplace, hsame⟩ := Slot.cell.inj heq
    obtain ⟨front, back, rfl⟩ := List.append_of_mem hframe
    obtain hmem | hmem := List.mem_append.1 hother
    · exact h.frame_ne (.inl hmem) hplace.symm
    · obtain rfl | hmem := List.mem_cons.1 hmem
      · omega
      · exact h.frame_ne (.inr hmem) hplace.symm

theorem closeCell_eq_ok {attrs : List (String × String)} {rows : List OpenRow} {cell : Text} {cells : List Text}
    (hrows : s.rows = row :: rows) (hcells : s.cells = cell :: cells) (h : closeCell attrs s = .ok s') :
    s' = { s with
      cells := cells
      rows := { row with cells := row.cells ++ clean cell :: List.replicate (spanOf attrs - 1) [] } :: rows } := by
  rw [closeCell, hrows, hcells] at h
  exact (Except.ok.inj h).symm

theorem Holds.closeCell {attrs : List (String × String)} {cell : Text} (h : Holds log (⟨row, some cell⟩ :: frames) s)
    (hclose : closeCell attrs s = .ok s') :
    Holds log (⟨{ row with cells := row.cells ++ clean cell :: List.replicate (spanOf attrs - 1) [] }, none⟩ :: frames) s' := by
  have hmem : (⟨row, some cell⟩ : Frame) ∈ (⟨row, some cell⟩ : Frame) :: frames := List.mem_cons_self
  have hself := h.filed _ hmem
  rw [closeCell_eq_ok h.rows h.cells hclose]
  refine h.reframe_head rfl (by simp) ⟨fun column text htext => ?_, ?_⟩ rfl rfl rfl rfl rfl
  · obtain hlt | rfl | hgt := lt_trichotomy column row.cells.length
    · rw [List.getElem?_append_left hlt] at htext
      exact hself.cells column text htext
    · rw [List.getElem?_append_right le_rfl, Nat.sub_self] at htext
      rw [← Option.some.inj htext, visible_clean]
      exact hself.current
    · rw [List.getElem?_append_right hgt.le, List.getElem?_cons, if_neg (by omega), List.getElem?_replicate] at htext
      split_ifs at htext
      rw [← Option.some.inj htext]
      exact (h.cell_later hmem hgt).symm
  · refine (h.cell_later hmem ?_).symm
    show row.cells.length < (row.cells ++ clean cell :: List.replicate (spanOf attrs - 1) []).length
    rw [List.length_append, List.length_cons]
    omega

def nextRow (s : Walk) : OpenRow := ⟨s.places + 1, (s.opened.head?.map Prod.fst).getD 0, []⟩

theorem Ordered.openRow (h : Holds log frames s) : Ordered (log ++ [.row (s.places + 1)]) := by
  refine h.ordered.append (List.pairwise_singleton _ _) (fun a ha b hb => ?_) (List.pairwise_singleton _ _) (fun a ha b hb => ?_)
    fun c place column hmem => ?_
  · rw [List.mem_singleton.1 hb]
    exact h.latest a ha
  · rw [List.mem_singleton.1 hb]
    exact Nat.lt_succ_of_le (h.openings a ha)
  · exact nomatch List.mem_singleton.1 hmem

theorem Holds.openRow (h : Holds log frames s) (hblank : visible s.text = []) :
    Holds (log ++ [.row (s.places + 1)]) (⟨nextRow s, none⟩ :: frames) (openRow s) := by
  have hnone : charsIn log (.block (s.places + 1)) = [] := h.pending.symm.trans hblank
  have hperm : (placesOf (⟨nextRow s, none⟩ :: frames) (Pages.openRow s)).Perm ((s.places + 1) :: placesOf frames s) := List.perm_middle
  refine ⟨congrArg (nextRow s :: ·) h.rows, h.cells, fun record hrecord => ?_, fun frame hframe => ?_, ?_, fun slot hslot => ?_, ?_,
    fun place hplace => ?_, fun frame hframe => ?_, fun record hrecord htable => List.mem_append_left _ (h.opened record hrecord htable),
    Ordered.openRow h, fun place hplace => ?_, fun place hplace => ?_⟩
  · exact (h.kept record hrecord).append fun column _ => rfl
  · obtain rfl | hframe := List.mem_cons.1 hframe
    · refine ⟨fun column text htext => (nomatch htext), ?_⟩
      rw [charsIn_row]
      exact (h.cell_fresh (Nat.lt_succ_self _) 0).symm
    · exact (h.filed frame hframe).append fun column _ => rfl
  · rw [charsIn_row]
    exact hblank.trans (h.block_fresh (Nat.lt_succ_self _)).symm
  · rw [charsIn_row] at hslot
    obtain rfl | hrecord | ⟨frame, hframe, hhas⟩ := h.live slot hslot
    · exact absurd hnone hslot
    · exact .inr (.inl hrecord)
    · exact .inr (.inr ⟨frame, List.mem_cons_of_mem _ hframe, hhas⟩)
  · rw [hperm.nodup_iff, List.nodup_cons]
    refine ⟨fun hmem => ?_, h.apart⟩
    have := h.bound _ hmem
    omega
  · show place ≤ s.places + 1
    obtain rfl | hplace := List.mem_cons.1 (hperm.mem_iff.1 hplace)
    · exact le_rfl
    · exact (h.bound _ hplace).trans (Nat.le_succ _)
  · obtain rfl | hframe := List.mem_cons.1 hframe
    · exact List.mem_append_right _ (List.mem_singleton.2 rfl)
    · exact List.mem_append_left _ (h.begun frame hframe)
  · show place ≤ s.places + 1 + 1
    rw [List.filterMap_append, List.mem_append] at hplace
    obtain hplace | hplace := hplace
    · exact (h.latest place hplace).trans (Nat.le_succ _)
    · rw [List.mem_singleton.1 hplace]
      exact Nat.le_succ _
  · show place ≤ s.places + 1
    rw [List.filterMap_append, List.mem_append] at hplace
    obtain hplace | hplace := hplace
    · exact (h.openings place hplace).trans (Nat.le_succ _)
    · exact (List.mem_singleton.1 hplace).le

theorem closeRow_eq_ok {rows : List OpenRow} (hrows : s.rows = row :: rows) (h : closeRow maxRecords s = .ok s') :
    ((∀ cell ∈ row.cells, cell = []) ∧ s' = { s with rows := rows }) ∨
      ∃ table count opened, s.opened = (table, count) :: opened ∧ s' = { s with
        rows := rows
        opened := (table, count + 1) :: opened
        records := s.records ++ [⟨row.place, some (row.table, count + 1), row.cells⟩] } := by
  rw [closeRow, hrows] at h
  simp only at h
  split_ifs at h with hfilled
  · cases hopened : s.opened with
    | nil =>
        rw [hopened] at h
        cases h
    | cons entry opened =>
        rw [hopened] at h
        exact .inr ⟨entry.1, entry.2, opened, rfl, keep_eq_ok h⟩
  · refine .inl ⟨fun cell hcell => ?_, (Except.ok.inj h).symm⟩
    by_contra hne
    exact hfilled (List.any_eq_true.2 ⟨cell, hcell, decide_eq_true hne⟩)

theorem Holds.closeRow (h : Holds log (⟨row, none⟩ :: frames) s) (hclose : closeRow maxRecords s = .ok s') : Holds log frames s' := by
  have hmem : (⟨row, none⟩ : Frame) ∈ (⟨row, none⟩ : Frame) :: frames := List.mem_cons_self
  have hself := h.filed _ hmem
  have hrest : ∀ frame ∈ frames, frame ∈ (⟨row, none⟩ : Frame) :: frames := fun _ => List.mem_cons_of_mem _
  have hcells : s.cells = frames.filterMap Frame.cell := h.cells
  -- nothing was given to the row past its cells
  have hpast : ∀ column, row.cells.length ≤ column → charsIn log (.cell row.place column) = [] := by
    intro column hcolumn
    obtain heq | hlt := Nat.eq_or_lt_of_le hcolumn
    · rw [← heq]
      exact hself.current.symm
    · exact h.cell_later hmem hlt
  obtain ⟨hempty, rfl⟩ | ⟨table, count, opened, _, rfl⟩ := closeRow_eq_ok h.rows hclose
  · have hsub : (placesOf frames s).Sublist (placesOf (⟨row, none⟩ :: frames) s) :=
      List.Sublist.append_left (List.sublist_cons_self _ _) _
    refine ⟨rfl, hcells, h.kept, fun frame hframe => h.filed frame (hrest frame hframe), h.pending, fun slot hslot => ?_, h.apart.sublist hsub,
      fun place hplace => h.bound place (hsub.subset hplace), fun frame hframe => h.begun frame (hrest frame hframe), h.opened, h.ordered, h.latest, h.openings⟩
    obtain hpending | hrecord | ⟨frame, hframe, column, hcolumn, rfl⟩ := h.live slot hslot
    · exact .inl hpending
    · exact .inr (.inl hrecord)
    · obtain rfl | hframe := List.mem_cons.1 hframe
      · refine absurd ?_ hslot
        obtain hlt | hle := Nat.lt_or_ge column row.cells.length
        · have htext := hself.cells column _ (List.getElem?_eq_getElem hlt)
          rw [← htext, hempty _ (List.getElem_mem hlt)]
          rfl
        · exact hpast column hle
      · exact .inr (.inr ⟨frame, hframe, column, hcolumn, rfl⟩)
  · have hsame : (s.records ++ [(⟨row.place, some (row.table, count + 1), row.cells⟩ : Record)]).map Record.place ++ frames.map (fun frame => frame.row.place) =
        placesOf (⟨row, none⟩ :: frames) s := by
      rw [placesOf, List.map_append, List.append_assoc]
      rfl
    refine ⟨rfl, hcells, fun record hrecord => ?_, fun frame hframe => h.filed frame (hrest frame hframe), h.pending, fun slot hslot => ?_,
      hsame.symm.subst h.apart, fun place hplace => h.bound place (hsame.subst (motive := fun places => place ∈ places) hplace), fun frame hframe => h.begun frame (hrest frame hframe),
      fun record hrecord htable => ?_, h.ordered, h.latest, h.openings⟩
    · obtain hrecord | hrecord := List.mem_append.1 hrecord
      · exact h.kept record hrecord
      · obtain rfl := List.mem_singleton.1 hrecord
        exact ⟨fun hnone => (nomatch hnone), fun column text htext => hself.cells column text htext⟩
    · obtain hpending | ⟨record, hrecord, hhas⟩ | ⟨frame, hframe, column, hcolumn, rfl⟩ := h.live slot hslot
      · exact .inl hpending
      · exact .inr (.inl ⟨record, List.mem_append_left _ hrecord, hhas⟩)
      · obtain rfl | hframe := List.mem_cons.1 hframe
        · refine .inr (.inl ⟨_, List.mem_append_right _ (List.mem_singleton.2 rfl), column, ?_, rfl⟩)
          obtain hlt | hle := Nat.lt_or_ge column row.cells.length
          · exact hlt
          · exact absurd (hpast column hle) hslot
        · exact .inr (.inr ⟨frame, hframe, column, hcolumn, rfl⟩)
    · obtain hrecord | hrecord := List.mem_append.1 hrecord
      · exact h.opened record hrecord htable
      · obtain rfl := List.mem_singleton.1 hrecord
        exact h.begun _ hmem

end EdgarPlatform.Pages
