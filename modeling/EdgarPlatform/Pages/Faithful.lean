import EdgarPlatform.Pages.Numbers

/-!
# A walk goes over a node

Every node is gone over from a state that fits where the node stands to one that fits there again: the node's tokens are added to the log, and the rows, cells and tables that were open are open still.
-/

namespace EdgarPlatform.Pages

variable {log : List Event} {frames others : List Frame} {s s' mid : Walk} {maxRecords : Nat} {context : Context}

structure Inv (log : List Event) (frames : List Frame) (s : Walk) : Prop where
  holds : Holds log frames s
  numbered : Numbered frames s

/-- A state fits where a node stands. In a table and in a row no text is pending, nor is any inside a cell. -/
def Fits (context : Context) (frames : List Frame) (s : Walk) : Prop :=
  match context with
  | .flow => s.cells ≠ [] → visible s.text = []
  | .table => visible s.text = [] ∧ ∃ entry opened, s.opened = entry :: opened ∧ entry.1 ∉ frames.map fun frame => frame.row.table
  | .row => visible s.text = [] ∧ ∃ row rest, frames = ⟨row, none⟩ :: rest ∧ s.opened.head?.map Prod.fst = some row.table

def Frame.mark (frame : Frame) : (Nat × Nat) × Bool := (frame.key, frame.cell.isSome)

def Goes (context : Context) (gone : List Token) (s s' : Walk) : Prop :=
  ∀ log frames, Inv log frames s → Fits context frames s → ∃ events frames', events.map Event.token = gone ∧ Inv (log ++ events) frames' s' ∧
    Fits context frames' s' ∧ frames'.map Frame.mark = frames.map Frame.mark ∧ s'.opened.map Prod.fst = s.opened.map Prod.fst

theorem Goes.refl (context : Context) (s : Walk) : Goes context [] s s := fun log frames hinv hfits =>
  ⟨[], frames, rfl, (List.append_nil log).symm ▸ hinv, hfits, rfl, rfl⟩

theorem Goes.trans {gone more : List Token} (h : Goes context gone s mid) (h' : Goes context more mid s') : Goes context (gone ++ more) s s' := by
  intro log frames hinv hfits
  obtain ⟨events, frames', htokens, hinv, hfits, hmarks, hopened⟩ := h log frames hinv hfits
  obtain ⟨events', frames'', htokens', hinv, hfits, hmarks', hopened'⟩ := h' _ frames' hinv hfits
  refine ⟨events ++ events', frames'', ?_, ?_, hfits, hmarks'.trans hmarks, hopened'.trans hopened⟩
  · rw [List.map_append, htokens, htokens']
  · rw [← List.append_assoc]
    exact hinv

theorem keys_of_marks (h : others.map Frame.mark = frames.map Frame.mark) : others.map Frame.key = frames.map Frame.key := by
  have hkeys := congrArg (List.map Prod.fst) h
  rw [List.map_map, List.map_map] at hkeys
  exact hkeys

theorem tables_of_marks (h : others.map Frame.mark = frames.map Frame.mark) :
    (others.map fun frame => frame.row.table) = frames.map fun frame => frame.row.table := by
  have htables := congrArg (List.map Prod.snd) (keys_of_marks h)
  rw [List.map_map, List.map_map] at htables
  exact htables

theorem frame_of_marks {frame : Frame} {rest : List Frame} (h : others.map Frame.mark = (frame :: rest).map Frame.mark) :
    ∃ other more, others = other :: more ∧ other.mark = frame.mark ∧ more.map Frame.mark = rest.map Frame.mark := by
  cases others with
  | nil => cases h
  | cons other more =>
      rw [List.map_cons, List.map_cons, List.cons.injEq] at h
      exact ⟨other, more, rfl, h⟩

theorem Frame.closed_of_mark {frame : Frame} {row : OpenRow} (h : frame.mark = (⟨row, none⟩ : Frame).mark) :
    ∃ row', frame = ⟨row', none⟩ ∧ row'.place = row.place ∧ row'.table = row.table := by
  obtain ⟨row', cell⟩ := frame
  obtain ⟨hkey, hcell⟩ := Prod.mk.inj h
  cases cell with
  | some cell => cases hcell
  | none => exact ⟨row', rfl, Prod.mk.inj hkey⟩

theorem Frame.open_of_mark {frame : Frame} {row : OpenRow} {cell : Text} (h : frame.mark = (⟨row, some cell⟩ : Frame).mark) :
    ∃ row' cell', frame = ⟨row', some cell'⟩ ∧ row'.place = row.place ∧ row'.table = row.table := by
  obtain ⟨row', cell'⟩ := frame
  obtain ⟨hkey, hcell⟩ := Prod.mk.inj h
  cases cell' with
  | some cell' => exact ⟨row', cell', rfl, Prod.mk.inj hkey⟩
  | none => cases hcell

theorem Fits.blank (h : Fits context frames s) (hinside : s.cells ≠ [] ∨ context ≠ .flow) : visible s.text = [] := by
  cases context with
  | flow => exact h (hinside.resolve_right fun hne => hne rfl)
  | table => exact h.1
  | row => exact h.1

theorem Fits.kin (h : Fits context frames s) (hmarks : others.map Frame.mark = frames.map Frame.mark)
    (hopened : s'.opened.map Prod.fst = s.opened.map Prod.fst) (htext : visible s'.text = [] ∨ context = .flow ∧ s'.cells = []) :
    Fits context others s' := by
  cases context with
  | flow => exact fun hcells => htext.resolve_right fun hnone => hcells hnone.2
  | table =>
      obtain ⟨_, entry, opened, hentry, hfree⟩ := h
      refine ⟨htext.resolve_right fun hnone => (nomatch hnone.1), ?_⟩
      rw [hentry] at hopened
      cases hopened' : s'.opened with
      | nil =>
          rw [hopened'] at hopened
          cases hopened
      | cons entry' opened' =>
          rw [hopened', List.map_cons, List.map_cons, List.cons.injEq] at hopened
          refine ⟨entry', opened', rfl, ?_⟩
          rw [hopened.1, tables_of_marks hmarks]
          exact hfree
  | row =>
      obtain ⟨_, row, rest, rfl, htable⟩ := h
      refine ⟨htext.resolve_right fun hnone => (nomatch hnone.1), ?_⟩
      obtain ⟨other, more, rfl, hmark, _⟩ := frame_of_marks hmarks
      obtain ⟨row', rfl, _, hrow⟩ := Frame.closed_of_mark hmark
      refine ⟨row', more, rfl, ?_⟩
      rw [hrow, ← htable, ← List.head?_map, ← List.head?_map, hopened]

theorem split_frames (h : frames.filterMap Frame.cell ≠ []) :
    ∃ front row cell back, frames = front ++ ⟨row, some cell⟩ :: back ∧ ∀ frame ∈ front, frame.cell = none := by
  induction frames with
  | nil => exact absurd rfl h
  | cons frame rest ih =>
      obtain ⟨row, cell⟩ := frame
      cases cell with
      | some cell => exact ⟨[], row, cell, rest, rfl, fun _ hmem => absurd hmem List.not_mem_nil⟩
      | none =>
          obtain ⟨front, row', cell, back, rfl, hfront⟩ := ih h
          refine ⟨⟨row, none⟩ :: front, row', cell, back, rfl, fun frame hframe => ?_⟩
          obtain rfl | hframe := List.mem_cons.1 hframe
          · rfl
          · exact hfront frame hframe

theorem push_goes {text : Text} (htext : context = .flow ∨ visible text = []) (s : Walk) :
    Goes context ((visible text).map .char) s (push text s) := by
  intro log frames hinv hfits
  by_cases hcells : s.cells = []
  · have hpush : push text s = { s with text := s.text ++ text } := by rw [push, hcells]
    refine ⟨_, frames, token_inSlot text _, ⟨hinv.holds.push_outside hcells text, hinv.numbered.congr rfl ?_ ?_ ?_⟩, hfits.kin rfl ?_ ?_, rfl, ?_⟩
    · rw [hpush]
    · rw [hpush]
    · rw [hpush]
    · rw [hpush]
    · rw [hpush]
      obtain rfl | hblank := htext
      · exact .inr ⟨rfl, hcells⟩
      · by_cases hflow : context = .flow
        · exact .inr ⟨hflow, hcells⟩
        · exact .inl (by rw [visible_append, hfits.blank (.inr hflow), hblank]; rfl)
    · rw [hpush]
  · have hblank := hfits.blank (.inl hcells)
    rw [hinv.holds.cells] at hcells
    obtain ⟨front, row, cell, back, rfl, hfront⟩ := split_frames hcells
    have hcells : s.cells = cell :: back.filterMap Frame.cell := by
      rw [hinv.holds.cells, List.filterMap_append, List.filterMap_eq_nil_iff.2 hfront, List.nil_append, List.filterMap_cons]
    have hpush : push text s = { s with cells := (cell ++ text) :: back.filterMap Frame.cell } := by rw [push, hcells]
    have hmarks : (front ++ ⟨row, some (cell ++ text)⟩ :: back).map Frame.mark = (front ++ ⟨row, some cell⟩ :: back).map Frame.mark := by
      simp only [List.map_append, List.map_cons]
      rfl
    refine ⟨_, _, token_inSlot text _, ⟨hinv.holds.push_inside hfront text, hinv.numbered.congr (keys_of_marks hmarks) ?_ ?_ ?_⟩,
      hfits.kin hmarks ?_ ?_, hmarks, ?_⟩
    · rw [hpush]
    · rw [hpush]
    · rw [hpush]
    · rw [hpush]
    · rw [hpush]
      exact .inl hblank
    · rw [hpush]

theorem flush_text (h : flush maxRecords s = .ok s') : s'.text = [] ∧ s'.opened = s.opened ∧ s'.cells = s.cells := by
  obtain ⟨_, rfl⟩ | rfl := flush_eq_ok h
  · exact ⟨rfl, rfl, rfl⟩
  · exact ⟨rfl, rfl, rfl⟩

theorem Inv.flush (h : Inv log frames s) (hflush : flush maxRecords s = .ok s') : Inv log frames s' :=
  ⟨h.holds.flush hflush, h.numbered.flush hflush⟩

theorem flush_goes (h : flush maxRecords s = .ok s') : Goes context [] s s' := by
  intro log frames hinv hfits
  obtain ⟨htext, hopened, _⟩ := flush_text h
  refine ⟨[], frames, rfl, ?_, hfits.kin rfl (by rw [hopened]) (.inl (by rw [htext]; rfl)), rfl, by rw [hopened]⟩
  rw [List.append_nil]
  exact hinv.flush h

theorem separate_goes (h : separate maxRecords s = .ok s') : Goes context [] s s' := by
  rw [separate] at h
  split_ifs at h
  · exact flush_goes h
  · have hblank : visible [' '] = [] := rfl
    rw [← Except.ok.inj h]
    exact push_goes (.inr hblank) s

theorem separate_blank (h : separate maxRecords s = .ok s') (hfits : Fits .flow frames s') : visible s'.text = [] := by
  rw [separate] at h
  split_ifs at h with hcells
  · rw [(flush_text h).1]
    rfl
  · apply hfits
    rw [← Except.ok.inj h, push]
    cases hfound : s.cells with
    | nil => exact absurd hfound hcells
    | cons cell cells => exact List.cons_ne_nil _ _

theorem pushParts_goes {parts : List Text} (hparts : context = .flow ∨ visible parts.flatten = []) (h : pushParts maxRecords parts s = .ok s') :
    Goes context ((visible parts.flatten).map .char) s s' := by
  induction parts generalizing s with
  | nil =>
      rw [← Except.ok.inj h]
      exact .refl context s
  | cons part rest ih =>
      rw [List.flatten_cons, visible_append] at hparts
      have hpart : context = .flow ∨ visible part = [] := hparts.imp_right fun hnone => (List.append_eq_nil_iff.1 hnone).1
      have hrest : context = .flow ∨ visible rest.flatten = [] := hparts.imp_right fun hnone => (List.append_eq_nil_iff.1 hnone).2
      rw [List.flatten_cons, visible_append, List.map_append]
      cases rest with
      | nil =>
          rw [← Except.ok.inj h]
          exact (push_goes hpart s).trans (.refl context _)
      | cons next rest =>
          obtain ⟨mid, hmid, h⟩ := Except.bind_eq_ok.1 h
          exact (push_goes hpart s).trans ((separate_goes hmid).trans (ih hrest h))

theorem pushText_goes {plain : Bool} {contents : Text} (hshape : context = .flow ∨ visible contents = [])
    (h : pushText maxRecords plain contents s = .ok s') : Goes context ((visible contents).map .char) s s' := by
  rw [pushText] at h
  split_ifs at h
  · have hparts := visible_blankLineParts contents
    rw [← hparts] at hshape ⊢
    exact pushParts_goes hshape h
  · rw [← Except.ok.inj h]
    exact push_goes hshape s

variable {gone : List Token}

theorem table_goes {inner : Walk} (hopen : openTable maxRecords s = .ok mid) (h : Goes .table gone mid inner) :
    Goes context gone s (closeTable inner) := by
  intro log frames hinv hfits
  obtain ⟨before, hbefore, hmid⟩ := Except.bind_eq_ok.1 hopen
  have hready : Inv log frames before ∧ visible before.text = [] ∧ before.opened = s.opened := by
    rw [flushOutside] at hbefore
    split_ifs at hbefore with hcells
    · obtain ⟨htext, hopened, _⟩ := flush_text hbefore
      exact ⟨hinv.flush hbefore, by rw [htext]; rfl, hopened⟩
    · rw [← Except.ok.inj hbefore]
      exact ⟨hinv, hfits.blank (.inl hcells), rfl⟩
  obtain ⟨hinv, hblank, hopened⟩ := hready
  rw [← Except.ok.inj hmid] at h
  have hopenInv : Inv log frames { before with tables := before.tables + 1, opened := (before.tables + 1, 0) :: before.opened } :=
    ⟨{ hinv.holds with }, hinv.numbered.openTable⟩
  obtain ⟨events, frames', htokens, hinv', hfits', hmarks, hopened'⟩ := h log frames hopenInv ⟨hblank, _, _, rfl, fun hmem => by
    obtain ⟨frame, hframe, htable⟩ := List.mem_map.1 hmem
    have := hinv.numbered.rows frame hframe
    omega⟩
  have hclosed : (closeTable inner).opened.map Prod.fst = s.opened.map Prod.fst := by
    show inner.opened.tail.map Prod.fst = _
    rw [List.map_tail, hopened', ← hopened]
    rfl
  exact ⟨events, frames', htokens, ⟨{ hinv'.holds with }, hinv'.numbered.closeTable⟩, hfits.kin hmarks hclosed (.inl hfits'.1), hmarks, hclosed⟩

theorem row_goes (h : Goes .row gone (openRow s) mid) (hclose : closeRow maxRecords mid = .ok s') :
    Goes .table (.row :: gone) s s' := by
  intro log frames hinv hfits
  obtain ⟨hblank, entry, opened, hopened, hfree⟩ := hfits
  have htable : (nextRow s).table = entry.1 := by
    show (s.opened.head?.map Prod.fst).getD 0 = entry.1
    rw [hopened]
    rfl
  have hopenInv : Inv (log ++ [.row (s.places + 1)]) (⟨nextRow s, none⟩ :: frames) (openRow s) :=
    ⟨hinv.holds.openRow hblank, hinv.numbered.openRow hopened hfree fun record hrecord => hinv.holds.bound _ (mem_placesOf_record hrecord)⟩
  obtain ⟨events, frames', htokens, hinv', hfits', hmarks, hopened'⟩ := h _ _ hopenInv ⟨hblank, _, _, rfl, by
    show s.opened.head?.map Prod.fst = _
    rw [hopened, htable]
    rfl⟩
  obtain ⟨hblank', row, rest, rfl, hrow⟩ := hfits'
  obtain ⟨other, more, hcons, _, hmore⟩ := frame_of_marks hmarks
  obtain ⟨rfl, rfl⟩ := List.cons.inj hcons
  have hsame : s'.opened.map Prod.fst = mid.opened.map Prod.fst ∧ s'.text = mid.text := by
    obtain ⟨_, rfl⟩ | ⟨table, count, opened, hfound, rfl⟩ := closeRow_eq_ok hinv'.holds.rows hclose
    · exact ⟨rfl, rfl⟩
    · rw [hfound]
      exact ⟨rfl, rfl⟩
  have hstill : s'.opened.map Prod.fst = s.opened.map Prod.fst := hsame.1.trans hopened'
  refine ⟨.row (s.places + 1) :: events, rest, congrArg (Token.row :: ·) htokens, ⟨?_, hinv'.numbered.closeRow hinv'.holds.rows hrow hclose⟩, ?_, hmore, hstill⟩
  · have hclosed := hinv'.holds.closeRow hclose
    rw [List.append_assoc] at hclosed
    exact hclosed
  · have hbefore : Fits .table frames s := ⟨hblank, entry, opened, hopened, hfree⟩
    exact hbefore.kin hmore hstill (.inl (hsame.2 ▸ hblank'))

theorem cell_goes {attrs : List (String × String)} (h : Goes .flow gone (openCell s) mid) (hclose : closeCell attrs mid = .ok s') :
    Goes .row gone s s' := by
  intro log frames hinv hfits
  obtain ⟨hblank, row, rest, rfl, hrow⟩ := hfits
  have hopenInv : Inv log (⟨row, some []⟩ :: rest) (openCell s) := ⟨hinv.holds.openCell, hinv.numbered.congr rfl rfl rfl rfl⟩
  obtain ⟨events, frames', htokens, hinv', hfits', hmarks, hopened⟩ := h log _ hopenInv fun _ => hblank
  obtain ⟨other, more, rfl, hmark, hmore⟩ := frame_of_marks hmarks
  obtain ⟨row', cell, rfl, hplace, htable⟩ := Frame.open_of_mark hmark
  have hclosed := closeCell_eq_ok hinv'.holds.rows hinv'.holds.cells hclose
  have hblank' : visible mid.text = [] := by
    apply hfits'
    rw [hinv'.holds.cells]
    exact List.cons_ne_nil _ _
  refine ⟨events, _, htokens, ⟨hinv'.holds.closeCell hclose, hinv'.numbered.congr rfl ?_ ?_ ?_⟩, ⟨?_, _, _, rfl, ?_⟩, ?_, ?_⟩
  · rw [hclosed]
  · rw [hclosed]
  · rw [hclosed]
  · rw [hclosed]
    exact hblank'
  · rw [hclosed]
    show mid.opened.head?.map Prod.fst = some row'.table
    rw [htable, ← hrow, ← List.head?_map, ← List.head?_map, hopened]
    rfl
  · rw [List.map_cons, List.map_cons, hmore, Frame.mark, Frame.mark, Frame.key, Frame.key, hplace, htable]
  · rw [hclosed]
    exact hopened

theorem block_goes {inner : Walk} (hopen : separate maxRecords s = .ok mid) (h : Goes context gone mid inner)
    (hclose : separate maxRecords inner = .ok s') : Goes context gone s s' := by
  have hgoes := (separate_goes hopen).trans (h.trans (separate_goes hclose))
  rwa [List.nil_append, List.append_nil] at hgoes

theorem caption_goes {inner : Walk} (hopen : separate maxRecords s = .ok mid) (h : Goes .flow gone mid inner)
    (hclose : separate maxRecords inner = .ok s') : Goes context gone s s' := by
  intro log frames hinv hfits
  have hflow : Fits .flow frames s := fun hcells => hfits.blank (.inl hcells)
  obtain ⟨events, frames', htokens, hinv', hfits', hmarks, hopened⟩ := block_goes hopen h hclose log frames hinv hflow
  exact ⟨events, frames', htokens, hinv', hfits.kin hmarks hopened (.inl (separate_blank hclose hfits')), hmarks, hopened⟩

theorem inside_cases {tag : String} {inner : Context} (h : context.inside tag = some inner) :
    (tag = "table" ∧ inner = .table) ∨ (tag = "tr" ∧ context = .table ∧ inner = .row) ∨
      ((tag = "td" ∨ tag = "th") ∧ context = .row ∧ inner = .flow) ∨ (tag = "caption" ∧ inner = .flow) ∨
      (tag ≠ "table" ∧ tag ≠ "tr" ∧ ¬(tag = "td" ∨ tag = "th") ∧ tag ≠ "caption" ∧ inner = context) := by
  rw [Context.inside] at h
  split_ifs at h with htable hrow hin hcell hin hcaption
  · exact .inl ⟨htable, (Option.some.inj h).symm⟩
  · exact .inr (.inl ⟨hrow, hin, (Option.some.inj h).symm⟩)
  · exact .inr (.inr (.inl ⟨hcell, hin, (Option.some.inj h).symm⟩))
  · exact .inr (.inr (.inr (.inl ⟨hcaption, (Option.some.inj h).symm⟩)))
  · exact .inr (.inr (.inr (.inr ⟨htable, hrow, hcell, hcaption, (Option.some.inj h).symm⟩)))

theorem element_goes {tag : String} {attrs : List (String × String)} {children : List Node} {plain : Bool} {inner : Context}
    (hinside : context.inside tag = some inner) (hhidden : tag ∉ hiddenTags)
    (hchildren : ∀ plain s s', walkAll maxRecords children plain s = .ok s' → Goes inner (tokensAll children) s s')
    (h : walk maxRecords (.element tag attrs children) plain s = .ok s') : Goes context (tokens (.element tag attrs children)) s s' := by
  rw [walk, if_neg hhidden] at h
  rw [tokens, if_neg hhidden]
  obtain ⟨rfl, rfl⟩ | ⟨rfl, rfl, rfl⟩ | ⟨hcell, rfl, rfl⟩ | ⟨rfl, rfl⟩ | ⟨htable, hrow, hcell, _, rfl⟩ := inside_cases hinside
  · rw [if_pos rfl] at h
    obtain ⟨mid, hopen, h⟩ := Except.bind_eq_ok.1 h
    obtain ⟨last, hwalk, h⟩ := Except.bind_eq_ok.1 h
    rw [← Except.ok.inj h, if_neg (by decide)]
    exact table_goes hopen (hchildren _ _ _ hwalk)
  · rw [if_pos rfl]
    intro log frames hinv hfits
    have hopened : s.opened ≠ [] := by
      obtain ⟨_, entry, opened, hopened, _⟩ := hfits
      rw [hopened]
      exact List.cons_ne_nil _ _
    rw [if_neg (by decide), if_pos ⟨rfl, hopened⟩] at h
    obtain ⟨mid, hwalk, h⟩ := Except.bind_eq_ok.1 h
    exact row_goes (hchildren _ _ _ hwalk) h log frames hinv hfits
  · intro log frames hinv hfits
    have hrows : s.rows ≠ [] := by
      obtain ⟨_, row, rest, rfl, _⟩ := hfits
      rw [hinv.holds.rows]
      exact List.cons_ne_nil _ _
    have htags : tag ≠ "table" ∧ tag ≠ "tr" := by
      obtain rfl | rfl := hcell
      · decide
      · decide
    rw [if_neg htags.1, if_neg fun hrow => htags.2 hrow.1, if_pos ⟨hcell, hrows⟩] at h
    rw [if_neg htags.2]
    obtain ⟨mid, hwalk, h⟩ := Except.bind_eq_ok.1 h
    exact cell_goes (hchildren _ _ _ hwalk) h log frames hinv hfits
  · rw [if_neg (by decide), if_neg (by simp), if_neg (by simp), if_pos (by decide)] at h
    rw [if_neg (by decide)]
    obtain ⟨mid, hopen, h⟩ := Except.bind_eq_ok.1 h
    obtain ⟨last, hwalk, h⟩ := Except.bind_eq_ok.1 h
    exact caption_goes hopen (hchildren _ _ _ hwalk) h
  · rw [if_neg htable, if_neg fun hboth => hrow hboth.1, if_neg fun hboth => hcell hboth.1] at h
    rw [if_neg hrow]
    split_ifs at h
    · obtain ⟨mid, hopen, h⟩ := Except.bind_eq_ok.1 h
      obtain ⟨last, hwalk, h⟩ := Except.bind_eq_ok.1 h
      exact block_goes hopen (hchildren _ _ _ hwalk) h
    · exact hchildren _ _ _ h

mutual

theorem walk_goes (node : Node) (context : Context) (hshape : shaped context node = true) (plain : Bool) (s s' : Walk)
    (h : walk maxRecords node plain s = .ok s') : Goes context (tokens node) s s' := by
  match node with
  | .text contents =>
      rw [shaped, decide_eq_true_eq] at hshape
      rw [walk] at h
      rw [tokens]
      exact pushText_goes hshape h
  | .document children =>
      rw [shaped] at hshape
      rw [walk] at h
      rw [tokens]
      exact walkAll_goes children context hshape plain s s' h
  | .element tag attrs children =>
      by_cases hhidden : tag ∈ hiddenTags
      · rw [walk, if_pos hhidden] at h
        rw [tokens, if_pos hhidden, ← Except.ok.inj h]
        exact .refl context s
      · rw [shaped, if_neg hhidden] at hshape
        cases hinside : context.inside tag with
        | none =>
            rw [hinside] at hshape
            cases hshape
        | some inner =>
            rw [hinside] at hshape
            exact element_goes hinside hhidden (fun plain s s' => walkAll_goes children inner hshape plain s s') h
  | .other =>
      rw [walk] at h
      rw [tokens, ← Except.ok.inj h]
      exact .refl context s
termination_by structural node

theorem walkAll_goes (nodes : List Node) (context : Context) (hshape : shapedAll context nodes = true) (plain : Bool) (s s' : Walk)
    (h : walkAll maxRecords nodes plain s = .ok s') : Goes context (tokensAll nodes) s s' := by
  match nodes with
  | [] =>
      rw [walkAll] at h
      rw [tokensAll, ← Except.ok.inj h]
      exact .refl context s
  | node :: rest =>
      rw [shapedAll, Bool.and_eq_true] at hshape
      rw [walkAll] at h
      rw [tokensAll]
      obtain ⟨mid, hmid, h⟩ := Except.bind_eq_ok.1 h
      exact (walk_goes node context hshape.1 plain s mid hmid).trans (walkAll_goes rest context hshape.2 plain mid s' h)
termination_by structural nodes

end

end EdgarPlatform.Pages
