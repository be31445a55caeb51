import EdgarPlatform.Formats.Trees
import Mathlib.Data.List.TakeWhile

/-!
# Delimited rows

A row of delimited text is read in two ways. The whole-file reader puts every cell under its header as a child. The streaming reader hands on a JSON object of header to text, whose tree takes `$` and `@x` for the element's own text and attributes. The two read the same wherever no path can name such a header, and there only.
-/

namespace EdgarPlatform.Formats

open Records (Json)

def wholeRow (headers cells : List String) : El :=
  (headers.zip cells).foldl (fun el cell => el.addChild cell.1 (.ofScalar (some cell.2))) {}

def rowObject (headers cells : List String) : IndexMap String Json :=
  .ofList ((headers.zip cells).map fun cell => (cell.1, .str cell.2))

def streamedRow (exactNumbers pythonText : Bool) (headers cells : List String) : El :=
  jsonValue exactNumbers pythonText (.obj (rowObject headers cells).entries)

theorem segments_whole {depth : Int} {path first : List Char} {others : List (List Char)}
    (h : segmentsFrom depth path = first :: others) :
    segmentsFrom depth first = [first] ∧ ∀ segment ∈ others, segmentsFrom 0 segment = [segment] := by
  induction path generalizing depth first others with
  | nil =>
      cases h
      exact ⟨rfl, fun segment h => absurd h List.not_mem_nil⟩
  | cons c rest ih =>
      rw [segmentsFrom] at h
      split_ifs at h with hdot
      · cases h
        refine ⟨rfl, fun segment hsegment => ?_⟩
        cases hrest : segmentsFrom depth rest with
        | nil =>
            rw [hrest] at hsegment
            cases hsegment
        | cons next tail =>
            obtain ⟨hnext, htail⟩ := ih hrest
            rw [hrest] at hsegment
            rcases List.mem_cons.1 hsegment with rfl | hsegment
            · rwa [hdot.2] at hnext
            · exact htail segment hsegment
      · split at h
        · next heq =>
            cases h
            refine ⟨?_, fun segment h => absurd h List.not_mem_nil⟩
            rw [segmentsFrom, if_neg hdot]
            rfl
        · next next tail heq =>
            cases h
            obtain ⟨hnext, htail⟩ := ih heq
            refine ⟨?_, htail⟩
            rw [segmentsFrom, if_neg hdot, hnext]

theorem segments_of_append {depth : Int} {front back : List Char} (h : segmentsFrom depth (front ++ back) = [front ++ back]) :
    segmentsFrom depth front = [front] := by
  induction front generalizing depth with
  | nil => rfl
  | cons c rest ih =>
      rw [List.cons_append, segmentsFrom] at h
      rw [segmentsFrom]
      split_ifs at h ⊢ with hdot
      · cases h
      · split at h
        · next heq =>
            exfalso
            have hlength := congrArg List.length (List.cons.inj (List.cons.inj h).1).2
            have : rest ++ back = [] := (List.cons.inj (List.cons.inj h).1).2.symm
            rw [this] at heq
            cases heq
        · next first others heq =>
            obtain ⟨hfirst, rfl⟩ := List.cons.inj h
            rw [(List.cons.inj hfirst).2] at heq
            rw [ih heq]

/-- A path can name it: no dot of it would cut it, and no bracket opens a filter. -/
def Addressable (name : String) : Prop := segments name.toList = [name.toList] ∧ '[' ∉ name.toList

instance (name : String) : Decidable (Addressable name) := inferInstanceAs (Decidable (_ ∧ _))

theorem mem_segments {path segment : List Char} (h : segment ∈ segments path) : segments segment = [segment] := by
  cases hpath : segments path with
  | nil =>
      rw [hpath] at h
      cases h
  | cons first others =>
      obtain ⟨hfirst, hothers⟩ := segments_whole hpath
      rw [hpath] at h
      rcases List.mem_cons.1 h with rfl | h
      · exact hfirst
      · exact hothers segment h

theorem segments_ne_nil (path : List Char) : segments path ≠ [] := by
  intro h
  cases path with
  | nil => cases h
  | cons c rest =>
      rw [segments, segmentsFrom] at h
      split_ifs at h
      · split at h <;> cases h

theorem addressable_of_segment {path segment : List Char} (h : segment ∈ segments path) : Addressable (readSegment segment).1 := by
  have hwhole := mem_segments h
  rw [readSegment]
  split
  · next key rest heq =>
      rw [splitOnce] at heq
      split at heq
      · cases heq
      · cases heq
        rw [Addressable, String.toList_ofList]
        refine ⟨?_, fun hmem => by simpa using List.mem_takeWhile_imp hmem⟩
        exact segments_of_append ((List.takeWhile_append_dropWhile (p := (· ≠ '[')) (l := segment)).symm ▸ hwhole)
  · next heq =>
      rw [Addressable, String.toList_ofList]
      refine ⟨hwhole, fun hmem => ?_⟩
      rw [splitOnce] at heq
      split at heq
      · next hdrop => exact absurd (List.dropWhile_eq_nil_iff.1 hdrop _ hmem) (by decide)
      · cases heq

def cellOf (cells : List (String × String)) (name : String) : Option String := IndexMap.lookupEntry name cells

variable {cells : List (String × String)}

variable {name : String}

theorem cellOf_none (h : name ∉ cells.map Prod.fst) : cellOf cells name = none := by
  by_contra hsome
  obtain ⟨text, htext⟩ := Option.ne_none_iff_exists'.1 hsome
  exact h (List.mem_map_of_mem (IndexMap.lookupEntry_eq_some htext))

theorem cellOf_cons (cell : String × String) (rest : List (String × String)) (name : String) :
    cellOf (cell :: rest) name = if cell.1 = name then some cell.2 else cellOf rest name := rfl

def cellChild (text : String) : Child El := .one (.ofScalar (some text))

def Reserved (name : String) : Prop := name = "$" ∨ isAttribute name = true

instance (name : String) : Decidable (Reserved name) := inferInstanceAs (Decidable (_ ∨ _))

/-- An element's children stand in order of their names, each name once. -/
def El.Ordered (el : El) : Prop := el.children.Pairwise fun a b => a.1 < b.1

theorem El.Ordered.addChild {el : El} (h : el.Ordered) (name : String) (child : El) : (el.addChild name child).Ordered :=
  SortedMap.insertEntry_sorted name _ h

theorem El.child_addChild_new {el : El} (child : El) (h : el.child name = none) (other : String) :
    (el.addChild name child).child other = if other = name then some (.one child) else el.child other := by
  rw [El.addChild, h, El.child_setChild]

theorem wholeRow_spec (hnames : (cells.map Prod.fst).Nodup) {el : El} (hel : el.Ordered)
    (hnew : ∀ cell ∈ cells, el.child cell.1 = none) :
    let row := cells.foldl (fun el cell => el.addChild cell.1 (.ofScalar (some cell.2))) el
    row.Ordered ∧ row.scalar = el.scalar ∧ row.text = el.text ∧ row.attrs = el.attrs ∧
      ∀ name, row.child name = ((cellOf cells name).map cellChild).or (el.child name) := by
  induction cells generalizing el with
  | nil => exact ⟨hel, rfl, rfl, rfl, fun _ => rfl⟩
  | cons cell rest ih =>
      rw [List.map_cons, List.nodup_cons] at hnames
      have hchild := El.child_addChild_new (.ofScalar (some cell.2)) (hnew cell List.mem_cons_self)
      have hnext : ∀ other ∈ rest, (el.addChild cell.1 (.ofScalar (some cell.2))).child other.1 = none := by
        intro other hother
        have hne : other.1 ≠ cell.1 := fun heq => hnames.1 (heq ▸ List.mem_map_of_mem hother)
        rw [hchild, if_neg hne]
        exact hnew other (List.mem_cons_of_mem _ hother)
      obtain ⟨hordered, hscalar, htext, hattrs, hrow⟩ := ih hnames.2 (hel.addChild cell.1 (.ofScalar (some cell.2))) hnext
      refine ⟨hordered, hscalar, htext, hattrs, fun name => ?_⟩
      rw [List.foldl_cons, hrow, hchild, cellOf_cons]
      by_cases hname : name = cell.1
      · rw [if_pos hname, if_pos hname.symm, cellOf_none (hname ▸ hnames.1)]
        rfl
      · rw [if_neg hname, if_neg (Ne.symm hname)]

theorem jsonFields_cells (exactNumbers pythonText : Bool) (el : El) (cells : List (String × String)) :
    jsonFields exactNumbers pythonText el (cells.map fun cell => (cell.1, .str cell.2)) = cells.foldl (fun el cell => el.writeText cell.1 cell.2) el := by
  induction cells generalizing el with
  | nil => rfl
  | cons cell rest ih =>
      rw [List.map_cons, List.foldl_cons, jsonFields]
      exact ih _

/-- Cells written into a record's element: a reserved header is the element's own text or an attribute. -/
theorem streamedRow_spec (hnames : (cells.map Prod.fst).Nodup) {el : El} (hel : el.Ordered)
    (hnew : ∀ cell ∈ cells, el.child cell.1 = none) :
    let row := cells.foldl (fun el cell => el.writeText cell.1 cell.2) el
    row.Ordered ∧ row.scalar = el.scalar ∧ row.text = (cellOf cells "$").or el.text ∧
      (∀ name, row.attrs.get? name =
        (if name ≠ "$" ∧ isAttribute name = true then cellOf cells name else none).or (el.attrs.get? name)) ∧
      ∀ name, row.child name = (if Reserved name then none else (cellOf cells name).map cellChild).or (el.child name) := by
  induction cells generalizing el with
  | nil =>
      refine ⟨hel, rfl, rfl, fun name => ?_, fun name => ?_⟩
      · split_ifs <;> rfl
      · split_ifs <;> rfl
  | cons cell rest ih =>
      obtain ⟨header, text⟩ := cell
      rw [List.map_cons, List.nodup_cons] at hnames
      have hne : ∀ other ∈ rest, other.1 ≠ header := fun other hother heq =>
        hnames.1 (List.mem_map.2 ⟨other, hother, heq⟩)
      have hold : ∀ other ∈ rest, el.child other.1 = none := fun other hother => hnew other (List.mem_cons_of_mem _ hother)
      have hlast : cellOf rest header = none := cellOf_none hnames.1
      rw [List.foldl_cons, El.writeText]
      by_cases hdollar : header = "$"
      · subst hdollar
        obtain ⟨hordered, hscalar, htext, hattrs, hchild⟩ :=
          ih hnames.2 (show ({ el with text := some text } : El).Ordered from hel) hold
        rw [if_pos rfl]
        refine ⟨hordered, hscalar, ?_, fun name => ?_, fun name => ?_⟩
        · rw [htext, hlast, cellOf_cons, if_pos rfl]
          rfl
        · rw [hattrs, cellOf_cons]
          by_cases hname : name = "$"
          · simp [hname]
          · rw [if_neg (Ne.symm hname)]
        · rw [hchild, cellOf_cons]
          by_cases hname : name = "$"
          · rw [if_pos (.inl hname), if_pos (.inl hname)]
            rfl
          · rw [if_neg (Ne.symm hname)]
            rfl
      · by_cases hattr : isAttribute header = true
        · obtain ⟨hordered, hscalar, htext, hattrs, hchild⟩ :=
            ih hnames.2 (show ({ el with attrs := el.attrs.insert header text } : El).Ordered from hel) hold
          rw [if_neg hdollar, if_pos hattr]
          refine ⟨hordered, hscalar, ?_, fun name => ?_, fun name => ?_⟩
          · rw [htext, cellOf_cons, if_neg hdollar]
          · rw [hattrs, cellOf_cons, SortedMap.get?_insert]
            by_cases hname : name = header
            · subst hname
              rw [if_pos ⟨hdollar, hattr⟩, if_pos rfl, hlast, if_pos rfl, if_pos ⟨hdollar, hattr⟩]
              rfl
            · rw [if_neg hname, if_neg (Ne.symm hname)]
          · rw [hchild, cellOf_cons]
            by_cases hname : name = header
            · subst hname
              rw [if_pos (.inr hattr), if_pos (.inr hattr)]
              rfl
            · rw [if_neg (Ne.symm hname)]
              rfl
        · have hadd := El.child_addChild_new (.ofScalar (some text)) (hnew (header, text) List.mem_cons_self)
          have hnext : ∀ other ∈ rest, (el.addChild header (.ofScalar (some text))).child other.1 = none := by
            intro other hother
            rw [hadd, if_neg (hne other hother)]
            exact hold other hother
          obtain ⟨hordered, hscalar, htext, hattrs, hchild⟩ := ih hnames.2 (hel.addChild header (.ofScalar (some text))) hnext
          rw [if_neg hdollar, if_neg hattr]
          refine ⟨hordered, hscalar, ?_, fun name => ?_, fun name => ?_⟩
          · rw [htext, cellOf_cons, if_neg hdollar]
            rfl
          · rw [hattrs, cellOf_cons]
            by_cases hname : name = header
            · subst hname
              rw [if_neg fun h => hattr h.2, if_neg fun h => hattr h.2]
              rfl
            · rw [if_neg (Ne.symm hname)]
              rfl
          · rw [hchild, hadd, cellOf_cons]
            by_cases hname : name = header
            · subst hname
              have hnot : ¬ Reserved name := fun h => h.elim hdollar hattr
              rw [if_neg hnot, if_neg hnot, if_pos rfl, if_pos rfl, hlast]
              rfl
            · rw [if_neg hname, if_neg (Ne.symm hname)]

def rawChild : Child El → Raw
  | .one el => el.raw
  | .many rows => .list (rawRows rows)

theorem lookupEntry_rawChildren (children : List (String × Child El)) (name : String) :
    IndexMap.lookupEntry name (rawChildren children) = (IndexMap.lookupEntry name children).map rawChild := by
  induction children with
  | nil => rfl
  | cons entry rest ih =>
      obtain ⟨key, child⟩ := entry
      cases child <;>
        · rw [rawChildren, IndexMap.lookupEntry, IndexMap.lookupEntry, ih]
          split_ifs <;> rfl

theorem fst_rawChildren (children : List (String × Child El)) : (rawChildren children).map Prod.fst = children.map Prod.fst := by
  induction children with
  | nil => rfl
  | cons entry rest ih =>
      obtain ⟨key, child⟩ := entry
      cases child <;> rw [rawChildren, List.map_cons, List.map_cons, ih]

theorem lookupEntry_reverse {entries : List (String × Raw)} (h : (entries.map Prod.fst).Nodup) (key : String) :
    IndexMap.lookupEntry key entries.reverse = IndexMap.lookupEntry key entries := by
  refine Option.ext fun value => ?_
  have hreverse : (entries.reverse.map Prod.fst).Nodup := by
    rw [List.map_reverse]
    exact List.nodup_reverse.2 h
  constructor
  · exact fun hvalue => IndexMap.lookupEntry_of_mem h (List.mem_reverse.1 (IndexMap.lookupEntry_eq_some hvalue))
  · exact fun hvalue => IndexMap.lookupEntry_of_mem hreverse (List.mem_reverse.2 (IndexMap.lookupEntry_eq_some hvalue))

/-- What an element that is no value is handed on as: under each name a child, or else an attribute, or else the text. -/
theorem raw_spec {el : El} (hscalar : el.scalar = false) (hel : el.Ordered) :
    ∃ map : SortedMap String Raw, el.raw = .map map.entries ∧ ∀ name, map.get? name =
      ((el.child name).map rawChild).or (((el.attrs.get? name).map .text).or (if name = "$" then el.text.map .text else none)) := by
  obtain ⟨text, attrs, children, scalar, kind, exactNumber, array, jsonKeys⟩ := el
  have hscalar' : scalar = false := hscalar
  subst hscalar'
  refine ⟨_, by rw [El.raw, if_neg (by decide)], fun name => ?_⟩
  have hchildren : ((rawChildren children).map Prod.fst).Nodup := by
    rw [fst_rawChildren]
    exact (List.pairwise_map.2 hel).imp ne_of_lt
  have hattrs : ((attrs.entries.map fun entry => (entry.1, Raw.text entry.2)).map Prod.fst).Nodup := by
    rw [List.map_map]
    exact attrs.keys_nodup
  rw [SortedMap.get?_extend, SortedMap.get?_extend, lookupEntry_reverse hchildren, lookupEntry_reverse hattrs,
    lookupEntry_rawChildren, IndexMap.lookupEntry_map]
  cases text with
  | none =>
      rw [Option.elim_none, SortedMap.get?_empty, Option.map_none, ite_self]
      rfl
  | some text =>
      rw [Option.elim_some, SortedMap.get?_insert, SortedMap.get?_empty]
      rfl

section Rows

variable {exactNumbers pythonText : Bool} {headers cells : List String}

theorem zip_sublist (headers cells : List String) : ((headers.zip cells).map Prod.fst).Sublist headers := by
  induction headers generalizing cells with
  | nil => exact List.Sublist.slnil
  | cons header rest ih =>
      cases cells with
      | nil => exact List.nil_sublist _
      | cons cell others => exact (ih others).cons_cons header

theorem zip_nodup (h : headers.Nodup) : ((headers.zip cells).map Prod.fst).Nodup := h.sublist (zip_sublist headers cells)

variable (cells) in
theorem wholeRow_fields (h : headers.Nodup) : (wholeRow headers cells).Ordered ∧ (wholeRow headers cells).scalar = false ∧
    (wholeRow headers cells).text = none ∧ (wholeRow headers cells).attrs = .empty ∧
      ∀ name, (wholeRow headers cells).child name = (cellOf (headers.zip cells) name).map cellChild := by
  have hnames : ((headers.zip cells).map Prod.fst).Nodup := zip_nodup h
  obtain ⟨hordered, hscalar, htext, hattrs, hchild⟩ := wholeRow_spec hnames
    (show ({} : El).Ordered from List.Pairwise.nil) fun _ _ => rfl
  exact ⟨hordered, hscalar, htext, hattrs, fun name => (hchild name).trans (Option.or_none)⟩

variable (exactNumbers pythonText cells) in
theorem streamedRow_fields (h : headers.Nodup) :
    (streamedRow exactNumbers pythonText headers cells).Ordered ∧
    (streamedRow exactNumbers pythonText headers cells).scalar = false ∧
    (streamedRow exactNumbers pythonText headers cells).text = cellOf (headers.zip cells) "$" ∧
    (∀ name, (streamedRow exactNumbers pythonText headers cells).attrs.get? name =
      if name ≠ "$" ∧ isAttribute name = true then cellOf (headers.zip cells) name else none) ∧
    ∀ name, (streamedRow exactNumbers pythonText headers cells).child name =
      if Reserved name then none else (cellOf (headers.zip cells) name).map cellChild := by
  have hkeys : (((headers.zip cells).map fun cell => (cell.1, Json.str cell.2)).map Prod.fst).Nodup := by
    rw [List.map_map]
    exact zip_nodup h
  have hentries : (rowObject headers cells).entries = (headers.zip cells).map fun cell => (cell.1, .str cell.2) := by
    rw [rowObject, IndexMap.ofList, IndexMap.entries_extend (by simpa using hkeys)]
    rfl
  rw [streamedRow, hentries, jsonValue, jsonFields_cells]
  generalize hstart : ({ jsonKeys := _ } : El) = start
  have hel : start.Ordered := hstart ▸ List.Pairwise.nil
  have hnames : ((headers.zip cells).map Prod.fst).Nodup := zip_nodup h
  have hnew : ∀ cell ∈ headers.zip cells, start.child cell.1 = none := fun cell _ => by
    rw [← hstart]
    rfl
  obtain ⟨hordered, hscalar, htext, hattrs, hchild⟩ := streamedRow_spec hnames hel hnew
  subst hstart
  exact ⟨hordered, hscalar, htext.trans Option.or_none, fun name => (hattrs name).trans Option.or_none,
    fun name => (hchild name).trans Option.or_none⟩

theorem stepInto_rows (h : headers.Nodup)
    (hfree : ∀ name, Addressable name → Reserved name → cellOf (headers.zip cells) name = none)
    {within : El → List Char → Except String Found} {mode : Mode} {key : String} {filter : Option (List Char × List Char)}
    (hkey : Addressable key) : stepInto within mode key filter (streamedRow exactNumbers pythonText headers cells) =
      stepInto within mode key filter (wholeRow headers cells) := by
  have hstreamed := streamedRow_fields exactNumbers pythonText cells h
  have hwhole := wholeRow_fields cells h
  generalize streamedRow exactNumbers pythonText headers cells = streamed at hstreamed ⊢
  generalize wholeRow headers cells = whole at hwhole ⊢
  obtain ⟨_, hscalar, htext, hattrs, hchild⟩ := hwhole
  obtain ⟨_, hscalar', htext', hattrs', hchild'⟩ := hstreamed
  have hchildren : streamed.child key = whole.child key := by
    rw [hchild', hchild]
    split_ifs with hreserved
    · rw [hfree key hkey hreserved]
      rfl
    · rfl
  have hdollar : textOf streamed = textOf whole := by
    rw [textOf, textOf, htext, htext', hfree "$" (by decide) (.inl rfl)]
    rfl
  have hattributes : streamed.attrs.get? key = whole.attrs.get? key := by
    rw [hattrs', hattrs]
    split_ifs with hattr
    · exact hfree key hkey (.inr hattr.2)
    · rfl
  simp only [stepInto, hscalar, hscalar', hchildren, hdollar, hattributes]

/-- The row itself is handed on the same in either case: what is no child is the text or an attribute under its header. -/
theorem raw_rows (h : headers.Nodup) : (streamedRow exactNumbers pythonText headers cells).raw = (wholeRow headers cells).raw := by
  have hstreamed := streamedRow_fields exactNumbers pythonText cells h
  have hwhole := wholeRow_fields cells h
  generalize streamedRow exactNumbers pythonText headers cells = streamed at hstreamed ⊢
  generalize wholeRow headers cells = whole at hwhole ⊢
  obtain ⟨hordered, hscalar, htext, hattrs, hchild⟩ := hwhole
  obtain ⟨hordered', hscalar', htext', hattrs', hchild'⟩ := hstreamed
  obtain ⟨map, hmap, hget⟩ := raw_spec hscalar hordered
  obtain ⟨map', hmap', hget'⟩ := raw_spec hscalar' hordered'
  have hcell : ∀ text : String, rawChild (cellChild text) = .text text := fun _ => rfl
  have heq : map' = map := by
    refine SortedMap.ext_get? fun name => ?_
    rw [hget, hget', hchild, hchild', hattrs, hattrs', htext, htext', SortedMap.get?_empty]
    by_cases hdollar : name = "$"
    · subst hdollar
      cases cellOf (headers.zip cells) "$" <;> simp [Reserved, hcell]
    · by_cases hattr : isAttribute name = true
      · cases cellOf (headers.zip cells) name <;> simp [Reserved, hdollar, hattr, hcell]
      · cases cellOf (headers.zip cells) name <;> simp [Reserved, hdollar, hattr, hcell]
  rw [hmap, hmap', heq]

end Rows

theorem cellOf_exists (h : name ∈ cells.map Prod.fst) :
    ∃ text, cellOf cells name = some text := by
  induction cells with
  | nil => cases h
  | cons cell rest ih =>
      rw [cellOf_cons]
      split_ifs with hname
      · exact ⟨_, rfl⟩
      · rcases List.mem_cons.1 h with heq | h
        · exact absurd heq.symm hname
        · exact ih h

theorem readSegment_name (h : '[' ∉ name.toList) : readSegment name.toList = (name, none) := by
  rw [readSegment]
  split
  · next heq =>
      rw [splitOnce] at heq
      split at heq
      · cases heq
      · next head rest hdrop =>
          have hmem : head ∈ name.toList.dropWhile (· ≠ '[') := hdrop ▸ List.mem_cons_self
          have hhead : head = '[' := by
            have hnot := List.head?_dropWhile_not (· ≠ '[') name.toList
            rw [hdrop] at hnot
            simpa using hnot
          exact absurd ((List.dropWhile_sublist _).subset (hhead ▸ hmem)) h
  · rw [String.ofList_toList]

theorem lookup_reserved {row : El} (hreserved : Reserved name) (haddress : Addressable name) :
    lookup (.value false) row name = .ok (settle ⟨false, false, false⟩
      (if name = "$" then textOf row else (row.attrs.get? name).elim .missing fun text => .text text .text none)) := by
  have hdot : name.toList ≠ ['.'] := by
    intro hdot
    rcases hreserved with rfl | hattr
    · exact absurd hdot (by decide)
    · rw [isAttribute, hdot] at hattr
      exact absurd hattr (by decide)
  rw [lookup, lookupWithin, if_neg hdot, haddress.1]
  show (stepInto _ _ (readSegment name.toList).1 (readSegment name.toList).2 row >>= _) >>= _ = _
  rw [readSegment_name haddress.2]
  by_cases hdollar : name = "$"
  · subst hdollar
    rfl
  · have hattr : isAttribute name = true := hreserved.resolve_left hdollar
    simp [stepInto, Reader.mode, hdollar, hattr]

/-- A streamed row reads as it does in the whole-file reader, under every path and by every lookup, exactly when no header with a cell is one that JSON reserves and a path can name. -/
theorem streamed_row_reads_the_same_iff (exactNumbers pythonText : Bool) {headers cells : List String} (hheaders : headers.Nodup) :
    (∀ reader path, (lookup reader (streamedRow exactNumbers pythonText headers cells) path).map Found.value =
      (lookup reader (wholeRow headers cells) path).map Found.value) ↔
    ∀ name ∈ (headers.zip cells).map Prod.fst, name = "$" ∨ isAttribute name = true → ¬ Addressable name := by
  constructor
  · intro h name hname hreserved haddress
    have hread := h (.value false) name
    obtain ⟨text, htext⟩ := cellOf_exists hname
    obtain ⟨_, _, htext', hattrs', _⟩ := streamedRow_fields exactNumbers pythonText cells hheaders
    obtain ⟨_, _, hnone, hempty, _⟩ := wholeRow_fields cells hheaders
    rw [lookup_reserved hreserved haddress, lookup_reserved hreserved haddress] at hread
    by_cases hdollar : name = "$"
    · subst hdollar
      rw [if_pos rfl, if_pos rfl, textOf, textOf, htext', hnone, htext] at hread
      cases hread
    · rw [if_neg hdollar, if_neg hdollar, hattrs', hempty, if_pos ⟨hdollar, hreserved.resolve_left hdollar⟩, htext] at hread
      cases hread
  · intro h
    have hfree : ∀ name, Addressable name → Reserved name → cellOf (headers.zip cells) name = none := by
      intro name haddress hreserved
      by_contra hsome
      obtain ⟨text, htext⟩ := Option.ne_none_iff_exists'.1 hsome
      exact h name (List.mem_map_of_mem (IndexMap.lookupEntry_eq_some htext)) hreserved haddress
    intro reader path
    rw [lookup, lookup, lookupWithin, lookupWithin]
    by_cases hdot : path.toList = ['.']
    · rw [if_pos hdot, if_pos hdot]
      exact congrArg (fun raw => Except.ok (Value.record raw)) (raw_rows hheaders)
    · rw [if_neg hdot, if_neg hdot]
      cases hsegments : segments path.toList with
      | nil => exact absurd hsegments (segments_ne_nil _)
      | cons first others =>
          have haddress : Addressable (readSegment first).1 :=
            addressable_of_segment (hsegments ▸ (List.mem_cons_self : first ∈ first :: others))
          rw [List.zipIdx_cons, List.foldlM_cons, List.foldlM_cons]
          have hstep : ∀ within, follow within reader.mode path.toList
              (.el (streamedRow exactNumbers pythonText headers cells)) (first, 0) =
              follow within reader.mode path.toList (.el (wholeRow headers cells)) (first, 0) :=
            fun within => stepInto_rows hheaders hfree haddress
          rw [hstep]

theorem streamed_row_reads_the_same_of_two :
    (lookup (.value false) (streamedRow false false ["cik", "name"] ["1", "Acme"]) "name").map Found.value =
      (lookup (.value false) (wholeRow ["cik", "name"] ["1", "Acme"]) "name").map Found.value :=
  (streamed_row_reads_the_same_iff false false (by decide)).2 (by decide) (.value false) "name"

/-- A column headed `$` is read as the row's own text when it is streamed, and not at all when the file is read whole. -/
theorem dollar_column_reads_apart :
    lookup (.value false) (streamedRow false false ["cik", "$"] ["1", "12.50"]) "$" = .ok (.text "12.50" .text none) ∧
      lookup (.value false) (wholeRow ["cik", "$"] ["1", "12.50"]) "$" = .ok .missing := ⟨rfl, rfl⟩

end EdgarPlatform.Formats
