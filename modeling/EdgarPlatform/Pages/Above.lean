import EdgarPlatform.Pages.Kept
import Mathlib.Data.List.Induction

/-!
# The texts above a table

Every row names the blocks just above its table. The texts are gathered in one list that every block joins and that the first row of a run of rows of one table takes. A row that comes after rows of another table starts a run again, so what it names are the blocks since the run before it began.
-/

namespace EdgarPlatform.Pages

open Formats (El childRows)

def rowsOf (page : El) : List El := childRows (page.child "row")

/-- The texts a row carries as those above its table, nearest first. -/
def aboveOf (row : El) : List (Option String) := ["@above", "@above2", "@above3"].map row.attrs.get?

def namesOf (texts : List Text) : List (Option String) := [0, 1, 2].map fun i => texts.reverse[i]?.map String.ofList

def blocks (records : List Record) : List Text :=
  records.filterMap fun record => if record.table = none then some (tail (record.texts.headD []) maxAbove) else none

def lastThree (texts : List Text) : List Text := texts.drop (texts.length - aboveCount)

def untilTable (table : Nat) (records : List Record) : List Record := records.takeWhile fun record => !record.isIn table

def afterRows (records : List Record) : List Record := (records.reverse.takeWhile fun record => record.table = none).reverse

/-- The at most three blocks nearest before a table's first row and after the last row of any table before it. -/
def nearest (table : Nat) (records : List Record) : List Text := lastThree (blocks (afterRows (untilTable table records)))

/-- Every row of every table carries the texts nearest above its table. -/
def RowsCarry (records : List Record) (page : El) : Prop :=
  List.Forall₂ (fun record row => ∀ table, record.isIn table = true → aboveOf row = namesOf (nearest table records))
    (records.filter fun record => record.table.isSome) (rowsOf page)

def lastTable (records : List Record) : Option Nat := (records.filterMap fun record => record.table.map Prod.fst).getLast?

/-- Wherever a run of rows of one table is followed by a row of another, the blocks since the run's first row end in those nearest above the other table. -/
def RunsLeave (records : List Record) : Prop :=
  ∀ front first run row back table other, records = front ++ first :: (run ++ row :: back) → first.isIn table = true → lastTable front ≠ some table →
    (∀ record ∈ run, record.table.isSome = true → record.isIn table = true) → row.isIn other = true → other ≠ table →
    lastThree (blocks run) = nearest other records

theorem get?_withAttr (el : El) {name full : String} (hfull : "@" ++ name = full) (value key : String) :
    (El.withAttr el name value).attrs.get? key = if key = full then some value else el.attrs.get? key := by
  rw [← hfull]
  exact SortedMap.get?_insert ..

theorem get?_addHeading (el : El) {name full : String} (hfull : "@" ++ name = full) (text : Text) {key : String} (h : key ≠ full) :
    (addHeading el name text).attrs.get? key = el.attrs.get? key := by
  rw [addHeading]
  split_ifs
  · rfl
  · rw [get?_withAttr el hfull, if_neg h]

theorem attrs_addCells (cells : List (Text × Nat)) (el : El) :
    (cells.foldl (fun row cell => row.addChild ("c" ++ toString (cell.2 + 1)) (plainElement (some cell.1))) el).attrs = el.attrs := by
  induction cells generalizing el with
  | nil => rfl
  | cons cell rest ih => exact ih _

def namedRow (shown : List Text) (record : Record) (table number : Nat) : El :=
  (["above", "above2", "above3"].zip shown.reverse).foldl (fun row named => El.withAttr row named.1 (String.ofList named.2))
    (element none [("at", record.place), ("table", table), ("row", number)])

theorem get?_rowElement (heads : IndexMap Nat (Text × Text)) (shown : List Text) (record : Record) (table number : Nat) {key : String}
    (hhead : key ≠ "@head") (hhead' : key ≠ "@head2") (hcells : key ≠ "@cells") :
    (rowElement heads shown record table number).attrs.get? key = (namedRow shown record table number).attrs.get? key := by
  rw [rowElement, attrs_addCells, get?_withAttr _ (show "@" ++ "cells" = "@cells" by decide), if_neg hcells]
  cases heads.get? table with
  | none => rfl
  | some heading =>
      show (addHeading (addHeading (namedRow shown record table number) "head" heading.1) "head2" heading.2).attrs.get? key = _
      rw [get?_addHeading _ (show "@" ++ "head2" = "@head2" by decide) _ hhead', get?_addHeading _ (show "@" ++ "head" = "@head" by decide) _ hhead]

theorem get?_element (record : Record) (table number : Nat) {key : String} (hat : key ≠ "@at") (htable : key ≠ "@table") (hrow : key ≠ "@row") :
    (element none [("at", record.place), ("table", table), ("row", number)]).attrs.get? key = none := by
  show (El.withAttr (El.withAttr (El.withAttr (plainElement none) "at" _) "table" _) "row" _).attrs.get? key = none
  rw [get?_withAttr _ (show "@" ++ "row" = "@row" by decide), if_neg hrow, get?_withAttr _ (show "@" ++ "table" = "@table" by decide), if_neg htable,
    get?_withAttr _ (show "@" ++ "at" = "@at" by decide), if_neg hat]
  rfl

theorem aboveOf_rowElement (heads : IndexMap Nat (Text × Text)) (shown : List Text) (record : Record) (table number : Nat) :
    aboveOf (rowElement heads shown record table number) = namesOf shown := by
  have hbase : ∀ key, key ≠ "@at" → key ≠ "@table" → key ≠ "@row" →
      (element none [("at", record.place), ("table", table), ("row", number)]).attrs.get? key = none := fun _ => get?_element record table number
  have habove : "@" ++ "above" = "@above" := by decide
  have habove2 : "@" ++ "above2" = "@above2" := by decide
  have habove3 : "@" ++ "above3" = "@above3" := by decide
  rw [aboveOf, List.map_cons, List.map_cons, List.map_cons, List.map_nil, get?_rowElement _ _ _ _ _ (by decide) (by decide) (by decide),
    get?_rowElement _ _ _ _ _ (by decide) (by decide) (by decide), get?_rowElement _ _ _ _ _ (by decide) (by decide) (by decide), namesOf,
    namedRow]
  generalize shown.reverse = texts
  generalize element none [("at", record.place), ("table", table), ("row", number)] = base at hbase ⊢
  match texts with
  | [] => simp [hbase]
  | [a] => simp [hbase, get?_withAttr _ habove]
  | [a, b] => simp [hbase, get?_withAttr _ habove, get?_withAttr _ habove2]
  | a :: b :: c :: rest => simp [get?_withAttr _ habove, get?_withAttr _ habove2, get?_withAttr _ habove3]

variable {heads : IndexMap Nat (Text × Text)} {s : Rendering} {record : Record} {records front back : List Record} {table other : Nat}

theorem length_lastThree (texts : List Text) : (lastThree texts).length ≤ aboveCount := by
  rw [lastThree, List.length_drop]
  omega

theorem lastThree_eq_self {texts : List Text} (h : texts.length ≤ aboveCount) : lastThree texts = texts := by
  rw [lastThree, Nat.sub_eq_zero_of_le h, List.drop_zero]

theorem lastThree_append (texts more : List Text) : lastThree (lastThree texts ++ more) = lastThree (texts ++ more) := by
  have hdrop : lastThree texts ++ more = (texts ++ more).drop (texts.length - aboveCount) :=
    (List.drop_append_of_le_length (Nat.sub_le _ _)).symm
  rw [hdrop, lastThree, lastThree, List.drop_drop, List.length_drop, List.length_append]
  congr 1
  omega

theorem blocks_append (a b : List Record) : blocks (a ++ b) = blocks a ++ blocks b := List.filterMap_append

def carriedBy (s : Rendering) (table : Nat) : List Text := if s.shown.1 = table then s.shown.2 else s.above

theorem rowsOf_addChild_row (page row : El) : rowsOf (page.addChild "row" row) = rowsOf page ++ [row] := by
  rw [rowsOf, rowsOf, El.addChild, El.child_setChild, if_pos rfl]
  cases page.child "row" with
  | none => rfl
  | some child => cases child <;> rfl

theorem rowsOf_addChild_other (page child : El) {name : String} (h : "row" ≠ name) : rowsOf (page.addChild name child) = rowsOf page := by
  rw [rowsOf, rowsOf, El.addChild, El.child_setChild, if_neg h]

theorem addRecord_block (h : record.table = none) :
    (s.above.length ≤ aboveCount → (addRecord heads s record).above = lastThree (s.above ++ blocks [record])) ∧
      (addRecord heads s record).shown = s.shown ∧
      rowsOf (addRecord heads s record).document = rowsOf s.document := by
  have hblocks : blocks [record] = [tail (record.texts.headD []) maxAbove] := by
    rw [blocks, List.filterMap_cons, if_pos h]
    rfl
  rw [addRecord, h, hblocks]
  refine ⟨fun hlength => ?_, rfl, rowsOf_addChild_other _ _ (by decide)⟩
  show (if aboveCount < (s.above ++ [_]).length then (s.above ++ [_]).tail else s.above ++ [_]) = _
  rw [lastThree, List.length_append, List.length_singleton]
  split_ifs with hmore
  · have hdrop : s.above.length + 1 - aboveCount = 1 := by omega
    rw [hdrop, List.drop_one]
  · have hdrop : s.above.length + 1 - aboveCount = 0 := by omega
    rw [hdrop, List.drop_zero]

theorem addRecord_row {number : Nat} (h : record.table = some (table, number)) :
    (addRecord heads s record).above = (if s.shown.1 = table then s.above else []) ∧
      (addRecord heads s record).shown = (table, carriedBy s table) ∧
      rowsOf (addRecord heads s record).document = rowsOf s.document ++ [rowElement heads (carriedBy s table) record table number] := by
  rw [addRecord, h, carriedBy]
  by_cases hsame : s.shown.1 = table
  · simp only [if_pos hsame]
    refine ⟨trivial, ?_, rowsOf_addChild_row _ _⟩
    rw [← hsame]
  · simp only [if_neg hsame]
    exact ⟨trivial, trivial, rowsOf_addChild_row _ _⟩

theorem above_length (hlength : s.above.length ≤ aboveCount) (records : List Record) :
    (records.foldl (addRecord heads) s).above.length ≤ aboveCount := by
  induction records generalizing s with
  | nil => exact hlength
  | cons record rest ih =>
      apply ih
      cases htable : record.table with
      | none =>
          rw [(addRecord_block htable).1 hlength]
          exact length_lastThree _
      | some found =>
          rw [(@addRecord_row _ _ _ _ found.2 htable).1]
          split_ifs
          · exact hlength
          · exact Nat.zero_le _

def rowsFrom (heads : IndexMap Nat (Text × Text)) : Rendering → List Record → List El
  | _, [] => []
  | s, record :: rest =>
      match record.table with
      | none => rowsFrom heads (addRecord heads s record) rest
      | some (table, number) => rowElement heads (carriedBy s table) record table number :: rowsFrom heads (addRecord heads s record) rest

theorem rowsOf_foldl (s : Rendering) (records : List Record) :
    rowsOf (records.foldl (addRecord heads) s).document = rowsOf s.document ++ rowsFrom heads s records := by
  induction records generalizing s with
  | nil => exact (List.append_nil _).symm
  | cons record rest ih =>
      rw [List.foldl_cons, ih, rowsFrom]
      cases htable : record.table with
      | none => rw [(addRecord_block htable).2.2]
      | some found => rw [(@addRecord_row _ _ _ _ found.2 htable).2.2, List.append_assoc, List.singleton_append]

theorem forall₂_rowsFrom {carries : Record → El → Prop} (s : Rendering) (records : List Record) :
    List.Forall₂ carries (records.filter fun record => record.table.isSome) (rowsFrom heads s records) ↔
      ∀ front record back table number, records = front ++ record :: back → record.table = some (table, number) →
        carries record (rowElement heads (carriedBy (front.foldl (addRecord heads) s) table) record table number) := by
  induction records generalizing s with
  | nil => exact ⟨fun _ front _ _ _ _ h => absurd h.symm (List.append_ne_nil_of_right_ne_nil front (List.cons_ne_nil _ _)), fun _ => .nil⟩
  | cons first rest ih =>
      have hlater : (∀ front record back table number, first :: rest = front ++ record :: back → record.table = some (table, number) →
            carries record (rowElement heads (carriedBy (front.foldl (addRecord heads) s) table) record table number)) ↔
          (∀ table number, first.table = some (table, number) → carries first (rowElement heads (carriedBy s table) first table number)) ∧
            List.Forall₂ carries (rest.filter fun record => record.table.isSome) (rowsFrom heads (addRecord heads s first) rest) := by
        rw [ih]
        refine ⟨fun h => ⟨fun table number => h [] first rest table number rfl, fun front record back table number hsplit =>
          h (first :: front) record back table number (congrArg (first :: ·) hsplit)⟩, fun h front record back table number hsplit htable => ?_⟩
        cases front with
        | nil =>
            obtain ⟨rfl, rfl⟩ := List.cons.inj hsplit
            exact h.1 table number htable
        | cons head front =>
            obtain ⟨hhead, hrest⟩ := List.cons.inj hsplit
            subst hhead
            exact h.2 front record back table number hrest htable
      rw [hlater, rowsFrom]
      cases htable : first.table with
      | none =>
          rw [List.filter_cons_of_neg (by rw [htable]; exact Bool.false_ne_true)]
          exact ⟨fun h => ⟨fun _ _ hsome => absurd hsome nofun, h⟩, And.right⟩
      | some found =>
          rw [List.filter_cons_of_pos (by rw [htable]; rfl), List.forall₂_cons]
          refine and_congr_left fun _ => ⟨fun h table number hfound => ?_, fun h => h found.1 found.2 rfl⟩
          rw [Option.some.inj hfound] at h
          exact h

theorem isIn_iff {record : Record} {table : Nat} : record.isIn table = true ↔ ∃ number, record.table = some (table, number) := by
  rw [Record.isIn, Record.numberIn]
  cases record.table with
  | none => simp
  | some found =>
      show (if found.1 = table then some found.2 else none).isSome = true ↔ _
      split_ifs with hfound
      · exact ⟨fun _ => ⟨found.2, congrArg some (Prod.ext hfound rfl)⟩, fun _ => rfl⟩
      · exact ⟨fun h => absurd h Bool.false_ne_true, fun h => absurd (congrArg Prod.fst (Option.some.inj h.choose_spec)) hfound⟩

theorem lastTable_append_block (records : List Record) (h : record.table = none) : lastTable (records ++ [record]) = lastTable records := by
  rw [lastTable, List.filterMap_append, List.filterMap_cons, h]
  exact congrArg List.getLast? (List.append_nil _)

theorem lastTable_append_row {number : Nat} (records : List Record) (h : record.table = some (table, number)) :
    lastTable (records ++ [record]) = some table := by
  rw [lastTable, List.filterMap_append, List.filterMap_cons, h]
  exact List.getLast?_concat

theorem foldl_same (hsame : ∀ record ∈ records, record.table.isSome = true → record.isIn s.shown.1 = true) (hlength : s.above.length ≤ aboveCount) :
    (records.foldl (addRecord heads) s).shown = s.shown ∧ (records.foldl (addRecord heads) s).above = lastThree (s.above ++ blocks records) := by
  induction records generalizing s with
  | nil => exact ⟨rfl, ((congrArg lastThree (List.append_nil _)).trans (lastThree_eq_self hlength)).symm⟩
  | cons record rest ih =>
      have hcons : blocks (record :: rest) = blocks [record] ++ blocks rest := blocks_append [record] rest
      rw [List.foldl_cons]
      cases htable : record.table with
      | none =>
          obtain ⟨habove, hshown, _⟩ := @addRecord_block heads s _ htable
          have hrest := ih (s := addRecord heads s record) (by rw [hshown]; exact fun other hother => hsame other (List.mem_cons_of_mem _ hother))
            (by rw [habove hlength]; exact length_lastThree _)
          rw [hrest.1, hrest.2, hshown, habove hlength, lastThree_append, hcons, List.append_assoc]
          exact ⟨rfl, rfl⟩
      | some found =>
          obtain ⟨number, hfound⟩ := isIn_iff.1 (hsame record List.mem_cons_self (by rw [htable]; rfl))
          have hnone : blocks [record] = [] := by
            rw [blocks, List.filterMap_cons, htable]
            rfl
          obtain ⟨habove, hshown, _⟩ := @addRecord_row heads s _ _ _ hfound
          rw [if_pos rfl] at habove
          have hkept : (addRecord heads s record).shown = s.shown := by
            rw [hshown, carriedBy, if_pos rfl]
          have hrest := ih (s := addRecord heads s record) (by rw [hkept]; exact fun other hother => hsame other (List.mem_cons_of_mem _ hother))
            (by rw [habove]; exact hlength)
          rw [hrest.1, hrest.2, hkept, habove, hcons, hnone, List.nil_append]
          exact ⟨rfl, rfl⟩

def atFirst (document : El) : Rendering := ⟨[], (0, []), document⟩

theorem shown_foldl (document : El) (records : List Record) :
    (records.foldl (addRecord heads) (atFirst document)).shown.1 = (lastTable records).getD 0 := by
  induction records using List.reverseRecOn with
  | nil => rfl
  | append_singleton records record ih =>
      rw [List.foldl_append, List.foldl_cons, List.foldl_nil]
      cases htable : record.table with
      | none => rw [(addRecord_block htable).2.1, lastTable_append_block records htable, ih]
      | some found =>
          rw [(@addRecord_row _ _ _ _ found.2 htable).2.1, @lastTable_append_row _ _ found.2 records htable]
          rfl

theorem split_run (h : lastTable records = some table) : ∃ front first run, records = front ++ first :: run ∧ first.isIn table = true ∧
    lastTable front ≠ some table ∧ ∀ record ∈ run, record.table.isSome = true → record.isIn table = true := by
  induction records using List.reverseRecOn with
  | nil => exact absurd h nofun
  | append_singleton records record ih =>
      have hgrow (hlast : lastTable records = some table) (hrecord : record.table.isSome = true → record.isIn table = true) :
          ∃ front first run, records ++ [record] = front ++ first :: run ∧ first.isIn table = true ∧ lastTable front ≠ some table ∧
            ∀ record ∈ run, record.table.isSome = true → record.isIn table = true := by
        obtain ⟨front, first, run, rfl, hfirst, hfront, hrun⟩ := ih hlast
        refine ⟨front, first, run ++ [record], List.append_assoc .., hfirst, hfront, fun other hother => ?_⟩
        obtain hother | hother := List.mem_append.1 hother
        · exact hrun other hother
        · rw [List.mem_singleton.1 hother]
          exact hrecord
      cases htable : record.table with
      | none =>
          rw [lastTable_append_block records htable] at h
          exact hgrow h (by rw [htable]; exact fun hnone => absurd hnone Bool.false_ne_true)
      | some found =>
          rw [@lastTable_append_row _ _ found.2 records htable] at h
          have hin : record.isIn table = true := isIn_iff.2 ⟨found.2, by rw [htable, ← Option.some.inj h]⟩
          by_cases hlast : lastTable records = some table
          · exact hgrow hlast fun _ => hin
          · exact ⟨records, record, [], rfl, hin, hlast, fun _ hmem => absurd hmem List.not_mem_nil⟩

theorem namesOf_inj {texts others : List Text} (hlength : texts.length ≤ aboveCount) (hothers : others.length ≤ aboveCount)
    (h : namesOf texts = namesOf others) : texts = others := by
  have hread : ∀ i < 3, texts.reverse[i]? = others.reverse[i]? := by
    intro i hi
    have hname := congrArg (fun names => names[i]?) h
    rw [namesOf, namesOf, List.getElem?_map, List.getElem?_map] at hname
    have hindex : ([0, 1, 2] : List Nat)[i]? = some i := by
      match i, hi with
      | 0, _ => rfl
      | 1, _ => rfl
      | 2, _ => rfl
    rw [hindex] at hname
    exact Option.map_injective (fun _ _ => String.ofList_injective) (Option.some.inj hname)
  apply List.reverse_injective
  apply List.ext_getElem?
  intro i
  by_cases hi : i < 3
  · exact hread i hi
  · have hmany : aboveCount ≤ i := Nat.le_of_not_lt hi
    rw [List.getElem?_eq_none (by rw [List.length_reverse]; omega), List.getElem?_eq_none (by rw [List.length_reverse]; omega)]

def Positive (records : List Record) : Prop := ∀ record ∈ records, record.isIn 0 = false

theorem lastTable_eq_none (h : lastTable records = none) : ∀ record ∈ records, record.table = none := by
  intro record hrecord
  rw [lastTable, List.getLast?_eq_none_iff, List.filterMap_eq_nil_iff] at h
  exact Option.map_eq_none_iff.1 (h record hrecord)

theorem after_run (document : El) {first : Record} {run : List Record} (hpositive : table ≠ 0) (hfirst : first.isIn table = true)
    (hfront : lastTable front ≠ some table) (hrun : ∀ record ∈ run, record.table.isSome = true → record.isIn table = true) :
    ((front ++ first :: run).foldl (addRecord heads) (atFirst document)).shown = (table, (front.foldl (addRecord heads) (atFirst document)).above) ∧
      ((front ++ first :: run).foldl (addRecord heads) (atFirst document)).above = lastThree (blocks run) := by
  obtain ⟨number, htable⟩ := isIn_iff.1 hfirst
  have hother : (front.foldl (addRecord heads) (atFirst document)).shown.1 ≠ table := by
    rw [shown_foldl]
    cases hlast : lastTable front with
    | none => exact hpositive.symm
    | some last => exact fun heq => hfront (hlast.trans (congrArg some heq))
  rw [List.foldl_append, List.foldl_cons]
  obtain ⟨habove, hshown, _⟩ := @addRecord_row heads (front.foldl (addRecord heads) (atFirst document)) _ _ _ htable
  rw [carriedBy, if_neg hother] at hshown
  rw [if_neg hother] at habove
  obtain ⟨hshown', habove'⟩ := @foldl_same heads _ run (by rw [hshown]; exact hrun)
    (by rw [habove]; exact Nat.zero_le _)
  rw [hshown', habove', hshown, habove, List.nil_append]
  exact ⟨rfl, rfl⟩

theorem nearest_first (document : El) (hrecords : records = front ++ record :: back) (hrow : record.isIn table = true)
    (hnone : ∀ other ∈ front, other.table = none) :
    (front.foldl (addRecord heads) (atFirst document)).above = nearest table records := by
  have hblocks : ∀ other ∈ front, (!other.isIn table) = true := by
    intro other hother
    rw [Record.isIn, Record.numberIn, hnone other hother]
    rfl
  have huntil : untilTable table records = front := by
    rw [untilTable, hrecords, List.takeWhile_append_of_pos hblocks, List.takeWhile_cons, hrow]
    exact List.append_nil _
  have hafter : afterRows front = front := by
    have hall : ∀ other ∈ front.reverse, decide (other.table = none) = true := fun other hother =>
      decide_eq_true (hnone other (List.mem_reverse.1 hother))
    rw [afterRows, List.takeWhile_eq_self_iff.2 hall, List.reverse_reverse]
  rw [nearest, huntil, hafter]
  have hsame := @foldl_same heads (atFirst document) front
    (fun other hother hsome => absurd hsome (by rw [hnone other hother]; exact Bool.false_ne_true)) (Nat.zero_le _)
  exact hsame.2

theorem carriedBy_iff (document : El) (hpositive : Positive records) :
    (∀ front record back table, records = front ++ record :: back → record.isIn table = true →
        carriedBy (front.foldl (addRecord heads) (atFirst document)) table = nearest table records) ↔ RunsLeave records := by
  have hnonzero : ∀ record ∈ records, ∀ table, record.isIn table = true → table ≠ 0 := by
    intro record hrecord table hin hzero
    rw [hzero, hpositive record hrecord] at hin
    exact Bool.false_ne_true hin
  refine ⟨fun h front first run row back table other hrecords hfirst hfront hrun hrow hother => ?_,
    fun h front record back table hrecords hrow => ?_⟩
  · have htable := hnonzero first (by rw [hrecords]; exact List.mem_append_right _ List.mem_cons_self) table hfirst
    obtain ⟨hshown, habove⟩ := @after_run heads _ _ document _ _ htable hfirst hfront hrun
    have hcarried := h (front ++ first :: run) row back other (by rw [hrecords, List.append_assoc, List.cons_append]) hrow
    rw [carriedBy, hshown, habove, if_neg hother.symm] at hcarried
    exact hcarried
  · -- the first row of a run carries what the run before it left
    have hstart : ∀ front record back, records = front ++ record :: back → record.isIn table = true → lastTable front ≠ some table →
        (front.foldl (addRecord heads) (atFirst document)).above = nearest table records := by
      intro front record back hrecords hrow hlast
      cases hlast' : lastTable front with
      | none => exact nearest_first document hrecords hrow (lastTable_eq_none hlast')
      | some last =>
          obtain ⟨before, first, run, rfl, hfirst, hbefore, hrun⟩ := split_run hlast'
          have htable := hnonzero first
            (by rw [hrecords]; exact List.mem_append_left _ (List.mem_append_right _ List.mem_cons_self)) last hfirst
          rw [(after_run document htable hfirst hbefore hrun).2]
          rw [List.append_assoc, List.cons_append] at hrecords
          exact h before first run record back last table hrecords hfirst hbefore hrun hrow fun heq => hlast (hlast'.trans (congrArg some heq.symm))
    have htable := hnonzero record (by rw [hrecords]; exact List.mem_append_right _ List.mem_cons_self) table hrow
    by_cases hlast : lastTable front = some table
    · obtain ⟨before, first, run, rfl, hfirst, hbefore, hrun⟩ := split_run hlast
      obtain ⟨hshown, _⟩ := @after_run heads _ _ document _ _ htable hfirst hbefore hrun
      rw [carriedBy, hshown, if_pos rfl]
      rw [List.append_assoc, List.cons_append] at hrecords
      exact hstart before first (run ++ record :: back) hrecords hfirst hbefore
    · have hother : (front.foldl (addRecord heads) (atFirst document)).shown.1 ≠ table := by
        rw [shown_foldl]
        cases hlast' : lastTable front with
        | none => exact htable.symm
        | some last => exact fun heq => hlast (hlast'.trans (congrArg some heq))
      rw [carriedBy, if_neg hother]
      exact hstart front record back hrecords hrow hlast

/-- No open table, open row or kept row has the number nothing opens with. -/
structure Walk.Positive (s : Walk) : Prop where
  opened : ∀ entry ∈ s.opened, entry.1 ≠ 0
  rows : ∀ row ∈ s.rows, row.table ≠ 0
  records : Pages.Positive s.records

variable {w w' : Walk} {maxRecords : Nat}

theorem Walk.Positive.flush (h : w.Positive) (hflush : flush maxRecords w = .ok w') : w'.Positive := by
  obtain ⟨_, rfl⟩ | rfl := flush_eq_ok hflush
  · exact ⟨h.opened, h.rows, h.records⟩
  · refine ⟨h.opened, h.rows, fun other hother => ?_⟩
    obtain hother | hother := List.mem_append.1 hother
    · exact h.records other hother
    · rw [List.mem_singleton.1 hother]
      rfl

theorem Walk.Positive.push (h : w.Positive) (text : Text) : (push text w).Positive := by
  rw [Pages.push]
  cases w.cells <;> exact ⟨h.opened, h.rows, h.records⟩

theorem Walk.Positive.separate (h : w.Positive) (hsep : separate maxRecords w = .ok w') : w'.Positive := by
  rw [Pages.separate] at hsep
  split_ifs at hsep
  · exact h.flush hsep
  · rw [← Except.ok.inj hsep]
    exact h.push _

theorem Walk.Positive.pushParts (parts : List Text) (h : w.Positive) (hpush : pushParts maxRecords parts w = .ok w') : w'.Positive := by
  fun_induction Pages.pushParts maxRecords parts w with
  | case1 => exact Except.ok.inj hpush ▸ h
  | case2 => exact Except.ok.inj hpush ▸ h.push _
  | case3 s part next rest ih =>
      obtain ⟨mid, hsep, hpush⟩ := Except.bind_eq_ok.1 hpush
      exact ih mid ((h.push _).separate hsep) hpush

theorem Walk.Positive.pushText {plain : Bool} {contents : Text} (h : w.Positive) (hpush : pushText maxRecords plain contents w = .ok w') : w'.Positive := by
  rw [Pages.pushText] at hpush
  split_ifs at hpush
  · exact h.pushParts _ hpush
  · exact Except.ok.inj hpush ▸ h.push _

theorem Walk.Positive.openTable (h : w.Positive) (hopen : openTable maxRecords w = .ok w') : w'.Positive := by
  obtain ⟨mid, hflush, hopen⟩ := Except.bind_eq_ok.1 hopen
  have hmid : mid.Positive := by
    rw [flushOutside] at hflush
    split_ifs at hflush
    · exact h.flush hflush
    · exact Except.ok.inj hflush ▸ h
  rw [← Except.ok.inj hopen]
  refine ⟨fun entry hentry => ?_, hmid.rows, hmid.records⟩
  obtain rfl | hentry := List.mem_cons.1 hentry
  · exact Nat.succ_ne_zero _
  · exact hmid.opened entry hentry

theorem Walk.Positive.openRow (h : w.Positive) (hopened : w.opened ≠ []) : (openRow w).Positive := by
  refine ⟨h.opened, fun row hrow => ?_, h.records⟩
  obtain rfl | hrow := List.mem_cons.1 hrow
  · obtain ⟨entry, opened, hentry⟩ := List.exists_cons_of_ne_nil hopened
    show (w.opened.head?.map Prod.fst).getD 0 ≠ 0
    rw [hentry]
    exact h.opened entry (hentry ▸ List.mem_cons_self)
  · exact h.rows row hrow

theorem Walk.Positive.closeRow (h : w.Positive) (hclose : closeRow maxRecords w = .ok w') : w'.Positive := by
  cases hrows : w.rows with
  | nil =>
      rw [Pages.closeRow, hrows] at hclose
      cases hclose
  | cons row rows =>
      have hrest : ∀ other ∈ rows, other.table ≠ 0 := fun other hother => h.rows other (hrows ▸ List.mem_cons_of_mem _ hother)
      obtain ⟨_, rfl⟩ | ⟨table, count, opened, hopened, rfl⟩ := closeRow_eq_ok hrows hclose
      · exact ⟨h.opened, hrest, h.records⟩
      · refine ⟨fun entry hentry => ?_, hrest, fun other hother => ?_⟩
        · obtain rfl | hentry := List.mem_cons.1 hentry
          · exact h.opened (table, count) (hopened ▸ List.mem_cons_self)
          · exact h.opened entry (hopened ▸ List.mem_cons_of_mem _ hentry)
        · obtain hother | hother := List.mem_append.1 hother
          · exact h.records other hother
          · rw [List.mem_singleton.1 hother, isIn_row]
            exact decide_eq_false (h.rows row (hrows ▸ List.mem_cons_self))

theorem Walk.Positive.closeCell {attrs : List (String × String)} (h : w.Positive) (hclose : closeCell attrs w = .ok w') : w'.Positive := by
  rw [Pages.closeCell] at hclose
  split at hclose
  · next cell cells row rows _ hrows =>
      rw [← Except.ok.inj hclose]
      refine ⟨h.opened, fun other hother => ?_, h.records⟩
      obtain rfl | hother := List.mem_cons.1 hother
      · exact h.rows row (hrows ▸ List.mem_cons_self)
      · exact h.rows other (hrows ▸ List.mem_cons_of_mem _ hother)
  · cases hclose

mutual

theorem walk_positive (node : Node) (plain : Bool) (w w' : Walk) (h : w.Positive) (hwalk : walk maxRecords node plain w = .ok w') : w'.Positive := by
  match node with
  | .text contents =>
      rw [walk] at hwalk
      exact h.pushText hwalk
  | .element tag attrs children =>
      rw [walk] at hwalk
      split_ifs at hwalk with hhidden htable hrow hcell hblock
      · exact Except.ok.inj hwalk ▸ h
      · obtain ⟨mid, hopen, hwalk⟩ := Except.bind_eq_ok.1 hwalk
        obtain ⟨inner, hinner, hclose⟩ := Except.bind_eq_ok.1 hwalk
        have hpositive := walkAll_positive children plain mid inner (h.openTable hopen) hinner
        rw [← Except.ok.inj hclose]
        exact ⟨fun entry hentry => hpositive.opened entry (List.mem_of_mem_tail hentry), hpositive.rows, hpositive.records⟩
      · obtain ⟨inner, hinner, hclose⟩ := Except.bind_eq_ok.1 hwalk
        exact (walkAll_positive children plain _ inner (h.openRow hrow.2) hinner).closeRow hclose
      · obtain ⟨inner, hinner, hclose⟩ := Except.bind_eq_ok.1 hwalk
        exact (walkAll_positive children plain (openCell w) inner ⟨h.opened, h.rows, h.records⟩ hinner).closeCell hclose
      · obtain ⟨mid, hopen, hwalk⟩ := Except.bind_eq_ok.1 hwalk
        obtain ⟨inner, hinner, hclose⟩ := Except.bind_eq_ok.1 hwalk
        exact (walkAll_positive children _ mid inner (h.separate hopen) hinner).separate hclose
      · exact walkAll_positive children plain w w' h hwalk
  | .document children =>
      rw [walk] at hwalk
      exact walkAll_positive children plain w w' h hwalk
  | .other =>
      rw [walk] at hwalk
      exact Except.ok.inj hwalk ▸ h
termination_by structural node

theorem walkAll_positive (nodes : List Node) (plain : Bool) (w w' : Walk) (h : w.Positive) (hwalk : walkAll maxRecords nodes plain w = .ok w') :
    w'.Positive := by
  match nodes with
  | [] =>
      rw [walkAll] at hwalk
      exact Except.ok.inj hwalk ▸ h
  | node :: rest =>
      rw [walkAll] at hwalk
      obtain ⟨mid, hmid, hrest⟩ := Except.bind_eq_ok.1 hwalk
      exact walkAll_positive rest plain mid w' (walk_positive node plain w mid h hmid) hrest
termination_by structural nodes

end

theorem recordsOf_positive {dom : Node} (h : recordsOf maxRecords dom = .ok records) : Positive records := by
  rw [recordsOf] at h
  cases hbody : find "body" dom with
  | none =>
      rw [hbody] at h
      rw [← Except.ok.inj h]
      exact fun _ hmem => absurd hmem List.not_mem_nil
  | some body =>
      rw [hbody] at h
      obtain ⟨walked, hwalk, h⟩ := Except.bind_eq_ok.1 h
      obtain ⟨flushed, hflush, h⟩ := Except.bind_eq_ok.1 h
      have hstart : Walk.start.Positive := ⟨fun _ hmem => absurd hmem List.not_mem_nil, fun _ hmem => absurd hmem List.not_mem_nil,
        fun _ hmem => absurd hmem List.not_mem_nil⟩
      rw [← Except.ok.inj h]
      exact ((walk_positive body _ _ _ hstart hwalk).flush hflush).records

theorem carriedBy_length (document : El) (records : List Record) (table : Nat) :
    (carriedBy (records.foldl (addRecord heads) (atFirst document)) table).length ≤ aboveCount := by
  have hshown : (records.foldl (addRecord heads) (atFirst document)).shown.2.length ≤ aboveCount := by
    induction records using List.reverseRecOn with
    | nil => exact Nat.zero_le _
    | append_singleton records record ih =>
        rw [List.foldl_append, List.foldl_cons, List.foldl_nil]
        cases htable : record.table with
        | none =>
            rw [(addRecord_block htable).2.1]
            exact ih
        | some found =>
            rw [(@addRecord_row _ _ _ _ found.2 htable).2.1, carriedBy]
            split_ifs
            · exact ih
            · exact above_length (Nat.zero_le _) records
  rw [carriedBy]
  split_ifs
  · exact hshown
  · exact above_length (Nat.zero_le _) records

theorem rowsCarry_iff (title : Option Text) (hpositive : Positive records) : RowsCarry records (documentOf title records) ↔ RunsLeave records := by
  obtain ⟨document, hempty, hdocument⟩ : ∃ document : El, rowsOf document = [] ∧
      documentOf title records = (records.foldl (addRecord (headings records)) (atFirst document)).document := by
    cases title with
    | none => exact ⟨{}, rfl, rfl⟩
    | some title => exact ⟨_, rowsOf_addChild_other {} (plainElement (some title)) (by decide), rfl⟩
  have hfirst : rowsOf (atFirst document).document = [] := hempty
  rw [RowsCarry, hdocument, rowsOf_foldl, hfirst, List.nil_append, forall₂_rowsFrom, ← @carriedBy_iff (headings records) _ document hpositive]
  refine ⟨fun h front record back table hrecords hrow => ?_, fun h front record back table number hrecords htable other hother => ?_⟩
  · obtain ⟨number, htable⟩ := isIn_iff.1 hrow
    have hnames := h front record back table number hrecords htable table hrow
    rw [aboveOf_rowElement] at hnames
    exact namesOf_inj (carriedBy_length document front table) (length_lastThree _) hnames
  · obtain ⟨number', htable'⟩ := isIn_iff.1 hother
    obtain rfl : table = other := congrArg Prod.fst (Option.some.inj (htable.symm.trans htable'))
    rw [aboveOf_rowElement, h front record back table hrecords hother]

/-- Every row of a page carries the texts nearest above its table just when every run of rows of one table leaves, for the table of the row after it, the blocks nearest above that table. -/
theorem rows_carry_nearest_iff {dom : Node} (h : (recordsOf maxRecords dom).map sortRecords = .ok records) :
    html maxRecords dom = .ok (documentOf (titleOf dom) records) ∧ (RowsCarry records (documentOf (titleOf dom) records) ↔ RunsLeave records) := by
  rw [html]
  cases hrecords : recordsOf maxRecords dom with
  | error rejected =>
      rw [hrecords] at h
      cases h
  | ok kept =>
      rw [hrecords] at h
      obtain rfl : sortRecords kept = records := Except.ok.inj h
      refine ⟨rfl, rowsCarry_iff (titleOf dom) fun record hrecord => ?_⟩
      exact recordsOf_positive hrecords record (Sorting.mem_sortByKey.1 hrecord)

def paragraph (contents : String) : Node := .element "p" [] [textNode contents]

def tableBetween : Node :=
  pageOf [paragraph "Balance sheet", tableNode [rowNode [cellNode [textNode "a"]],
    rowNode [cellNode [tableNode [rowNode [cellNode [textNode "x"]]], textNode "b"]], rowNode [cellNode [textNode "c"]]]]

def betweenRecords : List Record :=
  [⟨1, none, ["Balance sheet".toList]⟩, ⟨2, some (1, 1), ["a".toList]⟩, ⟨3, some (1, 2), ["b".toList]⟩, ⟨4, some (2, 1), ["x".toList]⟩,
    ⟨5, some (1, 3), ["c".toList]⟩]

theorem recordsOf_tableBetween : recordsOf 10 tableBetween = .ok [⟨1, none, ["Balance sheet".toList]⟩, ⟨2, some (1, 1), ["a".toList]⟩,
    ⟨4, some (2, 1), ["x".toList]⟩, ⟨3, some (1, 2), ["b".toList]⟩, ⟨5, some (1, 3), ["c".toList]⟩] := by decide +kernel

def tablesApart : Node :=
  pageOf [paragraph "Balance sheet", tableNode [rowNode [cellNode [textNode "a"]]], paragraph "Income",
    tableNode [rowNode [cellNode [textNode "x"]], rowNode [cellNode [textNode "y"]]]]

def apartRecords : List Record :=
  [⟨1, none, ["Balance sheet".toList]⟩, ⟨2, some (1, 1), ["a".toList]⟩, ⟨3, none, ["Income".toList]⟩, ⟨4, some (2, 1), ["x".toList]⟩,
    ⟨5, some (2, 2), ["y".toList]⟩]

theorem recordsOf_tablesApart : (recordsOf 10 tablesApart).map sortRecords = .ok apartRecords := by
  have hrecords : recordsOf 10 tablesApart = .ok apartRecords := by decide +kernel
  rw [hrecords]
  rfl

theorem rowsCarry_names {page : El} : RowsCarry records page ↔
    List.Forall₂ (fun record names => ∀ table, record.isIn table = true → names = namesOf (nearest table records))
      (records.filter fun record => record.table.isSome) ((rowsOf page).map aboveOf) := by
  rw [List.forall₂_map_right_iff]
  exact Iff.rfl

theorem carry_tablesApart : RowsCarry apartRecords (documentOf none apartRecords) := by
  have hnames : (rowsOf (documentOf none apartRecords)).map aboveOf = [[some "Balance sheet", none, none], [some "Income", none, none],
      [some "Income", none, none]] := by decide
  have hfirst : namesOf (nearest 1 apartRecords) = [some "Balance sheet", none, none] := by decide
  have hsecond : namesOf (nearest 2 apartRecords) = [some "Income", none, none] := by decide
  rw [rowsCarry_names, hnames]
  refine .cons (fun table hin => ?_) (.cons (fun table hin => ?_) (.cons (fun table hin => ?_) .nil))
  · rw [isIn_row, decide_eq_true_eq] at hin
    rw [← hin, hfirst]
  · rw [isIn_row, decide_eq_true_eq] at hin
    rw [← hin, hsecond]
  · rw [isIn_row, decide_eq_true_eq] at hin
    rw [← hin, hsecond]

/-- Where tables stand apart the rows carry their own texts, and every run leaves those of the next. -/
theorem tablesApart_runs_leave : html 10 tablesApart = .ok (documentOf none apartRecords) ∧
    RowsCarry apartRecords (documentOf none apartRecords) ∧ RunsLeave apartRecords :=
  ⟨(rows_carry_nearest_iff recordsOf_tablesApart).1, carry_tablesApart, (rows_carry_nearest_iff recordsOf_tablesApart).2.1 carry_tablesApart⟩

/-- The rows after a table between them carry no text. -/
theorem row_after_table_loses_texts : (recordsOf 10 tableBetween).map sortRecords = .ok betweenRecords ∧
    html 10 tableBetween = .ok (documentOf none betweenRecords) ∧
    (rowsOf (documentOf none betweenRecords)).map aboveOf = [[some "Balance sheet", none, none], [some "Balance sheet", none, none],
      [none, none, none], [none, none, none]] ∧ ¬RowsCarry betweenRecords (documentOf none betweenRecords) := by
  have hnames : (rowsOf (documentOf none betweenRecords)).map aboveOf = [[some "Balance sheet", none, none],
      [some "Balance sheet", none, none], [none, none, none], [none, none, none]] := by decide
  have hsorted : (recordsOf 10 tableBetween).map sortRecords = .ok betweenRecords := by
    rw [recordsOf_tableBetween]
    rfl
  have hhtml : html 10 tableBetween = .ok (documentOf none betweenRecords) := by
    rw [html, recordsOf_tableBetween]
    rfl
  refine ⟨hsorted, hhtml, hnames, fun hcarry => ?_⟩
  rw [rowsCarry_names, hnames] at hcarry
  have hlast := List.forall₂_iff_get.1 hcarry
  have hthird := hlast.2 3 (by decide) (by decide) 1 (by decide)
  exact absurd hthird (by decide)

end EdgarPlatform.Pages
