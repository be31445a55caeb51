import EdgarPlatform.Records.Documents
import Mathlib.Data.List.Induction

/-!
# Detail rows of a master

A master's subjects may each give rows of details under names. One row is kept for each name and key: the one whose source is first in the order the policy approves, then whose source is least, then whose subject is. The row lists every source that gave one. Since no two subjects share a priority, which row is kept does not depend on the order of the subjects.
-/

namespace EdgarPlatform.MasterRecords

open Records (Object Json readText readString readFields readObject readArray hasValue)

/-- The place of the source among the approved ones, the source, the subject. -/
abbrev Priority := Nat ×ₗ String ×ₗ String

structure DetailRow where
  priority : Priority
  body : Object
  sources : SortedMap String Unit

abbrev DetailRows := SortedMap String (SortedMap String DetailRow)

def readRank (kind : String) (policy : Object) : Except String (SortedMap String Nat) := do
  let kinds ← readObject policy "kinds"
  let block ← (kinds.get? kind).elim (.ok .empty) readFields
  let defaults ← readObject block "defaults"
  let documents ← readArray defaults "sources"
  let sources ← documents.mapM readString
  .ok (SortedMap.ofList sources.zipIdx)

def priorityOf (rank : SortedMap String Nat) (source subject : String) : Priority :=
  toLex ((rank.get? source).getD rank.size, toLex (source, subject))

def readItems : Json → Except String (List Object)
  | .arr items => items.mapM readFields
  | _ => .error "Invalid record value"

def addItem (priority : Priority) (source name : String) (rows : DetailRows) (item : Object) : Except String DetailRows :=
  (readText item "key").map fun key =>
    let named := (rows.get? name).getD .empty
    let row := (named.get? key).getD ⟨priority, item, .empty⟩
    let row := if priority < row.priority then { row with priority := priority, body := item } else row
    rows.insert name (named.insert key { row with sources := row.sources.insert source () })

def addDetail (priority : Priority) (source : String) (rows : DetailRows) (detail : String × Json) : Except String DetailRows := do
  let items ← readItems detail.2
  items.foldlM (addItem priority source detail.1) rows

def addSubject (claims : IndexMap String Object) (rank : SortedMap String Nat) (rows : DetailRows) (subject : String) :
    Except String DetailRows :=
  match claims.get? subject with
  | none => .ok rows
  | some claim =>
      if !hasValue claim "details" then .ok rows
      else do
        let metadata ← readObject claim "source_meta"
        let source ← readText metadata "source_code"
        let details ← readObject claim "details"
        details.entries.foldlM (addDetail (priorityOf rank source subject) source) rows

def closeRow (row : DetailRow) : Object := row.body.insert "sources" (.arr (row.sources.keys.map .str))

def selectDetailRows (kind : String) (subjects : List String) (claims : IndexMap String Object) (policy : Object) :
    Except String (SortedMap String (List Object)) := do
  let rank ← readRank kind policy
  let rows ← subjects.foldlM (addSubject claims rank) .empty
  .ok (rows.mapValues fun _ keyed => keyed.values.map closeRow)

/-- An item a subject gives under a name and a key. -/
structure Contribution where
  name : String
  key : String
  priority : Priority
  source : String
  item : Object

def itemContribution (priority : Priority) (source name : String) (item : Object) : Except String Contribution :=
  (readText item "key").map fun key => ⟨name, key, priority, source, item⟩

def detailContributions (priority : Priority) (source : String) (detail : String × Json) : Except String (List Contribution) := do
  let items ← readItems detail.2
  items.mapM (itemContribution priority source detail.1)

def contributionsOf (claims : IndexMap String Object) (rank : SortedMap String Nat) (subject : String) :
    Except String (List Contribution) :=
  match claims.get? subject with
  | none => .ok []
  | some claim =>
      if !hasValue claim "details" then .ok []
      else do
        let metadata ← readObject claim "source_meta"
        let source ← readText metadata "source_code"
        let details ← readObject claim "details"
        let found ← details.entries.mapM (detailContributions (priorityOf rank source subject) source)
        .ok found.flatten

def joinRow (held : Option DetailRow) (c : Contribution) : DetailRow :=
  let row := held.getD ⟨c.priority, c.item, .empty⟩
  let row := if c.priority < row.priority then { row with priority := c.priority, body := c.item } else row
  { row with sources := row.sources.insert c.source () }

def rowAt (rows : DetailRows) (name key : String) : Option DetailRow := (rows.get? name).bind fun named => named.get? key

def addContribution (rows : DetailRows) (c : Contribution) : DetailRows :=
  rows.insert c.name (((rows.get? c.name).getD .empty).insert c.key (joinRow (rowAt rows c.name c.key) c))

theorem addItem_eq (priority : Priority) (source name : String) (rows : DetailRows) (item : Object) :
    addItem priority source name rows item = (itemContribution priority source name item).map (addContribution rows) := by
  rw [addItem, itemContribution]
  cases readText item "key" with
  | error e => rfl
  | ok key =>
      have hrow : ((rows.get? name).getD .empty).get? key = rowAt rows name key := by
        rw [rowAt]
        cases rows.get? name with
        | none => rfl
        | some named => rfl
      simp only [Except.map, addContribution, joinRow, hrow]

section Folds

variable {ε σ α β : Type} {step : σ → α → Except ε σ} {read : α → Except ε β} {put : σ → β → σ}

theorem foldlM_read (h : ∀ s a, step s a = (read a).map (put s)) (items : List α) (s : σ) :
    items.foldlM step s = (items.mapM read).map fun found => found.foldl put s := by
  induction items generalizing s with
  | nil => rfl
  | cons a rest ih =>
      rw [List.foldlM_cons, List.mapM_cons, h]
      cases read a with
      | error e => rfl
      | ok b =>
          show rest.foldlM step (put s b) = _
          rw [ih]
          cases rest.mapM read <;> rfl

end Folds

theorem addDetail_eq (priority : Priority) (source : String) (rows : DetailRows) (detail : String × Json) :
    addDetail priority source rows detail =
      (detailContributions priority source detail).map fun found => found.foldl addContribution rows := by
  rw [addDetail, detailContributions]
  cases readItems detail.2 with
  | error e => rfl
  | ok items => exact foldlM_read (addItem_eq priority source detail.1) items rows

variable {claims : IndexMap String Object} {rank : SortedMap String Nat}

theorem addSubject_eq (rows : DetailRows) (subject : String) :
    addSubject claims rank rows subject = (contributionsOf claims rank subject).map fun found => found.foldl addContribution rows := by
  rw [addSubject, contributionsOf]
  cases claims.get? subject with
  | none => rfl
  | some claim =>
      dsimp only
      split_ifs
      · rfl
      · cases readObject claim "source_meta" with
        | error e => rfl
        | ok metadata =>
            simp only [Except.bind_ok]
            cases readText metadata "source_code" with
            | error e => rfl
            | ok source =>
                simp only [Except.bind_ok]
                cases readObject claim "details" with
                | error e => rfl
                | ok details =>
                    simp only [Except.bind_ok]
                    rw [foldlM_read (addDetail_eq (priorityOf rank source subject) source)]
                    cases details.entries.mapM (detailContributions (priorityOf rank source subject) source) with
                    | error e => rfl
                    | ok found => exact congrArg Except.ok List.foldl_flatten.symm

variable {subjects : List String}

theorem addSubjects_eq_ok {rows : DetailRows} :
    subjects.foldlM (addSubject claims rank) .empty = .ok rows ↔
      ∃ found, List.Forall₂ (fun subject es => contributionsOf claims rank subject = .ok es) subjects found ∧
        rows = found.flatten.foldl addContribution .empty := by
  rw [foldlM_read addSubject_eq, Records.map_eq_ok]
  simp only [Runs.mapM_eq_ok, List.foldl_flatten]

theorem rowAt_addContribution (rows : DetailRows) (c : Contribution) (name key : String) :
    rowAt (addContribution rows c) name key =
      if name = c.name ∧ key = c.key then some (joinRow (rowAt rows c.name c.key) c) else rowAt rows name key := by
  rw [rowAt, addContribution, SortedMap.get?_insert]
  by_cases hname : name = c.name
  · subst hname
    rw [if_pos rfl, Option.bind_some, SortedMap.get?_insert]
    by_cases hkey : key = c.key
    · rw [if_pos hkey, if_pos ⟨rfl, hkey⟩]
    · rw [if_neg hkey, if_neg fun h => hkey h.2, rowAt]
      cases rows.get? c.name with
      | none => rfl
      | some named => rfl
  · rw [if_neg hname, if_neg fun h => hname h.1, rowAt]

def under (name key : String) (c : Contribution) : Bool := name = c.name && key = c.key

theorem rowAt_foldl (found : List Contribution) (rows : DetailRows) (name key : String) :
    rowAt (found.foldl addContribution rows) name key =
      (found.filter (under name key)).foldl (fun held c => some (joinRow held c)) (rowAt rows name key) := by
  induction found generalizing rows with
  | nil => rfl
  | cons c rest ih =>
      rw [List.foldl_cons, ih, rowAt_addContribution, List.filter_cons]
      by_cases h : name = c.name ∧ key = c.key
      · rw [if_pos h, if_pos (by simpa [under] using h), List.foldl_cons, h.1, h.2]
      · rw [if_neg h, if_neg (by simpa [under] using h)]

/-- The first of those of the least priority. -/
structure FirstLeast (found : List Contribution) (c : Contribution) : Prop where
  split : ∃ front back, found = front ++ c :: back ∧ (∀ e ∈ front, c.priority < e.priority) ∧ ∀ e ∈ back, c.priority ≤ e.priority

variable {found : List Contribution}

theorem FirstLeast.mem {c : Contribution} (h : FirstLeast found c) : c ∈ found := by
  obtain ⟨front, back, rfl, _, _⟩ := h.split
  simp

theorem FirstLeast.le {c e : Contribution} (h : FirstLeast found c) (he : e ∈ found) :
    c.priority ≤ e.priority := by
  obtain ⟨front, back, rfl, hfront, hback⟩ := h.split
  rcases List.mem_append.1 he with he | he
  · exact (hfront e he).le
  · rcases List.mem_cons.1 he with rfl | he
    · exact le_refl _
    · exact hback e he

/-- A row is the first of the least priority, with every source. -/
structure RowOf (found : List Contribution) (row : DetailRow) : Prop where
  least : ∃ c, FirstLeast found c ∧ row.priority = c.priority ∧ row.body = c.item
  sources : ∀ source, source ∈ row.sources.keys ↔ ∃ c ∈ found, c.source = source

theorem RowOf.join {row : DetailRow} (h : RowOf found row) (c : Contribution) :
    RowOf (found ++ [c]) (joinRow (some row) c) := by
  obtain ⟨least, hleast, hpriority, hbody⟩ := h.least
  refine ⟨?_, fun source => ?_⟩
  · obtain ⟨front, back, hsplit, hfront, hback⟩ := hleast.split
    by_cases hlt : c.priority < row.priority
    · refine ⟨c, ⟨found, [], rfl, fun e he => ?_, fun e he => absurd he List.not_mem_nil⟩, ?_, ?_⟩
      · exact lt_of_lt_of_le (hpriority ▸ hlt) (hleast.le he)
      · simp only [joinRow, Option.getD_some, if_pos hlt]
      · simp only [joinRow, Option.getD_some, if_pos hlt]
    · refine ⟨least, ⟨front, back ++ [c], by rw [hsplit]; simp, hfront, fun e he => ?_⟩, ?_, ?_⟩
      · rcases List.mem_append.1 he with he | he
        · exact hback e he
        · rw [List.mem_singleton.1 he, ← hpriority]
          exact not_lt.1 hlt
      · have hkept : (joinRow (some row) c).priority = row.priority := by simp only [joinRow, Option.getD_some, if_neg hlt]
        exact hkept.trans hpriority
      · have hkept : (joinRow (some row) c).body = row.body := by simp only [joinRow, Option.getD_some, if_neg hlt]
        exact hkept.trans hbody
  · have hsources : (joinRow (some row) c).sources = row.sources.insert c.source () := by
      simp only [joinRow, Option.getD_some]
      split_ifs <;> rfl
    rw [hsources, SortedMap.mem_keys_insert, h.sources]
    simp only [List.mem_append, List.mem_singleton, or_and_right, exists_or, exists_eq_left]
    constructor
    · rintro (rfl | h)
      · exact .inr rfl
      · exact .inl h
    · rintro (h | rfl)
      · exact .inr h
      · exact .inl rfl

theorem rowOf_single (c : Contribution) : RowOf [c] (joinRow none c) := by
  have hrow : joinRow none c = ⟨c.priority, c.item, SortedMap.empty.insert c.source ()⟩ := by
    simp only [joinRow, Option.getD_none, lt_irrefl, if_false]
  rw [hrow]
  refine ⟨⟨c, ⟨[], [], rfl, fun e he => absurd he List.not_mem_nil, fun e he => absurd he List.not_mem_nil⟩, rfl, rfl⟩, fun source => ?_⟩
  rw [SortedMap.mem_keys_insert]
  simp only [List.mem_singleton, exists_eq_left]
  constructor
  · rintro (rfl | h)
    · rfl
    · exact absurd h List.not_mem_nil
  · exact fun h => .inl h.symm

theorem foldl_join (found : List Contribution) :
    (found = [] ∧ found.foldl (fun held c => some (joinRow held c)) none = none) ∨
      ∃ row, found.foldl (fun held c => some (joinRow held c)) none = some row ∧ RowOf found row := by
  induction found using List.reverseRecOn with
  | nil => exact .inl ⟨rfl, rfl⟩
  | append_singleton found c ih =>
      right
      rw [List.foldl_append, List.foldl_cons, List.foldl_nil]
      rcases ih with ⟨rfl, hnone⟩ | ⟨row, hrow, hof⟩
      · rw [hnone]
        exact ⟨_, rfl, rowOf_single c⟩
      · rw [hrow]
        exact ⟨_, rfl, hof.join c⟩

def contribution (claims : IndexMap String Object) (rank : SortedMap String Nat) (name key subject : String) : Option Contribution :=
  match contributionsOf claims rank subject with
  | .ok found => found.find? (under name key)
  | .error _ => none

/-- All that one subject gives is of one source and one priority, its own, under the keys the items have. -/
theorem contributions_alike {subject : String} (h : contributionsOf claims rank subject = .ok found) :
    ∃ source, ∀ c ∈ found, c.source = source ∧ c.priority = priorityOf rank source subject ∧ readText c.item "key" = .ok c.key := by
  rw [contributionsOf] at h
  split at h
  · obtain rfl := Except.ok.inj h
    exact ⟨"", fun c hc => absurd hc List.not_mem_nil⟩
  · split_ifs at h
    · obtain rfl := Except.ok.inj h
      exact ⟨"", fun c hc => absurd hc List.not_mem_nil⟩
    · obtain ⟨metadata, _, h⟩ := Except.bind_eq_ok.1 h
      obtain ⟨source, _, h⟩ := Except.bind_eq_ok.1 h
      obtain ⟨details, _, h⟩ := Except.bind_eq_ok.1 h
      obtain ⟨groups, hgroups, h⟩ := Except.bind_eq_ok.1 h
      obtain rfl := Except.ok.inj h
      refine ⟨source, fun c hc => ?_⟩
      obtain ⟨group, hgroup, hc⟩ := List.mem_flatten.1 hc
      obtain ⟨detail, _, hdetail⟩ := Runs.forall₂_exists_left (Runs.mapM_eq_ok.1 hgroups) hgroup
      obtain ⟨items, _, hitems⟩ := Except.bind_eq_ok.1 hdetail
      obtain ⟨item, _, hitem⟩ := Runs.forall₂_exists_left (Runs.mapM_eq_ok.1 hitems) hc
      obtain ⟨key, hkey, rfl⟩ := Records.map_eq_ok.1 hitem
      exact ⟨rfl, rfl, hkey⟩

theorem contribution_eq_some {name key subject : String} {c : Contribution} :
    contribution claims rank name key subject = some c ↔
      ∃ found, contributionsOf claims rank subject = .ok found ∧ found.find? (under name key) = some c := by
  rw [contribution]
  cases contributionsOf claims rank subject with
  | error e => exact iff_of_false (fun h => nomatch h) fun ⟨_, h, _⟩ => nomatch h
  | ok found =>
      constructor
      · exact fun h => ⟨found, rfl, h⟩
      · rintro ⟨other, hother, h⟩
        rw [Except.ok.inj hother]
        exact h

theorem subject_of_priority {source source' subject subject' : String}
    (h : priorityOf rank source subject = priorityOf rank source' subject') : subject = subject' :=
  (Prod.mk.inj (toLex.injective (Prod.mk.inj (toLex.injective h)).2)).2

theorem contribution_priority {name key subject : String} {c : Contribution} (h : contribution claims rank name key subject = some c) :
    c.priority = priorityOf rank c.source subject ∧ readText c.item "key" = .ok key := by
  obtain ⟨found, hfound, hc⟩ := contribution_eq_some.1 h
  obtain ⟨source, hall⟩ := contributions_alike hfound
  obtain ⟨hsource, hpriority, hread⟩ := hall c (List.mem_of_find?_eq_some hc)
  have hunder := List.find?_some hc
  rw [under, Bool.and_eq_true, decide_eq_true_eq, decide_eq_true_eq] at hunder
  exact ⟨by rw [hpriority, hsource], by rw [hread, hunder.2]⟩

/-- The contribution of least priority among the subjects. -/
structure Least (claims : IndexMap String Object) (rank : SortedMap String Nat) (subjects : List String) (name key : String)
    (c : Contribution) : Prop where
  given : ∃ subject ∈ subjects, contribution claims rank name key subject = some c
  le : ∀ other ∈ subjects, ∀ e, contribution claims rank name key other = some e → c.priority ≤ e.priority

theorem Least.unique {name key : String} {c e : Contribution} (hc : Least claims rank subjects name key c)
    (he : Least claims rank subjects name key e) : c = e := by
  obtain ⟨subject, hsubject, hgiven⟩ := hc.given
  obtain ⟨other, hother, hgiven'⟩ := he.given
  have heq := le_antisymm (hc.le other hother e hgiven') (he.le subject hsubject c hgiven)
  rw [(contribution_priority hgiven).1, (contribution_priority hgiven').1] at heq
  rw [subject_of_priority heq, hgiven'] at hgiven
  exact (Option.some.inj hgiven).symm

section Subjects

variable {subjects : List String} {blocks : List (List Contribution)} {name key : String}

variable {c : Contribution}

theorem mem_given (h : List.Forall₂ (fun subject es => contributionsOf claims rank subject = .ok es) subjects blocks) :
    c ∈ blocks.flatten.filter (under name key) ↔
      ∃ subject ∈ subjects, ∃ found, contributionsOf claims rank subject = .ok found ∧ c ∈ found.filter (under name key) := by
  rw [List.mem_filter, List.mem_flatten]
  constructor
  · rintro ⟨⟨block, hblock, hc⟩, hunder⟩
    obtain ⟨subject, hsubject, hfound⟩ := Runs.forall₂_exists_left h hblock
    exact ⟨subject, hsubject, block, hfound, List.mem_filter.2 ⟨hc, hunder⟩⟩
  · rintro ⟨subject, hsubject, found, hfound, hc⟩
    obtain ⟨block, hblock, hok⟩ := Runs.forall₂_exists_right h hsubject
    rw [Except.ok.inj (hok.symm.trans hfound)] at hblock
    obtain ⟨hmem, hunder⟩ := List.mem_filter.1 hc
    exact ⟨⟨found, hblock, hmem⟩, hunder⟩

theorem contribution_of_mem {subject : String} {found : List Contribution} (h : contributionsOf claims rank subject = .ok found)
    (hc : c ∈ found.filter (under name key)) :
    ∃ first, contribution claims rank name key subject = some first ∧ first.priority = c.priority ∧ first.source = c.source := by
  obtain ⟨hmem, hunder⟩ := List.mem_filter.1 hc
  obtain ⟨first, hfirst⟩ := Option.isSome_iff_exists.1 (List.find?_isSome.2 ⟨c, hmem, hunder⟩)
  obtain ⟨source, hall⟩ := contributions_alike h
  obtain ⟨hsource, hpriority, _⟩ := hall c hmem
  obtain ⟨hsource', hpriority', _⟩ := hall first (List.mem_of_find?_eq_some hfirst)
  exact ⟨first, contribution_eq_some.2 ⟨found, h, hfirst⟩, by rw [hpriority, hpriority'], by rw [hsource, hsource']⟩

theorem mem_of_contribution {subject : String} (h : contribution claims rank name key subject = some c) :
    ∃ found, contributionsOf claims rank subject = .ok found ∧ c ∈ found.filter (under name key) := by
  obtain ⟨found, hfound, hc⟩ := contribution_eq_some.1 h
  exact ⟨found, hfound, List.mem_filter.2 ⟨List.mem_of_find?_eq_some hc, List.find?_some hc⟩⟩

theorem FirstLeast.least (h : List.Forall₂ (fun subject es => contributionsOf claims rank subject = .ok es) subjects blocks)
    (hc : FirstLeast (blocks.flatten.filter (under name key)) c) : Least claims rank subjects name key c := by
  refine ⟨?_, fun other hother e he => ?_⟩
  · obtain ⟨front, back, hsplit, hfront, _⟩ := hc.split
    have hfind : (blocks.map (List.filter (under name key))).flatten.find? (fun e => decide (e.priority ≤ c.priority)) = some c := by
      rw [← List.filter_flatten, hsplit, List.find?_append, List.find?_eq_none.2 fun e he => by simpa using hfront e he]
      simp
    obtain ⟨_, before, ys, zs, after, hblocks, _, hys⟩ := List.find?_flatten_eq_some_iff.1 hfind
    obtain ⟨block, hblock, hfilter⟩ : ∃ block ∈ blocks, block.filter (under name key) = ys ++ c :: zs :=
      List.mem_map.1 (hblocks ▸ List.mem_append_right _ (List.mem_cons_self ..))
    obtain ⟨subject, hsubject, hfound⟩ := Runs.forall₂_exists_left h hblock
    obtain ⟨source, hall⟩ := contributions_alike hfound
    have hpriority : ∀ e ∈ ys ++ c :: zs, e.priority = priorityOf rank source subject :=
      fun e he => (hall e (List.mem_of_mem_filter (hfilter ▸ he))).2.1
    have hnil : ys = [] := by
      refine List.eq_nil_iff_forall_not_mem.2 fun e he => ?_
      have hle := hys e he
      rw [hpriority e (by simp [he]), hpriority c (by simp)] at hle
      simp at hle
    refine ⟨subject, hsubject, contribution_eq_some.2 ⟨block, hfound, ?_⟩⟩
    rw [← List.head?_filter, hfilter, hnil]
    rfl
  · obtain ⟨found, hfound, hmem⟩ := mem_of_contribution he
    exact hc.le ((mem_given h).2 ⟨other, hother, found, hfound, hmem⟩)

end Subjects

/-- The row kept under a name and key: the least contribution's item, with the sources of all. -/
def Kept (claims : IndexMap String Object) (rank : SortedMap String Nat) (subjects : List String) (name key : String) (row : Object) :
    Prop :=
  ∃ c, Least claims rank subjects name key c ∧ ∃ sources : List String, sources.Pairwise (· < ·) ∧
    (∀ source, source ∈ sources ↔ ∃ other ∈ subjects, ∃ e, contribution claims rank name key other = some e ∧ e.source = source) ∧
      row = c.item.insert "sources" (.arr (sources.map .str))

theorem Kept.unique {name key : String} {row other : Object} (h : Kept claims rank subjects name key row)
    (h' : Kept claims rank subjects name key other) : row = other := by
  obtain ⟨c, hc, sources, hsorted, hsources, rfl⟩ := h
  obtain ⟨e, he, others, hsorted', hothers, rfl⟩ := h'
  have hperm : sources.Perm others := by
    refine (List.perm_ext_iff_of_nodup (hsorted.imp ne_of_lt) (hsorted'.imp ne_of_lt)).2 fun source => ?_
    rw [hsources, hothers]
  have hsame : sources = others := hperm.eq_of_pairwise (fun a b _ _ hab hba => absurd hba (lt_asymm hab)) hsorted hsorted'
  rw [hc.unique he, hsame]

theorem Kept.perm {subjects others : List String} (hperm : subjects.Perm others) {name key : String} {row : Object}
    (h : Kept claims rank subjects name key row) : Kept claims rank others name key row := by
  obtain ⟨c, hc, sources, hsorted, hsources, hrow⟩ := h
  refine ⟨c, ⟨?_, fun other hother => hc.le other (hperm.mem_iff.2 hother)⟩, sources, hsorted, fun source => ?_, hrow⟩
  · obtain ⟨subject, hsubject, hgiven⟩ := hc.given
    exact ⟨subject, hperm.mem_iff.1 hsubject, hgiven⟩
  · rw [hsources]
    simp only [hperm.mem_iff]

theorem Kept.key {subjects : List String} {name key : String} {row : Object} (h : Kept claims rank subjects name key row) :
    readText row "key" = .ok key := by
  obtain ⟨c, hc, sources, _, _, rfl⟩ := h
  obtain ⟨subject, _, hgiven⟩ := hc.given
  have hread := (contribution_priority hgiven).2
  rw [readText] at hread ⊢
  rw [IndexMap.get?_insert_of_ne _ _ (by decide)]
  exact hread

/-- A name's rows, one for each key. -/
structure Answer (claims : IndexMap String Object) (rank : SortedMap String Nat) (subjects : List String)
    (keyed : SortedMap String (SortedMap String Object)) : Prop where
  filled : ∀ name rows, keyed.get? name = some rows → rows.keys ≠ []
  kept : ∀ name key row, (keyed.get? name).bind (fun rows => rows.get? key) = some row ↔ Kept claims rank subjects name key row

theorem Answer.unique {keyed others : SortedMap String (SortedMap String Object)}
    (h : Answer claims rank subjects keyed) (h' : Answer claims rank subjects others) : keyed = others := by
  have hbind : ∀ name key, (keyed.get? name).bind (fun rows => rows.get? key) = (others.get? name).bind fun rows => rows.get? key :=
    fun name key => Option.ext fun row => (h.kept name key row).trans (h'.kept name key row).symm
  refine SortedMap.ext_get? fun name => ?_
  have hsome : ∀ {maps maps' : SortedMap String (SortedMap String Object)} {rows : SortedMap String Object},
      (∀ name rows, maps.get? name = some rows → rows.keys ≠ []) → maps.get? name = some rows →
      (∀ key, (maps.get? name).bind (fun rows => rows.get? key) = (maps'.get? name).bind fun rows => rows.get? key) →
      maps'.get? name ≠ none := by
    intro maps maps' rows hfilled hrows hsame hnone
    obtain ⟨key, hkey⟩ := List.exists_mem_of_ne_nil _ (hfilled name rows hrows)
    obtain ⟨row, hrow⟩ := SortedMap.mem_keys_iff.1 hkey
    have heq := hsame key
    rw [hrows, hnone, Option.bind_some, hrow] at heq
    cases heq
  cases hkeyed : keyed.get? name with
  | none =>
      cases hothers : others.get? name with
      | none => rfl
      | some rows => exact absurd hkeyed (hsome h'.filled hothers fun key => (hbind name key).symm)
  | some rows =>
      cases hothers : others.get? name with
      | none => exact absurd hothers (hsome h.filled hkeyed (hbind name))
      | some rows' =>
          refine congrArg some (SortedMap.ext_get? fun key => ?_)
          have heq := hbind name key
          rwa [hkeyed, hothers] at heq

theorem filled_foldl {rows : DetailRows} (h : ∀ name named, rows.get? name = some named → named.keys ≠ []) :
    ∀ name named, (found.foldl addContribution rows).get? name = some named → named.keys ≠ [] := by
  induction found generalizing rows with
  | nil => exact h
  | cons c rest ih =>
      refine ih fun name named hget => ?_
      rw [addContribution, SortedMap.get?_insert] at hget
      split_ifs at hget
      · obtain rfl := Option.some.inj hget
        exact List.ne_nil_of_mem (SortedMap.mem_keys_insert.2 (.inl rfl))
      · exact h name named hget

theorem answer_of_rows {blocks : List (List Contribution)}
    (h : List.Forall₂ (fun subject es => contributionsOf claims rank subject = .ok es) subjects blocks) :
    Answer claims rank subjects ((blocks.flatten.foldl addContribution .empty).mapValues fun _ keyed =>
      keyed.mapValues fun _ row => closeRow row) := by
  refine ⟨fun name rows hget => ?_, fun name key row => ?_⟩
  · rw [SortedMap.get?_mapValues] at hget
    obtain ⟨named, hnamed, rfl⟩ := Option.map_eq_some_iff.1 hget
    rw [SortedMap.keys_mapValues]
    refine filled_foldl (fun name named hsome => ?_) name named hnamed
    rw [SortedMap.get?_empty] at hsome
    cases hsome
  · have hrow : (((blocks.flatten.foldl addContribution .empty).mapValues fun _ keyed => keyed.mapValues fun _ row => closeRow row).get?
        name).bind (fun rows => rows.get? key) = (rowAt (blocks.flatten.foldl addContribution .empty) name key).map closeRow := by
      rw [SortedMap.get?_mapValues, rowAt]
      cases (blocks.flatten.foldl addContribution .empty).get? name with
      | none => rfl
      | some named => exact SortedMap.get?_mapValues named _ key
    have hempty : rowAt .empty name key = none := rfl
    rw [hrow, rowAt_foldl, hempty, Option.map_eq_some_iff]
    have hsources : ∀ source, (∃ c ∈ blocks.flatten.filter (under name key), c.source = source) ↔
        ∃ other ∈ subjects, ∃ e, contribution claims rank name key other = some e ∧ e.source = source := by
      intro source
      constructor
      · rintro ⟨c, hc, hsource⟩
        obtain ⟨subject, hsubject, found, hfound, hmem⟩ := (mem_given h).1 hc
        obtain ⟨first, hfirst, _, hsame⟩ := contribution_of_mem hfound hmem
        exact ⟨subject, hsubject, first, hfirst, hsame.trans hsource⟩
      · rintro ⟨other, hother, e, he, hsource⟩
        obtain ⟨found, hfound, hmem⟩ := mem_of_contribution he
        exact ⟨e, (mem_given h).2 ⟨other, hother, found, hfound, hmem⟩, hsource⟩
    rcases foldl_join (blocks.flatten.filter (under name key)) with ⟨hnil, hnone⟩ | ⟨held, hheld, hof⟩
    · rw [hnone]
      refine iff_of_false (fun ⟨_, hsome, _⟩ => nomatch hsome) ?_
      rintro ⟨c, hc, _⟩
      obtain ⟨subject, hsubject, hgiven⟩ := hc.given
      obtain ⟨found, hfound, hmem⟩ := mem_of_contribution hgiven
      have hin := (mem_given h).2 ⟨subject, hsubject, found, hfound, hmem⟩
      rw [hnil] at hin
      exact absurd hin List.not_mem_nil
    · have hkept : Kept claims rank subjects name key (closeRow held) := by
        obtain ⟨c, hc, _, hbody⟩ := hof.least
        refine ⟨c, hc.least h, held.sources.keys, held.sources.keys_sorted, fun source => ?_, by rw [closeRow, hbody]⟩
        rw [hof.sources, hsources]
      rw [hheld]
      constructor
      · rintro ⟨_, hsome, rfl⟩
        rw [← Option.some.inj hsome]
        exact hkept
      · exact fun hrow => ⟨held, rfl, hkept.unique hrow⟩

theorem selectDetailRows_eq_ok {kind : String} {policy : Object} {selected : SortedMap String (List Object)} :
    selectDetailRows kind subjects claims policy = .ok selected ↔
      ∃ rank, readRank kind policy = .ok rank ∧ (∀ subject ∈ subjects, ∃ found, contributionsOf claims rank subject = .ok found) ∧
        ∃ keyed, Answer claims rank subjects keyed ∧ selected = keyed.mapValues fun _ rows => rows.values := by
  have hwritten : ∀ rows : DetailRows, (rows.mapValues fun _ keyed => keyed.values.map closeRow) =
      (rows.mapValues fun _ keyed => keyed.mapValues fun _ row => closeRow row).mapValues fun _ rows => rows.values := by
    intro rows
    refine SortedMap.ext_get? fun name => ?_
    rw [SortedMap.get?_mapValues, SortedMap.get?_mapValues, SortedMap.get?_mapValues]
    cases rows.get? name with
    | none => rfl
    | some keyed =>
        refine congrArg some ?_
        show keyed.values.map closeRow = (keyed.entries.map fun entry => (entry.1, closeRow entry.2)).map Prod.snd
        rw [SortedMap.values, List.map_map, List.map_map]
        rfl
  rw [selectDetailRows, Except.bind_eq_ok]
  refine exists_congr fun rank => and_congr_right fun _ => ?_
  rw [Except.bind_eq_ok]
  constructor
  · rintro ⟨rows, hrows, hselected⟩
    obtain ⟨blocks, hblocks, rfl⟩ := addSubjects_eq_ok.1 hrows
    obtain rfl := Except.ok.inj hselected
    refine ⟨fun subject hsubject => ?_, _, answer_of_rows hblocks, hwritten _⟩
    obtain ⟨block, _, hblock⟩ := Runs.forall₂_exists_right hblocks hsubject
    exact ⟨block, hblock⟩
  · rintro ⟨hall, keyed, hkeyed, rfl⟩
    obtain ⟨blocks, hblocks⟩ := Records.forall₂_exists hall
    refine ⟨_, addSubjects_eq_ok.2 ⟨blocks, hblocks, rfl⟩, congrArg Except.ok ?_⟩
    rw [hwritten, (answer_of_rows hblocks).unique hkeyed]

/-- One row is kept under each name and key, the one of least priority with every source, whatever the order of the subjects. -/
theorem selectDetailRows_keeps_the_least {kind : String} {subjects : List String} {policy : Object}
    {selected : SortedMap String (List Object)} (h : selectDetailRows kind subjects claims policy = .ok selected) :
    (∃ rank, readRank kind policy = .ok rank ∧ ∃ keyed : SortedMap String (SortedMap String Object),
      selected = (keyed.mapValues fun _ rows => rows.values) ∧
        (∀ name key row, (keyed.get? name).bind (fun rows => rows.get? key) = some row ↔ Kept claims rank subjects name key row) ∧
        ∀ name key row, (keyed.get? name).bind (fun rows => rows.get? key) = some row → readText row "key" = .ok key) ∧
    ∀ others, subjects.Perm others → selectDetailRows kind others claims policy = .ok selected := by
  obtain ⟨rank, hrank, hall, keyed, hkeyed, rfl⟩ := selectDetailRows_eq_ok.1 h
  refine ⟨⟨rank, hrank, keyed, rfl, hkeyed.kept, fun name key row hrow => ((hkeyed.kept name key row).1 hrow).key⟩, fun others hperm => ?_⟩
  refine selectDetailRows_eq_ok.2 ⟨rank, hrank, fun subject hsubject => hall subject (hperm.mem_iff.2 hsubject), keyed, ?_, rfl⟩
  refine ⟨hkeyed.filled, fun name key row => ?_⟩
  rw [hkeyed.kept]
  exact ⟨Kept.perm hperm, Kept.perm hperm.symm⟩

def claimOf (source city : String) : Object := .ofList [("source_meta", .obj [("source_code", .str source)]),
  ("details", .obj [("addresses", .arr [.obj [("key", .str "hq"), ("city", .str city)]])])]

def twoClaims : IndexMap String Object := .ofList [("s", claimOf "b" "Lyon"), ("t", claimOf "a" "Nice")]

/-- Of two subjects' rows the one of the lesser source is kept, with both sources. -/
theorem selectDetailRows_keeps_the_least_of_two : selectDetailRows "company" ["t", "s"] twoClaims .empty =
    .ok (SortedMap.ofList [("addresses", [.ofList [("key", .str "hq"), ("city", .str "Nice"), ("sources", .arr [.str "a", .str "b"])]])]) := by
  have h : selectDetailRows "company" ["s", "t"] twoClaims .empty = .ok (SortedMap.ofList
      [("addresses", [.ofList [("key", .str "hq"), ("city", .str "Nice"), ("sources", .arr [.str "a", .str "b"])]])]) := rfl
  exact (selectDetailRows_keeps_the_least h).2 _ (List.Perm.swap "t" "s" [])

end EdgarPlatform.MasterRecords
