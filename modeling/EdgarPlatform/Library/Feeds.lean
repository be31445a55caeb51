import EdgarPlatform.Library.IndexMap
import EdgarPlatform.Library.Runs

/-!
# Feeds of changed rows

A table keeps a row for each key, with the version that row was last written at. A writer never removes a key, and the rows it changes take a version beyond every row there is. A reader asks for the rows beyond its place, in order of version and key and a page at a time, and keeps the last body of each key. It asks in two statements: the rest of the version it stands in, then the later versions. The writer may move rows between the two.
-/

namespace Feeds

structure Row (κ ν β : Type) where
  key : κ
  version : ν
  body : β
  deriving DecidableEq

/-- A key has one row at most. -/
structure Table (κ ν β : Type) where
  rows : List (Row κ ν β)
  nodup : (rows.map Row.key).Nodup

/-- A reader's place and its copy. Without a key it stands at the end of its version. -/
structure Reader (κ ν β : Type) where
  since : ν
  key : Option κ
  copy : IndexMap κ β

variable {κ ν β : Type} [LinearOrder κ] [LinearOrder ν]

def Row.place (row : Row κ ν β) : ν ×ₗ κ := toLex (row.version, row.key)

omit [LinearOrder κ] [LinearOrder ν] in
theorem Table.eq_of_key {t : Table κ ν β} {row other : Row κ ν β} (hrow : row ∈ t.rows) (hother : other ∈ t.rows)
    (hkey : row.key = other.key) : row = other :=
  List.inj_on_of_nodup_map t.nodup hrow hother hkey

def page (rows : List (Row κ ν β)) (wanted : Row κ ν β → Bool) (limit : Nat) : List (Row κ ν β) :=
  (Sorting.sortByKey Row.place (rows.filter wanted)).take limit

variable {row : Row κ ν β}

theorem mem_of_page {rows : List (Row κ ν β)} {wanted : Row κ ν β → Bool} {limit : Nat}
    (h : row ∈ page rows wanted limit) : row ∈ rows ∧ wanted row = true := by
  have hmem := Sorting.mem_sortByKey.1 (List.mem_of_mem_take h)
  exact List.mem_filter.1 hmem

theorem page_keys_nodup (t : Table κ ν β) (wanted : Row κ ν β → Bool) (limit : Nat) :
    ((page t.rows wanted limit).map Row.key).Nodup := by
  have hperm := (Sorting.sortByKey_perm Row.place (t.rows.filter wanted)).map Row.key
  have hfilter : ((t.rows.filter wanted).map Row.key).Nodup := t.nodup.sublist (List.filter_sublist.map Row.key)
  exact (hperm.nodup_iff.2 hfilter).sublist ((List.take_sublist _ _).map Row.key)

/-- A row that is left out of a page comes after a full one. -/
theorem page_complete {rows : List (Row κ ν β)} {wanted : Row κ ν β → Bool} (limit : Nat)
    (hrow : row ∈ rows) (hwanted : wanted row = true) :
    row ∈ page rows wanted limit ∨
      (page rows wanted limit).length = limit ∧ ∀ other ∈ page rows wanted limit, other.place ≤ row.place := by
  have hmem : row ∈ Sorting.sortByKey Row.place (rows.filter wanted) :=
    Sorting.mem_sortByKey.2 (List.mem_filter.2 ⟨hrow, hwanted⟩)
  have hsorted := Sorting.sortByKey_sorted Row.place (rows.filter wanted)
  rw [page]
  generalize Sorting.sortByKey Row.place (rows.filter wanted) = sorted at hmem hsorted
  rw [← List.take_append_drop limit sorted, List.mem_append] at hmem
  rw [← List.take_append_drop limit sorted, List.pairwise_append] at hsorted
  obtain hmem | hmem := hmem
  · exact .inl hmem
  · have hlength : limit < sorted.length := by
      have := List.length_pos_of_mem hmem
      rw [List.length_drop] at this
      omega
    refine .inr ⟨?_, fun other hother => hsorted.2.2 other hother row hmem⟩
    rw [List.length_take]
    omega

/-- A version beyond every row, and beyond the one the feed starts from. -/
def Table.Before (floor : ν) (t : Table κ ν β) (version : ν) : Prop :=
  floor < version ∧ ∀ row ∈ t.rows, row.version < version

/-- What a writer does to a table. -/
structure Advance (floor : ν) (old new : Table κ ν β) : Prop where
  kept : ∀ row ∈ old.rows, ∃ other ∈ new.rows, other.key = row.key
  fresh : ∀ row ∈ new.rows, row ∈ old.rows ∨ old.Before floor row.version

omit [LinearOrder κ] in
theorem Advance.refl (floor : ν) (t : Table κ ν β) : Advance floor t t :=
  ⟨fun row hrow => ⟨row, hrow, rfl⟩, fun _ hrow => .inl hrow⟩

omit [LinearOrder κ] in
theorem Advance.before {floor version : ν} {old new : Table κ ν β} (h : Advance floor old new)
    (hbefore : new.Before floor version) : old.Before floor version := by
  refine ⟨hbefore.1, fun row hrow => ?_⟩
  obtain ⟨other, hother, hkey⟩ := h.kept row hrow
  obtain hold | hfresh := h.fresh other hother
  · rw [← Table.eq_of_key hold hrow hkey]
    exact hbefore.2 other hother
  · exact (hfresh.2 row hrow).trans (hbefore.2 other hother)

def Beyond (since : ν) (key : Option κ) (row : Row κ ν β) : Prop :=
  since < row.version ∨ row.version = since ∧ ∃ last, key = some last ∧ last < row.key

def Reader.take (r : Reader κ ν β) (row : Row κ ν β) : Reader κ ν β :=
  ⟨row.version, some row.key, r.copy.insert row.key row.body⟩

def Reader.receive (r : Reader κ ν β) (rows : List (Row κ ν β)) : Reader κ ν β := rows.foldl Reader.take r

def sameVersion (t : Table κ ν β) (since : ν) (key : Option κ) (limit : Nat) : List (Row κ ν β) :=
  match key with
  | none => []
  | some last => page t.rows (fun row => row.version = since ∧ last < row.key) limit

/-- What the first statement found, filled up with the rows of later versions. -/
def laterVersions (t : Table κ ν β) (since : ν) (limit : Nat) (rows : List (Row κ ν β)) : List (Row κ ν β) :=
  if rows.length < limit then rows ++ page t.rows (fun row => since < row.version) (limit - rows.length) else rows

omit [LinearOrder ν] in
theorem Reader.receive_append (r : Reader κ ν β) (rows more : List (Row κ ν β)) :
    r.receive (rows ++ more) = (r.receive rows).receive more := List.foldl_append

omit [LinearOrder ν] in
theorem Reader.get?_receive_of_not_mem {r : Reader κ ν β} {rows : List (Row κ ν β)} {key : κ}
    (h : ∀ row ∈ rows, row.key ≠ key) : (r.receive rows).copy.get? key = r.copy.get? key := by
  induction rows generalizing r with
  | nil => rfl
  | cons row rest ih =>
      show ((r.take row).receive rest).copy.get? key = _
      rw [ih fun other hother => h other (List.mem_cons_of_mem _ hother)]
      exact IndexMap.get?_insert_of_ne _ _ (h row List.mem_cons_self).symm

omit [LinearOrder ν] in
theorem Reader.get?_receive_of_mem {r : Reader κ ν β} {rows : List (Row κ ν β)}
    (hnodup : (rows.map Row.key).Nodup) (h : row ∈ rows) : (r.receive rows).copy.get? row.key = some row.body := by
  induction rows generalizing r with
  | nil => cases h
  | cons first rest ih =>
      rw [List.map_cons, List.nodup_cons] at hnodup
      show ((r.take first).receive rest).copy.get? row.key = _
      obtain rfl | hrest := List.mem_cons.1 h
      · have hrest : ∀ other ∈ rest, other.key ≠ row.key := fun other hother hkey =>
          hnodup.1 (List.mem_map.2 ⟨other, hother, hkey⟩)
        rw [Reader.get?_receive_of_not_mem hrest]
        exact IndexMap.get?_insert_self ..
      · exact ih hnodup.2 hrest

omit [LinearOrder ν] in
theorem Reader.mem_keys_receive {r : Reader κ ν β} {rows : List (Row κ ν β)} {key : κ}
    (h : key ∈ (r.receive rows).copy.keys) : key ∈ r.copy.keys ∨ ∃ row ∈ rows, row.key = key := by
  by_contra hnot
  push Not at hnot
  rw [← not_not (a := key ∈ _), ← IndexMap.get?_eq_none_iff, Reader.get?_receive_of_not_mem hnot.2] at h
  exact h (IndexMap.get?_eq_none_iff.2 hnot.1)

omit [LinearOrder ν] in
theorem Reader.receive_place (r : Reader κ ν β) {rows : List (Row κ ν β)} {last : Row κ ν β}
    (h : rows.getLast? = some last) : (r.receive rows).since = last.version ∧ (r.receive rows).key = some last.key := by
  obtain ⟨front, rfl⟩ := List.getLast?_eq_some_iff.1 h
  rw [Reader.receive_append]
  exact ⟨rfl, rfl⟩

/-- A reader's copy holds every row it has come to, and its place is no later than the rows. -/
structure Follows (floor : ν) (t : Table κ ν β) (r : Reader κ ν β) : Prop where
  stored : ∀ key ∈ r.copy.keys, ∃ row ∈ t.rows, row.key = key
  seen : ∀ row ∈ t.rows, ¬ Beyond r.since r.key row → r.copy.get? row.key = some row.body
  reached : ∀ version, t.Before floor version → r.since < version

/-- What the first statement of a request found, as it still stands. -/
structure Awaits (t : Table κ ν β) (r : Reader κ ν β) (limit : Nat) (rows : List (Row κ ν β)) : Prop where
  stored : ∀ row ∈ rows, ∃ other ∈ t.rows, other.key = row.key
  beyond : ∀ row ∈ rows, row.version = r.since ∧ Beyond r.since r.key row
  current : ∀ row ∈ rows, ∀ other ∈ t.rows, other.key = row.key → other = row ∨ r.since < other.version
  complete : ∀ row ∈ t.rows, row.version = r.since → Beyond r.since r.key row →
    row ∈ rows ∨ rows.length = limit ∧ ∀ other ∈ rows, other.key ≤ row.key
  nodup : (rows.map Row.key).Nodup

theorem Follows.start (floor since : ν) (h : since ≤ floor) :
    Follows (κ := κ) (β := β) floor ⟨[], List.nodup_nil⟩ ⟨since, none, .empty⟩ where
  stored := fun key hkey => by cases hkey
  seen := fun row hrow => by cases hrow
  reached := fun _ hversion => h.trans_lt hversion.1

variable {floor : ν} {t t' : Table κ ν β} {r : Reader κ ν β} {limit : Nat} {rows : List (Row κ ν β)}

theorem Follows.advance (h : Follows floor t r) (hnew : Advance floor t t') : Follows floor t' r where
  stored := by
    intro key hkey
    obtain ⟨row, hrow, rfl⟩ := h.stored key hkey
    exact hnew.kept row hrow
  seen := by
    intro row hrow hseen
    obtain hold | hfresh := hnew.fresh row hrow
    · exact h.seen row hold hseen
    · exact absurd (.inl (h.reached _ hfresh)) hseen
  reached := fun version hversion => h.reached version (hnew.before hversion)

theorem same_complete (limit : Nat) {since : ν} {key : κ} (hrow : row ∈ t.rows) (hversion : row.version = since)
    (hkey : key < row.key) : row ∈ page t.rows (fun row => row.version = since ∧ key < row.key) limit ∨
      (page t.rows (fun row => row.version = since ∧ key < row.key) limit).length = limit ∧
        ∀ other ∈ page t.rows (fun row => row.version = since ∧ key < row.key) limit, other.place ≤ row.place :=
  page_complete limit hrow (decide_eq_true ⟨hversion, hkey⟩)

theorem later_complete (limit : Nat) {since : ν} (hrow : row ∈ t.rows) (hlater : since < row.version) :
    row ∈ page t.rows (fun row => since < row.version) limit ∨
      (page t.rows (fun row => since < row.version) limit).length = limit ∧
        ∀ other ∈ page t.rows (fun row => since < row.version) limit, other.place ≤ row.place :=
  page_complete limit hrow (decide_eq_true hlater)

theorem awaits (t : Table κ ν β) (r : Reader κ ν β) (limit : Nat) : Awaits t r limit (sameVersion t r.since r.key limit) := by
  unfold sameVersion
  cases hkey : r.key with
  | none =>
      refine ⟨fun _ hrow => (List.not_mem_nil hrow).elim, fun _ hrow => (List.not_mem_nil hrow).elim,
        fun _ hrow => (List.not_mem_nil hrow).elim, fun row _ hversion hbeyond => ?_, List.nodup_nil⟩
      obtain hbeyond | ⟨_, last, hlast, _⟩ := hbeyond
      · exact absurd hversion.symm hbeyond.ne
      · rw [hkey] at hlast
        cases hlast
  | some last =>
      refine ⟨fun row hrow => ⟨row, (mem_of_page hrow).1, rfl⟩, fun row hrow => ?_, fun row hrow other hother hsame => ?_,
        fun row hrow hversion hbeyond => ?_, page_keys_nodup ..⟩
      · have hwanted := of_decide_eq_true (mem_of_page hrow).2
        exact ⟨hwanted.1, .inr ⟨hwanted.1, last, hkey, hwanted.2⟩⟩
      · exact .inl (Table.eq_of_key hother (mem_of_page hrow).1 hsame)
      · obtain hbeyond | ⟨_, key, hlast, hlt⟩ := hbeyond
        · exact absurd hversion.symm hbeyond.ne
        · rw [hkey, Option.some_inj] at hlast
          subst hlast
          obtain hmem | ⟨hlength, hall⟩ := same_complete limit hrow hversion hlt
          · exact .inl hmem
          · refine .inr ⟨hlength, fun other hother => ?_⟩
            have hplace := Prod.Lex.le_iff.1 (hall other hother)
            have hother := of_decide_eq_true (mem_of_page hother).2
            obtain hlt | ⟨_, hle⟩ := hplace
            · exact absurd (hother.1.trans hversion.symm) hlt.ne
            · exact hle

theorem Awaits.advance (h : Awaits t r limit rows) (hfollows : Follows floor t r) (hnew : Advance floor t t') :
    Awaits t' r limit rows where
  stored := by
    intro row hrow
    obtain ⟨other, hother, hkey⟩ := h.stored row hrow
    obtain ⟨moved, hmoved, hsame⟩ := hnew.kept other hother
    exact ⟨moved, hmoved, hsame.trans hkey⟩
  beyond := h.beyond
  current := by
    intro row hrow other hother hkey
    obtain hold | hfresh := hnew.fresh other hother
    · exact h.current row hrow other hold hkey
    · exact .inr (hfollows.reached _ hfresh)
  complete := by
    intro row hrow hversion hbeyond
    obtain hold | hfresh := hnew.fresh row hrow
    · exact h.complete row hold hversion hbeyond
    · exact absurd hversion.symm (hfollows.reached _ hfresh).ne
  nodup := h.nodup

theorem mem_laterVersions (h : row ∈ laterVersions t r.since limit rows) :
    row ∈ rows ∨ row ∈ t.rows ∧ r.since < row.version := by
  rw [laterVersions] at h
  split_ifs at h
  · obtain h | h := List.mem_append.1 h
    · exact .inl h
    · exact .inr ⟨(mem_of_page h).1, of_decide_eq_true (mem_of_page h).2⟩
  · exact .inl h

omit [LinearOrder κ] in
theorem ne_key_of_later {row other : Row κ ν β} (hrow : row ∈ t.rows) (hversion : ¬ r.since < row.version)
    (hother : other ∈ t.rows ∧ r.since < other.version) : other.key ≠ row.key := by
  intro hkey
  rw [Table.eq_of_key hother.1 hrow hkey] at hother
  exact hversion hother.2

/-- Every row up to the last one of an answer is in the reader's copy after it. -/
theorem Awaits.seen (h : Awaits t r limit rows) (hfollows : Follows floor t r) {last row : Row κ ν β}
    (hlast : (laterVersions t r.since limit rows).getLast? = some last) (hrow : row ∈ t.rows) (hplace : row.place ≤ last.place) :
    (r.receive (laterVersions t r.since limit rows)).copy.get? row.key = some row.body := by
  have hlastmem := List.mem_of_getLast? hlast
  by_cases hlater : r.since < row.version
  · -- The row is one of the later versions, so the answer has come to them.
    have hfull : rows.length < limit := by
      by_contra hfull
      rw [laterVersions, if_neg hfull] at hlastmem
      have hversion := (h.beyond last hlastmem).1
      obtain hlt | ⟨heq, _⟩ := Prod.Lex.le_iff.1 hplace
      · exact absurd (hlater.trans hlt) (by simp [Row.place, hversion])
      · exact absurd hlater (by simp [show row.version = last.version from heq, hversion])
    rw [laterVersions, if_pos hfull, Reader.receive_append]
    apply Reader.get?_receive_of_mem (page_keys_nodup ..)
    obtain hmem | ⟨hlength, hall⟩ := later_complete (limit - rows.length) hrow hlater
    · exact hmem
    · have hne : page t.rows (fun row => r.since < row.version) (limit - rows.length) ≠ [] :=
        List.ne_nil_of_length_pos (by rw [hlength]; omega)
      have hmem := List.getLast_mem hne
      have hlasteq : last = (page t.rows (fun row => r.since < row.version) (limit - rows.length)).getLast hne := by
        rw [laterVersions, if_pos hfull, List.getLast?_append_of_ne_nil _ hne, List.getLast?_eq_getLast_of_ne_nil hne] at hlast
        exact (Option.some_inj.1 hlast).symm
      rw [← hlasteq] at hmem
      have heq := le_antisymm hplace (hall last hmem)
      have hkey : row.key = last.key := congrArg (fun place => (ofLex place).2) heq
      rwa [Table.eq_of_key hrow (mem_of_page hmem).1 hkey]
  · rw [laterVersions]
    have hunmoved : (r.receive (if rows.length < limit then
        rows ++ page t.rows (fun row => r.since < row.version) (limit - rows.length) else rows)).copy.get? row.key =
          (r.receive rows).copy.get? row.key := by
      split_ifs
      · rw [Reader.receive_append]
        refine Reader.get?_receive_of_not_mem fun other hother => ne_key_of_later hrow hlater ?_
        exact ⟨(mem_of_page hother).1, of_decide_eq_true (mem_of_page hother).2⟩
      · rfl
    rw [hunmoved]
    by_cases hbeyond : Beyond r.since r.key row
    · have hversion : row.version = r.since := hbeyond.elim (fun hlt => absurd hlt hlater) And.left
      apply Reader.get?_receive_of_mem h.nodup
      obtain hmem | ⟨hlength, hall⟩ := h.complete row hrow hversion hbeyond
      · exact hmem
      · have hlastrows : last ∈ rows := by
          rwa [laterVersions, if_neg (by omega)] at hlastmem
        have hkey : row.key ≤ last.key := by
          obtain hlt | ⟨_, hle⟩ := Prod.Lex.le_iff.1 hplace
          · exact absurd (hversion.trans (h.beyond last hlastrows).1.symm) hlt.ne
          · exact hle
        obtain heq | hmoved := h.current last hlastrows row hrow (le_antisymm hkey (hall last hlastrows))
        · exact heq ▸ hlastrows
        · exact absurd hmoved hlater
    · rw [Reader.get?_receive_of_not_mem]
      · exact hfollows.seen row hrow hbeyond
      · intro other hother hkey
        obtain heq | hmoved := h.current other hother row hrow hkey.symm
        · exact hbeyond (heq ▸ (h.beyond other hother).2)
        · exact hlater hmoved

/-- A reader that takes an answer follows the table. -/
theorem Follows.answer (h : Follows floor t r) (hawaits : Awaits t r limit rows) :
    Follows floor t (r.receive (laterVersions t r.since limit rows)) := by
  obtain hnone | ⟨last, hlast⟩ := (laterVersions t r.since limit rows).getLast?.eq_none_or_eq_some
  · rw [List.getLast?_eq_none_iff.1 hnone]
    exact h
  · obtain ⟨hsince, hkey⟩ := r.receive_place hlast
    refine ⟨fun key hmem => ?_, fun row hrow hseen => hawaits.seen h hlast hrow ?_, fun version hversion => ?_⟩
    · obtain hmem | ⟨row, hrow, rfl⟩ := Reader.mem_keys_receive hmem
      · exact h.stored key hmem
      · obtain hfirst | hlater := mem_laterVersions hrow
        · exact hawaits.stored row hfirst
        · exact ⟨row, hlater.1, rfl⟩
    · rw [hsince, hkey, Beyond] at hseen
      push Not at hseen
      rw [Prod.Lex.le_iff]
      obtain hlt | heq := hseen.1.lt_or_eq
      · exact .inl hlt
      · exact .inr ⟨heq, hseen.2 heq last.key rfl⟩
    · rw [hsince]
      obtain hfirst | hlater := mem_laterVersions (List.mem_of_getLast? hlast)
      · rw [(hawaits.beyond last hfirst).1]
        exact h.reached version hversion
      · exact hversion.2 last hlater.1

/-- A reader that is answered nothing holds the table. -/
theorem Follows.complete (h : Follows floor t r) (hawaits : Awaits t r limit rows) (hlimit : 0 < limit)
    (hnone : laterVersions t r.since limit rows = []) (key : κ) (body : β) :
    r.copy.get? key = some body ↔ ∃ row ∈ t.rows, row.key = key ∧ row.body = body := by
  have hrows : rows = [] := by
    rw [laterVersions] at hnone
    split_ifs at hnone
    · exact (List.append_eq_nil_iff.1 hnone).1
    · exact hnone
  subst hrows
  have hseen : ∀ row ∈ t.rows, ¬ Beyond r.since r.key row := by
    intro row hrow hbeyond
    by_cases hlater : r.since < row.version
    · have hpage : page t.rows (fun row => r.since < row.version) limit = [] := by
        simpa only [laterVersions, List.length_nil, if_pos hlimit, List.nil_append, Nat.sub_zero] using hnone
      obtain hmem | ⟨hlength, _⟩ := later_complete limit hrow hlater
      · rw [hpage] at hmem
        cases hmem
      · rw [hpage, List.length_nil] at hlength
        omega
    · have hversion := hbeyond.elim (fun hlt => absurd hlt hlater) And.left
      obtain hmem | ⟨hlength, _⟩ := hawaits.complete row hrow hversion hbeyond
      · cases hmem
      · simp at hlength
        omega
  constructor
  · intro hcopy
    obtain ⟨row, hrow, rfl⟩ := h.stored key (IndexMap.mem_keys_of_get? hcopy)
    rw [h.seen row hrow (hseen row hrow), Option.some_inj] at hcopy
    exact ⟨row, hrow, rfl, hcopy⟩
  · rintro ⟨row, hrow, rfl, rfl⟩
    exact h.seen row hrow (hseen row hrow)

end Feeds
