import EdgarPlatform.Library.IndexMap
import EdgarPlatform.Library.Runs
import Mathlib.Order.Defs.LinearOrder

/-!
# Maps kept in the order of their keys

A finite map whose entries stand in the order of their keys. That they do is a field of the structure, so two maps with the same lookups are one map, and what is calculated from a map cannot depend on the order it was filled in.
-/

structure SortedMap (κ α : Type) [LinearOrder κ] where
  entries : List (κ × α)
  sorted : entries.Pairwise fun a b => a.1 < b.1

namespace SortedMap

variable {κ α β : Type} [LinearOrder κ]

open IndexMap (lookupEntry)

theorem ext_entries {m n : SortedMap κ α} (h : m.entries = n.entries) : m = n := by
  cases m
  cases n
  simpa using h

instance [DecidableEq α] : DecidableEq (SortedMap κ α) := fun m n =>
  decidable_of_iff (m.entries = n.entries) ⟨ext_entries, fun h => h ▸ rfl⟩

def empty : SortedMap κ α := ⟨[], List.Pairwise.nil⟩

instance : Inhabited (SortedMap κ α) := ⟨empty⟩

def keys (m : SortedMap κ α) : List κ := m.entries.map Prod.fst

def values (m : SortedMap κ α) : List α := m.entries.map Prod.snd

def size (m : SortedMap κ α) : Nat := m.entries.length

def get? (m : SortedMap κ α) (key : κ) : Option α := lookupEntry key m.entries

def contains (m : SortedMap κ α) (key : κ) : Bool := (m.get? key).isSome

theorem keys_sorted (m : SortedMap κ α) : m.keys.Pairwise (· < ·) := List.pairwise_map.2 m.sorted

theorem keys_nodup (m : SortedMap κ α) : (m.entries.map Prod.fst).Nodup := m.keys_sorted.imp ne_of_lt

def insertEntry (key : κ) (value : α) : List (κ × α) → List (κ × α)
  | [] => [(key, value)]
  | entry :: rest =>
      if key < entry.1 then (key, value) :: entry :: rest
      else if key = entry.1 then (key, value) :: rest
      else entry :: insertEntry key value rest

variable {key : κ} {entries : List (κ × α)}

variable {value : α}

theorem fst_of_mem_insertEntry {entry : κ × α}
    (h : entry ∈ insertEntry key value entries) : entry.1 = key ∨ entry ∈ entries := by
  induction entries with
  | nil => simp_all [insertEntry]
  | cons first rest ih =>
      rw [insertEntry] at h
      split_ifs at h with hlt heq
      · rcases List.mem_cons.1 h with rfl | h
        · exact Or.inl rfl
        · exact Or.inr h
      · rcases List.mem_cons.1 h with rfl | h
        · exact Or.inl rfl
        · exact Or.inr (List.mem_cons_of_mem _ h)
      · rcases List.mem_cons.1 h with rfl | h
        · exact Or.inr (List.mem_cons_self ..)
        · exact (ih h).imp id (List.mem_cons_of_mem _)

theorem insertEntry_sorted (key : κ) (value : α)
    (h : entries.Pairwise fun a b => a.1 < b.1) :
    (insertEntry key value entries).Pairwise fun a b => a.1 < b.1 := by
  induction entries with
  | nil => exact List.pairwise_singleton _ _
  | cons first rest ih =>
      obtain ⟨hfirst, hrest⟩ := List.pairwise_cons.1 h
      rw [insertEntry]
      split_ifs with hlt heq
      · refine List.pairwise_cons.2 ⟨fun entry hentry => ?_, h⟩
        rcases List.mem_cons.1 hentry with rfl | hentry
        · exact hlt
        · exact hlt.trans (hfirst entry hentry)
      · refine List.pairwise_cons.2 ⟨fun entry hentry => ?_, hrest⟩
        exact lt_of_eq_of_lt heq (hfirst entry hentry)
      · refine List.pairwise_cons.2 ⟨fun entry hentry => ?_, ih hrest⟩
        rcases fst_of_mem_insertEntry hentry with hkey | hentry
        · rw [hkey]
          exact lt_of_le_of_ne (not_lt.1 hlt) (Ne.symm heq)
        · exact hfirst entry hentry

theorem lookupEntry_insertEntry (key other : κ) (value : α) (entries : List (κ × α)) :
    lookupEntry other (insertEntry key value entries)
      = if other = key then some value else lookupEntry other entries := by
  induction entries with
  | nil => simp only [insertEntry, lookupEntry, eq_comm]
  | cons first rest ih =>
      by_cases hother : other = key
      · subst hother
        rw [if_pos rfl, insertEntry]
        split_ifs with hlt heq
        · simp [lookupEntry]
        · simp [lookupEntry]
        · rw [lookupEntry, if_neg (Ne.symm heq), ih, if_pos rfl]
      · rw [if_neg hother, insertEntry]
        split_ifs with hlt heq
        · rw [lookupEntry, if_neg (Ne.symm hother)]
        · rw [lookupEntry, if_neg (Ne.symm hother), lookupEntry, if_neg (heq ▸ Ne.symm hother)]
        · rw [lookupEntry, lookupEntry, ih, if_neg hother]

def insert (m : SortedMap κ α) (key : κ) (value : α) : SortedMap κ α :=
  ⟨insertEntry key value m.entries, insertEntry_sorted key value m.sorted⟩

def erase (m : SortedMap κ α) (key : κ) : SortedMap κ α :=
  ⟨m.entries.filter fun entry => entry.1 ≠ key, m.sorted.sublist List.filter_sublist⟩

def filter (m : SortedMap κ α) (keep : κ × α → Bool) : SortedMap κ α :=
  ⟨m.entries.filter keep, m.sorted.sublist List.filter_sublist⟩

def mapValues (m : SortedMap κ α) (f : κ → α → β) : SortedMap κ β :=
  ⟨m.entries.map fun entry => (entry.1, f entry.1 entry.2), List.pairwise_map.2 m.sorted⟩

/-- The entries written one after another, a later one replacing an earlier one of its key. -/
def extend (m : SortedMap κ α) (entries : List (κ × α)) : SortedMap κ α :=
  entries.foldl (fun m entry => m.insert entry.1 entry.2) m

def ofList (entries : List (κ × α)) : SortedMap κ α := empty.extend entries

@[simp] theorem get?_empty (key : κ) : (empty : SortedMap κ α).get? key = none := rfl

theorem get?_insert (m : SortedMap κ α) (key other : κ) (value : α) :
    (m.insert key value).get? other = if other = key then some value else m.get? other :=
  lookupEntry_insertEntry key other value m.entries

@[simp] theorem get?_insert_self (m : SortedMap κ α) (key : κ) (value : α) :
    (m.insert key value).get? key = some value := by
  rw [get?_insert, if_pos rfl]

theorem get?_insert_of_ne (m : SortedMap κ α) {key other : κ} (value : α) (h : other ≠ key) :
    (m.insert key value).get? other = m.get? other := by
  rw [get?_insert, if_neg h]

variable {m : SortedMap κ α}

theorem get?_eq_some_iff :
    m.get? key = some value ↔ (key, value) ∈ m.entries :=
  ⟨IndexMap.lookupEntry_eq_some, IndexMap.lookupEntry_of_mem m.keys_nodup⟩

theorem mem_keys_iff : key ∈ m.keys ↔ ∃ value, m.get? key = some value := by
  simp [keys, get?_eq_some_iff]

theorem get?_eq_none_iff : m.get? key = none ↔ key ∉ m.keys := by
  rw [mem_keys_iff, ← Option.ne_none_iff_exists', not_not]

theorem contains_iff : m.contains key = true ↔ key ∈ m.keys := by
  rw [contains, Option.isSome_iff_exists, mem_keys_iff]

theorem mem_keys_of_get? (h : m.get? key = some value) : key ∈ m.keys :=
  mem_keys_iff.2 ⟨value, h⟩

theorem ext_get? {m n : SortedMap κ α} (h : ∀ key, m.get? key = n.get? key) : m = n := by
  refine ext_entries (List.Perm.eq_of_pairwise (fun a b _ _ hab hba => absurd hab hba.not_gt) m.sorted n.sorted ?_)
  refine (List.perm_ext_iff_of_nodup m.keys_nodup.of_map n.keys_nodup.of_map).2 fun entry => ?_
  rw [← get?_eq_some_iff, ← get?_eq_some_iff, h]

theorem get?_filter (m : SortedMap κ α) (keep : κ × α → Bool) (key : κ) :
    (m.filter keep).get? key = (m.get? key).filter fun value => keep (key, value) := by
  refine Option.ext fun value => ?_
  rw [Option.filter_eq_some_iff, get?_eq_some_iff, get?_eq_some_iff, filter, List.mem_filter]

theorem get?_erase (m : SortedMap κ α) (key other : κ) :
    (m.erase key).get? other = if other = key then none else m.get? other := by
  have herase : m.erase key = m.filter fun entry => entry.1 ≠ key := rfl
  rw [herase, get?_filter]
  by_cases h : other = key <;> cases m.get? other <;> simp [h]

theorem get?_mapValues (m : SortedMap κ α) (f : κ → α → β) (key : κ) :
    (m.mapValues f).get? key = (m.get? key).map (f key) := by
  refine Option.ext fun value => ?_
  rw [Option.map_eq_some_iff, get?_eq_some_iff]
  simp only [mapValues, List.mem_map, Prod.mk.injEq, Prod.exists]
  constructor
  · rintro ⟨_, held, hmem, rfl, rfl⟩
    exact ⟨held, get?_eq_some_iff.2 hmem, rfl⟩
  · rintro ⟨held, hget, rfl⟩
    exact ⟨key, held, get?_eq_some_iff.1 hget, rfl, rfl⟩

@[simp] theorem keys_mapValues (m : SortedMap κ α) (f : κ → α → β) : (m.mapValues f).keys = m.keys := by
  simp [keys, mapValues]

theorem mem_keys_insert {key other : κ} :
    other ∈ (m.insert key value).keys ↔ other = key ∨ other ∈ m.keys := by
  rw [mem_keys_iff, mem_keys_iff]
  simp only [get?_insert]
  split_ifs with h <;> simp [h]

theorem extend_nil (m : SortedMap κ α) : m.extend [] = m := rfl

theorem extend_cons (m : SortedMap κ α) (entry : κ × α) (rest : List (κ × α)) :
    m.extend (entry :: rest) = (m.insert entry.1 entry.2).extend rest := rfl

theorem extend_append (m : SortedMap κ α) (front back : List (κ × α)) :
    m.extend (front ++ back) = (m.extend front).extend back := by
  rw [extend, List.foldl_append]
  rfl

theorem get?_extend (m : SortedMap κ α) (entries : List (κ × α)) (key : κ) :
    (m.extend entries).get? key = (lookupEntry key entries.reverse).or (m.get? key) := by
  induction entries generalizing m with
  | nil => simp [extend_nil, lookupEntry]
  | cons entry rest ih =>
      rw [extend_cons, ih, get?_insert, List.reverse_cons, IndexMap.lookupEntry_append, lookupEntry, lookupEntry,
        Option.or_assoc]
      congr 1
      by_cases h : key = entry.1
      · simp [h]
      · simp [h, Ne.symm h]

theorem get?_ofList (entries : List (κ × α)) (key : κ) :
    (ofList entries).get? key = lookupEntry key entries.reverse := by
  rw [ofList, get?_extend, get?_empty, Option.or_none]

theorem mem_keys_ofList :
    key ∈ (ofList entries).keys ↔ key ∈ entries.map Prod.fst := by
  rw [mem_keys_iff, get?_ofList]
  induction entries with
  | nil => simp [lookupEntry]
  | cons entry rest ih =>
      rw [List.reverse_cons, IndexMap.lookupEntry_append, List.map_cons, List.mem_cons, ← ih]
      by_cases h : key = entry.1
      · cases lookupEntry key rest.reverse <;> simp [lookupEntry, h]
      · cases lookupEntry key rest.reverse <;> simp [lookupEntry, h, Ne.symm h]

theorem ofList_entries (m : SortedMap κ α) : ofList m.entries = m := by
  refine ext_get? fun key => Option.ext fun value => ?_
  have hnodup : (m.entries.reverse.map Prod.fst).Nodup := by
    rw [List.map_reverse]
    exact List.nodup_reverse.2 m.keys_nodup
  rw [get?_ofList, get?_eq_some_iff]
  constructor
  · exact fun h => List.mem_reverse.1 (IndexMap.lookupEntry_eq_some h)
  · exact fun h => IndexMap.lookupEntry_of_mem hnodup (List.mem_reverse.2 h)

theorem get?_extend_of_not_mem (m : SortedMap κ α) (h : key ∉ entries.map Prod.fst) :
    (m.extend entries).get? key = m.get? key := by
  induction entries generalizing m with
  | nil => rfl
  | cons entry rest ih =>
      simp only [List.map_cons, List.mem_cons, not_or] at h
      rw [extend_cons, ih _ h.2, get?_insert_of_ne _ _ h.1]

theorem get?_extend_const (m : SortedMap κ α) {keys : List κ} (h : key ∈ keys) :
    (m.extend (keys.map fun key => (key, value))).get? key = some value := by
  induction keys generalizing m with
  | nil => cases h
  | cons first rest ih =>
      rw [List.map_cons, extend_cons]
      by_cases hrest : key ∈ rest
      · exact ih _ hrest
      · have hfirst : key = first := (List.mem_cons.1 h).resolve_right hrest
        rw [get?_extend_of_not_mem _ (by simpa using hrest), hfirst, get?_insert_self]

/-- A map collected from some keys holds under each what a function has for it. -/
theorem get?_ofList_filterMap (f : κ → Option α) (keys : List κ) (key : κ) :
    (ofList (keys.filterMap fun key => (f key).map fun value => (key, value))).get? key = if key ∈ keys then f key else none := by
  have hlookup : ∀ keys : List κ, lookupEntry key (keys.filterMap fun key => (f key).map fun value => (key, value)) =
      if key ∈ keys then f key else none := by
    intro keys
    induction keys with
    | nil => rfl
    | cons first rest ih =>
        rw [List.filterMap_cons]
        by_cases hfirst : key = first
        · subst hfirst
          cases hvalue : f key with
          | none =>
              rw [Option.map_none, ih, hvalue, ite_self, ite_self]
          | some value => simp [lookupEntry]
        · have hmem : key ∈ first :: rest ↔ key ∈ rest := by simp [hfirst]
          simp only [hmem]
          cases f first with
          | none => exact ih
          | some value =>
              show lookupEntry key ((first, value) :: _) = _
              rw [lookupEntry, if_neg (Ne.symm hfirst), ih]
  rw [get?_ofList, ← List.filterMap_reverse, hlookup]
  simp only [List.mem_reverse]

theorem get?_indexMap (m : SortedMap κ α) (key : κ) : (IndexMap.ofList m.entries).get? key = m.get? key := by
  rw [← Option.or_none (o := (IndexMap.ofList m.entries).get? key), IndexMap.ofList, IndexMap.get?_extend,
    IndexMap.get?_empty, Option.or_none, Option.or_none, ← get?_ofList, ofList_entries]

theorem mapValues_ofList (f : α → β) (entries : List (κ × α)) :
    (ofList entries).mapValues (fun _ value => f value) = ofList (entries.map fun entry => (entry.1, f entry.2)) := by
  refine ext_get? fun key => ?_
  rw [get?_mapValues, get?_ofList, get?_ofList, ← List.map_reverse, IndexMap.lookupEntry_map]

def mapValuesM {ε : Type} (f : κ → α → Except ε β) (m : SortedMap κ α) : Except ε (SortedMap κ β) :=
  (m.entries.mapM fun entry => (f entry.1 entry.2).map fun value => (entry.1, value)).map ofList

omit [LinearOrder κ] in
theorem keys_of_mapM {ε : Type} {f : κ → α → Except ε β} {results : List (κ × β)}
    (h : (entries.mapM fun entry => (f entry.1 entry.2).map fun value => (entry.1, value)) = .ok results) :
    results.map Prod.fst = entries.map Prod.fst := by
  rw [Runs.mapM_eq_ok] at h
  induction h with
  | nil => rfl
  | @cons entry result _ _ hhead _ ih =>
      rw [List.map_cons, List.map_cons, ih]
      cases hf : f entry.1 entry.2 with
      | error e =>
          rw [hf] at hhead
          cases hhead
      | ok value =>
          rw [hf] at hhead
          cases hhead
          rfl

theorem get?_mapValuesM {ε : Type} {f : κ → α → Except ε β} {n : SortedMap κ β}
    (h : m.mapValuesM f = .ok n) {value : β} :
    n.get? key = some value ↔ ∃ held, m.get? key = some held ∧ f key held = .ok value := by
  cases hresults : m.entries.mapM fun entry => (f entry.1 entry.2).map fun value => (entry.1, value) with
  | error e =>
      rw [mapValuesM, hresults] at h
      cases h
  | ok results =>
      rw [mapValuesM, hresults] at h
      cases h
      have hkeys : results.map Prod.fst = m.keys := keys_of_mapM hresults
      have hnodup : (results.reverse.map Prod.fst).Nodup := by
        rw [List.map_reverse, hkeys]
        exact List.nodup_reverse.2 m.keys_nodup
      have hlookup : (ofList results).get? key = some value ↔ (key, value) ∈ results := by
        rw [get?_ofList, ← List.mem_reverse]
        exact ⟨IndexMap.lookupEntry_eq_some, IndexMap.lookupEntry_of_mem hnodup⟩
      have hstep : ∀ entry : κ × α, (f entry.1 entry.2).map (fun value => (entry.1, value)) = .ok (key, value) ↔
          entry.1 = key ∧ f entry.1 entry.2 = .ok value := by
        intro entry
        cases f entry.1 entry.2 <;> simp [Except.map]
      rw [hlookup]
      constructor
      · intro hmem
        obtain ⟨entry, hentry, hresult⟩ := Runs.mapM_exists_of_mem hresults hmem
        obtain ⟨rfl, hvalue⟩ := (hstep entry).1 hresult
        exact ⟨entry.2, get?_eq_some_iff.2 hentry, hvalue⟩
      · rintro ⟨held, hget, hvalue⟩
        obtain ⟨result, hmem, hresult⟩ := Runs.forall₂_exists_right (Runs.mapM_eq_ok.1 hresults) (get?_eq_some_iff.1 hget)
        have hsame := hresult.symm.trans ((hstep (key, held)).2 ⟨rfl, hvalue⟩)
        exact Except.ok.inj hsame ▸ hmem

theorem mapValuesM_ok_of_get? {ε : Type} {f : κ → α → Except ε β} {n : SortedMap κ β}
    (h : m.mapValuesM f = .ok n) {held : α} (hget : m.get? key = some held) :
    ∃ value, f key held = .ok value := by
  cases hresults : m.entries.mapM fun entry => (f entry.1 entry.2).map fun value => (entry.1, value) with
  | error e =>
      rw [mapValuesM, hresults] at h
      cases h
  | ok results =>
      obtain ⟨_, hresult⟩ := Runs.mapM_ok_of_mem hresults _ (get?_eq_some_iff.1 hget)
      cases hf : f key held with
      | error e =>
          rw [hf] at hresult
          cases hresult
      | ok value => exact ⟨value, rfl⟩

theorem mapValuesM_ok_of_forall {ε : Type} {f : κ → α → Except ε β}
    (h : ∀ key held, m.get? key = some held → ∃ value, f key held = .ok value) : ∃ n, m.mapValuesM f = .ok n := by
  have hentries : ∀ entry ∈ m.entries, ∃ result, (f entry.1 entry.2).map (fun value => (entry.1, value)) = .ok result := by
    intro entry hentry
    obtain ⟨value, hvalue⟩ := h entry.1 entry.2 (get?_eq_some_iff.2 hentry)
    exact ⟨(entry.1, value), by rw [hvalue]; rfl⟩
  obtain ⟨results, hresults⟩ := Runs.mapM_ok_of_forall hentries
  exact ⟨ofList results, by rw [mapValuesM, hresults]; rfl⟩

theorem mapValuesM_error {ε : Type} {f : κ → α → Except ε β} {e : ε} (h : m.mapValuesM f = .error e) :
    ∃ key held, m.get? key = some held ∧ f key held = .error e := by
  cases hresults : m.entries.mapM fun entry => (f entry.1 entry.2).map fun value => (entry.1, value) with
  | ok results =>
      rw [mapValuesM, hresults] at h
      cases h
  | error e' =>
      rw [mapValuesM, hresults] at h
      cases h
      obtain ⟨entry, hentry, hfailed⟩ := Runs.mapM_error hresults
      refine ⟨entry.1, entry.2, get?_eq_some_iff.2 hentry, ?_⟩
      cases hf : f entry.1 entry.2 with
      | ok value =>
          rw [hf] at hfailed
          cases hfailed
      | error e' =>
          rw [hf] at hfailed
          cases hfailed
          rfl

theorem get?_ofList_split (h : (ofList entries).get? key = some value) :
    ∃ front back, entries = front ++ (key, value) :: back ∧ key ∉ back.map Prod.fst := by
  induction entries with
  | nil => cases h
  | cons entry rest ih =>
      by_cases hrest : key ∈ rest.map Prod.fst
      · have hsame : (ofList (entry :: rest)).get? key = (ofList rest).get? key := by
          obtain ⟨held, hheld⟩ := mem_keys_iff.1 (mem_keys_ofList.2 hrest)
          rw [hheld, get?_ofList, List.reverse_cons, IndexMap.lookupEntry_append, ← get?_ofList, hheld, Option.some_or]
        obtain ⟨front, back, rfl, hback⟩ := ih (hsame ▸ h)
        exact ⟨entry :: front, back, rfl, hback⟩
      · rw [ofList, extend_cons, get?_extend_of_not_mem _ hrest, get?_insert] at h
        split_ifs at h with hkey
        · refine ⟨[], rest, ?_, hrest⟩
          rw [List.nil_append, hkey, ← Option.some.inj h]
        · cases h

theorem keys_ofList (entries : List (κ × α)) :
    (ofList entries).keys = (ofList (entries.map fun entry => (entry.1, ()))).keys := by
  rw [← mapValues_ofList fun _ => (), keys_mapValues]

theorem ofList_indexMap (entries : List (κ × α)) : ofList (IndexMap.ofList entries).entries = ofList entries := by
  refine ext_get? fun key => ?_
  have hnodup : ((IndexMap.ofList entries).entries.reverse.map Prod.fst).Nodup := by
    rw [List.map_reverse]
    exact List.nodup_reverse.2 (IndexMap.ofList entries).nodup
  have hreverse : lookupEntry key (IndexMap.ofList entries).entries.reverse = (IndexMap.ofList entries).get? key := by
    refine Option.ext fun value => ?_
    rw [IndexMap.get?_eq_some_iff]
    constructor
    · exact fun h => List.mem_reverse.1 (IndexMap.lookupEntry_eq_some h)
    · exact fun h => IndexMap.lookupEntry_of_mem hnodup (List.mem_reverse.2 h)
  rw [get?_ofList, hreverse, get?_ofList, IndexMap.ofList, IndexMap.get?_extend, IndexMap.get?_empty, Option.or_none]

end SortedMap
