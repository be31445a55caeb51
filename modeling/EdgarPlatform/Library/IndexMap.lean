import Mathlib.Algebra.Order.BigOperators.Group.List
import Mathlib.Algebra.Order.Ring.Nat
import Mathlib.Data.List.Nodup
import Mathlib.Data.List.Basic

/-!
# Insertion-ordered maps

A finite map that remembers the order its keys were first inserted in. Writing a key again replaces its value in place. The order is what iteration sees; lookups do not depend on it. That no key is held twice is a field of the structure, so a lookup never has to choose between two entries.
-/

structure IndexMap (κ α : Type) where
  entries : List (κ × α)
  nodup : (entries.map Prod.fst).Nodup

namespace IndexMap

-- Texts are looked up in pairs and triples, and as lists of codes.
instance lawfulPair : LawfulBEq (String × String) := inferInstance
instance lawfulTriple : LawfulBEq (String × String × String) := inferInstance
instance lawfulCodes : LawfulBEq (List Nat) := inferInstance

variable {κ α β : Type}

theorem ext_entries {m n : IndexMap κ α} (h : m.entries = n.entries) : m = n := by
  cases m
  cases n
  simpa using h

instance [DecidableEq κ] [DecidableEq α] : DecidableEq (IndexMap κ α) := fun m n =>
  decidable_of_iff (m.entries = n.entries) ⟨ext_entries, fun h => h ▸ rfl⟩

def empty : IndexMap κ α := ⟨[], List.nodup_nil⟩

instance : Inhabited (IndexMap κ α) := ⟨empty⟩

def keys (m : IndexMap κ α) : List κ := m.entries.map Prod.fst

def values (m : IndexMap κ α) : List α := m.entries.map Prod.snd

def size (m : IndexMap κ α) : Nat := m.entries.length

theorem keys_nodup (m : IndexMap κ α) : m.keys.Nodup := m.nodup

@[simp] theorem length_keys (m : IndexMap κ α) : m.keys.length = m.size := by
  simp [keys, size]

@[simp] theorem keys_empty : (empty : IndexMap κ α).keys = [] := rfl

variable [DecidableEq κ]

def lookupEntry (key : κ) : List (κ × α) → Option α
  | [] => none
  | entry :: rest => if entry.1 = key then some entry.2 else lookupEntry key rest

def setEntry (key : κ) (value : α) : List (κ × α) → List (κ × α)
  | [] => [(key, value)]
  | entry :: rest => if entry.1 = key then (key, value) :: rest else entry :: setEntry key value rest

theorem keys_setEntry (key : κ) (value : α) (entries : List (κ × α)) :
    (setEntry key value entries).map Prod.fst
      = if key ∈ entries.map Prod.fst then entries.map Prod.fst
        else entries.map Prod.fst ++ [key] := by
  induction entries with
  | nil => simp [setEntry]
  | cons entry rest ih =>
      by_cases hkey : entry.1 = key
      · simp [setEntry, hkey]
      · have hne : ¬ key = entry.1 := fun h => hkey h.symm
        simp only [setEntry, if_neg hkey, List.map_cons, ih, List.mem_cons, hne, false_or]
        split_ifs <;> simp

theorem lookupEntry_setEntry (key other : κ) (value : α) (entries : List (κ × α)) :
    lookupEntry other (setEntry key value entries)
      = if other = key then some value else lookupEntry other entries := by
  induction entries with
  | nil => simp only [setEntry, lookupEntry, eq_comm]
  | cons entry rest ih =>
      by_cases hkey : entry.1 = key
      · by_cases hother : other = key
        · simp [setEntry, lookupEntry, hkey, hother]
        · have hne : ¬ key = other := fun h => hother h.symm
          simp [setEntry, lookupEntry, hkey, hother, hne]
      · simp only [setEntry, if_neg hkey, lookupEntry, ih]
        by_cases hother : other = key
        · subst hother
          simp [hkey]
        · simp [hother]

theorem lookupEntry_append (key : κ) (entries others : List (κ × α)) :
    lookupEntry key (entries ++ others) = (lookupEntry key entries).or (lookupEntry key others) := by
  induction entries with
  | nil => rfl
  | cons entry rest ih =>
      rw [List.cons_append, lookupEntry, lookupEntry, ih]
      split_ifs <;> rfl

theorem lookupEntry_map (f : α → β) (key : κ) (entries : List (κ × α)) :
    lookupEntry key (entries.map fun entry => (entry.1, f entry.2)) = (lookupEntry key entries).map f := by
  induction entries with
  | nil => rfl
  | cons entry rest ih =>
      rw [List.map_cons, lookupEntry, lookupEntry, ih]
      split_ifs <;> rfl

variable {key : κ} {value : α} {entries : List (κ × α)}

theorem lookupEntry_eq_some
    (h : lookupEntry key entries = some value) : (key, value) ∈ entries := by
  induction entries with
  | nil => simp [lookupEntry] at h
  | cons entry rest ih =>
      simp only [lookupEntry] at h
      split_ifs at h with hkey
      · obtain ⟨k, v⟩ := entry
        simp_all
      · exact List.mem_cons_of_mem _ (ih h)

theorem lookupEntry_of_mem
    (hnodup : (entries.map Prod.fst).Nodup) (h : (key, value) ∈ entries) :
    lookupEntry key entries = some value := by
  induction entries with
  | nil => simp at h
  | cons entry rest ih =>
      rw [List.map_cons, List.nodup_cons] at hnodup
      rcases List.mem_cons.1 h with rfl | h
      · simp [lookupEntry]
      · have hne : entry.1 ≠ key := by
          rintro rfl
          exact hnodup.1 (List.mem_map.2 ⟨_, h, rfl⟩)
        simp only [lookupEntry, if_neg hne]
        exact ih hnodup.2 h

def get? (m : IndexMap κ α) (key : κ) : Option α := lookupEntry key m.entries

def contains (m : IndexMap κ α) (key : κ) : Bool := (m.get? key).isSome

def insert (m : IndexMap κ α) (key : κ) (value : α) : IndexMap κ α where
  entries := setEntry key value m.entries
  nodup := by
    rw [keys_setEntry]
    split_ifs with hmem
    · exact m.nodup
    · exact List.Nodup.append m.nodup (List.nodup_singleton _) (by simpa using hmem)

/-- The entries written one after another, a later one replacing an earlier one of its key. -/
def extend (m : IndexMap κ α) (entries : List (κ × α)) : IndexMap κ α :=
  entries.foldl (fun m entry => m.insert entry.1 entry.2) m

def ofList (entries : List (κ × α)) : IndexMap κ α := empty.extend entries

def erase (m : IndexMap κ α) (key : κ) : IndexMap κ α where
  entries := m.entries.filter (fun entry => entry.1 ≠ key)
  nodup := m.nodup.sublist (List.filter_sublist.map Prod.fst)

def mapValues (m : IndexMap κ α) (f : α → β) : IndexMap κ β where
  entries := m.entries.map (fun entry => (entry.1, f entry.2))
  nodup := by simpa [List.map_map, Function.comp_def] using m.nodup

@[simp] theorem get?_empty (key : κ) : (empty : IndexMap κ α).get? key = none := rfl

theorem get?_insert (m : IndexMap κ α) (key other : κ) (value : α) :
    (m.insert key value).get? other = if other = key then some value else m.get? other :=
  lookupEntry_setEntry key other value m.entries

@[simp] theorem get?_insert_self (m : IndexMap κ α) (key : κ) (value : α) :
    (m.insert key value).get? key = some value := by
  simp [get?_insert]

theorem get?_insert_of_ne (m : IndexMap κ α) {key other : κ} (value : α) (h : other ≠ key) :
    (m.insert key value).get? other = m.get? other := by
  simp [get?_insert, h]

variable {m : IndexMap κ α}

theorem get?_eq_some_iff :
    m.get? key = some value ↔ (key, value) ∈ m.entries :=
  ⟨lookupEntry_eq_some, lookupEntry_of_mem m.nodup⟩

theorem mem_keys_iff : key ∈ m.keys ↔ ∃ value, m.get? key = some value := by
  simp [keys, get?_eq_some_iff]

theorem get?_eq_none_iff : m.get? key = none ↔ key ∉ m.keys := by
  rw [mem_keys_iff, ← Option.ne_none_iff_exists', not_not]

omit [DecidableEq κ] in
theorem not_mem_keys_of_size (h : m.size = 0) (key : κ) : key ∉ m.keys := by
  rw [← length_keys, List.length_eq_zero_iff] at h
  simp [h]

theorem mem_keys_of_get? (h : m.get? key = some value) :
    key ∈ m.keys :=
  mem_keys_iff.2 ⟨value, h⟩

theorem contains_iff : m.contains key = true ↔ key ∈ m.keys := by
  rw [contains, Option.isSome_iff_exists, mem_keys_iff]

theorem mem_values_of_get? (h : m.get? key = some value) :
    value ∈ m.values :=
  List.mem_map.2 ⟨_, get?_eq_some_iff.1 h, rfl⟩

theorem mem_values_iff :
    value ∈ m.values ↔ ∃ key, m.get? key = some value := by
  simp [values, get?_eq_some_iff]

theorem keys_insert (m : IndexMap κ α) (key : κ) (value : α) :
    (m.insert key value).keys = if key ∈ m.keys then m.keys else m.keys ++ [key] :=
  keys_setEntry key value m.entries

theorem mem_keys_insert {key other : κ} :
    other ∈ (m.insert key value).keys ↔ other = key ∨ other ∈ m.keys := by
  rw [mem_keys_iff, mem_keys_iff]
  simp only [get?_insert]
  split_ifs with h <;> simp [h]

theorem get?_mapValues (m : IndexMap κ α) (f : α → β) (key : κ) :
    (m.mapValues f).get? key = (m.get? key).map f := by
  obtain ⟨entries, hnodup⟩ := m
  simp only [get?, mapValues]
  clear hnodup
  induction entries with
  | nil => rfl
  | cons entry rest ih =>
      simp only [List.map_cons, lookupEntry]
      split_ifs
      · rfl
      · exact ih

omit [DecidableEq κ] in
@[simp] theorem keys_mapValues (m : IndexMap κ α) (f : α → β) : (m.mapValues f).keys = m.keys := by
  simp [keys, mapValues, List.map_map, Function.comp_def]

theorem get?_erase (m : IndexMap κ α) (key other : κ) :
    (m.erase key).get? other = if other = key then none else m.get? other := by
  by_cases h : other = key
  · subst h
    rw [if_pos rfl, get?_eq_none_iff]
    simp [keys, erase]
  · rw [if_neg h]
    cases hget : m.get? other with
    | some value =>
        rw [get?_eq_some_iff] at hget ⊢
        simpa [erase, h] using hget
    | none =>
        rw [get?_eq_none_iff] at hget ⊢
        intro hmem
        obtain ⟨entry, hentry, rfl⟩ := List.mem_map.1 hmem
        exact hget (List.mem_map.2 ⟨entry, (List.mem_filter.1 hentry).1, rfl⟩)

theorem extend_nil (m : IndexMap κ α) : m.extend [] = m := rfl

theorem extend_cons (m : IndexMap κ α) (entry : κ × α) (rest : List (κ × α)) :
    m.extend (entry :: rest) = (m.insert entry.1 entry.2).extend rest := rfl

theorem get?_extend_of_not_mem (h : key ∉ entries.map Prod.fst)
    (m : IndexMap κ α) : (m.extend entries).get? key = m.get? key := by
  induction entries generalizing m with
  | nil => rfl
  | cons entry rest ih =>
      simp only [List.map_cons, List.mem_cons, not_or] at h
      rw [extend_cons, ih h.2, get?_insert_of_ne _ _ h.1]

theorem mem_keys_extend :
    key ∈ (m.extend entries).keys ↔ key ∈ m.keys ∨ key ∈ entries.map Prod.fst := by
  induction entries generalizing m with
  | nil => simp [extend_nil]
  | cons entry rest ih =>
      rw [extend_cons, ih, mem_keys_insert, List.map_cons, List.mem_cons]
      tauto

theorem get?_extend_cases
    (h : (m.extend entries).get? key = some value) :
    (key, value) ∈ entries ∨ m.get? key = some value := by
  induction entries generalizing m with
  | nil => exact Or.inr h
  | cons entry rest ih =>
      rw [extend_cons] at h
      rcases ih h with hmem | hget
      · exact Or.inl (List.mem_cons_of_mem _ hmem)
      · rw [get?_insert] at hget
        split_ifs at hget with hkey
        · obtain ⟨k, v⟩ := entry
          simp_all
        · exact Or.inr hget

theorem get?_ofList (hnodup : (entries.map Prod.fst).Nodup) :
    (ofList entries).get? key = some value ↔ (key, value) ∈ entries := by
  constructor
  · intro h
    rcases get?_extend_cases h with hmem | hget
    · exact hmem
    · simp at hget
  · intro h
    have hkey : key ∈ (ofList entries).keys :=
      mem_keys_extend.2 (Or.inr (List.mem_map.2 ⟨_, h, rfl⟩))
    obtain ⟨other, hother⟩ := mem_keys_iff.1 hkey
    rcases get?_extend_cases hother with hmem | hget
    · rw [hother]
      exact (lookupEntry_of_mem hnodup hmem).symm.trans (lookupEntry_of_mem hnodup h)
    · simp at hget

theorem lookupEntry_map_self {keys : List κ} (f : κ → α) (rest : List (κ × α)) (h : key ∈ keys) :
    lookupEntry key (keys.map (fun key => (key, f key)) ++ rest) = some (f key) := by
  induction keys with
  | nil => cases h
  | cons first keys ih =>
      rw [List.map_cons, List.cons_append, lookupEntry]
      split_ifs with hfirst
      · exact congrArg (fun key => some (f key)) hfirst
      · exact ih ((List.mem_cons.1 h).resolve_left (Ne.symm hfirst))

theorem lookupEntry_map_not_mem {keys : List κ} (f : κ → α) (rest : List (κ × α)) (h : key ∉ keys) :
    lookupEntry key (keys.map (fun key => (key, f key)) ++ rest) = lookupEntry key rest := by
  induction keys with
  | nil => rfl
  | cons first keys ih =>
      rw [List.mem_cons, not_or] at h
      rw [List.map_cons, List.cons_append, lookupEntry, if_neg (Ne.symm h.1)]
      exact ih h.2

theorem get?_ofList_eq (hnodup : (entries.map Prod.fst).Nodup) (key : κ) :
    (ofList entries).get? key = lookupEntry key entries := by
  refine Option.ext fun value => ?_
  rw [get?_ofList hnodup]
  exact ⟨lookupEntry_of_mem hnodup, lookupEntry_eq_some⟩

theorem get?_extend (m : IndexMap κ α) (entries : List (κ × α)) (key : κ) :
    (m.extend entries).get? key = (lookupEntry key entries.reverse).or (m.get? key) := by
  induction entries generalizing m with
  | nil => simp [extend_nil, lookupEntry]
  | cons entry rest ih =>
      rw [extend_cons, ih, get?_insert, List.reverse_cons, lookupEntry_append, lookupEntry, lookupEntry, Option.or_assoc]
      congr 1
      by_cases h : key = entry.1
      · simp [h]
      · simp [h, Ne.symm h]

theorem mem_keys_ofList :
    key ∈ (ofList entries).keys ↔ key ∈ entries.map Prod.fst := by
  simp [ofList, mem_keys_extend]

theorem setEntry_of_not_mem (value : α) (h : key ∉ entries.map Prod.fst) :
    setEntry key value entries = entries ++ [(key, value)] := by
  induction entries with
  | nil => rfl
  | cons entry rest ih =>
      simp only [List.map_cons, List.mem_cons, not_or] at h
      rw [setEntry, if_neg (Ne.symm h.1), ih h.2, List.cons_append]

theorem entries_extend (h : (m.keys ++ entries.map Prod.fst).Nodup) :
    (m.extend entries).entries = m.entries ++ entries := by
  induction entries generalizing m with
  | nil => simp [extend_nil]
  | cons entry rest ih =>
      have hnew : entry.1 ∉ m.keys := by
        intro hmem
        exact (List.nodup_append.1 h).2.2 _ hmem _ (by simp) rfl
      have hentries : (m.insert entry.1 entry.2).entries = m.entries ++ [entry] := setEntry_of_not_mem _ hnew
      have hkeys : (m.insert entry.1 entry.2).keys = m.keys ++ [entry.1] := by
        rw [keys, hentries, List.map_append]
        rfl
      rw [extend_cons, ih (by rw [hkeys]; simpa using h), hentries, List.append_assoc, List.singleton_append]

theorem ofList_entries (m : IndexMap κ α) : ofList m.entries = m := by
  refine ext_entries ?_
  rw [ofList, entries_extend (by simpa using m.nodup)]
  rfl

theorem setEntry_setEntry (key : κ) (value older : α) (entries : List (κ × α)) :
    setEntry key value (setEntry key older entries) = setEntry key value entries := by
  induction entries with
  | nil => simp [setEntry]
  | cons entry rest ih =>
      by_cases hkey : entry.1 = key
      · simp [setEntry, hkey]
      · simp [setEntry, hkey, ih]

theorem setEntry_own (h : lookupEntry key entries = some value) :
    setEntry key value entries = entries := by
  induction entries with
  | nil => cases h
  | cons entry rest ih =>
      rw [lookupEntry] at h
      rw [setEntry]
      split_ifs at h ⊢ with hkey
      · cases h
        rw [← hkey]
      · rw [ih h]

theorem setEntry_comm {key other : κ} (hne : other ≠ key) (value second : α)
    (hold : key ∈ entries.map Prod.fst) :
    setEntry key value (setEntry other second entries) = setEntry other second (setEntry key value entries) := by
  induction entries with
  | nil => cases hold
  | cons entry rest ih =>
      by_cases hkey : entry.1 = key
      · have hother : ¬ key = other := fun heq => hne heq.symm
        simp [setEntry, hkey, hother]
      · by_cases hother : entry.1 = other
        · simp [setEntry, hother, hne]
        · have hrest : key ∈ rest.map Prod.fst := (List.mem_cons.1 hold).resolve_left fun heq => hkey heq.symm
          simp [setEntry, hkey, hother, ih hrest]

theorem filter_setEntry {keep : κ × α → Bool} (hkey : ∀ v, keep (key, v) = false) (entries : List (κ × α)) :
    (setEntry key value entries).filter keep = entries.filter keep := by
  induction entries with
  | nil => simp [setEntry, hkey]
  | cons entry rest ih =>
      rw [setEntry]
      split_ifs with heq
      · have hentry : keep entry = false := by
          obtain ⟨k, v⟩ := entry
          cases heq
          exact hkey v
        rw [List.filter_cons, List.filter_cons, hkey, hentry]
        rfl
      · rw [List.filter_cons, List.filter_cons, ih]

theorem insert_insert (m : IndexMap κ α) (key : κ) (value older : α) : (m.insert key older).insert key value = m.insert key value :=
  ext_entries (setEntry_setEntry key value older m.entries)

theorem insert_own (h : m.get? key = some value) : m.insert key value = m :=
  ext_entries (setEntry_own h)

theorem insert_comm {key other : κ} (hne : other ≠ key) (hold : key ∈ m.keys) (value second : α) :
    (m.insert other second).insert key value = (m.insert key value).insert other second :=
  ext_entries (setEntry_comm hne value second hold)

def total (f : κ → α → Nat) (m : IndexMap κ α) : Nat := (m.entries.map fun entry => f entry.1 entry.2).sum

omit [DecidableEq κ] in
@[simp] theorem total_empty (f : κ → α → Nat) : (empty : IndexMap κ α).total f = 0 := rfl

omit [DecidableEq κ] in
theorem total_one (m : IndexMap κ α) : (m.total fun _ _ => 1) = m.size := by
  rw [total, List.map_const', List.sum_replicate_nat, Nat.mul_one, size]

theorem sum_setEntry (f : κ → α → Nat) (key : κ) (value : α) (entries : List (κ × α)) :
    ((setEntry key value entries).map fun entry => f entry.1 entry.2).sum + (lookupEntry key entries).elim 0 (f key)
      = (entries.map fun entry => f entry.1 entry.2).sum + f key value := by
  induction entries with
  | nil => simp [setEntry, lookupEntry]
  | cons entry rest ih =>
      by_cases hkey : entry.1 = key
      · subst hkey
        rw [setEntry, lookupEntry, if_pos rfl, if_pos rfl, List.map_cons, List.map_cons, List.sum_cons, List.sum_cons,
          Option.elim_some]
        show f entry.1 value + _ + _ = _
        omega
      · simp only [setEntry, lookupEntry, if_neg hkey, List.map_cons, List.sum_cons]
        omega

theorem total_insert (f : κ → α → Nat) (m : IndexMap κ α) (key : κ) (value : α) :
    (m.insert key value).total f + (m.get? key).elim 0 (f key) = m.total f + f key value :=
  sum_setEntry f key value m.entries

theorem elim_le_total (f : κ → α → Nat) (m : IndexMap κ α) (key : κ) : (m.get? key).elim 0 (f key) ≤ m.total f := by
  cases hget : m.get? key with
  | none => exact Nat.zero_le _
  | some value => exact List.single_le_sum (fun _ _ => Nat.zero_le _) _ (List.mem_map.2 ⟨_, get?_eq_some_iff.1 hget, rfl⟩)

def count (cond : κ → α → Bool) (m : IndexMap κ α) : Nat := m.entries.countP fun entry => cond entry.1 entry.2

omit [DecidableEq κ] in
theorem count_eq_total (cond : κ → α → Bool) (m : IndexMap κ α) :
    m.count cond = m.total fun key value => (cond key value).toNat := by
  rw [count, total]
  induction m.entries with
  | nil => rfl
  | cons entry rest ih =>
      rw [List.countP_cons, List.map_cons, List.sum_cons, ih, Nat.add_comm]
      cases cond entry.1 entry.2 <;> rfl

theorem count_insert_same {cond : κ → α → Bool} {old value : α} (hold : m.get? key = some old)
    (h : cond key value = cond key old) : (m.insert key value).count cond = m.count cond := by
  have htotal := total_insert (fun key value => (cond key value).toNat) m key value
  rw [hold, Option.elim_some, h] at htotal
  rw [count_eq_total, count_eq_total]
  omega

theorem count_insert_new (hnew : m.get? key = none) (cond : κ → α → Bool) (value : α) :
    (m.insert key value).count cond = m.count cond + (cond key value).toNat := by
  have htotal := total_insert (fun key value => (cond key value).toNat) m key value
  rw [hnew, Option.elim_none] at htotal
  rw [count_eq_total, count_eq_total]
  exact htotal

theorem count_congr {cond : κ → α → Bool} {m n : IndexMap κ α}
    (h : ∀ key value, cond key value = true → (m.get? key = some value ↔ n.get? key = some value)) :
    m.count cond = n.count cond := by
  rw [count, count, List.countP_eq_length_filter, List.countP_eq_length_filter]
  refine List.Perm.length_eq ((List.perm_ext_iff_of_nodup (m.nodup.of_map.filter _) (n.nodup.of_map.filter _)).2 fun entry => ?_)
  rw [List.mem_filter, List.mem_filter, ← get?_eq_some_iff, ← get?_eq_some_iff]
  exact and_congr_left fun hcond => h entry.1 entry.2 hcond

theorem count_eq_count {cond other : κ → α → Bool}
    (himp : ∀ key value, cond key value = true → other key value = true) (h : m.count cond = m.count other)
    (hget : m.get? key = some value) (hother : other key value = true) : cond key value = true := by
  by_contra hcond
  have hle : m.count cond < m.count other := by
    rw [count, count, List.countP_eq_length_filter, List.countP_eq_length_filter]
    have hsub : (m.entries.filter fun entry => cond entry.1 entry.2).Sublist (m.entries.filter fun entry => other entry.1 entry.2) :=
      List.monotone_filter_right _ fun entry hentry => himp entry.1 entry.2 hentry
    refine lt_of_le_of_ne hsub.length_le fun heq => ?_
    have hmem : (key, value) ∈ m.entries.filter fun entry => cond entry.1 entry.2 := by
      rw [hsub.eq_of_length heq, List.mem_filter]
      exact ⟨get?_eq_some_iff.1 hget, hother⟩
    exact hcond (List.mem_filter.1 hmem).2
  omega

end IndexMap
