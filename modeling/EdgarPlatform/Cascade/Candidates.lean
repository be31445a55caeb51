import EdgarPlatform.Cascade.Places

/-!
# Candidates of the cascade

The reading of a whole source comes in chunks, each with the rows of some of its records in four tables. An entity that holds a wanted name is a candidate: the rows of one record add their names to it, and a row of a later record begins it anew. A record without a wanted name has no row that counts, so the candidate an earlier record gave stands.
-/

namespace EdgarPlatform.Cascade

/-- An address as the quality rule standardizes it. -/
structure Address where
  street : Option String
  street2 : Option String
  city : Option String
  postcode : Option String
  country : Option String

def linesOf (text : Option String) : List String := ((text.getD "").splitOn "\n").filter (· ≠ "")

def placeOf (std : Option Address) : Place :=
  let address := std.getD ⟨none, none, none, none, none⟩
  let lines := linesOf address.street ++ linesOf address.street2
  { street := lines.dedup
    city := address.city.getD ""
    postcode := address.postcode
    country := address.country
    key := lines.head?.map fun line => (line, String.ofList ((address.postcode.getD "").toList.take 5), address.country.getD "") }

/-- What the cascade reads of a record it supports. -/
structure View where
  lei : String
  legal : String
  place : Option Address
  jurisdiction : Option String
  eligible : Bool
  lastUpdate : String

/-- A row of one of the three tables of names. -/
structure Row where
  lei : String
  key : String
  updated : Option String
  sourceIndex : Nat
  cascade : Option View

/-- The tables of a chunk. -/
structure Tables where
  legal : List Row
  other : List Row
  transliterated : List Row
  addresses : List AddressKey

def Tables.rows (tables : Tables) : List Row := tables.legal ++ tables.other ++ tables.transliterated

structure Folded where
  /-- Each name's legal holders with their last updates. -/
  legal : IndexMap String (IndexMap String String)
  /-- Each other name's holders. -/
  other : IndexMap String (List String)
  entities : IndexMap String Entity
  /-- The index of the record each entity was read of. -/
  position : IndexMap String Nat
  addressCounts : IndexMap AddressKey Nat

variable (wanted : List String)

def addLegal (s : Folded) (row : Row) : Folded :=
  { s with legal := s.legal.insert row.key (((s.legal.get? row.key).getD .empty).insert row.lei (row.updated.getD "")) }

def addOther (s : Folded) (row : Row) : Folded :=
  { s with other := s.other.insert row.key (((s.other.get? row.key).getD []).insert row.lei) }

def Row.keys (row : Row) (seen : View) : List String :=
  ([seen.legal] ∪ if wanted.contains row.key then [row.key] else []).filter (· ≠ "")

/-- A row of a later record begins an entity anew, one of the same record adds its names. -/
def addEntity (s : Folded) (row : Row) : Folded :=
  match row.cascade with
  | none => s
  | some seen =>
      let keys := row.keys wanted seen
      if keys.any wanted.contains then
        if (s.position.get? seen.lei).all fun index => index < row.sourceIndex then
          { s with
            entities := s.entities.insert seen.lei
              ⟨seen.lei, keys, placeOf seen.place, seen.jurisdiction, seen.eligible, seen.lastUpdate, seen.legal⟩
            position := s.position.insert seen.lei row.sourceIndex }
        else if s.position.get? seen.lei = some row.sourceIndex then
          match s.entities.get? seen.lei with
          | none => s
          | some entity => { s with entities := s.entities.insert seen.lei { entity with keys := entity.keys ∪ keys } }
        else s
      else s

def countAddress (s : Folded) (key : AddressKey) : Folded :=
  { s with addressCounts := s.addressCounts.insert key ((s.addressCounts.get? key).getD 0 + 1) }

def foldTables (s : Folded) (tables : Tables) : Folded :=
  let s := tables.legal.foldl addLegal s
  let s := (tables.other ++ tables.transliterated).foldl addOther s
  let s := tables.rows.foldl (addEntity wanted) s
  tables.addresses.foldl countAddress s

/-- What a reading of a whole source gives, its candidates in the order they are first seen. -/
def foldReading (counts : IndexMap AddressKey Nat) (readings : List Tables) :
    IndexMap String (IndexMap String String) × IndexMap String (List String) × List Entity × IndexMap AddressKey Nat :=
  let s := readings.foldl (foldTables wanted) ⟨.empty, .empty, .empty, .empty, counts⟩
  (s.legal, s.other, s.entities.values, s.addressCounts)

/-- A record as the reading projects it: its place in the source, its entity, and the names of its rows in each table. -/
structure SourceRecord where
  index : Nat
  lei : String
  updated : Option String
  seen : Option View
  legal : List String
  other : List String
  transliterated : List String
  addresses : List AddressKey
  seen_lei : ∀ view, seen = some view → view.lei = lei

namespace SourceRecord

def row (record : SourceRecord) (key : String) : Row := ⟨record.lei, key, record.updated, record.index, record.seen⟩

def names (record : SourceRecord) : List String := record.legal ++ record.other ++ record.transliterated

def rows (record : SourceRecord) : List Row := record.names.map record.row

/-- The candidate a record alone gives, if it has a row and a wanted name: its legal name and the wanted names of its rows. -/
def candidate (record : SourceRecord) : Option Entity :=
  match record.seen with
  | none => none
  | some seen =>
      let keys := (seen.legal :: record.names.filter wanted.contains).filter (· ≠ "")
      if record.names ≠ [] ∧ keys.any wanted.contains then
        some ⟨record.lei, keys, placeOf seen.place, seen.jurisdiction, seen.eligible, seen.lastUpdate, seen.legal⟩
      else none

end SourceRecord

def tablesOf (records : List SourceRecord) : Tables where
  legal := records.flatMap fun record => record.legal.map record.row
  other := records.flatMap fun record => record.other.map record.row
  transliterated := records.flatMap fun record => record.transliterated.map record.row
  addresses := records.flatMap SourceRecord.addresses

/-- Two entities that differ at most in how their names are listed. -/
structure Entity.Same (e c : Entity) : Prop where
  lei : e.lei = c.lei
  keys : ∀ key, key ∈ e.keys ↔ key ∈ c.keys
  place : e.place = c.place
  jurisdiction : e.jurisdiction = c.jurisdiction
  eligible : e.eligible = c.eligible
  lastUpdate : e.lastUpdate = c.lastUpdate
  legal : e.legal = c.legal

def lastOf (records : List SourceRecord) (lei : String) : Option SourceRecord := (records.filter fun record => record.lei = lei).getLast?

/-- The candidate for an entity is that of its last record, and there is none where that has none. -/
def Carries (records : List SourceRecord) (candidates : List Entity) (lei : String) : Prop :=
  match (lastOf records lei).bind (SourceRecord.candidate wanted) with
  | none => ∀ e ∈ candidates, e.lei ≠ lei
  | some c => ∃ e ∈ candidates, e.Same c ∧ ∀ e' ∈ candidates, e'.lei = lei → e' = e

variable {wanted}

def Row.given (wanted : List String) (row : Row) : Option (View × List String) :=
  row.cascade.bind fun seen => if (row.keys wanted seen).any wanted.contains then some (seen, row.keys wanted seen) else none

def entityOf (seen : View) (keys : List String) : Entity :=
  ⟨seen.lei, keys, placeOf seen.place, seen.jurisdiction, seen.eligible, seen.lastUpdate, seen.legal⟩

def Row.Gives (wanted : List String) (row : Row) (lei : String) (keys : List String) : Prop := ∃ seen, row.given wanted = some (seen, keys) ∧ seen.lei = lei

/-- An entity is made of the rows of one index, the greatest of its rows. -/
structure MadeOf (wanted : List String) (rows : List Row) (lei : String) (index : Nat) (e : Entity) : Prop where
  first : ∃ row ∈ rows, ∃ seen keys, row.given wanted = some (seen, keys) ∧ seen.lei = lei ∧ row.sourceIndex = index ∧ e = entityOf seen e.keys
  keys : ∀ key, key ∈ e.keys ↔ ∃ row ∈ rows, ∃ keys, row.Gives wanted lei keys ∧ row.sourceIndex = index ∧ key ∈ keys
  bound : ∀ row ∈ rows, ∀ keys, row.Gives wanted lei keys → row.sourceIndex ≤ index

/-- Every entity is made of the rows folded so far. -/
structure Gathered (wanted : List String) (rows : List Row) (s : Folded) : Prop where
  absent : ∀ lei, s.position.get? lei = none → s.entities.get? lei = none ∧ ∀ row ∈ rows, ∀ keys, ¬row.Gives wanted lei keys
  present : ∀ lei index, s.position.get? lei = some index → ∃ e, s.entities.get? lei = some e ∧ MadeOf wanted rows lei index e

variable {rows : List Row} {row : Row} {lei : String} {index : Nat} {e : Entity} {s : Folded}

theorem MadeOf.append (h : MadeOf wanted rows lei index e) (hrow : ∀ keys, row.Gives wanted lei keys → row.sourceIndex < index) :
    MadeOf wanted (rows ++ [row]) lei index e := by
  obtain ⟨first, hfirst, hgiven⟩ := h.first
  refine ⟨⟨first, List.mem_append_left _ hfirst, hgiven⟩, fun key => ?_, fun other hother keys hgives => ?_⟩
  · rw [h.keys]
    constructor
    · rintro ⟨other, hother, hkeys⟩
      exact ⟨other, List.mem_append_left _ hother, hkeys⟩
    · rintro ⟨other, hother, keys, hgives, hindex, hkey⟩
      obtain hother | hother := List.mem_append.1 hother
      · exact ⟨other, hother, keys, hgives, hindex, hkey⟩
      · rw [List.mem_singleton.1 hother] at hgives hindex
        exact absurd (hrow keys hgives) (by omega)
  · obtain hother | hother := List.mem_append.1 hother
    · exact h.bound other hother keys hgives
    · rw [List.mem_singleton.1 hother] at hgives ⊢
      exact (hrow keys hgives).le

theorem Gathered.skip (h : Gathered wanted rows s)
    (hrow : ∀ lei keys, row.Gives wanted lei keys → ∃ index, s.position.get? lei = some index ∧ row.sourceIndex < index) :
    Gathered wanted (rows ++ [row]) s := by
  refine ⟨fun lei hnone => ⟨(h.absent lei hnone).1, fun other hother keys hgives => ?_⟩, fun lei index hsome => ?_⟩
  · obtain hother | hother := List.mem_append.1 hother
    · exact (h.absent lei hnone).2 other hother keys hgives
    · rw [List.mem_singleton.1 hother] at hgives
      obtain ⟨index, hsome, _⟩ := hrow lei keys hgives
      exact absurd (hnone.symm.trans hsome) nofun
  · obtain ⟨e, he, hmade⟩ := h.present lei index hsome
    refine ⟨e, he, hmade.append fun keys hgives => ?_⟩
    obtain ⟨other, hother, hless⟩ := hrow lei keys hgives
    rw [Option.some.inj (hsome.symm.trans hother)]
    exact hless

variable {seen : View}

theorem Row.Gives.inj {keys keys' : List String} (hgiven : row.given wanted = some (seen, keys)) (h : row.Gives wanted lei keys') :
    lei = seen.lei ∧ keys' = keys := by
  obtain ⟨seen', hgiven', rfl⟩ := h
  obtain ⟨rfl, rfl⟩ := Prod.mk.inj (Option.some.inj (hgiven.symm.trans hgiven'))
  exact ⟨rfl, rfl⟩

variable {keys : List String}

theorem addEntity_of_given (hgiven : row.given wanted = some (seen, keys)) : addEntity wanted s row =
    if (s.position.get? seen.lei).all fun index => index < row.sourceIndex then
      { s with entities := s.entities.insert seen.lei (entityOf seen keys), position := s.position.insert seen.lei row.sourceIndex }
    else if s.position.get? seen.lei = some row.sourceIndex then
      match s.entities.get? seen.lei with
      | none => s
      | some entity => { s with entities := s.entities.insert seen.lei { entity with keys := entity.keys ∪ keys } }
    else s := by
  obtain ⟨found, hcascade, hkeys⟩ := Option.bind_eq_some_iff.1 hgiven
  rw [Option.ite_none_right_eq_some] at hkeys
  obtain ⟨rfl, rfl⟩ := Prod.mk.inj (Option.some.inj hkeys.2)
  rw [addEntity, hcascade]
  simp only [hkeys.1, if_true]
  rfl

theorem addEntity_of_none (hgiven : row.given wanted = none) : addEntity wanted s row = s := by
  rw [addEntity]
  cases hcascade : row.cascade with
  | none => rfl
  | some seen =>
      rw [Row.given, hcascade] at hgiven
      have hkeys : ¬(row.keys wanted seen).any wanted.contains = true := fun hany => by
        rw [Option.bind_some, if_pos hany] at hgiven
        exact absurd hgiven nofun
      simp only [hkeys, Bool.false_eq_true, if_false]

theorem MadeOf.begun (hgiven : row.given wanted = some (seen, keys))
    (hearlier : ∀ other ∈ rows, ∀ keys, other.Gives wanted seen.lei keys → other.sourceIndex < row.sourceIndex) :
    MadeOf wanted (rows ++ [row]) seen.lei row.sourceIndex (entityOf seen keys) := by
  have hmem : row ∈ rows ++ [row] := List.mem_append_right _ (List.mem_singleton_self row)
  refine ⟨⟨row, hmem, seen, keys, hgiven, rfl, rfl, rfl⟩, fun key => ?_, fun other hother keys' hgives => ?_⟩
  · constructor
    · exact fun hkey => ⟨row, hmem, keys, ⟨seen, hgiven, rfl⟩, rfl, hkey⟩
    · rintro ⟨other, hother, keys', hgives, hindex, hkey⟩
      obtain hother | hother := List.mem_append.1 hother
      · exact absurd (hearlier other hother keys' hgives) (by omega)
      · rw [List.mem_singleton.1 hother] at hgives
        rw [(Row.Gives.inj hgiven hgives).2] at hkey
        exact hkey
  · obtain hother | hother := List.mem_append.1 hother
    · exact (hearlier other hother keys' hgives).le
    · rw [List.mem_singleton.1 hother]

theorem MadeOf.added (h : MadeOf wanted rows seen.lei row.sourceIndex e)
    (hgiven : row.given wanted = some (seen, keys)) :
    MadeOf wanted (rows ++ [row]) seen.lei row.sourceIndex { e with keys := e.keys ∪ keys } := by
  have hmem : row ∈ rows ++ [row] := List.mem_append_right _ (List.mem_singleton_self row)
  obtain ⟨first, hfirst, seen', keys', hgiven', hlei, hindex, he⟩ := h.first
  refine ⟨⟨first, List.mem_append_left _ hfirst, seen', keys', hgiven', hlei, hindex, ?_⟩, fun key => ?_, fun other hother keys' hgives => ?_⟩
  · show { e with keys := e.keys ∪ keys } = entityOf seen' (e.keys ∪ keys)
    rw [he]
    rfl
  · show key ∈ e.keys ∪ keys ↔ _
    rw [List.mem_union_iff, h.keys]
    constructor
    · rintro (⟨other, hother, hkeys⟩ | hkey)
      · exact ⟨other, List.mem_append_left _ hother, hkeys⟩
      · exact ⟨row, hmem, keys, ⟨seen, hgiven, rfl⟩, rfl, hkey⟩
    · rintro ⟨other, hother, keys', hgives, hindex, hkey⟩
      obtain hother | hother := List.mem_append.1 hother
      · exact .inl ⟨other, hother, keys', hgives, hindex, hkey⟩
      · rw [List.mem_singleton.1 hother] at hgives
        rw [(Row.Gives.inj hgiven hgives).2] at hkey
        exact .inr hkey
  · obtain hother | hother := List.mem_append.1 hother
    · exact h.bound other hother keys' hgives
    · rw [List.mem_singleton.1 hother]

theorem Gathered.put {s' : Folded} (h : Gathered wanted rows s) (hgiven : row.given wanted = some (seen, keys))
    (hentities : s'.entities = s.entities.insert seen.lei e)
    (hposition : ∀ lei, s'.position.get? lei = if lei = seen.lei then some index else s.position.get? lei)
    (hmade : MadeOf wanted (rows ++ [row]) seen.lei index e) : Gathered wanted (rows ++ [row]) s' := by
  have hother : ∀ lei, lei ≠ seen.lei → ∀ keys, ¬row.Gives wanted lei keys := fun lei hne keys hgives => hne (Row.Gives.inj hgiven hgives).1
  refine ⟨fun lei hnone => ?_, fun lei index' hsome => ?_⟩
  · rw [hposition] at hnone
    by_cases hlei : lei = seen.lei
    · rw [if_pos hlei] at hnone
      exact absurd hnone nofun
    · rw [if_neg hlei] at hnone
      rw [hentities, IndexMap.get?_insert_of_ne _ _ hlei]
      refine ⟨(h.absent lei hnone).1, fun other hmem keys hgives => ?_⟩
      obtain hmem | hmem := List.mem_append.1 hmem
      · exact (h.absent lei hnone).2 other hmem keys hgives
      · rw [List.mem_singleton.1 hmem] at hgives
        exact hother lei hlei keys hgives
  · rw [hposition] at hsome
    by_cases hlei : lei = seen.lei
    · rw [if_pos hlei] at hsome
      rw [hlei, ← Option.some.inj hsome, hentities, IndexMap.get?_insert, if_pos rfl]
      exact ⟨e, rfl, hmade⟩
    · rw [if_neg hlei] at hsome
      rw [hentities, IndexMap.get?_insert_of_ne _ _ hlei]
      obtain ⟨e, he, hmade⟩ := h.present lei index' hsome
      exact ⟨e, he, hmade.append fun keys hgives => absurd hgives (hother lei hlei keys)⟩

theorem Gathered.addEntity (h : Gathered wanted rows s) (row : Row) : Gathered wanted (rows ++ [row]) (addEntity wanted s row) := by
  cases hgiven : row.given wanted with
  | none =>
      rw [addEntity_of_none hgiven]
      refine h.skip fun lei keys hgives => ?_
      obtain ⟨_, hsome, _⟩ := hgives
      exact absurd (hgiven.symm.trans hsome) nofun
  | some found =>
      obtain ⟨seen, keys⟩ := found
      rw [addEntity_of_given hgiven]
      split_ifs with hlater hsame
      · refine h.put hgiven rfl (fun lei => IndexMap.get?_insert ..) (.begun hgiven fun other hother keys' hgives => ?_)
        cases hposition : s.position.get? seen.lei with
        | none => exact absurd hgives ((h.absent seen.lei hposition).2 other hother keys')
        | some index =>
            obtain ⟨_, _, hmade⟩ := h.present seen.lei index hposition
            rw [hposition, Option.all_some, decide_eq_true_eq] at hlater
            exact (hmade.bound other hother keys' hgives).trans_lt hlater
      · obtain ⟨e, he, hmade⟩ := h.present seen.lei row.sourceIndex hsame
        simp only [he]
        refine h.put hgiven rfl (fun lei => ?_) (hmade.added hgiven)
        by_cases hlei : lei = seen.lei
        · rw [if_pos hlei, hlei, hsame]
        · rw [if_neg hlei]
      · refine h.skip fun lei keys' hgives => ?_
        rw [(Row.Gives.inj hgiven hgives).1]
        cases hposition : s.position.get? seen.lei with
        | none =>
            rw [hposition] at hlater
            exact absurd rfl hlater
        | some index =>
            rw [hposition, Option.all_some, decide_eq_true_eq] at hlater
            rw [hposition, Option.some.injEq] at hsame
            exact ⟨index, rfl, by omega⟩

theorem Gathered.congr {s' : Folded} (h : Gathered wanted rows s) (hentities : s'.entities = s.entities) (hposition : s'.position = s.position) :
    Gathered wanted rows s' := by
  refine ⟨fun lei => ?_, fun lei index => ?_⟩
  · rw [hentities, hposition]
    exact h.absent lei
  · rw [hentities, hposition]
    exact h.present lei index

theorem Gathered.foldl_other {α : Type} {f : Folded → α → Folded} (hf : ∀ s a, (f s a).entities = s.entities ∧ (f s a).position = s.position)
    (items : List α) (h : Gathered wanted rows s) : Gathered wanted rows (items.foldl f s) := by
  induction items generalizing s with
  | nil => exact h
  | cons item rest ih => exact ih (h.congr (hf s item).1 (hf s item).2)

theorem Gathered.foldl_rows (more : List Row) (h : Gathered wanted rows s) : Gathered wanted (rows ++ more) (more.foldl (Cascade.addEntity wanted) s) := by
  induction more generalizing rows s with
  | nil => exact (List.append_nil rows).symm ▸ h
  | cons row rest ih =>
      have hrest := ih (h.addEntity row)
      rwa [List.append_assoc] at hrest

theorem Gathered.foldTables (h : Gathered wanted rows s) (tables : Tables) : Gathered wanted (rows ++ tables.rows) (foldTables wanted s tables) := by
  have hlegal := h.foldl_other (f := addLegal) (fun _ _ => ⟨rfl, rfl⟩) tables.legal
  have hother := hlegal.foldl_other (f := addOther) (fun _ _ => ⟨rfl, rfl⟩) (tables.other ++ tables.transliterated)
  exact (hother.foldl_rows tables.rows).foldl_other (f := countAddress) (fun _ _ => ⟨rfl, rfl⟩) tables.addresses

theorem Gathered.foldl_tables (readings : List Tables) (h : Gathered wanted rows s) :
    Gathered wanted (rows ++ readings.flatMap Tables.rows) (readings.foldl (Cascade.foldTables wanted) s) := by
  induction readings generalizing rows s with
  | nil => exact (List.append_nil rows).symm ▸ h
  | cons tables rest ih =>
      have hrest := ih (h.foldTables tables)
      rwa [List.append_assoc] at hrest

variable {record : SourceRecord} {records : List SourceRecord}

theorem mem_keys {key : String} : key ∈ row.keys wanted seen ↔ (key = seen.legal ∨ row.key ∈ wanted ∧ key = row.key) ∧ key ≠ "" := by
  rw [Row.keys, List.mem_filter, List.mem_union_iff, List.mem_singleton, decide_eq_true_eq]
  split_ifs with hkey
  · rw [List.contains_iff_mem] at hkey
    simp [hkey]
  · rw [List.contains_iff_mem] at hkey
    simp [hkey]

theorem mem_rows {chunks : List (List SourceRecord)} : row ∈ (chunks.map tablesOf).flatMap Tables.rows ↔ ∃ record ∈ chunks.flatten, row ∈ record.rows := by
  have hchunk : ∀ chunk, row ∈ (tablesOf chunk).rows ↔ ∃ record ∈ chunk, row ∈ record.rows := by
    intro chunk
    simp only [Tables.rows, tablesOf, SourceRecord.rows, SourceRecord.names, List.map_append, List.mem_append, List.mem_flatMap]
    rw [← exists_or, ← exists_or]
    simp only [← and_or_left]
  rw [List.mem_flatMap]
  constructor
  · rintro ⟨tables, htables, hrow⟩
    obtain ⟨chunk, hmem, rfl⟩ := List.mem_map.1 htables
    obtain ⟨record, hrecord, hrow⟩ := (hchunk chunk).1 hrow
    exact ⟨record, List.mem_flatten.2 ⟨chunk, hmem, hrecord⟩, hrow⟩
  · rintro ⟨record, hrecord, hrow⟩
    obtain ⟨chunk, hmem, hrecord⟩ := List.mem_flatten.1 hrecord
    exact ⟨tablesOf chunk, List.mem_map_of_mem hmem, (hchunk chunk).2 ⟨record, hrecord, hrow⟩⟩

theorem gives_of_wanted {name key : String} (hseen : record.seen = some seen) (hkey : key ∈ (record.row name).keys wanted seen)
    (hwanted : key ∈ wanted) : (record.row name).Gives wanted record.lei ((record.row name).keys wanted seen) := by
  refine ⟨seen, ?_, record.seen_lei seen hseen⟩
  have hcascade : (record.row name).cascade = some seen := hseen
  rw [Row.given, hcascade, Option.bind_some, if_pos (List.any_eq_true.2 ⟨key, hkey, List.contains_iff_mem.2 hwanted⟩)]

theorem mem_candidate_keys {key : String} :
    key ∈ (seen.legal :: record.names.filter wanted.contains).filter (· ≠ "") ↔
      (key = seen.legal ∨ key ∈ record.names ∧ key ∈ wanted) ∧ key ≠ "" := by
  rw [List.mem_filter, List.mem_cons, List.mem_filter, List.contains_iff_mem, decide_eq_true_eq]

theorem candidate_of_gives (hrow : row ∈ record.rows) (h : row.Gives wanted lei keys) : row.sourceIndex = record.index ∧ record.lei = lei ∧
    ∃ c, record.candidate wanted = some c ∧ ∀ key ∈ keys, key ∈ c.keys := by
  obtain ⟨name, hname, rfl⟩ := List.mem_map.1 hrow
  obtain ⟨seen, hgiven, rfl⟩ := h
  obtain ⟨found, hseen, hkeys⟩ := Option.bind_eq_some_iff.1 hgiven
  rw [Option.ite_none_right_eq_some] at hkeys
  obtain ⟨hany, hkeys⟩ := hkeys
  obtain ⟨rfl, rfl⟩ := Prod.mk.inj (Option.some.inj hkeys)
  have hseen : record.seen = some found := hseen
  have hsub : ∀ key ∈ (record.row name).keys wanted found, key ∈ (found.legal :: record.names.filter wanted.contains).filter (· ≠ "") := by
    intro key hkey
    obtain ⟨hkey, hblank⟩ := mem_keys.1 hkey
    refine mem_candidate_keys.2 ⟨hkey.imp_right ?_, hblank⟩
    rintro ⟨hwanted, rfl⟩
    exact ⟨hname, hwanted⟩
  obtain ⟨key, hkey, hwanted⟩ := List.any_eq_true.1 hany
  have hcounts : record.names ≠ [] ∧ ((found.legal :: record.names.filter wanted.contains).filter (· ≠ "")).any wanted.contains = true :=
    ⟨List.ne_nil_of_mem hname, List.any_eq_true.2 ⟨key, hsub key hkey, hwanted⟩⟩
  refine ⟨rfl, (record.seen_lei found hseen).symm, ?_⟩
  rw [SourceRecord.candidate, hseen]
  exact ⟨_, if_pos hcounts, hsub⟩

theorem gives_of_candidate {c : Entity} (h : record.candidate wanted = some c) :
    (∃ seen, record.seen = some seen ∧ c = entityOf seen c.keys) ∧ (∃ row ∈ record.rows, ∃ keys, row.Gives wanted record.lei keys) ∧
      ∀ key ∈ c.keys, ∃ row ∈ record.rows, ∃ keys, row.Gives wanted record.lei keys ∧ key ∈ keys := by
  rw [SourceRecord.candidate] at h
  cases hseen : record.seen with
  | none =>
      rw [hseen] at h
      exact absurd h nofun
  | some seen =>
      rw [hseen] at h
      rw [Option.ite_none_right_eq_some] at h
      obtain ⟨⟨hnames, hany⟩, rfl⟩ := h.imp_right Option.some.inj
      have hkeys : ∀ key, key ∈ (seen.legal :: record.names.filter wanted.contains).filter (· ≠ "") → key ∈ wanted →
          ∃ row ∈ record.rows, ∃ keys, row.Gives wanted record.lei keys ∧ key ∈ keys ∧ (seen.legal ≠ "" → seen.legal ∈ keys) := by
        intro key hkey hwanted
        obtain ⟨hkey, hblank⟩ := mem_candidate_keys.1 hkey
        obtain ⟨name, hname, hmem⟩ : ∃ name ∈ record.names, key ∈ (record.row name).keys wanted seen := by
          obtain rfl | ⟨hname, _⟩ := hkey
          · obtain ⟨name, rest, hcons⟩ := List.exists_cons_of_ne_nil hnames
            exact ⟨name, hcons ▸ List.mem_cons_self, mem_keys.2 ⟨.inl rfl, hblank⟩⟩
          · exact ⟨key, hname, mem_keys.2 ⟨.inr ⟨hwanted, rfl⟩, hblank⟩⟩
        exact ⟨record.row name, List.mem_map_of_mem hname, _, gives_of_wanted hseen hmem hwanted, hmem, fun hlegal => mem_keys.2 ⟨.inl rfl, hlegal⟩⟩
      obtain ⟨found, hfound, hwanted⟩ := List.any_eq_true.1 hany
      obtain ⟨row, hrow, keys, hgives, _, hlegal⟩ := hkeys found hfound (List.contains_iff_mem.1 hwanted)
      refine ⟨⟨seen, rfl, ?_⟩, ⟨row, hrow, keys, hgives⟩, fun key hkey => ?_⟩
      · rw [entityOf, record.seen_lei seen hseen]
      · obtain ⟨hcase, hblank⟩ := mem_candidate_keys.1 hkey
        obtain rfl | ⟨_, hwanted⟩ := hcase
        · exact ⟨row, hrow, keys, hgives, hlegal hblank⟩
        · obtain ⟨row, hrow, keys, hgives, hmem, _⟩ := hkeys key hkey hwanted
          exact ⟨row, hrow, keys, hgives, hmem⟩

theorem lastOf_spec {last : SourceRecord} (hsorted : (records.map SourceRecord.index).Pairwise (· < ·)) (h : lastOf records lei = some last) :
    last ∈ records ∧ last.lei = lei ∧ ∀ record ∈ records, record.lei = lei → record.index ≤ last.index := by
  have hmem := List.mem_filter.1 (List.mem_of_getLast? h)
  refine ⟨hmem.1, of_decide_eq_true hmem.2, fun record hrecord hlei => ?_⟩
  obtain ⟨front, hfront⟩ := List.getLast?_eq_some_iff.1 h
  have hfilter : record ∈ front ++ [last] := hfront ▸ List.mem_filter.2 ⟨hrecord, decide_eq_true hlei⟩
  have hpairwise : (front ++ [last]).Pairwise fun a b => a.index < b.index := by
    rw [← hfront]
    exact (List.pairwise_map.1 hsorted).filter _
  obtain hfilter | hfilter := List.mem_append.1 hfilter
  · exact ((List.pairwise_append.1 hpairwise).2.2 record hfilter last (List.mem_singleton_self last)).le
  · rw [List.mem_singleton.1 hfilter]

theorem lastOf_isSome (hrecord : record ∈ records) (hlei : record.lei = lei) : ∃ last, lastOf records lei = some last := by
  have hmem : record ∈ records.filter fun record => record.lei = lei := List.mem_filter.2 ⟨hrecord, decide_eq_true hlei⟩
  exact ⟨_, List.getLast?_eq_some_getLast (List.ne_nil_of_mem hmem)⟩

theorem index_inj {a b : SourceRecord} (hsorted : (records.map SourceRecord.index).Pairwise (· < ·)) (ha : a ∈ records) (hb : b ∈ records)
    (h : a.index = b.index) : a = b :=
  List.inj_on_of_nodup_map (hsorted.imp ne_of_lt) ha hb h

theorem Gathered.mem_values (h : Gathered wanted rows s) : (e ∈ s.entities.values ∧ e.lei = lei) ↔ s.entities.get? lei = some e := by
  have hlei : ∀ key, s.entities.get? key = some e → e.lei = key := by
    intro key hget
    cases hposition : s.position.get? key with
    | none => exact absurd ((h.absent key hposition).1.symm.trans hget) nofun
    | some index =>
        obtain ⟨e', hget', hmade⟩ := h.present key index hposition
        obtain ⟨_, _, seen, _, _, hseen, _, he⟩ := hmade.first
        rw [← Option.some.inj (hget'.symm.trans hget), he]
        exact hseen
  constructor
  · rintro ⟨hvalue, rfl⟩
    obtain ⟨key, hget⟩ := IndexMap.mem_values_iff.1 hvalue
    rw [hlei key hget]
    exact hget
  · exact fun hget => ⟨IndexMap.mem_values_of_get? hget, hlei lei hget⟩

theorem MadeOf.same {last : SourceRecord} {c : Entity} (h : MadeOf wanted rows lei index e) (hrows : ∀ row, row ∈ rows ↔ ∃ record ∈ records, row ∈ record.rows)
    (hsorted : (records.map SourceRecord.index).Pairwise (· < ·)) (hlast : lastOf records lei = some last) (hc : last.candidate wanted = some c) : e.Same c := by
  obtain ⟨hmem, hlei, hbound⟩ := lastOf_spec hsorted hlast
  obtain ⟨⟨seen, hseen, hcEntity⟩, ⟨row, hrow, keys, hgives⟩, hnames⟩ := gives_of_candidate hc
  rw [hlei] at hgives hnames
  have hindex : ∀ record ∈ records, ∀ row ∈ record.rows, ∀ keys, row.Gives wanted lei keys → row.sourceIndex = index → record = last := by
    intro record hrecord row' hrow' keys' hgives' hindex
    obtain ⟨hplace, hsame, _⟩ := candidate_of_gives hrow' hgives'
    have hle := hbound record hrecord hsame
    have hge := h.bound row ((hrows row).2 ⟨last, hmem, hrow⟩) keys hgives
    rw [(candidate_of_gives hrow hgives).1] at hge
    exact index_inj hsorted hrecord hmem (by omega)
  obtain ⟨first, hfirst, seen', keys', hgiven', hlei', hindex', he⟩ := h.first
  obtain ⟨record, hrecord, hfirstRow⟩ := (hrows first).1 hfirst
  have hsame := hindex record hrecord first hfirstRow keys' ⟨seen', hgiven', hlei'⟩ hindex'
  have hseen' : seen' = seen := by
    obtain ⟨name, _, rfl⟩ := List.mem_map.1 hfirstRow
    obtain ⟨found, hfound, hkeys⟩ := Option.bind_eq_some_iff.1 hgiven'
    rw [Option.ite_none_right_eq_some] at hkeys
    obtain ⟨rfl, _⟩ := Prod.mk.inj (Option.some.inj hkeys.2)
    have hfound : record.seen = some found := hfound
    rw [hsame, hseen] at hfound
    exact (Option.some.inj hfound).symm
  have hkeys : ∀ key, key ∈ e.keys ↔ key ∈ c.keys := by
    intro key
    rw [h.keys]
    constructor
    · rintro ⟨row', hrow', keys', hgives', hindex', hkey⟩
      obtain ⟨record', hrecord', hrow'⟩ := (hrows row').1 hrow'
      obtain ⟨_, _, c', hc', hsub⟩ := candidate_of_gives hrow' hgives'
      rw [hindex record' hrecord' row' hrow' keys' hgives' hindex', hc] at hc'
      rw [Option.some.inj hc']
      exact hsub key hkey
    · intro hkey
      obtain ⟨row', hrow', keys', hgives', hmem'⟩ := hnames key hkey
      refine ⟨row', (hrows row').2 ⟨last, hmem, hrow'⟩, keys', hgives', ?_, hmem'⟩
      rw [(candidate_of_gives hrow' hgives').1, ← hsame, ← (candidate_of_gives hfirstRow ⟨seen', hgiven', hlei'⟩).1]
      exact hindex'
  rw [hseen'] at he
  rw [he, hcEntity]
  exact ⟨rfl, by rw [← hcEntity, ← he]; exact hkeys, rfl, rfl, rfl, rfl, rfl⟩

/-- The candidates of a source read record by record are those of the entities' last records, just where an entity whose last record gives none has none from any record. -/
theorem foldReading_carries_iff (counts : IndexMap AddressKey Nat) (chunks : List (List SourceRecord))
    (hsorted : (chunks.flatten.map SourceRecord.index).Pairwise (· < ·)) (lei : String) :
    Carries wanted chunks.flatten (foldReading wanted counts (chunks.map tablesOf)).2.2.1 lei ↔
      ∀ last, lastOf chunks.flatten lei = some last → last.candidate wanted = none →
        ∀ record ∈ chunks.flatten, record.lei = lei → record.candidate wanted = none := by
  have hstart : Gathered wanted [] ⟨.empty, .empty, .empty, .empty, counts⟩ :=
    ⟨fun _ _ => ⟨rfl, fun _ hmem => absurd hmem List.not_mem_nil⟩, fun _ _ hsome => absurd hsome nofun⟩
  have hgathered := hstart.foldl_tables (chunks.map tablesOf)
  rw [List.nil_append] at hgathered
  rw [Carries, foldReading]
  generalize (chunks.map tablesOf).foldl (foldTables wanted) ⟨.empty, .empty, .empty, .empty, counts⟩ = s at hgathered ⊢
  cases hposition : s.position.get? lei with
  | none =>
      obtain ⟨hnone, hgives⟩ := hgathered.absent lei hposition
      have hall : ∀ record ∈ chunks.flatten, record.lei = lei → record.candidate wanted = none := by
        intro record hrecord hlei
        by_contra hsome
        obtain ⟨c, hc⟩ := Option.ne_none_iff_exists'.1 hsome
        obtain ⟨_, ⟨row, hrow, keys, hrowGives⟩, _⟩ := gives_of_candidate hc
        exact hgives row (mem_rows.2 ⟨record, hrecord, hrow⟩) keys (hlei ▸ hrowGives)
      refine iff_of_true ?_ fun _ _ _ => hall
      have hlast : (lastOf chunks.flatten lei).bind (SourceRecord.candidate wanted) = none := by
        rw [Option.bind_eq_none_iff]
        intro last hlast
        obtain ⟨hmem, hlei, _⟩ := lastOf_spec hsorted hlast
        exact hall last hmem hlei
      rw [hlast]
      exact fun e he hlei => absurd (hnone.symm.trans (hgathered.mem_values.1 ⟨he, hlei⟩)) nofun
  | some index =>
      obtain ⟨e, he, hmade⟩ := hgathered.present lei index hposition
      obtain ⟨hvalue, hlei⟩ := hgathered.mem_values.2 he
      obtain ⟨first, hfirst, seen, keys, hgiven, hseen, _, _⟩ := hmade.first
      obtain ⟨record, hrecord, hrow⟩ := mem_rows.1 hfirst
      obtain ⟨_, hrecordLei, c, hc, _⟩ := candidate_of_gives hrow ⟨seen, hgiven, hseen⟩
      obtain ⟨last, hlast⟩ := lastOf_isSome hrecord hrecordLei
      rw [hlast, Option.bind_some]
      cases hcandidate : last.candidate wanted with
      | none =>
          refine iff_of_false (fun h => h e hvalue hlei) fun h => ?_
          exact absurd ((h last rfl hcandidate record hrecord hrecordLei).symm.trans hc) nofun
      | some c =>
          refine iff_of_true ⟨e, hvalue, hmade.same (fun _ => mem_rows) hsorted hlast hcandidate, fun e' he' hlei' => ?_⟩ fun other hother hnone => ?_
          · exact Option.some.inj ((hgathered.mem_values.1 ⟨he', hlei'⟩).symm.trans he)
          · rw [← Option.some.inj hother, hcandidate] at hnone
            exact absurd hnone nofun

def viewOf (legal : String) : View := ⟨"L", legal, none, none, true, ""⟩

/-- A record of one company under a name, with a row if the name is wanted. -/
def namedRecord (index : Nat) (legal : String) (rows : List String) : SourceRecord :=
  ⟨index, "L", none, some (viewOf legal), rows, [], [], [], fun _ h => Option.some.inj h ▸ rfl⟩

def renamedToWanted : List (List SourceRecord) := [[namedRecord 0 "ACME INC" ["ACME INC"]], [namedRecord 1 "ACME CORP" ["ACME CORP"]]]

def renamedToUnwanted : List (List SourceRecord) := [[namedRecord 0 "ACME INC" ["ACME INC"]], [namedRecord 1 "OTHER" []]]

/-- A company renamed to another wanted name is read by its new name. -/
theorem renamedToWanted_carries :
    Carries ["ACME CORP", "ACME INC"] renamedToWanted.flatten (foldReading ["ACME CORP", "ACME INC"] .empty (renamedToWanted.map tablesOf)).2.2.1 "L" := by
  refine (foldReading_carries_iff .empty renamedToWanted (by decide) "L").2 fun last hlast hnone => ?_
  have hrecord : lastOf renamedToWanted.flatten "L" = some (namedRecord 1 "ACME CORP" ["ACME CORP"]) := rfl
  rw [← Option.some.inj (hrecord.symm.trans hlast)] at hnone
  exact absurd hnone nofun

/-- A company renamed to a name no one wants stays a candidate under its old one. -/
theorem renamedToUnwanted_stays : (renamedToUnwanted.flatten.map SourceRecord.index).Pairwise (· < ·) ∧
    (foldReading ["ACME INC"] .empty (renamedToUnwanted.map tablesOf)).2.2.1 = [entityOf (viewOf "ACME INC") ["ACME INC"]] ∧
    ¬Carries ["ACME INC"] renamedToUnwanted.flatten (foldReading ["ACME INC"] .empty (renamedToUnwanted.map tablesOf)).2.2.1 "L" := by
  have hfold : (foldReading ["ACME INC"] .empty (renamedToUnwanted.map tablesOf)).2.2.1 = [entityOf (viewOf "ACME INC") ["ACME INC"]] := rfl
  refine ⟨by decide, hfold, fun h => ?_⟩
  have hlast : (lastOf renamedToUnwanted.flatten "L").bind (SourceRecord.candidate ["ACME INC"]) = none := rfl
  rw [Carries, hlast, hfold] at h
  exact h _ (List.mem_singleton_self _) rfl

end EdgarPlatform.Cascade
