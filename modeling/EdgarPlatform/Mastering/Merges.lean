import EdgarPlatform.Mastering.Files
import EdgarPlatform.Matching.Landing

/-!
# What a file's merges come to

A file's merges move masters one at a time: the masters a merge names are first followed to where the merges before it have moved them, so each merge joins two masters that have not moved. All of them together are one substitution: what a master held, and the records bound to it, are at the master its moves lead to, and a stored master that has moved is stored as an alias of the next.
-/

namespace EdgarPlatform.Mastering

open Records (Json Object readText)

variable {env : Env} {kind : String} {fileNo : Nat}

variable {db : Tables}

theorem mem_oldest {entities : List String} {entity : String} :
    entity ∈ oldest db entities ↔ entity ∈ entities ∧ entity ∈ db.masters.keys := by
  simp only [oldest, IndexMap.keys, List.mem_map, Sorting.mem_sortByKey, List.mem_filter, decide_eq_true_eq]
  constructor
  · rintro ⟨entry, ⟨hentry, hmem⟩, rfl⟩
    exact ⟨hmem, entry, hentry, rfl⟩
  · rintro ⟨hmem, entry, hentry, rfl⟩
    exact ⟨entry, ⟨hentry, hmem⟩, rfl⟩

def keptOf (db : Tables) (left right : String) : String := (oldest db [left, right]).head?.getD (min left right)

def goneOf (db : Tables) (left right : String) : String := if keptOf db left right = left then right else left

theorem keptOf_cases (db : Tables) (left right : String) : keptOf db left right = left ∨ keptOf db left right = right := by
  rw [keptOf]
  cases hhead : (oldest db [left, right]).head? with
  | none => exact min_choice left right
  | some entity => simpa using (mem_oldest.1 (List.mem_of_mem_head? hhead)).1

theorem sides_cases (db : Tables) {left right : String} (hne : left ≠ right) :
    keptOf db left right = left ∧ goneOf db left right = right ∨ keptOf db left right = right ∧ goneOf db left right = left := by
  rw [goneOf]
  obtain hkeep | hkeep := keptOf_cases db left right
  · exact .inl ⟨hkeep, if_pos hkeep⟩
  · exact .inr ⟨hkeep, if_neg (by rw [hkeep]; exact hne.symm)⟩

theorem goneOf_ne (db : Tables) {left right : String} (hne : left ≠ right) : goneOf db left right ≠ keptOf db left right := by
  obtain ⟨hkeep, hgone⟩ | ⟨hkeep, hgone⟩ := sides_cases db hne
  · rw [hkeep, hgone]
    exact hne.symm
  · rw [hkeep, hgone]
    exact hne

theorem goneOf_mem (db : Tables) (left right : String) : goneOf db left right ∈ [left, right] := by
  rw [goneOf]
  split_ifs <;> simp

def awayRow (now : Int) (fileNo : Nat) (kind keep gone : String) (row : MasterRow) : MasterRow :=
  writtenRow now fileNo (some row) (mergedAway kind keep gone)

theorem mergePair_db (decision : Object) (id left right : String) (s : Merging) :
    (mergePair env kind fileNo decision id left right s).db =
      addDecision
        (if goneOf s.db left right ∈ oldest s.db [left, right] then
          writeMasters env.now fileNo (repoint s.db (keptOf s.db left right) (goneOf s.db left right))
            [(goneOf s.db left right, mergedAway kind (keptOf s.db left right) (goneOf s.db left right))]
        else repoint s.db (keptOf s.db left right) (goneOf s.db left right))
        id ⟨"merge", some (keptOf s.db left right), some (goneOf s.db left right), decision⟩ := rfl

theorem mergePair_masters (decision : Object) (id left right : String) (s : Merging) (entity : String) :
    (mergePair env kind fileNo decision id left right s).db.masters.get? entity =
      if entity = goneOf s.db left right then
        (s.db.masters.get? entity).map (awayRow env.now fileNo kind (keptOf s.db left right) entity)
      else s.db.masters.get? entity := by
  have hmem : goneOf s.db left right ∈ oldest s.db [left, right] ↔ goneOf s.db left right ∈ s.db.masters.keys := by
    rw [mem_oldest]
    exact and_iff_right (goneOf_mem s.db left right)
  rw [mergePair_db]
  by_cases hstored : goneOf s.db left right ∈ oldest s.db [left, right]
  · obtain ⟨row, hrow⟩ := IndexMap.mem_keys_iff.1 (hmem.1 hstored)
    rw [if_pos hstored]
    show (writeMaster env.now fileNo s.db.masters _).get? entity = _
    rw [writeMaster, IndexMap.get?_insert]
    by_cases heq : entity = goneOf s.db left right
    · rw [if_pos heq, if_pos heq, heq, hrow]
      rfl
    · rw [if_neg heq, if_neg heq]
  · rw [if_neg hstored]
    show s.db.masters.get? entity = _
    split_ifs with heq
    · have hnone := IndexMap.get?_eq_none_iff.2 (mt hmem.2 hstored)
      rw [heq, hnone]
      rfl
    · rfl

theorem mergePair_records (decision : Object) (id left right : String) (s : Merging) :
    (mergePair env kind fileNo decision id left right s).db.records =
      (repoint s.db (keptOf s.db left right) (goneOf s.db left right)).records := by
  rw [mergePair_db]
  by_cases hstored : goneOf s.db left right ∈ oldest s.db [left, right]
  · rw [if_pos hstored]
    rfl
  · rw [if_neg hstored]
    rfl

theorem mergePair_identifiers (decision : Object) (id left right : String) (s : Merging) :
    (mergePair env kind fileNo decision id left right s).db.identifiers =
      (repoint s.db (keptOf s.db left right) (goneOf s.db left right)).identifiers := by
  rw [mergePair_db]
  by_cases hstored : goneOf s.db left right ∈ oldest s.db [left, right]
  · rw [if_pos hstored]
    rfl
  · rw [if_neg hstored]
    rfl

theorem mergePair_moved (decision : Object) (id left right : String) (s : Merging) :
    (mergePair env kind fileNo decision id left right s).moved =
      s.moved.insert (goneOf s.db left right) (keptOf s.db left right) := rfl

theorem mergePair_survivors (decision : Object) (id left right : String) (s : Merging) {entity : String} :
    entity ∈ (mergePair env kind fileNo decision id left right s).survivors ↔
      entity ∈ s.survivors ∧ entity ≠ goneOf s.db left right ∨ entity = keptOf s.db left right := by
  show entity ∈ addRow (s.survivors.filter (· ≠ goneOf s.db left right)) (keptOf s.db left right) ↔ _
  rw [mem_addRow, List.mem_filter, decide_eq_true_eq]

theorem mem_repoint_identifiers {keep gone : String} {held : Held} :
    held ∈ (repoint db keep gone).identifiers ↔
      ∃ other, (held.1, held.2.1, other) ∈ db.identifiers ∧ (if other = gone then keep else other) = held.2.2 := by
  obtain ⟨idNamespace, value, entity⟩ := held
  simp only [repoint, mem_addRows, List.mem_filter, List.mem_map, decide_eq_true_eq]
  constructor
  · rintro (⟨hheld, hne⟩ | ⟨⟨_, _, other⟩, ⟨hheld, hgone⟩, heq⟩)
    · exact ⟨entity, hheld, if_neg hne⟩
    · cases heq
      exact ⟨other, hheld, if_pos hgone⟩
  · rintro ⟨other, hheld, heq⟩
    by_cases hgone : other = gone
    · rw [if_pos hgone] at heq
      exact .inr ⟨(idNamespace, value, other), ⟨hheld, hgone⟩, by rw [heq]⟩
    · rw [if_neg hgone] at heq
      exact .inl ⟨heq ▸ hheld, heq ▸ hgone⟩

/-- Where a record or a value is after a file's merges: at the master its own has moved to. -/
def RecordRow.moved (moved : IndexMap String String) (row : RecordRow) : RecordRow :=
  { row with entity := row.entity.map (Matching.resolve moved) }

/-- What a file's merges have made of the tables. -/
structure Merging.Of (env : Env) (kind : String) (fileNo : Nat) (db : Tables) (s : Merging) : Prop where
  ends : Forest.Ends s.moved.get?
  records : s.db.records = db.records.mapValues (RecordRow.moved s.moved)
  identifiers : ∀ held, held ∈ s.db.identifiers ↔
    ∃ other, (held.1, held.2.1, other) ∈ db.identifiers ∧ Matching.resolve s.moved other = held.2.2
  masters : ∀ entity, s.db.masters.get? entity = (s.moved.get? entity).elim (db.masters.get? entity) fun keep =>
    (db.masters.get? entity).map (awayRow env.now fileNo kind keep entity)
  survivors : ∀ entity, entity ∈ s.survivors ↔ s.moved.get? entity = none ∧ ∃ gone, s.moved.get? gone = some entity

theorem resolve_empty (entity : String) : Matching.resolve .empty entity = entity := rfl

theorem Merging.Of.start (env : Env) (kind : String) (fileNo : Nat) (db : Tables) :
    Merging.Of env kind fileNo db ⟨db, .empty, []⟩ where
  ends := fun x => ⟨x, .stop rfl⟩
  records := by
    apply IndexMap.ext_entries
    have hsame : ∀ row : RecordRow, row.moved .empty = row := fun row => by
      show { row with entity := row.entity.map (Matching.resolve .empty) } = row
      rw [show Matching.resolve .empty = id from funext resolve_empty, Option.map_id]
      rfl
    show db.records.entries = db.records.entries.map fun entry => (entry.1, entry.2.moved .empty)
    simp only [hsame, Prod.mk.eta, List.map_id']
  identifiers := fun held => by simp only [resolve_empty, exists_eq_right, Prod.mk.eta]
  masters := fun _ => rfl
  survivors := fun entity => by simp

theorem resolve_insert {moved : IndexMap String String} (hends : Forest.Ends moved.get?) {keep gone : String}
    (hkeep : moved.get? keep = none) (hgone : moved.get? gone = none) (hne : gone ≠ keep) (x : String) :
    Forest.Climbs (moved.insert gone keep).get? x (if Matching.resolve moved x = gone then keep else Matching.resolve moved x) := by
  have hlink : (moved.insert gone keep).get? = Forest.link moved.get? gone keep := by
    funext y
    rw [IndexMap.get?_insert, Forest.link, Function.update_apply]
  rw [hlink]
  exact (Matching.climbs_resolve hends x).link hgone hkeep hne

theorem RecordRow.moved_again {moved moved' : IndexMap String String} {keep gone : String}
    (h : ∀ x, Matching.resolve moved' x = if Matching.resolve moved x = gone then keep else Matching.resolve moved x)
    (row : RecordRow) :
    (if (row.moved moved).entity = some gone then { row.moved moved with entity := some keep } else row.moved moved) =
      row.moved moved' := by
  obtain ⟨subject, entity, first, source, lei, body⟩ := row
  cases entity with
  | none => rfl
  | some entity =>
      simp only [RecordRow.moved, Option.map_some, h, Option.some_inj]
      split_ifs <;> rfl

theorem Merging.Of.mergePair {s : Merging} (h : Merging.Of env kind fileNo db s) (decision : Object) (id : String)
    {left right : String} (hleft : s.moved.get? left = none) (hright : s.moved.get? right = none) (hne : left ≠ right) :
    Merging.Of env kind fileNo db (Mastering.mergePair env kind fileNo decision id left right s) := by
  have hkeep : s.moved.get? (keptOf s.db left right) = none := by
    obtain heq | heq := keptOf_cases s.db left right <;> rwa [heq]
  have hgone : s.moved.get? (goneOf s.db left right) = none := by
    obtain ⟨_, heq⟩ | ⟨_, heq⟩ := sides_cases s.db hne <;> rwa [heq]
  have hapart := goneOf_ne s.db hne
  have hclimbs := resolve_insert h.ends hkeep hgone hapart
  have hresolve : ∀ x, Matching.resolve (s.moved.insert (goneOf s.db left right) (keptOf s.db left right)) x =
      if Matching.resolve s.moved x = goneOf s.db left right then keptOf s.db left right else Matching.resolve s.moved x :=
    fun x => Matching.resolve_of_climbs (hclimbs x)
  refine ⟨fun x => ⟨_, hclimbs x⟩, ?_, fun held => ?_, fun entity => ?_, fun entity => ?_⟩
  · rw [mergePair_records, mergePair_moved]
    apply IndexMap.ext_entries
    show s.db.records.entries.map _ = db.records.entries.map _
    rw [h.records]
    show (db.records.entries.map _).map _ = _
    rw [List.map_map]
    exact List.map_congr_left fun entry _ => Prod.ext rfl (RecordRow.moved_again hresolve entry.2)
  · rw [mergePair_identifiers, mergePair_moved, mem_repoint_identifiers]
    simp only [h.identifiers, hresolve]
    constructor
    · rintro ⟨_, ⟨other, hother, rfl⟩, heq⟩
      exact ⟨other, hother, heq⟩
    · rintro ⟨other, hother, heq⟩
      exact ⟨_, ⟨other, hother, rfl⟩, heq⟩
  · rw [mergePair_masters, mergePair_moved, IndexMap.get?_insert]
    split_ifs with heq
    · rw [h.masters, heq, hgone]
      rfl
    · exact h.masters entity
  · rw [mergePair_survivors, mergePair_moved, h.survivors, IndexMap.get?_insert]
    constructor
    · rintro (⟨⟨hroot, gone, hmoved⟩, hnot⟩ | rfl)
      · refine ⟨by rwa [if_neg hnot], gone, ?_⟩
        rw [IndexMap.get?_insert_of_ne]
        · exact hmoved
        · rintro rfl
          rw [hgone] at hmoved
          cases hmoved
      · exact ⟨by rwa [if_neg hapart.symm], _, IndexMap.get?_insert_self ..⟩
    · rintro ⟨hroot, gone, hmoved⟩
      split_ifs at hroot with hnot
      rw [IndexMap.get?_insert] at hmoved
      split_ifs at hmoved with heq
      · exact .inr (Option.some_inj.1 hmoved).symm
      · exact .inl ⟨⟨hroot, gone, hmoved⟩, hnot⟩

theorem consolidate_eq_ok {s s' : Merging} {decision : Object} (h : consolidate env kind fileNo s decision = .ok s') :
    s' = s ∨ ∃ id left right, Matching.MergesInto decision left right ∧
      Matching.resolve s.moved left ≠ Matching.resolve s.moved right ∧
      s' = mergePair env kind fileNo decision id (Matching.resolve s.moved left) (Matching.resolve s.moved right) s := by
  unfold consolidate at h
  obtain ⟨operation, hoperation, h⟩ := Except.bind_eq_ok.1 h
  split_ifs at h with hmerge
  · cases h
    exact .inl rfl
  · rw [not_not] at hmerge
    subst hmerge
    obtain ⟨left, hleft, h⟩ := Except.bind_eq_ok.1 h
    obtain ⟨right, hright, h⟩ := Except.bind_eq_ok.1 h
    obtain ⟨id, _, h⟩ := Except.bind_eq_ok.1 h
    cases h
    by_cases heq : Matching.resolve s.moved left = Matching.resolve s.moved right
    · exact .inl (if_pos heq)
    · exact .inr ⟨id, left, right, ⟨hoperation, hleft, hright⟩, heq, if_neg heq⟩

theorem Merging.Of.consolidate {s s' : Merging} {decision : Object} (h : Merging.Of env kind fileNo db s)
    (hstep : Mastering.consolidate env kind fileNo s decision = .ok s') : Merging.Of env kind fileNo db s' := by
  obtain rfl | ⟨id, left, right, _, hne, rfl⟩ := consolidate_eq_ok hstep
  · exact h
  · exact h.mergePair decision id (Matching.resolve_root h.ends left) (Matching.resolve_root h.ends right) hne

theorem merging_of {decisions : List Object} {s : Merging}
    (h : decisions.foldlM (Mastering.consolidate env kind fileNo) ⟨db, .empty, []⟩ = .ok s) : Merging.Of env kind fileNo db s :=
  Runs.run_invariant (fun _ mid => Merging.Of env kind fileNo db mid) h (.start env kind fileNo db)
    fun _ _ _ _ _ _ hmid hstep => hmid.consolidate hstep

end EdgarPlatform.Mastering
