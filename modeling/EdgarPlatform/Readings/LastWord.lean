import EdgarPlatform.Readings.Arrival
import Mathlib.Data.List.DropRight

/-!
# The last word on a field

A current record's field is what the last reading says of it that says anything: the value it sets, or nothing where it takes the field back. A profile's field is said by the readings of the profile's current run, those after which every reading carries the profile. A reading that names a profile twice says of it what its last naming says, and what an earlier naming says besides is dropped.
-/

namespace EdgarPlatform.Readings

open Records (Json Object)
open IndexMap (lookupEntry)

/-- What is said of a field: nothing, that it is taken back, or what it is set to. -/
abbrev Word := Option (Option Body)

def lastWord (words : List Word) : Word := words.reverse.findSome? id

@[simp] theorem lastWord_nil : lastWord [] = none := rfl

theorem lastWord_append (front back : List Word) : lastWord (front ++ back) = (lastWord back).or (lastWord front) := by
  rw [lastWord, List.reverse_append, List.findSome?_append]
  rfl

theorem lastWord_concat (front : List Word) (word : Word) : lastWord (front ++ [word]) = word.or (lastWord front) := by
  rw [lastWord_append]
  cases word <;> rfl

theorem lastWord_eq_none {words : List Word} : lastWord words = none ↔ ∀ word ∈ words, word = none := by
  rw [lastWord, List.findSome?_eq_none_iff]
  simp

theorem lastWord_split {front back : List Word} {word : Word} (h : ∀ later ∈ back, later = none) :
    lastWord (front ++ word :: back) = word.or (lastWord front) := by
  rw [← List.singleton_append, ← List.append_assoc, lastWord_append, lastWord_eq_none.2 h, Option.none_or, lastWord_concat]

theorem exists_of_lastWord {α : Type} {say : α → Word} {items : List α} {said : Option Body}
    (h : lastWord (items.map say) = some said) :
    ∃ front item back, items = front ++ item :: back ∧ say item = some said ∧ ∀ later ∈ back, say later = none := by
  induction items using List.reverseRecOn with
  | nil => cases h
  | append_singleton items item ih =>
      rw [List.map_append, List.map_singleton, lastWord_concat] at h
      cases hitem : say item with
      | some word =>
          rw [hitem, Option.some_or] at h
          exact ⟨items, item, [], rfl, hitem.trans h, fun _ hmem => (nomatch hmem)⟩
      | none =>
          rw [hitem, Option.none_or] at h
          obtain ⟨front, found, back, rfl, hfound, hback⟩ := ih h
          refine ⟨front, found, back ++ [item], by simp, hfound, fun later hlater => ?_⟩
          rcases List.mem_append.1 hlater with hlater | hlater
          · exact hback later hlater
          · rw [List.mem_singleton.1 hlater, hitem]

def settle (fields : SortedMap String Body) (name : String) : Word → SortedMap String Body
  | none => fields
  | some none => fields.erase name
  | some (some item) => fields.insert name item

theorem get?_settle (fields : SortedMap String Body) (name other : String) (word : Word) :
    (settle fields name word).get? other = if other = name then word.elim (fields.get? name) id else fields.get? other := by
  rcases word with _ | _ | item
  · by_cases h : other = name
    · subst h
      rw [if_pos rfl]
      rfl
    · rw [if_neg h]
      rfl
  · rw [settle, SortedMap.get?_erase]
    rfl
  · rw [settle, SortedMap.get?_insert]
    rfl

theorem get?_of_settled {step : SortedMap String Body → String × Json → Except String (SortedMap String Body)}
    {say : Json → Word} (hstep : ∀ fields entry next, step fields entry = .ok next → next = settle fields entry.1 (say entry.2))
    {m : Body} {fields next : SortedMap String Body} (h : m.entries.foldlM step fields = .ok next) (name : String) :
    next.get? name = ((m.get? name).bind say).elim (fields.get? name) id := by
  have hrun : ∀ entries : List (String × Json), (entries.map Prod.fst).Nodup → ∀ fields,
      entries.foldlM step fields = .ok next →
        next.get? name = ((lookupEntry name entries).bind say).elim (fields.get? name) id := by
    intro entries
    induction entries with
    | nil =>
        intro _ fields h
        cases h
        rfl
    | cons entry rest ih =>
        intro hnodup fields h
        rw [List.map_cons, List.nodup_cons] at hnodup
        obtain ⟨mid, hmid, h⟩ := Runs.foldlM_cons_eq_ok.1 h
        rw [ih hnodup.2 mid h, hstep fields entry mid hmid, get?_settle, lookupEntry]
        by_cases hname : entry.1 = name
        · subst hname
          rw [if_pos rfl, if_pos rfl, Option.bind_some]
          cases hrest : lookupEntry entry.1 rest with
          | none => rfl
          | some value =>
              exact absurd (List.mem_map.2 ⟨_, IndexMap.lookupEntry_eq_some hrest, rfl⟩) hnodup.1
        · rw [if_neg hname, if_neg (Ne.symm hname)]
  exact hrun m.entries m.keys_nodup fields h

def saying (metadata item : Body) : Word :=
  match item.get? "op" with
  | some (.str operation) =>
      if operation = "unknown" then none
      else if operation = "retract" then some none
      else some (some (recordField item metadata))
  | _ => none

def Reading.wordOf (reading : Reading) (name : String) : Word :=
  (reading.fields.get? name).bind fun value => (body? value).bind (saying reading.metadata)

/-- The changes a reading makes to a profile, one for each naming of it. -/
def Reading.namings (env : Env) (reading : Reading) (key : String) : List Body :=
  reading.profiles.filterMap fun raw => (body? raw).bind fun profile =>
    if identifyProfile env profile = .ok key then (profileFieldsOf profile).toOption else none

def Reading.carries (env : Env) (key : String) (reading : Reading) : Bool := !(reading.namings env key).isEmpty

/-- What the changes of a naming say of a field of the profile. -/
def namingSays (metadata changes : Body) (name : String) : Word :=
  (changes.get? name).bind fun value => saying metadata (profileChange value)

/-- What a reading says of a field of a profile, in all its namings of the profile. -/
def Reading.saysOf (env : Env) (key name : String) (reading : Reading) : Word :=
  lastWord ((reading.namings env key).map fun changes => namingSays reading.metadata changes name)

/-- What a reading says of a field of a profile in its last naming of the profile. -/
def Reading.saysLast (env : Env) (key name : String) (reading : Reading) : Word :=
  (reading.namings env key).getLast?.bind fun changes => namingSays reading.metadata changes name

/-- The readings from which on every reading carries the profile. -/
def currentRun (env : Env) (key : String) (versions : List Reading) : List Reading :=
  versions.rtakeWhile (Reading.carries env key)

theorem Reading.saysOf_of_saysLast {env : Env} {key name : String} {reading : Reading} {said : Option Body}
    (h : reading.saysLast env key name = some said) : reading.saysOf env key name = some said := by
  obtain ⟨changes, hlast, h⟩ := Option.bind_eq_some_iff.1 h
  obtain ⟨front, hnamings⟩ := List.getLast?_eq_some_iff.1 hlast
  rw [saysOf, hnamings, List.map_append, List.map_singleton, lastWord_concat, h, Option.some_or]

theorem Reading.saysLast_of_saysOf_eq_none {env : Env} {key name : String} {reading : Reading}
    (h : reading.saysOf env key name = none) : reading.saysLast env key name = none := by
  cases hlast : reading.saysLast env key name with
  | none => rfl
  | some said => cases h.symm.trans (saysOf_of_saysLast hlast)

variable {env : Env}

theorem foldField_settles {metadata : Body} {fields next : SortedMap String Body} {entry : String × Json}
    (h : foldField metadata fields entry = .ok next) :
    next = settle fields entry.1 ((body? entry.2).bind (saying metadata)) := by
  obtain ⟨body, hbody, h⟩ := Except.bind_eq_ok.1 h
  have hread : body? entry.2 = some body := by
    rw [readObject] at hbody
    cases hread : body? entry.2 with
    | none =>
        rw [hread] at hbody
        cases hbody
    | some read =>
        rw [hread] at hbody
        rw [← Except.ok.inj hbody]
  rw [hread, Option.bind_some, saying]
  cases hop : body.get? "op" with
  | none =>
      rw [hop] at h
      cases h
  | some raw =>
      rw [hop] at h
      obtain ⟨operation, hoperation, h⟩ := Except.bind_eq_ok.1 h
      cases raw <;> cases hoperation
      dsimp only
      rw [← Except.ok.inj h]
      by_cases hunknown : operation = "unknown"
      · rw [if_pos hunknown, if_pos hunknown]
        rfl
      · rw [if_neg hunknown, if_neg hunknown]
        by_cases hretract : operation = "retract"
        · rw [if_pos hretract, if_pos hretract]
          rfl
        · rw [if_neg hretract, if_neg hretract]
          rfl

theorem applyProfileChange_settles {metadata item : Body} {name operation : String} {values next : SortedMap String Body}
    (hop : item.get? "op" = some (.str operation)) (h : applyProfileChange metadata item name operation values = .ok next) :
    next = settle values name (saying metadata item) := by
  rw [saying, hop]
  dsimp only
  rw [applyProfileChange] at h
  by_cases hunknown : operation = "unknown"
  · rw [if_pos hunknown] at h
    rw [if_pos hunknown, ← Except.ok.inj h]
    rfl
  · rw [if_neg hunknown] at h
    rw [if_neg hunknown]
    by_cases hretract : operation = "retract"
    · rw [if_pos hretract] at h
      rw [if_pos hretract, ← Except.ok.inj h]
      rfl
    · rw [if_neg hretract] at h
      rw [if_neg hretract]
      by_cases hset : operation = "value" ∨ operation = "clear"
      · rw [if_pos hset, Except.ite_error_eq_ok] at h
        rw [← Except.ok.inj h.2]
        rfl
      · rw [if_neg hset] at h
        cases h

theorem foldProfileField_settles {metadata : Body} {values next : SortedMap String Body} {entry : String × Json}
    (h : foldProfileField metadata values entry = .ok next) :
    next = settle values entry.1 (saying metadata (profileChange entry.2)) := by
  rw [foldProfileField] at h
  cases hop : (profileChange entry.2).get? "op" with
  | none =>
      rw [hop] at h
      cases h
  | some raw =>
      rw [hop] at h
      obtain ⟨operation, hoperation, h⟩ := Except.bind_eq_ok.1 h
      cases raw <;> cases hoperation
      exact applyProfileChange_settles hop h

def held (profiles : ProfileFields) (key name : String) : Option Body := (profiles.get? key).bind (·.get? name)

/-- What the namings of a profile leave of it, begun from what was held before the reading. -/
def Left (before : ProfileFields) (metadata : Body) (key : String) (namings : List Body) (left : Option (SortedMap String Body)) :
    Prop :=
  namings = [] ∧ left = none ∨
    ∃ changes values, namings.getLast? = some changes ∧ left = some values ∧
      ∀ name, values.get? name = (namingSays metadata changes name).elim (held before key name) id

theorem foldProfiles_left {metadata : Body} {before next : ProfileFields} {reading : Reading}
    (h : reading.profiles.foldlM (foldProfile env metadata before) .empty = .ok next) (key : String) :
    Left before metadata key (reading.namings env key) (next.get? key) := by
  refine Runs.run_invariant (fun front (mid : ProfileFields) => Left before metadata key
    (front.filterMap fun raw => (body? raw).bind fun profile =>
      if identifyProfile env profile = .ok key then (profileFieldsOf profile).toOption else none) (mid.get? key)) h ?_ ?_
  · exact .inl ⟨rfl, rfl⟩
  · intro front raw back mid next _ hmid hnext
    obtain ⟨profile, hprofile, hnext⟩ := Except.bind_eq_ok.1 hnext
    obtain ⟨own, hown, hnext⟩ := Except.bind_eq_ok.1 hnext
    obtain ⟨changes, hchanges, hnext⟩ := Except.bind_eq_ok.1 hnext
    obtain ⟨values, hvalues, hnext⟩ := Except.bind_eq_ok.1 hnext
    have hread : body? raw = some profile := by
      rw [readObject] at hprofile
      cases hread : body? raw with
      | none =>
          rw [hread] at hprofile
          cases hprofile
      | some read =>
          rw [hread] at hprofile
          rw [← Except.ok.inj hprofile]
    rw [List.filterMap_append, ← Except.ok.inj hnext, SortedMap.get?_insert]
    simp only [List.filterMap_cons, List.filterMap_nil, hread, Option.bind_some, hown, Except.ok.injEq]
    by_cases hkey : own = key
    · subst hkey
      rw [if_pos rfl, if_pos rfl, hchanges]
      refine .inr ⟨changes, values, List.getLast?_concat, rfl, fun name => ?_⟩
      have hvalue : values.get? name = ((changes.get? name).bind fun value => saying metadata (profileChange value)).elim
          (((before.get? own).getD .empty).get? name) id :=
        get?_of_settled (fun _ _ _ => foldProfileField_settles) hvalues name
      have hbefore : ((before.get? own).getD .empty).get? name = held before own name := by
        rw [held]
        cases before.get? own <;> rfl
      rw [hvalue, hbefore]
      rfl
    · rw [if_neg hkey, if_neg (Ne.symm hkey), List.append_nil]
      exact hmid

/-- What a fold of readings leaves: each field as last said, and each profile's as last named. -/
structure Leaves (env : Env) (versions : List Reading) (state : Folding) : Prop where
  fields : ∀ name, state.fields.get? name = (lastWord (versions.map (·.wordOf name))).join
  profiles : ∀ key name,
    held state.profileFields key name = (lastWord ((currentRun env key versions).map (·.saysLast env key name))).join

theorem elim_join (word before : Word) : word.elim before.join id = (word.or before).join := by
  cases word <;> rfl

variable {versions : List Reading}

theorem foldReadings_leaves {state : Folding}
    (h : versions.foldlM (foldReading env) {} = .ok state) : Leaves env versions state := by
  refine Runs.run_invariant (fun front (mid : Folding) => Leaves env front mid) h ⟨fun _ => rfl, fun _ _ => rfl⟩ ?_
  intro front reading back mid next _ hmid hnext
  rw [foldReading, Except.ite_error_eq_ok] at hnext
  obtain ⟨fields, hfields, hnext⟩ := Except.bind_eq_ok.1 hnext.2
  obtain ⟨profiles, hprofiles, hnext⟩ := Except.bind_eq_ok.1 hnext
  cases hnext
  refine ⟨fun name => ?_, fun key name => ?_⟩
  · rw [List.map_append, List.map_singleton, lastWord_concat, ← elim_join, ← hmid.fields]
    exact get?_of_settled (fun _ _ _ => foldField_settles) hfields name
  · have hleft := foldProfiles_left hprofiles key
    rw [currentRun, List.rtakeWhile_concat, held]
    obtain ⟨hnamings, hget⟩ | ⟨changes, values, hlast, hget, hvalues⟩ := hleft
    · have hcarries : ¬reading.carries env key = true := by
        rw [Reading.carries, hnamings]
        decide
      rw [if_neg hcarries, hget]
      rfl
    · have hcarries : reading.carries env key = true := by
        rw [Reading.carries, Bool.not_eq_true', List.isEmpty_eq_false_iff]
        exact List.ne_nil_of_mem (List.mem_of_getLast? hlast)
      rw [if_pos hcarries, List.map_append, List.map_singleton, lastWord_concat, ← elim_join, ← currentRun, ← hmid.profiles,
        hget, Option.bind_some, Reading.saysLast, hlast, Option.bind_some]
      exact hvalues name

theorem currentRecord_leaves {record : CurrentRecord}
    (h : currentRecord env versions = .ok record) : ∃ state, Leaves env (Sorting.sortByKey Reading.order versions) state ∧
      record.fields = state.fields ∧ record.profileFields = state.profileFields := by
  obtain ⟨state, hstate, h⟩ := Except.bind_eq_ok.1 h
  refine ⟨state, foldReadings_leaves hstate, ?_⟩
  cases hlast : state.last with
  | none =>
      rw [hlast] at h
      cases h
  | some newest =>
      rw [hlast] at h
      rw [← Except.ok.inj h]
      exact ⟨rfl, rfl⟩

/-- A naming that is not the last of its reading has the reading's last word on a field of a profile. -/
def Reading.Drops (env : Env) (key name : String) (reading : Reading) (said : Option Body) : Prop :=
  reading.saysOf env key name = some said ∧ reading.saysLast env key name = none

/-- Nothing is dropped that is not said again later, or that was not the word already. -/
def NothingDropped (env : Env) (versions : List Reading) : Prop :=
  ∀ key name front reading back said, currentRun env key versions = front ++ reading :: back →
    reading.Drops env key name said → (∀ later ∈ back, later.saysOf env key name = none) →
      said = (lastWord (front.map (·.saysLast env key name))).join

theorem nothingDropped_iff :
    NothingDropped env versions ↔ ∀ key name,
      (lastWord ((currentRun env key versions).map (·.saysLast env key name))).join =
        (lastWord ((currentRun env key versions).map (·.saysOf env key name))).join := by
  have hsilent : ∀ key name (readings : List Reading), (∀ later ∈ readings, later.saysOf env key name = none) →
      ∀ word ∈ readings.map (·.saysLast env key name), word = none := by
    intro key name readings h word hword
    obtain ⟨later, hlater, rfl⟩ := List.mem_map.1 hword
    exact Reading.saysLast_of_saysOf_eq_none (h later hlater)
  have hsilent' : ∀ key name (readings : List Reading), (∀ later ∈ readings, later.saysOf env key name = none) →
      ∀ word ∈ readings.map (·.saysOf env key name), word = none := by
    intro key name readings h word hword
    obtain ⟨later, hlater, rfl⟩ := List.mem_map.1 hword
    exact h later hlater
  constructor
  · intro h key name
    cases hall : lastWord ((currentRun env key versions).map (·.saysOf env key name)) with
    | none =>
        have hnone : ∀ reading ∈ currentRun env key versions, reading.saysOf env key name = none :=
          fun reading hreading => lastWord_eq_none.1 hall _ (List.mem_map.2 ⟨reading, hreading, rfl⟩)
        rw [lastWord_eq_none.2 (hsilent key name _ hnone)]
    | some said =>
        obtain ⟨front, reading, back, hrun, hsaid, hback⟩ := exists_of_lastWord hall
        rw [hrun, List.map_append, List.map_cons, lastWord_split (hsilent key name back hback)]
        cases hlast : reading.saysLast env key name with
        | some word =>
            rw [Option.some_or, ← Reading.saysOf_of_saysLast hlast, hsaid]
        | none =>
            rw [Option.none_or]
            exact (h key name front reading back said hrun ⟨hsaid, hlast⟩ hback).symm
  · intro h key name front reading back said hrun hdrops hback
    have hsame := h key name
    rw [hrun, List.map_append, List.map_append, List.map_cons, List.map_cons, lastWord_split (hsilent key name back hback),
      lastWord_split (hsilent' key name back hback), hdrops.1, hdrops.2, Option.none_or, Option.some_or] at hsame
    exact hsame.symm

/-- The readings that count for a record, in the order of their versions. -/
def versionsOf (env : Env) (readings : List Object) (asOf : String) (retired : List String) (subject : String) :
    List Reading :=
  match readings.mapM readReading, readTime env asOf with
  | .ok read, .ok clock => Sorting.sortByKey Reading.order (countedOf env clock retired read subject)
  | _, _ => []

theorem prepareCurrentRecords_leaves {readings : List Object} {asOf : String} {retired : List String}
    {records : SortedMap String CurrentRecord} (h : prepareCurrentRecords env readings asOf retired = .ok records)
    {subject : String} {record : CurrentRecord} (hget : records.get? subject = some record) :
    ∃ state, Leaves env (versionsOf env readings asOf retired subject) state ∧ record.fields = state.fields ∧
      record.profileFields = state.profileFields := by
  obtain ⟨read, hread, h⟩ := Except.bind_eq_ok.1 h
  obtain ⟨clock, hclock, h⟩ := Except.bind_eq_ok.1 h
  obtain ⟨groups, hgroups, hrecords⟩ := Except.bind_eq_ok.1 h
  obtain ⟨versions, hversions, hrecord⟩ := (SortedMap.get?_mapValuesM hrecords).1 hget
  rw [groups_get? hgroups] at hversions
  obtain ⟨_, hversions⟩ := Option.ite_none_left_eq_some.1 hversions
  cases hversions
  rw [versionsOf, hread, hclock]
  exact currentRecord_leaves hrecord

/-- Each field of a current record is as last said, and so is each of a profile's as long as no naming is dropped. -/
theorem current_record_last_word {readings : List Object} {asOf : String} {retired : List String}
    {records : SortedMap String CurrentRecord} (h : prepareCurrentRecords env readings asOf retired = .ok records)
    {subject : String} {record : CurrentRecord} (hget : records.get? subject = some record) :
    (∀ name, record.fields.get? name =
        (lastWord ((versionsOf env readings asOf retired subject).map (·.wordOf name))).join) ∧
      ((∀ key name, held record.profileFields key name = (lastWord
          ((currentRun env key (versionsOf env readings asOf retired subject)).map (·.saysOf env key name))).join) ↔
        NothingDropped env (versionsOf env readings asOf retired subject)) := by
  obtain ⟨state, hleaves, hfields, hprofiles⟩ := prepareCurrentRecords_leaves h hget
  refine ⟨fun name => hfields ▸ hleaves.fields name, ?_⟩
  rw [nothingDropped_iff, hprofiles]
  refine forall_congr' fun key => forall_congr' fun name => ?_
  rw [hleaves.profiles]

/-- The later of two revisions has the last word on the amount. -/
theorem current_record_last_word_revisions :
    ∃ records record, prepareCurrentRecords plainEnv [amountReading "b" "2" "6", amountReading "a" "1" "5"]
        "2026-01-01T00:00:00+00:00" [] = .ok records ∧ records.get? "s" = some record ∧
      (record.fields.get? "amount").bind (·.get? "value") = some (.num "6") := by
  obtain ⟨records, hrecords, hheld⟩ : ∃ records, prepareCurrentRecords plainEnv
      [amountReading "b" "2" "6", amountReading "a" "1" "5"] "2026-01-01T00:00:00+00:00" [] = .ok records ∧
        records.contains "s" = true := Except.exists_of_any (by decide +kernel)
  obtain ⟨record, hget⟩ := Option.isSome_iff_exists.1 hheld
  refine ⟨records, record, hrecords, hget, ?_⟩
  rw [(current_record_last_word hrecords hget).1 "amount"]
  decide +kernel

def namingOf (name amount : String) : Json :=
  .obj [("role", .str "adviser"), ("authority", .str "a"), ("registration", .str "1"), ("fields", .obj [(name, .num amount)])]

def twiceNamedReading : Object :=
  .ofList [("assertion_id", .str "a"), ("subject", .str "s"), ("source_code", .str "example"), ("record_key", .str "r"),
    ("publication_key", .str "p"), ("revision", .num "1"), ("kind", .str "record"), ("fields", .obj []),
    ("identifiers", .obj []), ("profiles", .arr [namingOf "assets" "5", namingOf "staff" "6"]), ("relationships", .arr [])]

def twiceNamedKey : String := Records.writeJson false (.arr [.str "adviser", .str "a", .str "1", .null, .null])

/-- The newest reading sets a field of a profile it carries, and the record does not hold it. -/
theorem earlier_naming_is_dropped :
    ∃ records record, prepareCurrentRecords plainEnv [twiceNamedReading] "2026-01-01T00:00:00+00:00" [] = .ok records ∧
      records.get? "s" = some record ∧ held record.profileFields twiceNamedKey "assets" = none ∧
      ((lastWord ((currentRun plainEnv twiceNamedKey (versionsOf plainEnv [twiceNamedReading] "2026-01-01T00:00:00+00:00" []
        "s")).map (·.saysOf plainEnv twiceNamedKey "assets"))).join.bind (·.get? "value")) = some (.num "5") := by
  obtain ⟨records, hrecords, hheld⟩ : ∃ records,
      prepareCurrentRecords plainEnv [twiceNamedReading] "2026-01-01T00:00:00+00:00" [] = .ok records ∧
        (records.get? "s").any (fun record => (held record.profileFields twiceNamedKey "assets").isNone) = true :=
    Except.exists_of_any (by decide +kernel)
  obtain ⟨record, hget, hnone⟩ := (Option.any_eq_true _ _).1 hheld
  refine ⟨records, record, hrecords, hget, Option.isNone_iff_eq_none.1 hnone, ?_⟩
  decide +kernel

end EdgarPlatform.Readings
