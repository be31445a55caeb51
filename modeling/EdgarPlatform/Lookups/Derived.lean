import EdgarPlatform.Lookups.Latest
import EdgarPlatform.Records.Contents

/-!
# What is calculated of a record depends on its contents

The groups of a record, and what a call calculates of it, are the same for a record as it was made and as it is read back from where it is stored. What an earlier call calculated is replaced, so a record that is kept comes to what its reading would be given now.
-/

namespace EdgarPlatform.Lookups

open Records (Json Object readText readObject readOptionalValue same_normal)
open Matching (TextForms Contracts readIdentifierValues writeIdentifierValues)
open Readings (Version readRevision mappingVersion)

theorem readTexts_normal (value : Json) : Records.readTexts value.normal = Records.readTexts value := by
  cases value with
  | arr items =>
      rw [Json.normal, Records.normalItems_eq, Records.readTexts, Records.readTexts]
      induction items with
      | nil => rfl
      | cons item rest ih =>
          rw [List.map_cons, List.mapM_cons, List.mapM_cons, ih]
          cases item <;> rfl
  | _ => rfl

theorem readIdentifierValues_of_normal_eq {value value' : Json} (h : value.normal = value'.normal) :
    readIdentifierValues value = readIdentifierValues value' := by
  have hnormal : ∀ value : Json, readIdentifierValues value.normal = readIdentifierValues value := by
    intro value
    have htexts := readTexts_normal value
    cases value with
    | arr items =>
        rw [Json.normal] at htexts ⊢
        simp only [readIdentifierValues, htexts]
    | obj fields => rfl
    | _ => rfl
  rw [← hnormal value, h, hnormal]

theorem recordGroups_same {record other : Object} (h : Object.Same record other) {groups : List String}
    (hgroups : recordGroups record = .ok groups) :
    ∃ groups', recordGroups other = .ok groups' ∧ ∀ group, group ∈ groups ↔ group ∈ groups' := by
  obtain ⟨members, hmembers, hgroups⟩ := Except.bind_eq_ok.1 hgroups
  obtain ⟨identifiers, hidentifiers, hgroups⟩ := Except.bind_eq_ok.1 hgroups
  obtain ⟨byIdentifier, hbyIdentifier, hgroups⟩ := Except.bind_eq_ok.1 hgroups
  obtain ⟨references, hreferences, hgroups⟩ := Except.bind_eq_ok.1 hgroups
  obtain ⟨byReference, hbyReference, hgroups⟩ := Except.bind_eq_ok.1 hgroups
  obtain ⟨names, hnames, hgroups⟩ := Except.bind_eq_ok.1 hgroups
  obtain ⟨byName, hbyName, hgroups⟩ := Except.bind_eq_ok.1 hgroups
  have hmembers' : memberGroups other = .ok members := by
    rw [← hmembers, memberGroups, memberGroups, h.hasValue, h.readText]
  have hgroup : identifierGroup record = identifierGroup other := by
    funext idNamespace value
    rw [identifierGroup, identifierGroup, bindingState, bindingState, h.hasValue, h.readText]
  obtain ⟨identifiers', hidentifiers', hsame⟩ := h.readObject hidentifiers
  obtain ⟨byIdentifier', hbyIdentifier', hmemIdentifier⟩ := hsame.mapM_entries (g := identifierGroups other)
    (fun key value value' hvalue => by
      rw [identifierGroups, identifierGroups, hgroup, readIdentifierValues_of_normal_eq hvalue]) hbyIdentifier
  obtain ⟨references', hreferences', hsame⟩ := h.readObject hreferences
  obtain ⟨byReference', hbyReference', hmemReference⟩ := hsame.mapM_entries (g := crossReferenceGroups)
    (fun key value value' hvalue => by
      rw [crossReferenceGroups, crossReferenceGroups, Records.readString_of_normal_eq hvalue]
      simp only [Records.eq_null_of_normal_eq hvalue]) hbyReference
  obtain ⟨names', hnames', hsame⟩ := h.readObject hnames
  obtain ⟨byName', hbyName', hmemName⟩ := hsame.mapM_entries (g := nameGroups other)
    (fun key value value' hvalue => by
      rw [nameGroups, nameGroups, h.readText, Records.readString_of_normal_eq hvalue]) hbyName
  refine ⟨members ++ byIdentifier'.flatten ++ byReference'.flatten ++ byName'.flatten, ?_, fun group => ?_⟩
  · rw [recordGroups, hmembers', Except.bind_ok, hidentifiers', Except.bind_ok, hbyIdentifier', Except.bind_ok,
      hreferences', Except.bind_ok, hbyReference', Except.bind_ok, hnames', Except.bind_ok, hbyName', Except.bind_ok]
  · rw [← Except.ok.inj hgroups]
    simp only [List.mem_append, hmemIdentifier, hmemReference, hmemName]

variable {entries : List (Key × String)}

theorem recordEntries_get? {subject : String} {record : Object}
    (h : recordEntries subject record = .ok entries) :
    ∃ groups, recordGroups record = .ok groups ∧ ∀ key, (SortedMap.ofList entries).get? key =
      if (ofLex key).1 ∈ groups ∧ (ofLex key).2 = subject then some (recordPointer subject)
      else if key = recordKey subject then some (Records.writeSortedJson (Object.toJson record)) else none := by
  obtain ⟨groups, hgroups, h⟩ := Except.bind_eq_ok.1 h
  refine ⟨groups, hgroups, fun key => ?_⟩
  rw [← Except.ok.inj h, SortedMap.ofList, SortedMap.extend_cons, get?_extendGroups, SortedMap.get?_insert,
    SortedMap.get?_empty]

theorem recordEntries_same {subject : String} {record other : Object} (h : Object.Same record other)
    (hentries : recordEntries subject record = .ok entries) :
    ∃ entries', recordEntries subject other = .ok entries' ∧ SortedMap.ofList entries = SortedMap.ofList entries' := by
  obtain ⟨groups, hgroups, hget⟩ := recordEntries_get? hentries
  obtain ⟨groups', hgroups', hmem⟩ := recordGroups_same h hgroups
  obtain ⟨entries', hentries'⟩ : ∃ entries', recordEntries subject other = .ok entries' := by
    rw [recordEntries, hgroups']
    exact ⟨_, rfl⟩
  obtain ⟨groups'', hgroups'', hget'⟩ := recordEntries_get? hentries'
  cases hgroups'.symm.trans hgroups''
  refine ⟨entries', hentries', SortedMap.ext_get? fun key => ?_⟩
  rw [hget, hget', h.writeSortedJson]
  simp only [hmem]

theorem recordEntries_key {subject : String} {record : Object}
    (h : recordEntries subject record = .ok entries) : ∀ entry ∈ entries, (ofLex entry.1).2 = subject := by
  obtain ⟨groups, _, h⟩ := Except.bind_eq_ok.1 h
  intro entry hentry
  rw [← Except.ok.inj h] at hentry
  rcases List.mem_cons.1 hentry with rfl | hentry
  · rfl
  · obtain ⟨group, _, rfl⟩ := List.mem_map.1 hentry
    rfl

theorem collectEntries_get? {records : RecordMap} {store : Store} (h : collectEntries records = .ok store) {key : Key}
    {subject : String} (hkey : (ofLex key).2 = subject) :
    (records.get? subject = none → store.get? key = none) ∧ ∀ record, records.get? subject = some record →
      ∃ entries, recordEntries subject record = .ok entries ∧ store.get? key = (SortedMap.ofList entries).get? key := by
  have hrun : (subject ∉ records.entries.map Prod.fst → store.get? key = none) ∧
      ∀ record, (subject, record) ∈ records.entries →
        ∃ entries, recordEntries subject record = .ok entries ∧ store.get? key = (SortedMap.ofList entries).get? key := by
    refine Runs.run_invariant (fun front (mid : Store) => (subject ∉ front.map Prod.fst → mid.get? key = none) ∧
      ∀ record, (subject, record) ∈ front →
        ∃ entries, recordEntries subject record = .ok entries ∧ mid.get? key = (SortedMap.ofList entries).get? key) h ?_ ?_
    · exact ⟨fun _ => rfl, fun _ hmem => (nomatch hmem)⟩
    · rintro front ⟨own, record⟩ back mid next hsplit ⟨hnone, hsome⟩ hnext
      obtain ⟨entries, hentries, hnext⟩ := Except.bind_eq_ok.1 hnext
      rw [← Except.ok.inj hnext]
      have hnodup := records.keys_nodup
      rw [hsplit, List.map_append, List.nodup_append] at hnodup
      have hnew : own ∉ front.map Prod.fst := fun hmem => hnodup.2.2 own hmem own (by simp) rfl
      by_cases hown : own = subject
      · subst hown
        refine ⟨fun hnot => absurd (by simp) hnot, fun other hother => ?_⟩
        rcases List.mem_append.1 hother with hother | hother
        · exact absurd (List.mem_map.2 ⟨_, hother, rfl⟩) hnew
        · cases List.mem_singleton.1 hother
          refine ⟨entries, hentries, ?_⟩
          rw [SortedMap.get?_extend, hnone hnew, Option.or_none, SortedMap.get?_ofList]
      · have hsame : (mid.extend entries).get? key = mid.get? key := by
          refine SortedMap.get?_extend_of_not_mem _ fun hmem => hown ?_
          obtain ⟨entry, hentry, rfl⟩ := List.mem_map.1 hmem
          exact (recordEntries_key hentries entry hentry).symm.trans hkey
        rw [hsame]
        refine ⟨fun hnot => hnone fun hmem => hnot (by simp [hmem]), fun other hother => hsome other ?_⟩
        rcases List.mem_append.1 hother with hother | hother
        · exact hother
        · cases List.mem_singleton.1 hother
          exact absurd rfl hown
  refine ⟨fun hnone => hrun.1 (SortedMap.get?_eq_none_iff.1 hnone), fun record hget => hrun.2 record ?_⟩
  exact SortedMap.get?_eq_some_iff.1 hget

theorem exists_collectEntries {records : RecordMap}
    (h : ∀ subject record, records.get? subject = some record → ∃ entries, recordEntries subject record = .ok entries) :
    ∃ store, collectEntries records = .ok store := by
  suffices hrun : ∀ items : List (String × Object), (∀ item ∈ items, ∃ entries, recordEntries item.1 item.2 = .ok entries) →
      ∀ start, ∃ store, items.foldlM collectRecord start = .ok store by
    exact hrun records.entries (fun item hitem => h item.1 item.2 (SortedMap.get?_eq_some_iff.2 hitem)) .empty
  intro items
  induction items with
  | nil => exact fun _ start => ⟨start, rfl⟩
  | cons item rest ih =>
      intro hitems start
      obtain ⟨entries, hentries⟩ := hitems item (List.mem_cons_self ..)
      obtain ⟨store, hstore⟩ := ih (fun other hother => hitems other (List.mem_cons_of_mem _ hother)) (start.extend entries)
      refine ⟨store, Runs.foldlM_cons_eq_ok.2 ⟨_, ?_, hstore⟩⟩
      rw [collectRecord, hentries, Except.bind_ok]

theorem followPath_same {value value' : Option Json} (h : value.map Json.normal = value'.map Json.normal)
    (part : PathSegment) : (followPath value part).map Json.normal = (followPath value' part).map Json.normal := by
  cases value with
  | none =>
      rw [Option.map_eq_none_iff.1 h.symm]
  | some raw =>
      obtain ⟨raw', rfl, hraw⟩ := Option.map_eq_some_iff.1 h.symm
      cases raw with
      | obj fields =>
          cases raw' with
          | obj fields' =>
              cases part with
              | field name => exact Records.same_of_obj_normal_eq hraw.symm name
              | index place => rfl
          | _ => cases hraw
      | arr items =>
          cases raw' with
          | arr items' =>
              cases part with
              | field name => rfl
              | index place =>
                  rw [Json.normal, Json.normal, Records.normalItems_eq, Records.normalItems_eq] at hraw
                  show items[place]?.map Json.normal = items'[place]?.map Json.normal
                  rw [← List.getElem?_map, ← List.getElem?_map, ← Json.arr.inj hraw]
          | _ => cases hraw
      | _ =>
          cases raw' <;> cases hraw
          rfl

theorem candidateKey_same {reading other : Object} (h : Object.Same reading other) (path : List PathSegment) :
    candidateKey reading path = candidateKey other path := by
  have hfold : ∀ (path : List PathSegment) {value value' : Option Json}, value.map Json.normal = value'.map Json.normal →
      (path.foldl followPath value).map Json.normal = (path.foldl followPath value').map Json.normal := by
    intro path
    induction path with
    | nil => exact fun hvalue => hvalue
    | cons part rest ih => exact fun hvalue => ih (followPath_same hvalue part)
  have hpath : (readPath reading path).map Json.normal = (readPath other path).map Json.normal := by
    cases path with
    | nil => rfl
    | cons part rest =>
        cases part with
        | field name => exact hfold rest (h name)
        | index place => rfl
  rw [candidateKey, candidateKey]
  cases hread : readPath reading path with
  | none =>
      rw [hread] at hpath
      rw [Option.map_eq_none_iff.1 hpath.symm]
  | some value =>
      rw [hread] at hpath
      obtain ⟨value', hread', hvalue⟩ := Option.map_eq_some_iff.1 hpath.symm
      rw [hread']
      have hstr := Records.eq_str_of_normal_eq hvalue.symm
      cases value with
      | str text => rw [(hstr text).1 rfl]
      | _ => cases value' <;> first | rfl | exact absurd ((hstr _).2 rfl) (by simp)

theorem readCandidateKeys_same {reading other : Object} (h : Object.Same reading other) (routes : Routes) :
    readCandidateKeys reading routes = readCandidateKeys other routes := by
  rw [readCandidateKeys, readCandidateKeys]
  simp only [candidateKey_same h]

theorem writeIdentifierValues_of_normal_eq {value value' : Json} (h : value.normal = value'.normal) (values : List String) :
    writeIdentifierValues values value = writeIdentifierValues values value' := by
  have hstr := Records.eq_str_of_normal_eq h
  cases value with
  | str text => rw [(hstr text).1 rfl]
  | _ =>
      cases value' with
      | str text => exact absurd ((hstr text).2 rfl) (by simp)
      | _ => cases values with
        | nil => rfl
        | cons first rest => cases rest <;> rfl

theorem normalizedIdentifier_keys {forms : TextForms} {contracts : Contracts} {normalizers : IndexMap String Bool}
    {items : List (String × Json)} {parts : List (List (String × Json))}
    (h : items.mapM (normalizedIdentifier forms contracts normalizers) = .ok parts) :
    (parts.flatten.map Prod.fst).Sublist (items.map Prod.fst) := by
  rw [Runs.mapM_eq_ok] at h
  induction h with
  | nil => exact .slnil
  | cons hhead _ ih =>
      obtain ⟨values, _, hhead⟩ := Except.bind_eq_ok.1 hhead
      obtain ⟨found, _, hhead⟩ := Except.bind_eq_ok.1 hhead
      rw [← Except.ok.inj hhead, List.flatten_cons, List.map_append, List.map_cons]
      split_ifs
      · exact ih.cons _
      · exact ih.cons_cons _

theorem normalizedIdentifiers_same {forms : TextForms} {contracts : Contracts} {normalizers : IndexMap String Bool}
    {record other : Object} (h : (record.get? "identifiers").map Json.normal = (other.get? "identifiers").map Json.normal)
    {normalized : Object} (hnormalized : normalizedIdentifiers forms contracts normalizers record = .ok normalized) :
    ∃ normalized', normalizedIdentifiers forms contracts normalizers other = .ok normalized' ∧
      Object.Same normalized normalized' := by
  obtain ⟨identifiers, hidentifiers, hnormalized⟩ := Except.bind_eq_ok.1 hnormalized
  obtain ⟨parts, hparts, hnormalized⟩ := Except.bind_eq_ok.1 hnormalized
  obtain ⟨identifiers', hidentifiers', hsame⟩ := Records.readObject_of_get? h hidentifiers
  obtain ⟨parts', hparts', hmem⟩ := hsame.mapM_entries (g := normalizedIdentifier forms contracts normalizers)
    (fun key value value' hvalue => by
      rw [normalizedIdentifier, normalizedIdentifier, readIdentifierValues_of_normal_eq hvalue]
      simp only [writeIdentifierValues_of_normal_eq hvalue]) hparts
  refine ⟨.ofList parts'.flatten, ?_, fun key => ?_⟩
  · rw [normalizedIdentifiers, hidentifiers', Except.bind_ok, hparts', Except.bind_ok]
  · have hnodup := identifiers.nodup.sublist (normalizedIdentifier_keys hparts)
    have hnodup' := identifiers'.nodup.sublist (normalizedIdentifier_keys hparts')
    have hget : normalized.get? key = (IndexMap.ofList parts'.flatten).get? key := by
      refine Option.ext fun value => ?_
      rw [← Except.ok.inj hnormalized, IndexMap.get?_ofList hnodup, IndexMap.get?_ofList hnodup', hmem]
    rw [hget]

variable {forms : TextForms} {contracts : Contracts} {digest : String} {input : RecordInputs} {subject : String}

theorem deriveRecord_of_routed {available available' : SortedMap String Object} {record other routed routed' derived : Object}
    {names : List String} (hnames : "identifiers" ∉ names)
    (hrouted : routedKeys input.candidateRoutes digest available record = .ok routed)
    (hrouted' : routedKeys input.candidateRoutes digest available' other = .ok routed')
    (hsame : Object.SameBut ("entity_id" :: "quarantined_id" :: "normalized_identifiers" :: names) routed routed')
    (h : deriveRecord forms contracts digest available input subject record = .ok derived) :
    ∃ derived', deriveRecord forms contracts digest available' input subject other = .ok derived' ∧
      Object.SameBut names derived derived' := by
  obtain ⟨own, hown, h⟩ := Except.bind_eq_ok.1 h
  cases hrouted.symm.trans hown
  obtain ⟨normalized, hnormalized, h⟩ := Except.bind_eq_ok.1 h
  have hbound : Object.SameBut ("normalized_identifiers" :: names) (bindRecord input subject routed)
      (bindRecord input subject routed') := (hsame.insert rfl).insert rfl
  obtain ⟨normalized', hnormalized', hvalues⟩ :=
    normalizedIdentifiers_same (hbound "identifiers" (by simp [hnames])) hnormalized
  refine ⟨(bindRecord input subject routed').insert "normalized_identifiers" (Object.toJson normalized'), ?_, ?_⟩
  · rw [deriveRecord, hrouted', Except.bind_ok, hnormalized', Except.bind_ok]
  · rw [← Except.ok.inj h]
    exact hbound.insert hvalues.toJson

theorem deriveRecord_of_reading {available : SortedMap String Object} {record base reading derived : Object} {id : String}
    (h : deriveRecord forms contracts digest available input subject record = .ok derived)
    (hbase : Object.SameBut derivedFields record base) (hid : readText base "assertion_id" = .ok id)
    (havailable : ∀ other, available.get? id = some other → Object.Same other reading)
    (hkept : available.get? id = none → readText record "matching_routes_sha256" = .ok digest →
      (record.get? "matching_keys").map Json.normal =
        some (Object.toJson (readCandidateKeys reading input.candidateRoutes)).normal) :
    ∃ derived', deriveRecord forms contracts digest (.ofList [(id, reading)]) input subject base = .ok derived' ∧
      Object.Same derived derived' := by
  obtain ⟨routed, hrouted, _⟩ := Except.bind_eq_ok.1 h
  have hown : (SortedMap.ofList [(id, reading)]).get? id = some reading := by
    rw [SortedMap.get?_ofList]
    simp [IndexMap.lookupEntry]
  have hrouted' : routedKeys input.candidateRoutes digest (.ofList [(id, reading)]) base =
      .ok ((base.insert "matching_keys" (Object.toJson (readCandidateKeys reading input.candidateRoutes))).insert
        "matching_routes_sha256" (.str digest)) := by
    rw [routedKeys, hid, Except.bind_ok, hown]
  suffices hsame : Object.SameBut ["entity_id", "quarantined_id", "normalized_identifiers"] routed
      ((base.insert "matching_keys" (Object.toJson (readCandidateKeys reading input.candidateRoutes))).insert
        "matching_routes_sha256" (.str digest)) by
    obtain ⟨derived', hderived', hsame⟩ := deriveRecord_of_routed (by simp) hrouted hrouted' hsame h
    exact ⟨derived', hderived', hsame.same⟩
  obtain ⟨latestId, hlatestId, hkeys⟩ := Except.bind_eq_ok.1 hrouted
  have hassertion : readText record "assertion_id" = readText base "assertion_id" := by
    have hget := hbase "assertion_id" (by decide)
    rw [← Records.readText_normal record, ← Records.readText_normal base, readText, readText, Records.get?_normal,
      Records.get?_normal, hget]
  have hlatest : latestId = id := Except.ok.inj (hlatestId.symm.trans (hassertion.trans hid))
  subst hlatest
  cases hget : available.get? latestId with
  | some other =>
      rw [hget] at hkeys
      rw [← Except.ok.inj hkeys, readCandidateKeys_same (havailable other hget)]
      exact (hbase.insert rfl).insert rfl
  | none =>
      rw [hget] at hkeys
      dsimp only at hkeys
      split_ifs at hkeys with hdigest
      have hsha : readText record "matching_routes_sha256" = .ok digest := by
        cases htext : readText record "matching_routes_sha256" with
        | error e =>
            rw [htext] at hdigest
            cases hdigest
        | ok text =>
            rw [htext] at hdigest
            exact congrArg Except.ok (Option.some.inj hdigest)
      have hstr : record.get? "matching_routes_sha256" = some (.str digest) := by
        rw [readText] at hsha
        cases hheld : record.get? "matching_routes_sha256" with
        | none =>
            rw [hheld] at hsha
            cases hsha
        | some value =>
            rw [hheld] at hsha
            cases value <;> cases hsha
            rfl
      rw [← Except.ok.inj hkeys]
      intro name hname
      rw [IndexMap.get?_insert, IndexMap.get?_insert]
      split_ifs with hroutes hmatching
      · rw [hroutes, hstr]
      · rw [hmatching]
        exact hkept hget hsha
      · refine hbase name fun hderived => ?_
        simp only [derivedFields, List.mem_cons, List.not_mem_nil, or_false] at hderived hname
        tauto

end EdgarPlatform.Lookups
