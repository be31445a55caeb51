import EdgarPlatform.Mastering.Named

/-!
# The order of name pairs

A name rule compares pairs of a candidate and a holder that come out of a set, in no order. Which masters the candidates reach does not depend on that order. Who joins them does, when two candidates reach one master under different LEIs and the rule lets a master hold one: the first to come joins and keeps the other out. The same happens to a candidate read twice under different LEIs, of which the last read counts.
-/

namespace EdgarPlatform.Mastering

open Records (Json Object readText readObject)

def rulePairs (db : Tables) (stage : Stage) (rule : NameRule) : List (Named × Named) :=
  let role := if rule.cascades then "cascade" else "name_count"
  let candidates := stage.records.map stagedNamed |>.filter fun named => named.source = rule.source
  let holders := stage.records.map stagedNamed |>.filter fun named => named.source = rule.holderSource
  let waiting := (db.records.values.filter fun row => row.entity = none ∧ row.source = rule.source).map storedNamed
  let stored := (db.records.values.filter fun row => row.source = rule.holderSource).map storedNamed
  (pairsUnder db.nameKeys role waiting holders ++ pairsUnder db.nameKeys role candidates holders
    ++ pairsUnder db.nameKeys role candidates stored).dedup

abbrev Turn := NameRule × List (Named × Named)

def foundFor (env : Env) (db : Tables) (s : Naming) (pairs : List (Named × Named)) : IndexMap String String :=
  lookUp env db s.bound (Sorting.distinct (pairs.flatMap fun pair => [pair.1.subject, pair.2.subject]))

def openFor (env : Env) (db : Tables) (s : Naming) (pairs : List (Named × Named)) : List (Named × Named) :=
  openPairs (foundFor env db s pairs) s.named pairs

def matchRuleOver (env : Env) (db : Tables) (s : Naming) (turn : Turn) : Except String Naming := do
  let reach ← (openFor env db s turn.2).foldlM (reachNames env turn.1 (foundFor env db s turn.2)) .empty
  .ok (reach.entries.foldl (nameSubject db turn.1) { s with bound := foundFor env db s turn.2, held := [] })

def matchNamesOver (env : Env) (db : Tables) (bound : IndexMap String String) (turns : List Turn) : Except String Naming :=
  turns.foldlM (matchRuleOver env db) ⟨bound, .empty, .empty, []⟩

def Turns (db : Tables) (stage : Stage) (rules : List NameRule) (turns : List Turn) : Prop :=
  List.Forall₂ (fun rule turn => turn.1 = rule ∧ turn.2.Perm (rulePairs db stage rule)) rules turns

/-- The rules bind the same records to the same masters whatever the order of the pairs. -/
def OrderFree (env : Env) (db : Tables) (stage : Stage) (bound : IndexMap String String) (rules : List NameRule) : Prop :=
  ∀ turns turns', Turns db stage rules turns → Turns db stage rules turns' → ∀ s, matchNamesOver env db bound turns = .ok s →
    ∃ s', matchNamesOver env db bound turns' = .ok s' ∧ ∀ subject, s.named.get? subject = s'.named.get? subject

section

variable (env : Env) (db : Tables) (rule : NameRule) (s : Naming) (pairs : List (Named × Named))

def Matches (pair : Named × Named) : Prop := (env.compare rule.body pair.2.body pair.1.body).toOption.any Prod.fst = true

instance (pair : Named × Named) : Decidable (Matches env rule pair) := inferInstanceAs (Decidable (_ = true))

/-- A free candidate reaches one master and no other, by a pair under the LEI. -/
structure Reach (subject entity lei : String) : Prop where
  pair : ∃ pair ∈ openFor env db s pairs, pair.1.subject = subject ∧ Matches env rule pair ∧ pair.1.lei = some lei
  only : ∀ pair ∈ openFor env db s pairs, pair.1.subject = subject → Matches env rule pair →
    (foundFor env db s pairs).get? pair.2.subject = some entity

/-- Two candidates reach one master that holds no LEI under different LEIs, or one candidate does under the LEI its master holds and another. -/
structure Contended : Prop where
  vetoes : rule.vetoes = true
  answers : ∀ pair ∈ openFor env db s pairs, ∃ outcome, env.compare rule.body pair.2.body pair.1.body = .ok outcome
  claims : ∃ entity,
    (leisOf db entity = [] ∧ ∃ subject other lei lei', subject ≠ other ∧ lei ≠ lei' ∧
      Reach env db rule s pairs subject entity lei ∧ Reach env db rule s pairs other entity lei') ∨
    ∃ held ∈ leisOf db entity, (∀ other ∈ leisOf db entity, other = held) ∧ ∃ subject lei, lei ≠ held ∧
      Reach env db rule s pairs subject entity held ∧ Reach env db rule s pairs subject entity lei

end

section Reached

variable {env : Env} {db : Tables} {rule : NameRule} {bound : IndexMap String String}

def addReach (bound : IndexMap String String) (reach : IndexMap String (List String × Option String)) (pair : Named × Named) :
    IndexMap String (List String × Option String) :=
  reach.insert pair.1.subject
    (addRow ((reach.get? pair.1.subject).elim [] Prod.fst) ((bound.get? pair.2.subject).getD ""), pair.1.lei)

theorem reachNames_eq_ok {pairs : List (Named × Named)} {reach reach' : IndexMap String (List String × Option String)} :
    pairs.foldlM (reachNames env rule bound) reach = .ok reach' ↔
      (∀ pair ∈ pairs, ∃ outcome, env.compare rule.body pair.2.body pair.1.body = .ok outcome) ∧
        reach' = (pairs.filter (Matches env rule)).foldl (addReach bound) reach := by
  induction pairs generalizing reach with
  | nil =>
      rw [Runs.foldlM_nil_eq_ok, List.filter_nil, List.foldl_nil]
      exact ⟨fun h => ⟨fun _ hpair => absurd hpair List.not_mem_nil, h.symm⟩, fun h => h.2.symm⟩
  | cons pair rest ih =>
      rw [Runs.foldlM_cons_eq_ok, List.forall_mem_cons]
      have hstep : ∀ outcome, env.compare rule.body pair.2.body pair.1.body = .ok outcome →
          reachNames env rule bound reach pair =
            .ok (if outcome.1 = true then addReach bound reach pair else reach) ∧
          (Matches env rule pair ↔ outcome.1 = true) := by
        intro outcome houtcome
        refine ⟨?_, by rw [Matches, houtcome]; rfl⟩
        rw [reachNames, houtcome, Except.bind_ok]
        cases houtcome' : outcome.1
        · rw [if_pos rfl, if_neg (by decide)]
        · rw [if_neg (by decide), if_pos rfl]
          rfl
      constructor
      · rintro ⟨mid, hmid, hrest⟩
        obtain ⟨outcome, houtcome, _⟩ := Except.bind_eq_ok.1 hmid
        obtain ⟨hread, hmatches⟩ := hstep outcome houtcome
        obtain ⟨hanswers, rfl⟩ := ih.1 hrest
        refine ⟨⟨⟨outcome, houtcome⟩, hanswers⟩, ?_⟩
        rw [← Except.ok.inj (hread.symm.trans hmid), List.filter_cons]
        by_cases hyes : outcome.1 = true
        · rw [if_pos hyes, if_pos (decide_eq_true (hmatches.2 hyes)), List.foldl_cons]
        · rw [if_neg hyes, if_neg fun h => hyes (hmatches.1 (of_decide_eq_true h))]
      · rintro ⟨⟨⟨outcome, houtcome⟩, hanswers⟩, rfl⟩
        obtain ⟨hread, hmatches⟩ := hstep outcome houtcome
        refine ⟨_, hread, ih.2 ⟨hanswers, ?_⟩⟩
        rw [List.filter_cons]
        by_cases hyes : outcome.1 = true
        · rw [if_pos hyes, if_pos (decide_eq_true (hmatches.2 hyes)), List.foldl_cons]
        · rw [if_neg hyes, if_neg fun h => hyes (hmatches.1 (of_decide_eq_true h))]

def leadsTo (bound : IndexMap String String) (pair : Named × Named) : String := (bound.get? pair.2.subject).getD ""

/-- What is reached after some pairs: for each candidate among them the masters its pairs lead to, each once, and the LEI of its last pair. -/
structure Gathered (bound : IndexMap String String) (pairs : List (Named × Named))
    (reach : IndexMap String (List String × Option String)) : Prop where
  none_iff : ∀ subject, reach.get? subject = none ↔ ∀ pair ∈ pairs, pair.1.subject ≠ subject
  entities : ∀ subject entry, reach.get? subject = some entry → entry.1.Nodup ∧
    ∀ entity, entity ∈ entry.1 ↔ ∃ pair ∈ pairs, pair.1.subject = subject ∧ leadsTo bound pair = entity
  lei : ∀ subject entry, reach.get? subject = some entry →
    (pairs.filter fun pair => pair.1.subject = subject).getLast?.map (fun pair => pair.1.lei) = some entry.2

theorem nodup_addRow {α : Type} [DecidableEq α] {rows : List α} {row : α} (h : rows.Nodup) : (addRow rows row).Nodup := by
  rw [addRow]
  split_ifs with hrow
  · exact h
  · exact List.Nodup.append h (List.nodup_singleton row) (by simpa using hrow)

theorem Gathered.add {front : List (Named × Named)} {reach : IndexMap String (List String × Option String)} (h : Gathered bound front reach)
    (pair : Named × Named) : Gathered bound (front ++ [pair]) (addReach bound reach pair) where
  none_iff := by
    intro subject
    rw [addReach, IndexMap.get?_insert]
    by_cases hsubject : subject = pair.1.subject
    · rw [if_pos hsubject]
      exact iff_of_false (fun h => nomatch h) fun h => h pair (by simp) hsubject.symm
    · rw [if_neg hsubject, h.none_iff]
      simp only [List.mem_append, List.mem_singleton, or_imp, forall_and, forall_eq]
      exact ⟨fun h => ⟨h, Ne.symm hsubject⟩, And.left⟩
  entities := by
    intro subject entry hentry
    rw [addReach, IndexMap.get?_insert] at hentry
    by_cases hsubject : subject = pair.1.subject
    · rw [if_pos hsubject] at hentry
      subst hsubject
      rw [← Option.some_inj.1 hentry]
      cases hold : reach.get? pair.1.subject with
      | none =>
          refine ⟨nodup_addRow List.nodup_nil, fun entity => ?_⟩
          have hnone := (h.none_iff _).1 hold
          rw [Option.elim_none, mem_addRow]
          constructor
          · rintro (hmem | rfl)
            · cases hmem
            · exact ⟨pair, by simp, rfl, rfl⟩
          · rintro ⟨other, hother, heq, hleads⟩
            rcases List.mem_append.1 hother with hother | hother
            · exact absurd heq (hnone other hother)
            · exact .inr (List.mem_singleton.1 hother ▸ hleads.symm)
      | some old =>
          obtain ⟨hnodup, hmem⟩ := h.entities _ old hold
          refine ⟨nodup_addRow hnodup, fun entity => ?_⟩
          rw [Option.elim_some, mem_addRow, hmem]
          constructor
          · rintro (⟨other, hother, heq, hleads⟩ | rfl)
            · exact ⟨other, List.mem_append_left _ hother, heq, hleads⟩
            · exact ⟨pair, by simp, rfl, rfl⟩
          · rintro ⟨other, hother, heq, hleads⟩
            rcases List.mem_append.1 hother with hother | hother
            · exact .inl ⟨other, hother, heq, hleads⟩
            · exact .inr (List.mem_singleton.1 hother ▸ hleads.symm)
    · rw [if_neg hsubject] at hentry
      obtain ⟨hnodup, hmem⟩ := h.entities subject entry hentry
      refine ⟨hnodup, fun entity => ?_⟩
      rw [hmem]
      constructor
      · rintro ⟨other, hother, heq, hleads⟩
        exact ⟨other, List.mem_append_left _ hother, heq, hleads⟩
      · rintro ⟨other, hother, heq, hleads⟩
        rcases List.mem_append.1 hother with hother | hother
        · exact ⟨other, hother, heq, hleads⟩
        · exact absurd ((List.mem_singleton.1 hother ▸ heq).symm) hsubject
  lei := by
    intro subject entry hentry
    rw [addReach, IndexMap.get?_insert] at hentry
    rw [List.filter_append]
    by_cases hsubject : subject = pair.1.subject
    · rw [if_pos hsubject] at hentry
      have hlast : [pair].filter (fun pair => pair.1.subject = subject) = [pair] :=
        List.filter_cons_of_pos (decide_eq_true hsubject.symm)
      rw [hlast, List.getLast?_append, ← Option.some_inj.1 hentry]
      rfl
    · rw [if_neg hsubject] at hentry
      have hlast : [pair].filter (fun pair => pair.1.subject = subject) = [] :=
        List.filter_cons_of_neg fun h => hsubject (of_decide_eq_true h).symm
      rw [hlast, List.append_nil]
      exact h.lei subject entry hentry

theorem gathered (bound : IndexMap String String) (pairs : List (Named × Named)) :
    Gathered bound pairs (pairs.foldl (addReach bound) .empty) := by
  induction pairs using List.reverseRecOn with
  | nil =>
      refine ⟨fun subject => ?_, fun subject entry h => ?_, fun subject entry h => ?_⟩
      · simp
      · rw [List.foldl_nil, IndexMap.get?_empty] at h
        cases h
      · rw [List.foldl_nil, IndexMap.get?_empty] at h
        cases h
  | append_singleton front pair ih =>
      rw [List.foldl_append]
      exact ih.add pair

end Reached

/-- A master takes a record under the LEI: the rule does not mind, or the master holds no other. -/
def Accepts (db : Tables) (rule : NameRule) (entity lei : String) : Prop :=
  rule.vetoes = true → ∀ held ∈ leisOf db entity, held = lei

instance (db : Tables) (rule : NameRule) (entity lei : String) : Decidable (Accepts db rule entity lei) :=
  inferInstanceAs (Decidable (_ → _))

section Joining

variable {db : Tables} {rule : NameRule}

/-- A candidate that reaches one master joins it when the master holds no other LEI and no other has joined under another. -/
theorem nameSubject_one {s : Naming} {subject entity lei : String} :
    nameSubject db rule s (subject, [entity], some lei) =
      if Accepts db rule entity lei ∧ (rule.vetoes = true → ∀ row ∈ s.held, row.1 = entity → row.2 = lei) then
        { s with
          named := s.named.insert subject entity
          values := s.values.insert subject lei
          held := s.held ++ [(entity, lei)] }
      else s := by
  rw [nameSubject]
  by_cases hvetoes : rule.vetoes = true
  · simp only [Accepts, hvetoes, forall_const, Bool.true_and, Bool.or_eq_true, List.any_eq_true, decide_eq_true_eq,
      Bool.and_eq_true]
    by_cases hall : (∀ held ∈ leisOf db entity, held = lei) ∧ ∀ row ∈ s.held, row.1 = entity → row.2 = lei
    · rw [if_pos hall, if_neg]
      rintro (⟨held, hheld, hne⟩ | ⟨row, hrow, heq, hne⟩)
      · exact hne (hall.1 held hheld)
      · exact hne (hall.2 row hrow heq)
    · rw [if_neg hall, if_pos]
      by_contra hnot
      rw [not_or] at hnot
      refine hall ⟨fun held hheld => ?_, fun row hrow heq => ?_⟩
      · by_contra hne
        exact hnot.1 ⟨held, hheld, hne⟩
      · by_contra hne
        exact hnot.2 ⟨row, hrow, heq, hne⟩
  · have hfalse : rule.vetoes = false := Bool.not_eq_true _ ▸ hvetoes
    rw [if_pos ⟨fun h => absurd h hvetoes, fun h => absurd h hvetoes⟩]
    show (if (rule.vetoes && _) = true then s else _) = _
    rw [if_neg (by simp [hfalse])]

theorem nameSubject_other {s : Naming} {entry : String × (List String × Option String)}
    (h : ∀ entity lei, entry.2 ≠ ([entity], some lei)) : nameSubject db rule s entry = s := by
  obtain heq | ⟨entity, lei, hentry, _⟩ := nameSubject_cases db rule s entry
  · exact heq
  · exact absurd hentry (h entity lei)

theorem named_of_turns {entries : List (String × (List String × Option String))} (hnodup : (entries.map Prod.fst).Nodup)
    (hapart : rule.vetoes = true → ∀ entity subject other lei lei', (subject, [entity], some lei) ∈ entries →
      (other, [entity], some lei') ∈ entries → subject ≠ other → Accepts db rule entity lei → Accepts db rule entity lei' → lei = lei')
    {s : Naming} (hheld : s.held = []) (hfree : ∀ entry ∈ entries, s.named.get? entry.1 = none) :
    let after := entries.foldl (nameSubject db rule) s
    (∀ row ∈ after.held, ∃ subject, (subject, [row.1], some row.2) ∈ entries ∧ Accepts db rule row.1 row.2) ∧
      ∀ subject entity, after.named.get? subject = some entity ↔
        s.named.get? subject = some entity ∨ ∃ lei, (subject, [entity], some lei) ∈ entries ∧ Accepts db rule entity lei := by
  induction entries using List.reverseRecOn with
  | nil =>
      refine ⟨fun row hrow => ?_, fun subject entity => ?_⟩
      · rw [List.foldl_nil, hheld] at hrow
        cases hrow
      · exact ⟨.inl, fun h => h.elim id fun ⟨_, hmem, _⟩ => absurd hmem List.not_mem_nil⟩
  | append_singleton front entry ih =>
      rw [List.map_append, List.nodup_append] at hnodup
      obtain ⟨hrows, hnamed⟩ := ih hnodup.1
        (fun hvetoes entity subject other lei lei' h h' => hapart hvetoes entity subject other lei lei'
          (List.mem_append_left _ h) (List.mem_append_left _ h'))
        fun entry hentry => hfree entry (List.mem_append_left _ hentry)
      have hfresh : ∀ other ∈ front, other.1 ≠ entry.1 := fun other hother =>
        hnodup.2.2 _ (List.mem_map_of_mem hother) _ (by simp)
      simp only [List.foldl_append, List.foldl_cons, List.foldl_nil]
      generalize front.foldl (nameSubject db rule) s = mid at hrows hnamed ⊢
      by_cases hone : ∃ entity lei, entry.2 = ([entity], some lei)
      · obtain ⟨subject, entities, value⟩ := entry
        obtain ⟨entity, lei, heq⟩ := hone
        cases heq
        rw [nameSubject_one]
        by_cases haccepts : Accepts db rule entity lei
        · -- No one that joined the master before came under another LEI.
          have hkept : rule.vetoes = true → ∀ row ∈ mid.held, row.1 = entity → row.2 = lei := by
            intro hvetoes row hrow heq
            obtain ⟨other, hother, hrow⟩ := hrows row hrow
            rw [heq] at hother hrow
            exact hapart hvetoes entity other subject row.2 lei (List.mem_append_left _ hother) (by simp)
              (hfresh _ hother) hrow haccepts
          rw [if_pos ⟨haccepts, hkept⟩]
          refine ⟨fun row hrow => ?_, fun other entity' => ?_⟩
          · rcases List.mem_append.1 hrow with hrow | hrow
            · obtain ⟨other, hother, hrow⟩ := hrows row hrow
              exact ⟨other, List.mem_append_left _ hother, hrow⟩
            · cases List.mem_singleton.1 hrow
              exact ⟨subject, by simp, haccepts⟩
          · show (mid.named.insert subject entity).get? other = some entity' ↔ _
            rw [IndexMap.get?_insert]
            by_cases hother : other = subject
            · subst hother
              rw [if_pos rfl, Option.some_inj]
              constructor
              · rintro rfl
                exact .inr ⟨lei, by simp, haccepts⟩
              · rintro (hold | ⟨lei', hmem, _⟩)
                · have hnone : s.named.get? other = none := hfree (other, [entity], some lei) (by simp)
                  rw [hnone] at hold
                  cases hold
                · rcases List.mem_append.1 hmem with hmem | hmem
                  · exact (hfresh _ hmem rfl).elim
                  · cases List.mem_singleton.1 hmem
                    rfl
            · rw [if_neg hother, hnamed]
              refine or_congr_right (exists_congr fun lei' => and_congr_left fun _ => ?_)
              rw [List.mem_append, List.mem_singleton]
              refine ⟨.inl, fun h => h.elim id fun heq => absurd (congrArg Prod.fst heq) hother⟩
        · rw [if_neg fun h => haccepts h.1]
          refine ⟨fun row hrow => ?_, fun other entity' => ?_⟩
          · obtain ⟨other, hother, hrow⟩ := hrows row hrow
            exact ⟨other, List.mem_append_left _ hother, hrow⟩
          · rw [hnamed]
            refine or_congr_right (exists_congr fun lei' => ?_)
            rw [List.mem_append, List.mem_singleton]
            constructor
            · rintro ⟨hmem, h⟩
              exact ⟨.inl hmem, h⟩
            · rintro ⟨hmem | heq, h⟩
              · exact ⟨hmem, h⟩
              · cases heq
                exact absurd h haccepts
      · have hnot : ∀ entity lei, entry.2 ≠ ([entity], some lei) := fun entity lei heq => hone ⟨entity, lei, heq⟩
        rw [nameSubject_other hnot]
        refine ⟨fun row hrow => ?_, fun other entity' => ?_⟩
        · obtain ⟨other, hother, hrow⟩ := hrows row hrow
          exact ⟨other, List.mem_append_left _ hother, hrow⟩
        · rw [hnamed]
          refine or_congr_right (exists_congr fun lei' => and_congr_left fun _ => ?_)
          rw [List.mem_append, List.mem_singleton]
          exact ⟨.inl, fun h => h.elim id fun heq => absurd (congrArg Prod.snd heq).symm (hnot entity' lei')⟩

theorem nameSubject_keeps (db : Tables) (rule : NameRule) (s : Naming) (entry : String × (List String × Option String)) :
    (nameSubject db rule s entry).bound = s.bound ∧
      (∀ subject ≠ entry.1, (nameSubject db rule s entry).named.get? subject = s.named.get? subject) ∧
      ∀ row ∈ s.held, row ∈ (nameSubject db rule s entry).held := by
  obtain heq | ⟨entity, lei, _, heq⟩ := nameSubject_cases db rule s entry
  · rw [heq]
    exact ⟨rfl, fun _ _ => rfl, fun _ h => h⟩
  · rw [heq]
    exact ⟨rfl, fun subject hne => IndexMap.get?_insert_of_ne _ _ hne, fun row hrow => List.mem_append_left _ hrow⟩

theorem turns_keep (s : Naming) (entries : List (String × (List String × Option String))) :
    (entries.foldl (nameSubject db rule) s).bound = s.bound ∧
      (∀ subject, (∀ entry ∈ entries, entry.1 ≠ subject) →
        (entries.foldl (nameSubject db rule) s).named.get? subject = s.named.get? subject) ∧
      ∀ row ∈ s.held, row ∈ (entries.foldl (nameSubject db rule) s).held := by
  induction entries generalizing s with
  | nil => exact ⟨rfl, fun _ _ => rfl, fun _ h => h⟩
  | cons entry rest ih =>
      obtain ⟨hbound, hnamed, hrows⟩ := nameSubject_keeps db rule s entry
      obtain ⟨hbound', hnamed', hrows'⟩ := ih (nameSubject db rule s entry)
      rw [List.foldl_cons]
      refine ⟨hbound'.trans hbound, fun subject hne => ?_, fun row hrow => hrows' row (hrows row hrow)⟩
      rw [hnamed' subject fun other hother => hne other (List.mem_cons_of_mem _ hother),
        hnamed subject (hne entry List.mem_cons_self).symm]

theorem turns_accepted {s : Naming} (h : ∀ row ∈ s.held, Accepts db rule row.1 row.2)
    (entries : List (String × (List String × Option String))) :
    ∀ row ∈ (entries.foldl (nameSubject db rule) s).held, Accepts db rule row.1 row.2 := by
  induction entries generalizing s with
  | nil => exact h
  | cons entry rest ih =>
      refine ih ?_
      by_cases hone : ∃ entity lei, entry.2 = ([entity], some lei)
      · obtain ⟨subject, entities, value⟩ := entry
        obtain ⟨entity, lei, heq⟩ := hone
        cases heq
        rw [nameSubject_one]
        split_ifs with hif
        · intro row hrow
          rcases List.mem_append.1 hrow with hrow | hrow
          · exact h row hrow
          · cases List.mem_singleton.1 hrow
            exact hif.1
        · exact h
      · rw [nameSubject_other fun entity lei heq => hone ⟨entity, lei, heq⟩]
        exact h

theorem named_at_turn {front back : List (String × (List String × Option String))} {subject entity lei : String}
    (hnodup : ((front ++ (subject, [entity], some lei) :: back).map Prod.fst).Nodup) (s : Naming) :
    ((front ++ (subject, [entity], some lei) :: back).foldl (nameSubject db rule) s).named.get? subject =
      if Accepts db rule entity lei ∧ (rule.vetoes = true → ∀ row ∈ (front.foldl (nameSubject db rule) s).held,
        row.1 = entity → row.2 = lei) then some entity else s.named.get? subject := by
  rw [List.map_append, List.map_cons, List.nodup_append, List.nodup_cons] at hnodup
  obtain ⟨_, ⟨hback, _⟩, hfront⟩ := hnodup
  have hfront' : ∀ entry ∈ front, entry.1 ≠ subject := fun entry hentry =>
    hfront entry.1 (List.mem_map_of_mem hentry) subject List.mem_cons_self
  have hback' : ∀ entry ∈ back, entry.1 ≠ subject := fun entry hentry heq =>
    hback (List.mem_map.2 ⟨entry, hentry, heq⟩)
  rw [List.foldl_append, List.foldl_cons, (turns_keep _ back).2.1 subject hback', nameSubject_one]
  split_ifs with hif
  · exact IndexMap.get?_insert_self _ _ _
  · exact (turns_keep _ front).2.1 subject hfront'

end Joining

section Rule

variable {env : Env} {db : Tables} {rule : NameRule} {s s' : Naming} {pairs : List (Named × Named)}

def reached (env : Env) (db : Tables) (rule : NameRule) (s : Naming) (pairs : List (Named × Named)) :
    IndexMap String (List String × Option String) :=
  ((openFor env db s pairs).filter (Matches env rule)).foldl (addReach (foundFor env db s pairs)) .empty

theorem matchRuleOver_eq_ok : matchRuleOver env db s (rule, pairs) = .ok s' ↔
    (∀ pair ∈ openFor env db s pairs, ∃ outcome, env.compare rule.body pair.2.body pair.1.body = .ok outcome) ∧
      s' = (reached env db rule s pairs).entries.foldl (nameSubject db rule) { s with bound := foundFor env db s pairs, held := [] } := by
  simp only [matchRuleOver, Except.bind_eq_ok, reachNames_eq_ok]
  constructor
  · rintro ⟨reach, ⟨hanswers, rfl⟩, h⟩
    exact ⟨hanswers, (Except.ok.inj h).symm⟩
  · rintro ⟨hanswers, rfl⟩
    exact ⟨_, ⟨hanswers, rfl⟩, rfl⟩

theorem mem_openFor {pair : Named × Named} : pair ∈ openFor env db s pairs ↔ pair ∈ pairs ∧
    (foundFor env db s pairs).get? pair.1.subject = none ∧ s.named.get? pair.1.subject = none ∧
      ∃ entity, (foundFor env db s pairs).get? pair.2.subject = some entity := by
  simp only [openFor, openPairs, List.mem_filter, Bool.and_eq_true, Bool.not_eq_true', IndexMap.contains, Option.isSome_eq_false_iff,
    Option.isNone_iff_eq_none, Option.isSome_iff_exists, and_assoc]

theorem leadsTo_eq {pair : Named × Named} (h : pair ∈ openFor env db s pairs) {entity : String} :
    leadsTo (foundFor env db s pairs) pair = entity ↔ (foundFor env db s pairs).get? pair.2.subject = some entity := by
  obtain ⟨_, _, _, found, hfound⟩ := mem_openFor.1 h
  rw [leadsTo, hfound, Option.getD_some, Option.some_inj]

theorem gathered_reached : Gathered (foundFor env db s pairs) ((openFor env db s pairs).filter (Matches env rule))
    (reached env db rule s pairs) := gathered _ _

variable {subject entity lei : String}

theorem reach_of_entry (h : (subject, [entity], some lei) ∈ (reached env db rule s pairs).entries) :
    Reach env db rule s pairs subject entity lei := by
  rw [← IndexMap.get?_eq_some_iff] at h
  have hgathered : Gathered _ _ (reached env db rule s pairs) := gathered_reached
  refine ⟨?_, fun pair hopen hsubject hmatches => ?_⟩
  · obtain ⟨pair, hlast, hlei⟩ := Option.map_eq_some_iff.1 (hgathered.lei subject _ h)
    obtain ⟨hpair, hsubject⟩ := List.mem_filter.1 (List.mem_of_getLast? hlast)
    obtain ⟨hopen, hmatches⟩ := List.mem_filter.1 hpair
    exact ⟨pair, hopen, of_decide_eq_true hsubject, of_decide_eq_true hmatches, hlei⟩
  · have hmem := ((hgathered.entities subject _ h).2 (leadsTo (foundFor env db s pairs) pair)).2
      ⟨pair, List.mem_filter.2 ⟨hopen, decide_eq_true hmatches⟩, hsubject, rfl⟩
    exact (leadsTo_eq hopen).1 (List.mem_singleton.1 hmem)

theorem entry_of_reach (h : Reach env db rule s pairs subject entity lei) :
    ∃ last, (reached env db rule s pairs).get? subject = some ([entity], last) ∧
      (((openFor env db s pairs).filter (Matches env rule)).filter fun pair => pair.1.subject = subject).getLast?.map
        (fun pair => pair.1.lei) = some last := by
  have hgathered : Gathered _ _ (reached env db rule s pairs) := gathered_reached
  obtain ⟨pair, hopen, hsubject, hmatches, _⟩ := h.pair
  have hin : pair ∈ (openFor env db s pairs).filter (Matches env rule) := List.mem_filter.2 ⟨hopen, decide_eq_true hmatches⟩
  cases hreach : (reached env db rule s pairs).get? subject with
  | none => exact absurd hsubject ((hgathered.none_iff subject).1 hreach pair hin)
  | some entry =>
      obtain ⟨hnodup, hmem⟩ := hgathered.entities subject entry hreach
      have hone : entry.1 = [entity] := by
        refine List.perm_singleton.1 ((List.perm_ext_iff_of_nodup hnodup (List.nodup_singleton entity)).2 fun other => ?_)
        rw [hmem, List.mem_singleton]
        constructor
        · rintro ⟨pair', hpair', hsubject', hleads⟩
          obtain ⟨hopen', hmatches'⟩ := List.mem_filter.1 hpair'
          rw [← hleads]
          exact (leadsTo_eq hopen').2 (h.only pair' hopen' hsubject' (of_decide_eq_true hmatches'))
        · rintro rfl
          exact ⟨pair, hin, hsubject, (leadsTo_eq hopen).2 (h.only pair hopen hsubject hmatches)⟩
      refine ⟨entry.2, ?_, hgathered.lei subject entry hreach⟩
      rw [← hone]

variable (hleis : ∀ pair ∈ pairs, ∃ lei, pair.1.lei = some lei)

include hleis

theorem entry_of_reach_lei (h : Reach env db rule s pairs subject entity lei) :
    ∃ last, (subject, [entity], some last) ∈ (reached env db rule s pairs).entries := by
  obtain ⟨last, hentry, hlast⟩ := entry_of_reach h
  obtain ⟨pair, hpair, hlei⟩ := Option.map_eq_some_iff.1 hlast
  have hopen := (List.mem_filter.1 (List.mem_filter.1 (List.mem_of_getLast? hpair)).1).1
  obtain ⟨value, hvalue⟩ := hleis pair (mem_openFor.1 hopen).1
  refine ⟨value, ?_⟩
  rw [← IndexMap.get?_eq_some_iff, hentry, ← hlei, hvalue]

theorem named_of_uncontended (hcontended : ¬ Contended env db rule s pairs) (h : matchRuleOver env db s (rule, pairs) = .ok s')
    (subject entity : String) : s'.named.get? subject = some entity ↔
      s.named.get? subject = some entity ∨ ∃ lei, Reach env db rule s pairs subject entity lei ∧ Accepts db rule entity lei := by
  obtain ⟨hanswers, rfl⟩ := matchRuleOver_eq_ok.1 h
  have hfree : ∀ entry ∈ (reached env db rule s pairs).entries, s.named.get? entry.1 = none := by
    intro entry hentry
    by_contra hnot
    have hgathered : Gathered _ _ (reached env db rule s pairs) := gathered_reached
    have hnone : (reached env db rule s pairs).get? entry.1 = none := by
      refine (hgathered.none_iff entry.1).2 fun pair hpair heq => hnot ?_
      rw [← heq]
      exact (mem_openFor.1 (List.mem_filter.1 hpair).1).2.2.1
    rw [IndexMap.get?_eq_some_iff.2 hentry] at hnone
    cases hnone
  have hapart : rule.vetoes = true → ∀ entity subject other lei lei',
      (subject, [entity], some lei) ∈ (reached env db rule s pairs).entries →
      (other, [entity], some lei') ∈ (reached env db rule s pairs).entries → subject ≠ other →
      Accepts db rule entity lei → Accepts db rule entity lei' → lei = lei' := by
    intro hvetoes entity subject other lei lei' hentry hother hne haccepts haccepts'
    by_contra hdiffer
    refine hcontended ⟨hvetoes, hanswers, entity, .inl ⟨?_, subject, other, lei, lei', hne, hdiffer, reach_of_entry hentry,
      reach_of_entry hother⟩⟩
    refine List.eq_nil_iff_forall_not_mem.2 fun held hheld => hdiffer ?_
    rw [← haccepts hvetoes held hheld, haccepts' hvetoes held hheld]
  have hstart : ({ s with bound := foundFor env db s pairs, held := [] } : Naming).held = [] := rfl
  rw [(named_of_turns (reached env db rule s pairs).nodup hapart hstart hfree).2]
  refine or_congr_right ⟨?_, ?_⟩
  · rintro ⟨lei, hentry, haccepts⟩
    exact ⟨lei, reach_of_entry hentry, haccepts⟩
  · rintro ⟨lei, hreach, haccepts⟩
    obtain ⟨last, hlast⟩ := entry_of_reach_lei hleis hreach
    refine ⟨last, hlast, fun hvetoes => ?_⟩
    by_contra hnot
    push Not at hnot
    obtain ⟨held, hheld, hne⟩ := hnot
    have heq := haccepts hvetoes
    refine hcontended ⟨hvetoes, hanswers, entity, .inr ⟨held, hheld, fun other hother => ?_, subject, last, hne.symm, ?_,
      reach_of_entry hlast⟩⟩
    · rw [heq other hother, heq held hheld]
    · rw [heq held hheld]
      exact hreach

end Rule

/-- The same is bound and the same is named. -/
structure Alike (s t : Naming) : Prop where
  bound : s.bound = t.bound
  named : ∀ subject, s.named.get? subject = t.named.get? subject

section Alike

variable {env : Env} {db : Tables} {rule : NameRule} {s t s' : Naming} {pairs pairs' : List (Named × Named)}

theorem Alike.symm (h : Alike s t) : Alike t s := ⟨h.bound.symm, fun subject => (h.named subject).symm⟩

variable (halike : Alike s t) (hperm : pairs.Perm pairs')

include halike hperm

theorem Alike.found : foundFor env db s pairs = foundFor env db t pairs' := by
  have hsubjects : Sorting.distinct (pairs.flatMap fun pair => [pair.1.subject, pair.2.subject]) =
      Sorting.distinct (pairs'.flatMap fun pair => [pair.1.subject, pair.2.subject]) :=
    Sorting.distinct_congr fun _ => (hperm.flatMap_right _).mem_iff
  rw [foundFor, foundFor, hsubjects, halike.bound]

theorem Alike.mem_open {pair : Named × Named} : pair ∈ openFor env db s pairs ↔ pair ∈ openFor env db t pairs' := by
  rw [mem_openFor, mem_openFor, halike.found hperm, halike.named, hperm.mem_iff]

theorem Alike.reach {subject entity lei : String} (h : Reach env db rule s pairs subject entity lei) :
    Reach env db rule t pairs' subject entity lei := by
  obtain ⟨pair, hopen, hpair⟩ := h.pair
  refine ⟨⟨pair, (halike.mem_open hperm).1 hopen, hpair⟩, fun pair hopen hsubject hmatches => ?_⟩
  rw [← halike.found hperm]
  exact h.only pair ((halike.mem_open hperm).2 hopen) hsubject hmatches

theorem Alike.contended (h : Contended env db rule s pairs) : Contended env db rule t pairs' := by
  refine ⟨h.vetoes, fun pair hopen => h.answers pair ((halike.mem_open hperm).2 hopen), ?_⟩
  obtain ⟨entity, ⟨hnone, subject, other, lei, lei', hne, hdiffer, hreach, hreach'⟩ |
    ⟨held, hheld, hall, subject, lei, hne, hreach, hreach'⟩⟩ := h.claims
  · exact ⟨entity, .inl ⟨hnone, subject, other, lei, lei', hne, hdiffer, halike.reach hperm hreach, halike.reach hperm hreach'⟩⟩
  · exact ⟨entity, .inr ⟨held, hheld, hall, subject, lei, hne, halike.reach hperm hreach, halike.reach hperm hreach'⟩⟩

theorem Alike.step_ok (h : matchRuleOver env db s (rule, pairs) = .ok s') :
    ∃ t', matchRuleOver env db t (rule, pairs') = .ok t' := by
  refine ⟨_, matchRuleOver_eq_ok.2 ⟨fun pair hopen => ?_, rfl⟩⟩
  exact (matchRuleOver_eq_ok.1 h).1 pair ((halike.mem_open hperm).2 hopen)

theorem Alike.step (hleis : ∀ pair ∈ pairs, ∃ lei, pair.1.lei = some lei) (hcontended : ¬ Contended env db rule s pairs)
    (h : matchRuleOver env db s (rule, pairs) = .ok s') :
    ∃ t', matchRuleOver env db t (rule, pairs') = .ok t' ∧ Alike s' t' := by
  obtain ⟨t', ht'⟩ := halike.step_ok hperm h
  refine ⟨t', ht', ?_, fun subject => Option.ext fun entity => ?_⟩
  · rw [(matchRuleOver_eq_ok.1 h).2, (matchRuleOver_eq_ok.1 ht').2, (turns_keep _ _).1, (turns_keep _ _).1]
    exact halike.found hperm
  · rw [named_of_uncontended hleis hcontended h,
      named_of_uncontended (fun pair hpair => hleis pair (hperm.mem_iff.2 hpair))
        (fun hother => hcontended (halike.symm.contended hperm.symm hother)) ht', halike.named]
    refine or_congr_right (exists_congr fun lei => and_congr_left fun _ => ?_)
    exact ⟨halike.reach hperm, halike.symm.reach hperm.symm⟩

end Alike

section Differing

variable {env : Env} {db : Tables} {rule : NameRule} {s : Naming} {pairs : List (Named × Named)}

theorem addReach_keys (bound : IndexMap String String) (pairs : List (Named × Named))
    (reach : IndexMap String (List String × Option String)) : reach.keys <+: (pairs.foldl (addReach bound) reach).keys := by
  induction pairs generalizing reach with
  | nil => exact List.prefix_rfl
  | cons pair rest ih =>
      refine List.IsPrefix.trans ?_ (ih (addReach bound reach pair))
      rw [addReach, IndexMap.keys_insert]
      split_ifs
      · exact List.prefix_rfl
      · exact List.prefix_append _ _

theorem addReach_keys_one {bound : IndexMap String String} {subject : String} {pairs : List (Named × Named)}
    (h : ∀ pair ∈ pairs, pair.1.subject = subject) (hne : pairs ≠ []) :
    (pairs.foldl (addReach bound) .empty).keys = [subject] := by
  induction pairs using List.reverseRecOn with
  | nil => exact absurd rfl hne
  | append_singleton front pair ih =>
      have hpair : pair.1.subject = subject := h pair (by simp)
      rw [List.foldl_append, List.foldl_cons, List.foldl_nil, addReach, IndexMap.keys_insert, hpair]
      by_cases hfront : front = []
      · subst hfront
        rfl
      · rw [ih (fun other hother => h other (List.mem_append_left _ hother)) hfront, if_pos List.mem_cons_self]

variable {front back : List (Named × Named)}

theorem last_decides {pairs' : List (Named × Named)} {subject entity lei : String} {pair : Named × Named}
    (hreach : Reach env db rule s pairs' subject entity lei)
    (hsplit : (openFor env db s pairs').filter (Matches env rule) = front ++ pair :: back) (hsubject : pair.1.subject = subject)
    (hback : ∀ other ∈ back, other.1.subject ≠ subject) (hlei : pair.1.lei = some lei) :
    (subject, [entity], some lei) ∈ (reached env db rule s pairs').entries := by
  obtain ⟨last, hentry, hlast⟩ := entry_of_reach hreach
  have hnone : back.filter (fun pair => pair.1.subject = subject) = [] :=
    List.filter_eq_nil_iff.2 fun other hother h => hback other hother (of_decide_eq_true h)
  have hpair : (pair :: back).filter (fun pair => pair.1.subject = subject) = [pair] := by
    rw [List.filter_cons, if_pos (decide_eq_true hsubject), hnone]
  rw [hsplit, List.filter_append, hpair, List.getLast?_append] at hlast
  have heq : some pair.1.lei = some last := hlast
  rw [← IndexMap.get?_eq_some_iff, hentry, ← Option.some_inj.1 heq, hlei]

theorem open_split {pair : Named × Named}
    (hopen : pair ∈ openFor env db s (front ++ pair :: back)) (hmatches : Matches env rule pair) :
    ∃ front' back', (openFor env db s (front ++ pair :: back)).filter (Matches env rule) = front' ++ pair :: back' ∧
      (∀ other, other ∈ front' → other ∈ front) ∧ ∀ other, other ∈ back' → other ∈ back := by
  have hopen' := hopen
  rw [openFor, openPairs, List.mem_filter] at hopen'
  rw [openFor, openPairs, List.filter_append, List.filter_append, List.filter_cons, if_pos hopen'.2, List.filter_cons,
    if_pos (decide_eq_true hmatches)]
  exact ⟨_, _, rfl, fun other h => (List.mem_filter.1 (List.mem_filter.1 h).1).1,
    fun other h => (List.mem_filter.1 (List.mem_filter.1 h).1).1⟩

theorem turn_of_last {pairs' : List (Named × Named)} {subject entity lei : String} {pair : Named × Named}
    (hperm : pairs.Perm pairs') (hsplit : pairs' = front ++ pair :: back)
    (hreach : Reach env db rule s pairs subject entity lei) (hopen : pair ∈ openFor env db s pairs)
    (hpair : pair.1.subject = subject) (hmatches : Matches env rule pair) (hlei : pair.1.lei = some lei)
    (hback : ∀ other ∈ back, other.1.subject ≠ subject) :
    (subject, [entity], some lei) ∈ (reached env db rule s pairs').entries := by
  have halike : Alike s s := ⟨rfl, fun _ => rfl⟩
  subst hsplit
  obtain ⟨front', back', heq, _, hback'⟩ := open_split ((halike.mem_open hperm).1 hopen) hmatches
  exact last_decides (halike.reach hperm hreach) heq hpair (fun other hother => hback other (hback' other hother)) hlei

/-- A candidate reads under the LEI its master holds, or under another: in the one order it joins, in the other it does not. -/
theorem differ_of_two_readings (hvetoes : rule.vetoes = true)
    (hanswers : ∀ pair ∈ openFor env db s pairs, ∃ outcome, env.compare rule.body pair.2.body pair.1.body = .ok outcome)
    {entity held subject lei : String} (hheld : held ∈ leisOf db entity) (hall : ∀ other ∈ leisOf db entity, other = held)
    (hreach : Reach env db rule s pairs subject entity lei) :
    ∃ pairs', pairs.Perm pairs' ∧ ∃ s', matchRuleOver env db s (rule, pairs') = .ok s' ∧
      s'.named.get? subject = if lei = held then some entity else none := by
  obtain ⟨pair, hopen, hpair, hmatches, hlei⟩ := hreach.pair
  have hmem := (mem_openFor.1 hopen).1
  have hperm : pairs.Perm (pairs.erase pair ++ [pair]) := (List.perm_cons_erase hmem).trans (List.perm_append_singleton _ _).symm
  have halike : Alike s s := ⟨rfl, fun _ => rfl⟩
  have hentry := turn_of_last hperm rfl hreach hopen hpair hmatches hlei fun other h => absurd h List.not_mem_nil
  obtain ⟨front, back, hsplit⟩ := List.append_of_mem hentry
  refine ⟨_, hperm, _, matchRuleOver_eq_ok.2 ⟨fun other hother => hanswers other ((halike.mem_open hperm).2 hother), rfl⟩, ?_⟩
  have hnodup := (reached env db rule s (pairs.erase pair ++ [pair])).nodup
  rw [hsplit] at hnodup ⊢
  rw [named_at_turn hnodup]
  have hfree : s.named.get? subject = none := hpair ▸ (mem_openFor.1 hopen).2.2.1
  by_cases heq : lei = held
  · rw [if_pos heq, if_pos]
    refine ⟨fun _ other hother => (hall other hother).trans heq.symm, fun _ row hrow hentity => ?_⟩
    have haccepted := turns_accepted (fun row hrow => absurd hrow List.not_mem_nil) front row hrow hvetoes held (hentity ▸ hheld)
    rw [← haccepted, heq]
  · rw [if_neg heq, if_neg fun h => heq (h.1 hvetoes held hheld).symm]
    exact hfree

/-- Two candidates come to one master under different LEIs: the first to come joins and keeps the other out. -/
theorem differ_of_two_candidates (hvetoes : rule.vetoes = true)
    (hanswers : ∀ pair ∈ openFor env db s pairs, ∃ outcome, env.compare rule.body pair.2.body pair.1.body = .ok outcome)
    {entity subject other lei lei' : String} (hnone : leisOf db entity = []) (hne : subject ≠ other) (hdiffer : lei ≠ lei')
    (hreach : Reach env db rule s pairs subject entity lei) (hreach' : Reach env db rule s pairs other entity lei') :
    ∃ pairs', pairs.Perm pairs' ∧ ∃ s', matchRuleOver env db s (rule, pairs') = .ok s' ∧
      s'.named.get? subject = some entity ∧ s'.named.get? other = none := by
  obtain ⟨pair, hopen, hpair, hmatches, hlei⟩ := hreach.pair
  obtain ⟨pair', hopen', hpair', hmatches', hlei'⟩ := hreach'.pair
  -- The pairs of the one come first, its own pair last of them, and the other's pair last of all.
  let own := pairs.filter fun p => p.1.subject = subject
  let rest := pairs.filter fun p => !(p.1.subject = subject)
  have hown : pair ∈ own := List.mem_filter.2 ⟨(mem_openFor.1 hopen).1, decide_eq_true hpair⟩
  have hrest : pair' ∈ rest := List.mem_filter.2 ⟨(mem_openFor.1 hopen').1, by simp [hpair', hne.symm]⟩
  have hperm : pairs.Perm ((own.erase pair ++ [pair]) ++ (rest.erase pair' ++ [pair'])) := by
    refine (List.filter_append_perm (fun p => p.1.subject = subject) pairs).symm.trans ?_
    exact ((List.perm_cons_erase hown).trans (List.perm_append_singleton _ _).symm).append
      ((List.perm_cons_erase hrest).trans (List.perm_append_singleton _ _).symm)
  have hfirsts : ∀ p ∈ own.erase pair, p.1.subject = subject := fun p hp =>
    of_decide_eq_true (List.mem_filter.1 (List.mem_of_mem_erase hp)).2
  have hothers : ∀ p ∈ rest.erase pair' ++ [pair'], p.1.subject ≠ subject := by
    intro p hp heq
    rcases List.mem_append.1 hp with hp | hp
    · have hnot := (List.mem_filter.1 (List.mem_of_mem_erase hp)).2
      simp [heq] at hnot
    · rw [List.mem_singleton.1 hp, hpair'] at heq
      exact hne heq.symm
  generalize own.erase pair = firsts at hperm hfirsts
  generalize rest.erase pair' = seconds at hperm hothers
  have hsplit : (firsts ++ [pair]) ++ (seconds ++ [pair']) = firsts ++ pair :: (seconds ++ [pair']) := by
    rw [List.append_assoc, List.singleton_append]
  have hsplit' : (firsts ++ [pair]) ++ (seconds ++ [pair']) = (firsts ++ [pair] ++ seconds) ++ pair' :: [] := by
    simp only [List.append_assoc]
  have hentry := turn_of_last hperm hsplit hreach hopen hpair hmatches hlei hothers
  have hentry' := turn_of_last hperm hsplit' hreach' hopen' hpair' hmatches' hlei' fun p h => absurd h List.not_mem_nil
  have halike : Alike s s := ⟨rfl, fun _ => rfl⟩
  have hopenA := (halike.mem_open hperm).1 hopen
  refine ⟨_, hperm, _, matchRuleOver_eq_ok.2 ⟨fun p hp => hanswers p ((halike.mem_open hperm).2 hp), rfl⟩, ?_⟩
  generalize hA : (firsts ++ [pair]) ++ (seconds ++ [pair']) = order at hentry hentry' hopenA ⊢
  obtain ⟨tail, htail⟩ : ∃ tail, (reached env db rule s order).entries = (subject, [entity], some lei) :: tail := by
    rw [hsplit] at hA
    subst hA
    obtain ⟨front', back', hmatching, hfront', _⟩ := open_split hopenA hmatches
    have hkeys : [subject] <+: (reached env db rule s (firsts ++ pair :: (seconds ++ [pair']))).keys := by
      have hone : ∀ p ∈ front' ++ [pair], p.1.subject = subject := by
        intro p hp
        rcases List.mem_append.1 hp with hp | hp
        · exact hfirsts p (hfront' p hp)
        · rw [List.mem_singleton.1 hp, hpair]
      have hassoc : front' ++ pair :: back' = (front' ++ [pair]) ++ back' := by
        rw [List.append_assoc, List.singleton_append]
      rw [reached, hmatching, hassoc, List.foldl_append, ← addReach_keys_one hone (by simp)]
      exact addReach_keys _ _ _
    cases hentries : (reached env db rule s (firsts ++ pair :: (seconds ++ [pair']))).entries with
    | nil =>
        rw [hentries] at hentry
        cases hentry
    | cons head tail =>
        rw [IndexMap.keys, hentries, List.map_cons, List.cons_prefix_cons] at hkeys
        have hhead : head = (subject, [entity], some lei) := by
          have hnodup := (reached env db rule s (firsts ++ pair :: (seconds ++ [pair']))).nodup
          exact List.inj_on_of_nodup_map hnodup (hentries ▸ List.mem_cons_self) hentry hkeys.1.symm
        exact ⟨tail, by rw [hhead]⟩
  have hnodup := (reached env db rule s order).nodup
  rw [htail] at hnodup hentry' ⊢
  have haccepts : Accepts db rule entity lei := fun _ held hheld => by
    rw [hnone] at hheld
    cases hheld
  constructor
  · have hfirst : (([] ++ (subject, [entity], some lei) :: tail).map Prod.fst).Nodup := hnodup
    exact (named_at_turn hfirst _).trans (if_pos ⟨haccepts, fun _ row hrow => absurd hrow List.not_mem_nil⟩)
  · rcases List.mem_cons.1 hentry' with heq | hin
    · exact absurd (congrArg Prod.fst heq).symm hne
    · obtain ⟨mid, back, rfl⟩ := List.append_of_mem hin
      rw [← List.cons_append] at hnodup ⊢
      rw [named_at_turn hnodup, if_neg]
      · exact hpair' ▸ (mem_openFor.1 hopen').2.2.1
      · -- The first has joined under its own LEI.
        rintro ⟨_, hrows⟩
        refine hdiffer (hrows hvetoes (entity, lei) ?_ rfl)
        rw [List.foldl_cons]
        refine (turns_keep _ mid).2.2 _ ?_
        rw [nameSubject_one, if_pos ⟨haccepts, fun _ row hrow => absurd hrow List.not_mem_nil⟩]
        exact List.mem_append_right _ (List.mem_singleton_self _)

theorem differ_of_contended (h : Contended env db rule s pairs) :
    ∃ order order', pairs.Perm order ∧ pairs.Perm order' ∧ ∃ t t', matchRuleOver env db s (rule, order) = .ok t ∧
      matchRuleOver env db s (rule, order') = .ok t' ∧ ∃ subject, t.named.get? subject ≠ t'.named.get? subject := by
  obtain ⟨entity, ⟨hnone, subject, other, lei, lei', hne, hdiffer, hreach, hreach'⟩ |
    ⟨held, hheld, hall, subject, lei, hne, hreach, hreach'⟩⟩ := h.claims
  · obtain ⟨order, hperm, t, ht, hbound, _⟩ := differ_of_two_candidates h.vetoes h.answers hnone hne hdiffer hreach hreach'
    obtain ⟨order', hperm', t', ht', _, hfree⟩ :=
      differ_of_two_candidates h.vetoes h.answers hnone hne.symm hdiffer.symm hreach' hreach
    exact ⟨order, order', hperm, hperm', t, t', ht, ht', subject, by rw [hbound, hfree]; exact Option.some_ne_none _⟩
  · obtain ⟨order, hperm, t, ht, hbound⟩ := differ_of_two_readings h.vetoes h.answers hheld hall hreach
    obtain ⟨order', hperm', t', ht', hfree⟩ := differ_of_two_readings h.vetoes h.answers hheld hall hreach'
    rw [if_pos rfl] at hbound
    rw [if_neg hne] at hfree
    exact ⟨order, order', hperm, hperm', t, t', ht, ht', subject, by rw [hbound, hfree]; exact Option.some_ne_none _⟩

end Differing

section Rules

variable {env : Env} {db : Tables} {stage : Stage} {rules : List NameRule} {bound : IndexMap String String}

theorem rulePairs_lei {rule : NameRule} {pair : Named × Named} (h : pair ∈ rulePairs db stage rule) :
    ∃ lei, pair.1.lei = some lei := by
  have hunder : ∀ {role : String} {candidates holders : List Named},
      pair ∈ pairsUnder db.nameKeys role candidates holders → ∃ lei, pair.1.lei = some lei := by
    intro role candidates holders hpair
    obtain ⟨candidate, _, hpair⟩ := List.mem_flatMap.1 hpair
    obtain ⟨holder, hholder, rfl⟩ := List.mem_map.1 hpair
    obtain ⟨lei, hlei, _⟩ := (Option.any_eq_true _ _).1 (List.mem_filter.1 hholder).2
    exact ⟨lei, hlei⟩
  rw [rulePairs, List.mem_dedup, List.mem_append, List.mem_append] at h
  rcases h with (h | h) | h
  · exact hunder h
  · exact hunder h
  · exact hunder h

theorem alike_run (h : ∀ front rule back, rules = front ++ rule :: back → ∀ turns s, Turns db stage front turns →
      matchNamesOver env db bound turns = .ok s → ¬ Contended env db rule s (rulePairs db stage rule))
    {turns turns' : List Turn} (hturns : Turns db stage rules turns) (hturns' : Turns db stage rules turns') {s : Naming}
    (hrun : matchNamesOver env db bound turns = .ok s) : ∃ s', matchNamesOver env db bound turns' = .ok s' ∧ Alike s s' := by
  induction rules using List.reverseRecOn generalizing turns turns' s with
  | nil =>
      cases hturns
      cases hturns'
      exact ⟨s, hrun, rfl, fun _ => rfl⟩
  | append_singleton front rule ih =>
      obtain ⟨turnsFront, last, rfl, hfront, hlast⟩ := Runs.forall₂_append_left hturns
      obtain ⟨turnsFront', last', rfl, hfront', hlast'⟩ := Runs.forall₂_append_left hturns'
      obtain ⟨turn, hturn, rfl⟩ : ∃ turn : Turn, (turn.1 = rule ∧ turn.2.Perm (rulePairs db stage rule)) ∧ last = [turn] := by
        cases hlast with
        | cons hhead hrest =>
            cases hrest
            exact ⟨_, hhead, rfl⟩
      obtain ⟨turn', hturn', rfl⟩ : ∃ turn : Turn, (turn.1 = rule ∧ turn.2.Perm (rulePairs db stage rule)) ∧ last' = [turn] := by
        cases hlast' with
        | cons hhead hrest =>
            cases hrest
            exact ⟨_, hhead, rfl⟩
      obtain ⟨_, order⟩ := turn
      obtain ⟨_, order'⟩ := turn'
      obtain ⟨rfl, hperm⟩ := hturn
      obtain ⟨rfl, hperm'⟩ := hturn'
      obtain ⟨mid, hmid, hrest⟩ := Runs.foldlM_append_eq_ok.1 hrun
      obtain ⟨_, hstep, hend⟩ := Runs.foldlM_cons_eq_ok.1 hrest
      cases Runs.foldlM_nil_eq_ok.1 hend
      obtain ⟨mid', hmid', halike⟩ := ih (fun front' rule back hsplit => h front' rule (back ++ [_])
        (by rw [hsplit, List.append_assoc, List.cons_append]))
        hfront hfront' hmid
      have hcontended : ¬ Contended env db _ mid order := fun hc =>
        h front _ [] rfl turnsFront mid hfront hmid ((⟨rfl, fun _ => rfl⟩ : Alike mid mid).contended hperm hc)
      obtain ⟨s', hs', halike'⟩ := halike.step (hperm.trans hperm'.symm)
        (fun pair hpair => rulePairs_lei (hperm.mem_iff.1 hpair)) hcontended hstep
      exact ⟨s', Runs.foldlM_append_eq_ok.2 ⟨mid', hmid', Runs.foldlM_cons_eq_ok.2 ⟨s', hs', rfl⟩⟩, halike'⟩

/-- The rules, however many of them are run, bind the same in every order of their pairs exactly when none is contended where it is run. -/
theorem names_order_free_iff (env : Env) (db : Tables) (stage : Stage) (bound : IndexMap String String) (rules : List NameRule) :
    (∀ front, front <+: rules → OrderFree env db stage bound front) ↔
      ∀ front rule back, rules = front ++ rule :: back → ∀ turns s, Turns db stage front turns →
        matchNamesOver env db bound turns = .ok s → ¬ Contended env db rule s (rulePairs db stage rule) := by
  constructor
  · rintro hfree front rule back rfl turns s hturns hrun hcontended
    obtain ⟨order, order', hperm, hperm', t, t', ht, ht', subject, hne⟩ := differ_of_contended hcontended
    have hrunOver : ∀ order t, matchRuleOver env db s (rule, order) = .ok t →
        matchNamesOver env db bound (turns ++ [(rule, order)]) = .ok t := fun order t ht =>
      Runs.foldlM_append_eq_ok.2 ⟨s, hrun, Runs.foldlM_cons_eq_ok.2 ⟨t, ht, rfl⟩⟩
    have hturnsOver : ∀ order, (rulePairs db stage rule).Perm order → Turns db stage (front ++ [rule]) (turns ++ [(rule, order)]) :=
      fun order hperm => List.rel_append hturns (.cons ⟨rfl, hperm.symm⟩ .nil)
    obtain ⟨s', hs', hsame⟩ := hfree (front ++ [rule]) ⟨back, by simp⟩ _ _ (hturnsOver order hperm) (hturnsOver order' hperm') t
      (hrunOver order t ht)
    cases (hrunOver order' t' ht').symm.trans hs'
    exact hne (hsame subject)
  · rintro h front ⟨back, rfl⟩ turns turns' hturns hturns' s hrun
    obtain ⟨s', hs', halike⟩ := alike_run (fun front' rule back' hsplit => h front' rule (back' ++ back) (by rw [hsplit]; simp))
      hturns hturns' hrun
    exact ⟨s', hs', halike.named⟩

end Rules

def countedFiler (lei : String) : Object :=
  .ofList [("identifiers", .obj []),
    ("provenance", .obj [("matching", .obj [("name_count", .obj [("leis", .arr [.arr [.str lei, .str "2026-01-01"]])])])])]

def leiRecord (lei : String) : Object := .ofList [("identifiers", .obj [("lei", .arr [.str lei])])]

/-- A holder and a candidate match when the holder's name count found the candidate's LEI. -/
def countEnv : Env :=
  { plainEnv (fun _ => "") 0 with
    compare := fun _ holder candidate =>
      .ok ((nameKeys holder).toOption.any fun keys => keys.any fun key => (leiOf candidate).toOption = some (some key.2), false) }

/-- One company of two filers, whose name counts found two LEIs. -/
def twoCounts : Tables :=
  { Tables.empty with
    records := .ofList [
      ("a1", ⟨"sec:1", some "company", some "company", "sec.company.v1", none, countedFiler "L1"⟩),
      ("a2", ⟨"sec:2", some "company", some "company", "sec.company.v1", none, countedFiler "L2"⟩)]
    nameKeys := [("name_count", "L1", "sec:1"), ("name_count", "L2", "sec:2")] }

def twoLeis : Stage where
  records := [⟨"b1", "gleif:L1", "gleif.level1.v1", some "L1", leiRecord "L1"⟩,
    ⟨"b2", "gleif:L2", "gleif.level1.v1", some "L2", leiRecord "L2"⟩]
  nameKeys := []
  nameIds := .empty

def countRule : NameRule := ⟨.empty, "gleif.level1.v1", "sec.company.v1", false, true, true⟩

def pairOf (lei filer : String) : Named × Named :=
  (⟨"gleif:" ++ lei, "gleif.level1.v1", some lei, leiRecord lei⟩, ⟨filer, "sec.company.v1", none, countedFiler lei⟩)

/-- The company takes whichever of the two records comes first. -/
theorem first_pair_joins : ¬ OrderFree countEnv twoCounts twoLeis .empty [countRule] ∧
    (matchNamesOver countEnv twoCounts .empty [(countRule, [pairOf "L1" "sec:1", pairOf "L2" "sec:2"])]).toOption.map
      (fun s => s.named.entries) = some [("gleif:L1", "company")] ∧
    (matchNamesOver countEnv twoCounts .empty [(countRule, [pairOf "L2" "sec:2", pairOf "L1" "sec:1"])]).toOption.map
      (fun s => s.named.entries) = some [("gleif:L2", "company")] := by
  have hpairs : rulePairs twoCounts twoLeis countRule = [pairOf "L1" "sec:1", pairOf "L2" "sec:2"] := by decide
  have hone : (matchNamesOver countEnv twoCounts .empty [(countRule, [pairOf "L1" "sec:1", pairOf "L2" "sec:2"])]).toOption.map
      (fun s => s.named.entries) = some [("gleif:L1", "company")] := by decide
  have htwo : (matchNamesOver countEnv twoCounts .empty [(countRule, [pairOf "L2" "sec:2", pairOf "L1" "sec:1"])]).toOption.map
      (fun s => s.named.entries) = some [("gleif:L2", "company")] := by decide
  refine ⟨fun hfree => ?_, hone, htwo⟩
  cases hrun : matchNamesOver countEnv twoCounts .empty [(countRule, [pairOf "L1" "sec:1", pairOf "L2" "sec:2"])] with
  | error e =>
      rw [hrun] at hone
      cases hone
  | ok s =>
      obtain ⟨s', hs', hsame⟩ := hfree _ [(countRule, [pairOf "L2" "sec:2", pairOf "L1" "sec:1"])]
        (.cons ⟨rfl, hpairs ▸ List.Perm.refl _⟩ .nil) (.cons ⟨rfl, hpairs ▸ List.Perm.swap _ _ []⟩ .nil) s hrun
      rw [hrun] at hone
      rw [hs'] at htwo
      have hfirst : s.named.entries = [("gleif:L1", "company")] := Option.some_inj.1 hone
      have hsecond : s'.named.entries = [("gleif:L2", "company")] := Option.some_inj.1 htwo
      have hsubject := hsame "gleif:L1"
      rw [IndexMap.get?, IndexMap.get?, hfirst, hsecond] at hsubject
      exact absurd hsubject (by decide)

end EdgarPlatform.Mastering
