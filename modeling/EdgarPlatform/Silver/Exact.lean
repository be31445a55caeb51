import EdgarPlatform.Library.Machines
import EdgarPlatform.Silver.Specs

/-!
# What a delivery leaves

Under every key a delivery leaves the delivered row where it holds one, and the landed row where it holds none, or nothing for a snapshot. Its counts are the differences of the two tables, and delivered again it changes nothing.
-/

namespace EdgarPlatform.Silver

variable {α : Type} [DecidableEq α] {sink : Sink α} {spec : Spec} {now : α}

variable {columns : List String}

omit [DecidableEq α] in
theorem setColumns_self {landed delivered : Cells α} (h : ∀ name ∈ columns, landed name = delivered name) :
    setColumns columns landed delivered = landed := by
  funext name
  rw [setColumns]
  split_ifs with hname
  · exact (h name hname).symm
  · rfl

theorem differs_eq_false {landed delivered : Cells α} :
    differs columns landed delivered = false ↔ ∀ name ∈ columns, landed name = delivered name := by
  simp [differs]

theorem update_differs (columns : List String) (landed delivered : Cells α) :
    ((some delivered).filter (differs columns landed)).elim landed (setColumns columns landed) = setColumns columns landed delivered := by
  rw [Option.filter_some]
  by_cases hdiffers : differs columns landed delivered = true
  · rw [if_pos hdiffers]
    rfl
  · rw [if_neg hdiffers, setColumns_self (differs_eq_false.1 (Bool.eq_false_iff.2 hdiffers))]
    rfl

/-- A landed row that a delivered one has been written over. Its time is new where its source columns changed. -/
def settled (spec : Spec) (now : α) (landed delivered : Cells α) : Cells α := fun name =>
  if name ∈ staged spec then delivered name
  else if name ∈ addedTime spec ∧ differs spec.names landed delivered then some now
  else landed name

def outcome (spec : Spec) (now : α) (delivered landed : Option (Cells α)) : Option (Cells α) :=
  match delivered, landed with
  | none, landed => if spec.loadMode = .snapshot then none else landed
  | some delivered, none => some (withTime spec now delivered)
  | some delivered, some landed => some (settled spec now landed delivered)

/-- The ids and the quality of a landed row, brought up to date. -/
def refreshed (spec : Spec) (landed delivered : Cells α) : Cells α :=
  setColumns (qualityColumns spec) (setColumns (mdmIdColumns spec) landed delivered) delivered

theorem Spec.Checked.name_not_filled (h : spec.Checked) {name : String} (hname : name ∈ spec.names) :
    name ∉ mdmIdColumns spec ∧ name ∉ qualityColumns spec := by
  have hnodup := (List.nodup_append.1 h.distinct).1
  rw [staged, List.append_assoc, List.nodup_append] at hnodup
  exact ⟨fun hmem => hnodup.2.2 name hname name (List.mem_append_left _ hmem) rfl,
    fun hmem => hnodup.2.2 name hname name (List.mem_append_right _ hmem) rfl⟩

omit [DecidableEq α] in
theorem refreshed_name (h : spec.Checked) {landed delivered : Cells α} {name : String} (hname : name ∈ spec.names) :
    refreshed spec landed delivered name = landed name := by
  obtain ⟨hids, hquality⟩ := h.name_not_filled hname
  rw [refreshed, setColumns, if_neg hquality, setColumns, if_neg hids]

theorem differs_refreshed (h : spec.Checked) (landed delivered : Cells α) :
    differs spec.names (refreshed spec landed delivered) delivered = differs spec.names landed delivered := by
  rw [Bool.eq_iff_iff, differs, differs, List.any_eq_true, List.any_eq_true]
  refine exists_congr fun name => and_congr_right fun hname => ?_
  rw [refreshed_name h hname]

omit [DecidableEq α] in
theorem mem_staged {name : String} : name ∈ staged spec ↔ name ∈ spec.names ∨ name ∈ mdmIdColumns spec ∨ name ∈ qualityColumns spec := by
  rw [staged, List.append_assoc, List.mem_append, List.mem_append]

theorem refreshed_eq_settled (landed delivered : Cells α) (hsame : differs spec.names landed delivered = false) :
    refreshed spec landed delivered = settled spec now landed delivered := by
  funext name
  simp only [refreshed, settled, setColumns, hsame]
  rw [differs_eq_false] at hsame
  by_cases hquality : name ∈ qualityColumns spec
  · rw [if_pos hquality, if_pos (quality_staged spec hquality)]
  · rw [if_neg hquality]
    by_cases hids : name ∈ mdmIdColumns spec
    · rw [if_pos hids, if_pos (mdmIds_staged spec hids)]
    · rw [if_neg hids]
      by_cases hname : name ∈ spec.names
      · rw [if_pos (names_staged spec hname)]
        exact hsame name hname
      · rw [if_neg (by rw [mem_staged]; exact fun h => h.elim hname fun h => h.elim hids hquality), if_neg (by simp)]

theorem setDelivered_eq_settled (h : spec.Checked) (landed delivered : Cells α) (hdiffers : differs spec.names landed delivered = true) :
    setDelivered spec now (refreshed spec landed delivered) delivered = settled spec now landed delivered := by
  funext name
  simp only [setDelivered, withTime, setColumns, settled, hdiffers, and_true]
  by_cases hadded : name ∈ addedTime spec
  · rw [if_pos hadded, if_neg (h.added_not_staged hadded), if_pos hadded]
  · rw [if_neg hadded, if_neg hadded]
    split_ifs with hstaged
    · rfl
    · rw [mem_staged, not_or, not_or] at hstaged
      rw [refreshed, setColumns, if_neg hstaged.2.2, setColumns, if_neg hstaged.2.1]

omit [DecidableEq α] in
theorem withTime_staged (h : spec.Checked) (delivered : Cells α) {name : String} (hname : name ∈ staged spec) :
    withTime spec now delivered name = delivered name :=
  if_neg fun hadded => h.added_not_staged hadded hname

omit [DecidableEq α] in
theorem refreshed_withTime (h : spec.Checked) (delivered : Cells α) :
    refreshed spec (withTime spec now delivered) delivered = withTime spec now delivered := by
  have hids : setColumns (mdmIdColumns spec) (withTime spec now delivered) delivered = withTime spec now delivered :=
    setColumns_self fun name hname => withTime_staged h delivered (mdmIds_staged spec hname)
  rw [refreshed, hids]
  exact setColumns_self fun name hname => withTime_staged h delivered (quality_staged spec hname)

theorem differs_withTime (h : spec.Checked) (hcolumns : ∀ name ∈ columns, name ∈ staged spec) (delivered : Cells α) :
    differs columns (withTime spec now delivered) delivered = false :=
  differs_eq_false.2 fun name hname => withTime_staged h delivered (hcolumns name hname)

theorem settled_staged {landed delivered : Cells α} {name : String} (hname : name ∈ staged spec) :
    settled spec now landed delivered name = delivered name := if_pos hname

theorem updateColumns_find (columns : List String) (target stage : Landed α spec) (k : List (Option α)) :
    (updateColumns sink spec columns target stage).2.find k =
      (target.find k).map fun landed => (stage.find k).elim landed (setColumns columns landed) := by
  rw [updateColumns]
  split_ifs with hnone
  · subst hnone
    have hsame : ∀ landed : Cells α, (stage.find k).elim landed (setColumns [] landed) = landed := fun landed => by
      cases stage.find k with
      | none => rfl
      | some delivered => exact setColumns_self fun name hname => (List.not_mem_nil hname).elim
    simp only [hsame]
    exact Option.map_id'.symm
  · rw [Keyed.Table.find_updateFrom]
    cases target.find k with
    | none => rfl
    | some landed =>
        cases stage.find k with
        | none => rfl
        | some delivered => exact congrArg some (update_differs columns landed delivered)

theorem updateColumns_keys (columns : List String) (target stage : Landed α spec) :
    (updateColumns sink spec columns target stage).2.rows.map (keyCells spec) = target.rows.map (keyCells spec) := by
  rw [updateColumns]
  split_ifs
  · rfl
  · exact Keyed.Table.keys_updateFrom (matchRows_iff sink spec) fun _ _ h => keyCells_setColumns spec columns h

/-- What a delivery leaves, and what it counts. -/
structure Applied (sink : Sink α) (spec : Spec) (now : α) (stage target : Landed α spec) (report : Report) (result : Landed α spec) : Prop where
  appended : spec.loadMode = .append → target.matching (matchRows sink spec) stage (differs spec.names) = 0
  find : ∀ k, result.find k = outcome spec now (stage.find k) (target.find k)
  keys : result.rows.map (keyCells spec) =
    (if spec.loadMode = .snapshot then (target.rows.map (keyCells spec)).filter fun k => (stage.find k).isSome
      else target.rows.map (keyCells spec)) ++ (stage.rows.map (keyCells spec)).filter fun k => (target.find k).isNone
  rows : report.rows = stage.rows.length
  inserted : report.inserted = (stage.rows.map (keyCells spec)).countP fun k => (target.find k).isNone
  changed : report.changed = target.rows.countP fun row => (stage.find (keyCells spec row)).any (differs spec.names row)
  deleted : report.deleted = if spec.loadMode = .snapshot then
    (target.rows.map (keyCells spec)).countP fun k => (stage.find k).isNone else 0

variable (sink now) in
theorem written_find (hchecked : spec.Checked) {stage target told : Landed α spec}
    (htold : ∀ k, told.find k = ((target.find k).or ((stage.find k).map (withTime spec now))).map fun landed =>
      (stage.find k).elim landed (refreshed spec landed)) (k : List (Option α)) :
    (if target.matching (matchRows sink spec) stage (differs spec.names) = 0 then told
      else told.updateFrom (matchRows sink spec) (matchRows_iff sink spec) stage (differs spec.names) (setDelivered spec now)
        fun _ _ h => keyCells_setDelivered hchecked now h).find k =
      match stage.find k, target.find k with
      | none, landed => landed
      | some delivered, none => some (withTime spec now delivered)
      | some delivered, some landed => some (settled spec now landed delivered) := by
  have hrefreshed := htold k
  cases hstage : stage.find k with
  | none =>
      have hkeeps : told.find k = target.find k := by
        rw [hrefreshed, hstage]
        simp
      split_ifs
      · exact hkeeps
      · rw [Keyed.Table.find_updateFrom, hstage, hkeeps]
        simp
  | some delivered =>
      cases htarget : target.find k with
      | none =>
          have hkeeps : told.find k = some (withTime spec now delivered) := by
            rw [hrefreshed, hstage, htarget]
            exact congrArg some (refreshed_withTime hchecked delivered)
          split_ifs
          · exact hkeeps
          · rw [Keyed.Table.find_updateFrom, hstage, hkeeps, Option.map_some, Option.filter_some,
              differs_withTime hchecked (fun _ => names_staged spec)]
            rfl
      | some landed =>
          have hkeeps : told.find k = some (refreshed spec landed delivered) := by
            rw [hrefreshed, hstage, htarget]
            rfl
          split_ifs with hnone
          · rw [hkeeps]
            refine congrArg some (refreshed_eq_settled landed delivered ?_)
            rw [Keyed.Table.matching_eq (matchRows_iff sink spec), List.countP_eq_zero] at hnone
            obtain ⟨hrow, rfl⟩ := Keyed.Table.find_eq_some.1 htarget
            have hnot := hnone landed hrow
            rwa [hstage, Option.any_some, Bool.not_eq_true] at hnot
          · rw [Keyed.Table.find_updateFrom, hstage, hkeeps, Option.map_some, Option.filter_some, differs_refreshed hchecked]
            by_cases hdiffers : differs spec.names landed delivered = true
            · rw [if_pos hdiffers]
              exact congrArg some (setDelivered_eq_settled hchecked landed delivered hdiffers)
            · rw [if_neg hdiffers]
              exact congrArg some (refreshed_eq_settled landed delivered (Bool.eq_false_iff.2 hdiffers))

/-- The rows with their ids and their quality brought up to date, the missing ones inserted. -/
def brought (sink : Sink α) (hchecked : spec.Checked) (now : α) (stage target : Landed α spec) : Landed α spec :=
  (updateColumns sink spec (qualityColumns spec) (updateColumns sink spec (mdmIdColumns spec)
    (target.insertMissing (matchRows sink spec) (matchRows_iff sink spec) stage (withTime spec now)
      (keyCells_withTime hchecked now)) stage).2 stage).2

variable (sink) in
theorem brought_find (hchecked : spec.Checked) (stage target : Landed α spec) (k : List (Option α)) :
    (brought sink hchecked now stage target).find k = ((target.find k).or ((stage.find k).map (withTime spec now))).map fun landed =>
      (stage.find k).elim landed (refreshed spec landed) := by
  rw [brought, updateColumns_find, updateColumns_find, Keyed.Table.find_insertMissing, Option.map_map]
  cases stage.find k with
  | none => rfl
  | some delivered => rfl

variable (sink now) in
theorem brought_keys (hchecked : spec.Checked) (stage target : Landed α spec) :
    (brought sink hchecked now stage target).rows.map (keyCells spec) =
      target.rows.map (keyCells spec) ++ (stage.rows.map (keyCells spec)).filter fun k => (target.find k).isNone := by
  rw [brought, updateColumns_keys, updateColumns_keys]
  exact Keyed.Table.keys_insertMissing (matchRows_iff sink spec) (keyCells_withTime hchecked now)

/-- The rows with the source columns that changed written again. -/
def rewritten (sink : Sink α) (hchecked : spec.Checked) (now : α) (stage target : Landed α spec) : Landed α spec :=
  if target.matching (matchRows sink spec) stage (differs spec.names) = 0 then brought sink hchecked now stage target
  else (brought sink hchecked now stage target).updateFrom (matchRows sink spec) (matchRows_iff sink spec) stage (differs spec.names)
    (setDelivered spec now) fun _ _ h => keyCells_setDelivered hchecked now h

variable (sink now) in
theorem rewritten_keys (hchecked : spec.Checked) (stage target : Landed α spec) :
    (rewritten sink hchecked now stage target).rows.map (keyCells spec) =
      target.rows.map (keyCells spec) ++ (stage.rows.map (keyCells spec)).filter fun k => (target.find k).isNone := by
  rw [rewritten, ← brought_keys sink now hchecked stage target]
  split_ifs
  · rfl
  · exact Keyed.Table.keys_updateFrom (matchRows_iff sink spec) fun _ _ h => keyCells_setDelivered hchecked now h

variable {stage target result : Landed α spec} {report : Report}

theorem applyStage_eq_ok (hchecked : spec.Checked)
    (h : applyStage sink spec hchecked now stage target = .ok (report, result)) : Applied sink spec now stage target report result := by
  have hkeys := rewritten_keys sink now hchecked stage target
  have hfind := written_find sink now hchecked (brought_find sink hchecked stage target)
  unfold applyStage at h
  by_cases hrefused : target.matching (matchRows sink spec) stage (differs spec.names) ≠ 0 ∧ spec.loadMode = .append
  · rw [if_pos hrefused] at h
    cases h
  · rw [if_neg hrefused] at h
    by_cases hsnapshot : spec.loadMode = .snapshot
    · simp only [if_pos hsnapshot] at h
      cases h
      refine ⟨fun happend => ?_, fun k => ?_, ?_, rfl, Keyed.Table.missing_eq (matchRows_iff sink spec),
        Keyed.Table.matching_eq (matchRows_iff sink spec) _, ?_⟩
      · rw [hsnapshot] at happend
        cases happend
      · refine (Keyed.Table.find_deleteUnmatched (matchRows_iff sink spec) k).trans ?_
        refine (congrArg (fun row => if ((stage.find k).isSome = true) then row else none) (hfind k)).trans ?_
        cases stage.find k with
        | none => exact (if_pos hsnapshot).symm
        | some delivered => cases target.find k <;> rfl
      · rw [if_pos hsnapshot]
        refine (Keyed.Table.keys_deleteUnmatched (matchRows_iff sink spec)).trans ?_
        refine (congrArg (List.filter _) hkeys).trans ?_
        rw [List.filter_append, List.filter_filter]
        congr 1
        apply List.filter_congr
        intro k hk
        obtain ⟨delivered, hdelivered⟩ := Keyed.Table.mem_keys.1 hk
        simp only [hdelivered, Option.isSome_some, Bool.true_and]
      · rw [if_pos hsnapshot]
        refine (Keyed.Table.unmatched_eq (matchRows_iff sink spec)).trans ?_
        refine (congrArg (List.countP _) hkeys).trans ?_
        rw [List.countP_append, Nat.add_eq_left, List.countP_eq_zero]
        intro k hk
        obtain ⟨delivered, hdelivered⟩ := Keyed.Table.mem_keys.1 (List.mem_of_mem_filter hk)
        simp [hdelivered]
    · simp only [if_neg hsnapshot] at h
      cases h
      refine ⟨fun happend => ?_, fun k => (hfind k).trans ?_, ?_, rfl, Keyed.Table.missing_eq (matchRows_iff sink spec),
        Keyed.Table.matching_eq (matchRows_iff sink spec) _, (if_neg hsnapshot).symm⟩
      · by_contra hchanged
        exact hrefused ⟨hchanged, happend⟩
      · cases stage.find k with
        | none => exact (if_neg hsnapshot).symm
        | some delivered => cases target.find k <;> rfl
      · rw [if_neg hsnapshot]
        exact hkeys

/-- A delivery whose rows are staged under keys of their own. -/
structure Staged (sink : Sink α) (spec : Spec) (rows : List Row) (stage : Landed α spec) : Prop where
  registered : ∃ found, sink.registered spec.table = .ok found ∧ spec = found.spec
  checked : spec.Checked
  strict : ¬ (sink.dialect = .mysql ∧ sink.strict = false)
  rows : rows.mapM (stageRow sink spec) = .ok stage.rows
  filled : ¬ (stage.rows = [] ∧ spec.loadMode = .snapshot)
  apart : keysApart sink spec stage.rows = true

theorem write_eq_ok {rows : List Row} {target : Landed α spec} {result : Report × Landed α spec}
    (h : write sink spec now rows target = .ok result) :
    ∃ stage hchecked, Staged sink spec rows stage ∧ applyStage sink spec hchecked now stage target = .ok result := by
  obtain ⟨found, hfound, h⟩ := Except.bind_eq_ok.1 h
  by_cases hspec : spec = found.spec
  · rw [dif_pos hspec] at h
    by_cases hstrict : sink.dialect = .mysql ∧ sink.strict = false
    · rw [if_pos hstrict] at h
      cases h
    · rw [if_neg hstrict] at h
      obtain ⟨stage, hstage, h⟩ := Except.bind_eq_ok.1 h
      by_cases hempty : stage = [] ∧ spec.loadMode = .snapshot
      · rw [if_pos hempty] at h
        cases h
      · rw [if_neg hempty] at h
        obtain ⟨table, htable, h⟩ := Except.bind_eq_ok.1 h
        unfold stageTable at htable
        split_ifs at htable with hapart
        cases htable
        exact ⟨_, _, ⟨⟨found, hfound, hspec⟩, hspec ▸ found.checked, hstrict, hstage, hempty, hapart⟩, h⟩
  · rw [dif_neg hspec] at h
    cases h

theorem Staged.write {rows : List Row} {stage : Landed α spec} (h : Staged sink spec rows stage) (now : α) (target : Landed α spec) :
    write sink spec now rows target = applyStage sink spec h.checked now stage target := by
  obtain ⟨found, hfound, hspec⟩ := h.registered
  have htable : stageTable sink spec stage.rows = .ok stage := by
    rw [stageTable, dif_pos h.apart]
  rw [Silver.write, hfound, Except.bind_ok, dif_pos hspec, if_neg h.strict, h.rows, Except.bind_ok, if_neg h.filled, htable,
    Except.bind_ok]

theorem Applied.delivered (h : Applied sink spec now stage target report result)
    (hchecked : spec.Checked) {k : List (Option α)} {row : Cells α} (hrow : stage.find k = some row) :
    ∃ kept, result.find k = some kept ∧ ∀ name ∈ staged spec, kept name = row name := by
  have hfind := h.find k
  rw [hrow] at hfind
  cases htarget : target.find k with
  | none =>
      rw [htarget] at hfind
      exact ⟨_, hfind, fun name hname => withTime_staged hchecked row hname⟩
  | some landed =>
      rw [htarget] at hfind
      exact ⟨_, hfind, fun name hname => settled_staged hname⟩

theorem Applied.matching_eq_zero
    (h : Applied sink spec now stage target report result) (hchecked : spec.Checked)
    (hcolumns : ∀ name ∈ columns, name ∈ staged spec) : result.matching (matchRows sink spec) stage (differs columns) = 0 := by
  rw [Keyed.Table.matching_eq (matchRows_iff sink spec), List.countP_eq_zero]
  intro kept hkept hany
  obtain ⟨row, hrow, hdiffers⟩ := (Option.any_eq_true _ _).1 hany
  obtain ⟨other, hother, hsame⟩ := h.delivered hchecked hrow
  have hfound := Keyed.find_of_mem result.unique hkept
  cases hfound.symm.trans hother
  rw [differs_eq_false.2 fun name hname => hsame name (hcolumns name hname)] at hdiffers
  cases hdiffers

theorem updateColumns_settled {stage target : Landed α spec}
    (h : target.matching (matchRows sink spec) stage (differs columns) = 0) :
    updateColumns sink spec columns target stage = (0, target) := by
  rw [updateColumns, h]
  split_ifs
  · rfl
  · rw [Keyed.Table.updateFrom_none _ h]

theorem Applied.again (h : Applied sink spec now stage target report result)
    (hchecked : spec.Checked) (later : α) : applyStage sink spec hchecked later stage result =
      .ok (⟨stage.rows.length, 0, 0, 0, 0, if qualityColumns spec = [] then none else some 0⟩, result) := by
  have hchanged := h.matching_eq_zero hchecked fun _ => names_staged spec
  have hids := h.matching_eq_zero hchecked fun _ => mdmIds_staged spec
  have hquality := h.matching_eq_zero hchecked fun _ => quality_staged spec
  have hmissing : result.missing (matchRows sink spec) stage = 0 := by
    rw [Keyed.Table.missing_eq (matchRows_iff sink spec), List.countP_eq_zero]
    intro k hk
    obtain ⟨row, hrow⟩ := Keyed.Table.mem_keys.1 hk
    obtain ⟨kept, hkept, _⟩ := h.delivered hchecked hrow
    simp [hkept]
  unfold applyStage
  rw [hchanged, if_neg (fun hboth => hboth.1 rfl), Keyed.Table.insertMissing_none _ hmissing, hmissing]
  simp only [updateColumns_settled hids, updateColumns_settled hquality, if_true]
  by_cases hsnapshot : spec.loadMode = .snapshot
  · have hunmatched : result.unmatched (matchRows sink spec) stage = 0 := by
      rw [Keyed.Table.unmatched_eq (matchRows_iff sink spec), List.countP_eq_zero]
      intro k hk hnone
      obtain ⟨kept, hkept⟩ := Keyed.Table.mem_keys.1 hk
      rw [Option.isNone_iff_eq_none] at hnone
      have hfind := h.find k
      rw [hnone, hkept] at hfind
      exact absurd (hfind.trans (if_pos hsnapshot)) (by simp)
    rw [if_pos hsnapshot, hunmatched, Keyed.Table.deleteUnmatched_none hunmatched]
  · rw [if_neg hsnapshot]

/-- What an accepted delivery of staged rows leaves and answers. -/
structure Exact (sink : Sink α) (spec : Spec) (rows : List Row) (stage target : Landed α spec) (report : Report)
    (result : Landed α spec) : Prop where
  /-- Every delivered row is there, with what it delivered. -/
  delivered : ∀ k row, stage.find k = some row → ∃ kept, result.find k = some kept ∧ ∀ name ∈ staged spec, kept name = row name
  /-- A row that is there but for its ids and its quality keeps its other columns, its time too. -/
  kept : ∀ k row old, stage.find k = some row → target.find k = some old → (∀ name ∈ spec.names, old name = row name) →
    ∃ kept, result.find k = some kept ∧ ∀ name, name ∉ mdmIdColumns spec → name ∉ qualityColumns spec → kept name = old name
  /-- A landed row no row was delivered for stays as it is, or goes from a snapshot. -/
  landed : ∀ k, stage.find k = none → result.find k = if spec.loadMode = .snapshot then none else target.find k
  appended : spec.loadMode = .append → ∀ k row old, stage.find k = some row → target.find k = some old →
    ∀ name ∈ spec.names, old name = row name
  counted : report.rows = rows.length
  inserted : report.inserted = (result.rows.map (keyCells spec)).countP fun k => (target.find k).isNone
  changed : report.changed = target.rows.countP fun old => (result.find (keyCells spec old)).any (differs spec.names old)
  deleted : report.deleted = (target.rows.map (keyCells spec)).countP fun k => (result.find k).isNone
  /-- The same rows delivered again, at any time, change nothing. -/
  again : ∀ later, write sink spec later rows result =
    .ok (⟨rows.length, 0, 0, 0, 0, if qualityColumns spec = [] then none else some 0⟩, result)

theorem differs_settled (landed delivered : Cells α) :
    differs spec.names landed (settled spec now landed delivered) = differs spec.names landed delivered := by
  rw [Bool.eq_iff_iff, differs, differs, List.any_eq_true, List.any_eq_true]
  refine exists_congr fun name => and_congr_right fun hname => ?_
  rw [settled_staged (names_staged spec hname)]

theorem Applied.exact {rows : List Row} {stage target result : Landed α spec} {report : Report}
    (h : Applied sink spec now stage target report result) (hstaged : Staged sink spec rows stage) :
    Exact sink spec rows stage target report result := by
  have hlength : stage.rows.length = rows.length := ((Runs.mapM_eq_ok.1 hstaged.rows).length_eq).symm
  refine ⟨fun k row => h.delivered hstaged.checked, fun k row old hrow hold hsame => ?_, fun k hnone => ?_,
    fun happend k row old hrow hold name hname => ?_, h.rows.trans hlength, ?_, ?_, ?_, fun later => ?_⟩
  · have hfind := h.find k
    rw [hrow, hold] at hfind
    refine ⟨_, hfind, fun name hids hquality => ?_⟩
    rw [settled, differs_eq_false.2 hsame]
    by_cases hname : name ∈ spec.names
    · rw [if_pos (names_staged spec hname)]
      exact (hsame name hname).symm
    · rw [if_neg (by rw [mem_staged]; exact fun hmem => hmem.elim hname fun hrest => hrest.elim hids hquality), if_neg (by simp)]
  · have hfind := h.find k
    rw [hnone] at hfind
    exact hfind
  · have hnothing := h.appended happend
    rw [Keyed.Table.matching_eq (matchRows_iff sink spec), List.countP_eq_zero] at hnothing
    obtain ⟨hmem, rfl⟩ := Keyed.Table.find_eq_some.1 hold
    have hnot := hnothing old hmem
    rw [hrow, Option.any_some, Bool.not_eq_true] at hnot
    exact differs_eq_false.1 hnot name hname
  · rw [h.inserted, h.keys, List.countP_append, List.countP_filter]
    have hold : (if spec.loadMode = .snapshot then (target.rows.map (keyCells spec)).filter fun k => (stage.find k).isSome
        else target.rows.map (keyCells spec)).countP (fun k => (target.find k).isNone) = 0 := by
      rw [List.countP_eq_zero]
      intro k hk
      have hmem : k ∈ target.rows.map (keyCells spec) := by
        split_ifs at hk
        · exact List.mem_of_mem_filter hk
        · exact hk
      obtain ⟨old, hold⟩ := Keyed.Table.mem_keys.1 hmem
      simp [hold]
    rw [hold, Nat.zero_add]
    simp only [Bool.and_self]
  · rw [h.changed]
    apply List.countP_congr
    intro old hmem
    have hfound : target.find (keyCells spec old) = some old := Keyed.find_of_mem target.unique hmem
    rw [h.find, hfound]
    cases stage.find (keyCells spec old) with
    | none =>
        show false = true ↔ ((if spec.loadMode = .snapshot then none else some old : Option (Cells α)).any _) = true
        split_ifs
        · simp
        · simp [differs]
    | some row =>
        show differs spec.names old row = true ↔ differs spec.names old (settled spec now old row) = true
        rw [differs_settled]
  · rw [h.deleted]
    by_cases hsnapshot : spec.loadMode = .snapshot
    · rw [if_pos hsnapshot]
      apply List.countP_congr
      intro k hk
      obtain ⟨old, hold⟩ := Keyed.Table.mem_keys.1 hk
      rw [h.find, hold]
      cases stage.find k with
      | none => simp [outcome, hsnapshot]
      | some row => simp [outcome]
    · rw [if_neg hsnapshot, eq_comm, List.countP_eq_zero]
      intro k hk
      obtain ⟨old, hold⟩ := Keyed.Table.mem_keys.1 hk
      rw [h.find, hold]
      cases stage.find k with
      | none => simp [outcome, hsnapshot]
      | some row => simp [outcome]
  · rw [hstaged.write, h.again hstaged.checked, hlength]

/-- Why a delivery is refused, whatever the rows are: it would empty a snapshot, or it holds a key twice, or it would change a landed row of a table that is only appended to. -/
inductive Refused (sink : Sink α) (spec : Spec) (rows : List Row) (target : Landed α spec) : Prop
  | empty : spec.loadMode = .snapshot → rows = [] → Refused sink spec rows target
  | twice (stage : List (Cells α)) : rows.mapM (stageRow sink spec) = .ok stage → ¬ (stage.map (keyCells spec)).Nodup →
      Refused sink spec rows target
  | changed (stage : List (Cells α)) (row old : Cells α) (name : String) : spec.loadMode = .append →
      rows.mapM (stageRow sink spec) = .ok stage → row ∈ stage → old ∈ target.rows → keyCells spec old = keyCells spec row →
      name ∈ spec.names → old name ≠ row name → Refused sink spec rows target

def deliver (sink : Sink α) (spec : Spec) (target : Landed α spec) (delivery : α × List Row) : Except String (Report × Landed α spec) :=
  write sink spec delivery.1 delivery.2 target

/-- A delivery that is accepted by the table it comes to. -/
def accepted (sink : Sink α) (spec : Spec) (target : Landed α spec) (delivery : α × List Row) : Option (α × List Row) :=
  (deliver sink spec target delivery).toOption.map fun _ => delivery

/-- A delivery with its rows as they are staged. -/
def Stages (sink : Sink α) (spec : Spec) (delivery : α × List Row) (stage : α × Landed α spec) : Prop :=
  stage.1 = delivery.1 ∧ delivery.2.mapM (stageRow sink spec) = .ok stage.2.rows

/-- Under each key a table holds what some deliveries, in their order, make of that key alone. -/
def HoldsOutcomes (sink : Sink α) (spec : Spec) (target : Landed α spec) (done : List (α × List Row)) (landed : Landed α spec) : Prop :=
  ∃ stages, List.Forall₂ (Stages sink spec) done stages ∧ ∀ k, landed.find k =
    stages.foldl (fun held stage => outcome spec stage.1 (stage.2.find k) held) (target.find k)

/-- **Deliveries one after another.** Whatever is delivered to a table, it holds under each key what the accepted deliveries make of that key, and no refused one shows. -/
theorem deliveries_by_key (sink : Sink α) (spec : Spec) (target : Landed α spec) (deliveries : List (α × List Row)) :
    HoldsOutcomes sink spec target (Machines.log (deliver sink spec) (accepted sink spec) target deliveries)
      (Machines.run (deliver sink spec) target deliveries) := by
  have hstep : ∀ done landed delivery, HoldsOutcomes sink spec target done landed → True →
      HoldsOutcomes sink spec target (done ++ (accepted sink spec landed delivery).toList)
        (Machines.after (deliver sink spec) landed delivery) := by
    rintro done landed delivery ⟨stages, hstages, hfind⟩ -
    rw [accepted, Machines.after]
    cases hdeliver : deliver sink spec landed delivery with
    | error e =>
        rw [Except.toOption, Option.map_none, Option.toList_none, List.append_nil]
        exact ⟨stages, hstages, hfind⟩
    | ok result =>
        obtain ⟨stage, hchecked, hstaged, happlied⟩ := write_eq_ok hdeliver
        have hlast := (applyStage_eq_ok hchecked happlied).find
        refine ⟨stages ++ [(delivery.1, stage)], List.rel_append hstages (.cons ⟨rfl, hstaged.rows⟩ .nil), fun k => ?_⟩
        rw [List.foldl_append, ← hfind]
        exact hlast k
  exact Machines.run_logs hstep ⟨[], .nil, fun _ => rfl⟩ (Machines.meets_true _ deliveries)

end EdgarPlatform.Silver
