import EdgarPlatform.Reductions.State

/-!
# What a reduction holds is what it counts

The bytes, keys and members counted as rows are filed are those of the state held, they stay within the plan's bounds, and nothing succeeds after a failure or a finish.
-/

namespace EdgarPlatform.Reductions

open Records (Json)

def memberSize (member : String) (last : Option String) : Nat :=
  jsonBytes (.str member) + jsonBytes (last.elim .null .str)

def voteSize (member : String) (n : Nat) : Nat := jsonBytes (.str member) + jsonBytes (.num (toString n))

namespace Entry

def kind : Entry → Mode
  | .count _ => .count
  | .members _ => .members
  | .most _ => .most

def bytes : Entry → Nat
  | .count n => jsonBytes (.num (toString n))
  | .members held => held.total memberSize
  | .most held => held.total voteSize

def memberCount : Entry → Nat
  | .count _ => 0
  | .members held => held.size
  | .most held => held.size

end Entry

def entrySize (key : List String) (entry : Entry) : Nat := jsonBytes (.arr (key.map .str)) + entry.bytes

namespace Reduction

def held (f : List String → Entry → Nat) (r : Reduction) : Nat := r.state.total fun _ held => held.total f

def heldBytes (r : Reduction) : Nat := r.held entrySize

def heldKeys (r : Reduction) : Nat := r.held fun _ _ => 1

def heldMembers (r : Reduction) : Nat := r.held fun _ entry => entry.memberCount

def prior (r : Reduction) (groupName : String) (row : Row) : Option Entry := (r.group groupName).get? row.key

end Reduction

theorem held_hold (f : List String → Entry → Nat) (r : Reduction) (groupName : String) (key : List String) (entry : Entry) :
    (r.hold groupName key entry).held f + ((r.group groupName).get? key).elim 0 (f key) = r.held f + f key entry := by
  have houter := IndexMap.total_insert (fun _ held => held.total f) r.state groupName ((r.group groupName).insert key entry)
  have hinner := IndexMap.total_insert f (r.group groupName) key entry
  have hgroup : (r.state.get? groupName).elim 0 (fun held => held.total f) = (r.group groupName).total f := by
    rw [Reduction.group]
    cases r.state.get? groupName with
    | none => rfl
    | some group => rfl
  rw [Reduction.held, Reduction.held, Reduction.hold]
  show IndexMap.total _ (r.state.insert groupName ((r.group groupName).insert key entry)) + _ = _
  simp only [hgroup] at houter
  omega

theorem prior_le_held (f : List String → Entry → Nat) (r : Reduction) (groupName : String) (key : List String) :
    ((r.group groupName).get? key).elim 0 (f key) ≤ r.held f := by
  have hinner := IndexMap.elim_le_total f (r.group groupName) key
  have houter := IndexMap.elim_le_total (fun _ held => held.total f) r.state groupName
  rw [Reduction.held]
  refine hinner.trans (le_trans (le_of_eq ?_) houter)
  rw [Reduction.group]
  cases r.state.get? groupName with
  | none => rfl
  | some group => rfl

/-- A row that is filed changes its entry as counted, and leaves every other as it was. -/
structure Filed (groupName : String) (spec : Group) (r : Reduction) (row : Row) (change : Change) (entry : Entry) : Prop where
  hchange : changeOf spec (r.prior groupName row) row = .ok change
  hbudget : ¬ (r.grow (r.prior groupName row).isNone row.key change).OverBudget
  hentry : fileEntry row ((r.prior groupName row).getD (startEntry spec.mode)) = .ok entry

variable {spec : Group} {row : Row} {groupName : String} {change : Change}

theorem fileChange_eq_ok {r next : Reduction} {prior : Option Entry}
    (h : r.fileChange groupName spec row prior change = .ok next) :
    ¬ (r.grow prior.isNone row.key change).OverBudget ∧ ∃ entry,
      fileEntry row (prior.getD (startEntry spec.mode)) = .ok entry ∧
        next = (r.grow prior.isNone row.key change).hold groupName row.key entry := by
  rw [Reduction.fileChange] at h
  split_ifs at h with hbudget
  rw [Reduction.fileEntryOf] at h
  cases hentry : fileEntry row (prior.getD (startEntry spec.mode)) with
  | error message =>
      rw [hentry] at h
      cases h
  | ok entry =>
      rw [hentry] at h
      exact ⟨hbudget, entry, rfl, (Except.ok.inj h).symm⟩

theorem fileRow_cases {r next : Reduction}
    (h : Reduction.fileRow groupName spec r row = .ok next) :
    ¬ Misfiled spec row ∧ r.selected groupName < r.plan.maxRows ∧
      ((spec.mode = .most ∧ row.member = none ∧ next = r.select groupName) ∨
        (¬ (spec.mode = .most ∧ row.member = none) ∧ ∃ change entry, Filed groupName spec (r.select groupName) row change entry ∧
          next = ((r.select groupName).grow ((r.select groupName).prior groupName row).isNone row.key change).hold groupName
            row.key entry)) := by
  rw [Reduction.fileRow] at h
  split_ifs at h with hrows
  rw [Reduction.fileSelected] at h
  split_ifs at h with hmisfiled hmost
  · exact ⟨hmisfiled, not_le.1 hrows, .inl ⟨hmost.1, Option.isNone_iff_eq_none.1 hmost.2, (Except.ok.inj h).symm⟩⟩
  · refine ⟨hmisfiled, not_le.1 hrows, .inr ⟨fun hnone => hmost ⟨hnone.1, Option.isNone_iff_eq_none.2 hnone.2⟩, ?_⟩⟩
    cases hchange : changeOf spec (((r.select groupName).group groupName).get? row.key) row with
    | error message =>
        rw [hchange] at h
        cases h
    | ok change =>
        rw [hchange] at h
        obtain ⟨hbudget, entry, hentry, hnext⟩ := fileChange_eq_ok h
        exact ⟨change, entry, ⟨hchange, hbudget, hentry⟩, hnext⟩

theorem memberSize_eq (member : String) (last : Option String) :
    memberSize member last = textBytes member + lastBytes last := by
  rw [memberSize, textBytes_eq, lastBytes_eq]

theorem voteSize_eq (member : String) (n : Nat) : voteSize member n = textBytes member + numberBytes n := by
  rw [voteSize, textBytes_eq, numberBytes_eq]

variable {member : String}

variable {held : IndexMap String (Option String)}

theorem memberChange_new (hget : held.get? member = none)
    (last : Option String) :
    memberChange (some (.members held)) member last = ⟨true, lastBytes last + textBytes member, 0⟩ := by
  simp only [memberChange, hget]
  rfl

theorem memberChange_held {old : Option String}
    (hget : held.get? member = some old) (last : Option String) :
    memberChange (some (.members held)) member last = ⟨false, lastBytes last, lastBytes old⟩ := by
  simp only [memberChange, hget]
  rfl

theorem voteChange_new {held : IndexMap String Nat} (hget : held.get? member = none) :
    voteChange (some (.most held)) member = ⟨true, textBytes member + 1, 0⟩ := by
  simp only [voteChange, hget]

theorem voteChange_held {held : IndexMap String Nat} {n : Nat} (hget : held.get? member = some n) :
    voteChange (some (.most held)) member = ⟨false, numberBytes (n + 1), numberBytes n⟩ := by
  simp only [voteChange, hget]

theorem memberChange_remove_le (prior : Option Entry) (member : String) (last : Option String) :
    (memberChange prior member last).remove ≤ prior.elim 0 Entry.bytes := by
  cases prior with
  | none => exact Nat.zero_le _
  | some entry =>
      cases entry with
      | count n => exact Nat.zero_le _
      | most held => exact Nat.zero_le _
      | members held =>
          show (held.get? member).elim 0 lastBytes ≤ held.total memberSize
          refine le_trans ?_ (IndexMap.elim_le_total memberSize held member)
          cases held.get? member with
          | none => exact Nat.zero_le _
          | some old =>
              show lastBytes old ≤ memberSize member old
              rw [memberSize_eq]
              exact Nat.le_add_left ..

theorem voteChange_remove_le (prior : Option Entry) (member : String) :
    (voteChange prior member).remove ≤ prior.elim 0 Entry.bytes := by
  cases prior with
  | none => exact Nat.zero_le _
  | some entry =>
      cases entry with
      | count n => exact Nat.zero_le _
      | members held => exact Nat.zero_le _
      | most held =>
          refine le_trans ?_ (IndexMap.elim_le_total voteSize held member)
          cases hget : held.get? member with
          | none =>
              rw [voteChange_new hget]
              exact Nat.zero_le _
          | some old =>
              rw [voteChange_held hget]
              show numberBytes old ≤ voteSize member old
              rw [voteSize_eq]
              exact Nat.le_add_left ..

theorem removed_le {prior : Option Entry}
    (h : changeOf spec prior row = .ok change) : change.remove ≤ prior.elim 0 Entry.bytes := by
  have hmember : ∀ prior : Option Entry, (∀ n, prior ≠ some (.count n)) → changeOf spec prior row = .ok change →
      change.remove ≤ prior.elim 0 Entry.bytes := by
    intro prior hcount h
    have hrest : changeOf spec prior row = if prior.isNone ∧ spec.mode = .count then .ok ⟨false, 1, 0⟩
        else row.member.elim (.error "Invalid reduction member") fun member =>
          .ok (if spec.mode = .most then voteChange prior member else memberChange prior member row.last) := by
      rw [changeOf]
      · cases row.member <;> rfl
      · exact hcount
    rw [hrest] at h
    by_cases hnew : prior.isNone ∧ spec.mode = .count
    · rw [if_pos hnew] at h
      exact Except.ok.inj h ▸ Nat.zero_le _
    · rw [if_neg hnew] at h
      cases hrow : row.member with
      | none =>
          rw [hrow] at h
          cases h
      | some member =>
          rw [hrow] at h
          rw [← Except.ok.inj h]
          split_ifs
          · exact voteChange_remove_le prior member
          · exact memberChange_remove_le prior member row.last
  by_cases hcount : ∃ n, prior = some (.count n)
  · obtain ⟨n, rfl⟩ := hcount
    exact Except.ok.inj h ▸ le_refl _
  · exact hmember prior (fun n heq => hcount ⟨n, heq⟩) h

/-- A filed entry is of its group's mode, and its sizes are those counted. -/
structure Counted (spec : Group) (prior : Option Entry) (change : Change) (entry : Entry) : Prop where
  kind : entry.kind = spec.mode
  bytes : entry.bytes + change.remove = prior.elim 0 Entry.bytes + change.add
  members : entry.memberCount = prior.elim 0 Entry.memberCount + change.newMember.toNat

theorem countUp_eq_ok {n m : Nat} (h : countUp n = .ok m) : m = n + 1 := by
  rw [countUp] at h
  split_ifs at h
  exact (Except.ok.inj h).symm

variable {entry : Entry}

theorem count_counted {n : Nat} (hmode : spec.mode = .count)
    (hentry : fileEntry row (.count n) = .ok entry) :
    Counted spec (some (.count n)) ⟨false, numberBytes (n + 1), numberBytes n⟩ entry := by
  obtain ⟨m, hm, rfl⟩ := Records.map_eq_ok.1 hentry
  cases countUp_eq_ok hm
  exact ⟨hmode.symm, Nat.add_comm _ _, rfl⟩

theorem members_counted
    (hmode : spec.mode = .members) (hmember : row.member = some member)
    (hentry : fileEntry row (.members held) = .ok entry) :
    Counted spec (some (.members held)) (memberChange (some (.members held)) member row.last) entry := by
  have hfiled : entry = .members (held.insert member row.last) := by
    rw [fileEntry, hmember] at hentry
    exact (Except.ok.inj hentry).symm
  subst hfiled
  have hbytes := IndexMap.total_insert memberSize held member row.last
  have hsize := IndexMap.total_insert (fun _ _ => 1) held member row.last
  rw [IndexMap.total_one, IndexMap.total_one] at hsize
  rw [memberSize_eq] at hbytes
  cases hget : held.get? member with
  | none =>
      rw [memberChange_new hget]
      rw [hget, Option.elim_none] at hbytes hsize
      refine ⟨hmode.symm, ?_, hsize⟩
      show (held.insert member row.last).total memberSize + 0
        = held.total memberSize + (lastBytes row.last + textBytes member)
      omega
  | some old =>
      rw [memberChange_held hget]
      rw [hget, Option.elim_some, memberSize_eq] at hbytes
      rw [hget, Option.elim_some] at hsize
      refine ⟨hmode.symm, ?_, ?_⟩
      · show (held.insert member row.last).total memberSize + lastBytes old = held.total memberSize + lastBytes row.last
        omega
      · show (held.insert member row.last).size = held.size + 0
        omega

theorem votes_counted {held : IndexMap String Nat}
    (hmode : spec.mode = .most) (hmember : row.member = some member) (hentry : fileEntry row (.most held) = .ok entry) :
    Counted spec (some (.most held)) (voteChange (some (.most held)) member) entry := by
  obtain ⟨n, hn, hfiled⟩ : ∃ n : Nat, countUp ((held.get? member).getD 0) = .ok n ∧ entry = .most (held.insert member n) := by
    rw [fileEntry, hmember] at hentry
    obtain ⟨_, hunwrap, hentry⟩ := Except.bind_eq_ok.1 hentry
    cases hunwrap
    obtain ⟨n, hn, hfiled⟩ := Except.bind_eq_ok.1 hentry
    exact ⟨n, hn, (Except.ok.inj hfiled).symm⟩
  subst hfiled
  have hbytes := IndexMap.total_insert voteSize held member n
  have hsize := IndexMap.total_insert (fun _ _ => 1) held member n
  rw [IndexMap.total_one, IndexMap.total_one] at hsize
  rw [voteSize_eq] at hbytes
  cases hget : held.get? member with
  | none =>
      rw [voteChange_new hget]
      rw [hget] at hn
      cases countUp_eq_ok hn
      rw [hget, Option.elim_none] at hbytes hsize
      have hone : numberBytes (Option.getD none 0 + 1) = 1 := rfl
      refine ⟨hmode.symm, ?_, hsize⟩
      show (held.insert member _).total voteSize + 0 = held.total voteSize + (textBytes member + 1)
      omega
  | some old =>
      rw [voteChange_held hget]
      rw [hget, Option.getD_some] at hn
      cases countUp_eq_ok hn
      rw [hget, Option.elim_some, voteSize_eq] at hbytes
      rw [hget, Option.elim_some] at hsize
      refine ⟨hmode.symm, ?_, ?_⟩
      · show (held.insert member _).total voteSize + numberBytes old = held.total voteSize + numberBytes (old + 1)
        omega
      · show (held.insert member _).size = held.size + 0
        omega

theorem Counted.of_start {entry start : Entry} (hbytes : start.bytes = 0)
    (hmembers : start.memberCount = 0) (h : Counted spec (some start) change entry) : Counted spec none change entry := by
  refine ⟨h.kind, ?_, ?_⟩
  · rw [h.bytes, Option.elim_some, Option.elim_none, hbytes]
  · rw [h.members, Option.elim_some, Option.elim_none, hmembers]

theorem changeOf_member {prior : Option Entry} (hmember : row.member = some member)
    (hprior : ∀ n, prior ≠ some (.count n)) (hmode : spec.mode ≠ .count) :
    changeOf spec prior row = .ok (if spec.mode = .most then voteChange prior member else memberChange prior member row.last) := by
  have hnone : ¬ (prior.isNone ∧ spec.mode = .count) := fun h => hmode h.2
  cases prior with
  | none => simp only [changeOf, hmember, if_neg hnone]
  | some entry =>
      cases entry with
      | count n => exact absurd rfl (hprior n)
      | members held => simp only [changeOf, hmember, if_neg hnone]
      | most held => simp only [changeOf, hmember, if_neg hnone]

theorem member_of_row (hrow : ¬ Misfiled spec row)
    (hfiled : ¬ (spec.mode = .most ∧ row.member = none)) (hmode : spec.mode ≠ .count) : ∃ member, row.member = some member := by
  refine Option.ne_none_iff_exists'.1 fun hnone => ?_
  cases hcase : spec.mode with
  | count => exact hmode hcase
  | members => exact hrow (.inr (.inr (.inl ⟨hcase, Option.isNone_iff_eq_none.2 hnone⟩)))
  | most => exact hfiled ⟨hcase, hnone⟩

variable {r : Reduction}

theorem Filed.counted
    (hkind : ∀ prior, r.prior groupName row = some prior → prior.kind = spec.mode) (hrow : ¬ Misfiled spec row)
    (hskip : ¬ (spec.mode = .most ∧ row.member = none)) (h : Filed groupName spec r row change entry) :
    Counted spec (r.prior groupName row) change entry := by
  obtain ⟨hchange, _, hentry⟩ := h
  generalize r.prior groupName row = prior at hkind hchange hentry
  by_cases hmode : spec.mode = .count
  · cases prior with
    | none =>
        have hstart : changeOf spec none row = .ok ⟨false, 1, 0⟩ := by
          simp only [changeOf, hmode, Option.isNone_none, and_self, if_true]
        rw [hstart] at hchange
        cases hchange
        rw [Option.getD_none, hmode] at hentry
        obtain ⟨m, hm, rfl⟩ := Records.map_eq_ok.1 (show (countUp 0).map .count = .ok entry from hentry)
        cases countUp_eq_ok hm
        exact ⟨hmode.symm, rfl, rfl⟩
    | some prior =>
        have hcount := hkind prior rfl
        rw [hmode] at hcount
        cases prior with
        | count n =>
            cases hchange
            exact count_counted hmode hentry
        | members held => cases hcount
        | most held => cases hcount
  · obtain ⟨member, hmember⟩ := member_of_row hrow hskip hmode
    have hnotCount : ∀ n, prior ≠ some (.count n) := fun n heq => hmode (hkind _ heq).symm
    rw [changeOf_member hmember hnotCount hmode] at hchange
    cases hchange
    cases hcase : spec.mode with
    | count => exact absurd hcase hmode
    | members =>
        rw [if_neg (by decide)]
        cases prior with
        | none =>
            rw [Option.getD_none, hcase] at hentry
            exact (members_counted hcase hmember hentry).of_start rfl rfl
        | some prior =>
            have hmembers := hkind prior rfl
            rw [hcase] at hmembers
            cases prior with
            | count n => cases hmembers
            | members held => exact members_counted hcase hmember hentry
            | most held => cases hmembers
    | most =>
        rw [if_pos rfl]
        cases prior with
        | none =>
            rw [Option.getD_none, hcase] at hentry
            exact (votes_counted hcase hmember hentry).of_start rfl rfl
        | some prior =>
            have hmost := hkind prior rfl
            rw [hcase] at hmost
            cases prior with
            | count n => cases hmost
            | members held => cases hmost
            | most held => exact votes_counted hcase hmember hentry

/-- The counts of a reduction are those of what it holds, within its plan, and each group holds entries of its mode. -/
structure Accounted (plan : Plan) (r : Reduction) : Prop where
  samePlan : r.plan = plan
  bytes : r.bytes = r.heldBytes
  keys : r.keys = r.heldKeys
  members : r.members = r.heldMembers
  budget : ¬ r.OverBudget
  kinds : ∀ groupName spec, plan.groups.get? groupName = some spec → ∀ key entry,
    (r.group groupName).get? key = some entry → entry.kind = spec.mode

theorem group_hold (r : Reduction) (groupName other : String) (key : List String) (entry : Entry) :
    (r.hold groupName key entry).group other
      = if other = groupName then (r.group groupName).insert key entry else r.group other := by
  show Option.getD ((r.state.insert groupName _).get? other) .empty = _
  rw [IndexMap.get?_insert]
  split_ifs
  · rfl
  · rfl

variable {plan : Plan}

theorem Accounted.select (h : Accounted plan r) (groupName : String) :
    Accounted plan (r.select groupName) :=
  ⟨h.samePlan, h.bytes, h.keys, h.members, h.budget, h.kinds⟩

theorem Accounted.entered (h : Accounted plan r) (groupName : String) :
    Accounted plan (r.entered groupName) :=
  ⟨h.samePlan, h.bytes, h.keys, h.members, h.budget, h.kinds⟩

theorem Accounted.filed
    (h : Accounted plan r) (hspec : plan.groups.get? groupName = some spec)
    (hfiled : Filed groupName spec r row change entry) (hcounted : Counted spec (r.prior groupName row) change entry) :
    Accounted plan ((r.grow (r.prior groupName row).isNone row.key change).hold groupName row.key entry) := by
  have hheld : ∀ f, ((r.grow (r.prior groupName row).isNone row.key change).hold groupName row.key entry).held f
      + (r.prior groupName row).elim 0 (f row.key) = r.held f + f row.key entry :=
    fun f => held_hold f (r.grow (r.prior groupName row).isNone row.key change) groupName row.key entry
  have hbytes := hheld entrySize
  have hkeys := hheld fun _ _ => 1
  have hmembers := hheld fun _ entry => entry.memberCount
  have hownBytes := hcounted.bytes
  have hownMembers := hcounted.members
  have hprior := prior_le_held entrySize r groupName row.key
  have hremove := removed_le hfiled.hchange
  refine ⟨h.samePlan, ?_, ?_, ?_, hfiled.hbudget, ?_⟩
  · show r.bytes + change.add + (if (r.prior groupName row).isNone then keyBytes row.key else 0) - change.remove = _
    rw [h.bytes, Reduction.heldBytes, Reduction.heldBytes]
    change Option.elim (r.prior groupName row) 0 (entrySize row.key) ≤ r.held entrySize at hprior
    generalize ((r.grow (r.prior groupName row).isNone row.key change).hold groupName row.key entry).held entrySize
      = total at hbytes ⊢
    cases hcase : r.prior groupName row with
    | none =>
        rw [hcase] at hbytes hownBytes
        simp only [Option.elim_none, entrySize] at hbytes hownBytes
        rw [Option.isNone_none, if_pos rfl, keyBytes_eq]
        omega
    | some prior =>
        rw [hcase] at hbytes hownBytes hremove hprior
        simp only [Option.elim_some, entrySize] at hbytes hownBytes hremove hprior
        rw [Option.isNone_some, if_neg (by decide)]
        omega
  · show r.keys + (r.prior groupName row).isNone.toNat = _
    rw [h.keys, Reduction.heldKeys, Reduction.heldKeys]
    cases hcase : r.prior groupName row with
    | none =>
        rw [hcase, Option.elim_none] at hkeys
        exact hkeys.symm
    | some prior =>
        rw [hcase, Option.elim_some] at hkeys
        exact (Nat.add_right_cancel hkeys).symm
  · show r.members + change.newMember.toNat = _
    rw [h.members, Reduction.heldMembers, Reduction.heldMembers]
    cases hcase : r.prior groupName row with
    | none =>
        rw [hcase, Option.elim_none] at hmembers hownMembers
        omega
    | some prior =>
        rw [hcase, Option.elim_some] at hmembers hownMembers
        omega
  · intro other otherSpec hother key held hget
    rw [group_hold] at hget
    split_ifs at hget with hname
    · subst hname
      cases hspec.symm.trans hother
      rw [IndexMap.get?_insert] at hget
      split_ifs at hget with hkey
      · exact Option.some.inj hget ▸ hcounted.kind
      · exact h.kinds other spec hspec key held hget
    · exact h.kinds other otherSpec hother key held hget

theorem Accounted.remove_le
    (h : Accounted plan r) (hchange : changeOf spec (r.prior groupName row) row = .ok change) : change.remove ≤ r.bytes := by
  have hprior : (r.prior groupName row).elim 0 (entrySize row.key) ≤ r.held entrySize :=
    prior_le_held entrySize r groupName row.key
  rw [h.bytes, Reduction.heldBytes]
  refine (removed_le hchange).trans (le_trans ?_ hprior)
  cases r.prior groupName row with
  | none => exact Nat.zero_le _
  | some prior => exact Nat.le_add_left ..

theorem Accounted.fileRow {r next : Reduction}
    (h : Accounted plan r) (hspec : plan.groups.get? groupName = some spec)
    (hrow : Reduction.fileRow groupName spec r row = .ok next) : Accounted plan next := by
  obtain ⟨hshape, _, hpassed | ⟨hfile, change, entry, hfiled, hnext⟩⟩ := fileRow_cases hrow
  · rw [hpassed.2.2]
    exact h.select groupName
  · have hselect := h.select groupName
    rw [hnext]
    exact hselect.filed hspec hfiled (hfiled.counted (fun prior => hselect.kinds groupName spec hspec row.key prior) hshape hfile)

theorem Accounted.fileRows {r next : Reduction} {rows : List Row}
    (h : Accounted plan r) (hspec : plan.groups.get? groupName = some spec)
    (hrows : rows.foldlM (Reduction.fileRow groupName spec) r = .ok next) : Accounted plan next :=
  Runs.run_invariant (fun _ mid => Accounted plan mid) hrows h fun _ _ _ _ _ _ hmid hstep => hmid.fileRow hspec hstep

theorem push_eq_ok {r next : Reduction} {rows : List Row} (h : r.push groupName rows = (.ok (), next)) :
    r.ready = .ok () ∧ ∃ spec, r.plan.groups.get? groupName = some spec ∧
      rows.foldlM (Reduction.fileRow groupName spec) (r.entered groupName) = .ok next := by
  rw [Reduction.push, Reduction.pushInner] at h
  cases hready : r.ready with
  | error message =>
      simp only [hready] at h
      cases h
  | ok _ =>
      simp only [hready] at h
      cases hspec : r.plan.groups.get? groupName with
      | none =>
          simp only [hspec] at h
          cases h
      | some spec =>
          cases hstate : r.state.get? groupName with
          | none =>
              simp only [hspec, hstate] at h
              cases h
          | some group =>
              simp only [hspec, hstate] at h
              refine ⟨rfl, spec, rfl, ?_⟩
              cases hrun : rows.foldlM (Reduction.fileRow groupName spec) (r.entered groupName) with
              | error failure =>
                  rw [hrun] at h
                  cases h
              | ok filed =>
                  rw [hrun] at h
                  cases h
                  rfl

/-- Pushes that all succeed, from one state to another. -/
inductive Pushed (start : Reduction) : List (String × List Row) → Reduction → Prop
  | start : Pushed start [] start
  | push {pushes : List (String × List Row)} {r next : Reduction} {groupName : String} {rows : List Row}
      (hrun : Pushed start pushes r) (h : r.push groupName rows = (.ok (), next)) :
      Pushed start (pushes ++ [(groupName, rows)]) next

theorem group_start (plan : Plan) (groupName : String) : (Reduction.start plan).group groupName = .empty := by
  rw [Reduction.group]
  cases hget : (Reduction.start plan).state.get? groupName with
  | none => rfl
  | some group =>
      rw [Reduction.start, IndexMap.get?_ofList] at hget
      · obtain ⟨_, _, heq⟩ := List.mem_map.1 hget
        exact (Prod.mk.inj heq).2.symm
      · rw [List.map_map]
        show (plan.groups.keys.map fun text => text).Nodup
        rw [List.map_id']
        exact plan.groups.keys_nodup

theorem held_start (f : List String → Entry → Nat) (plan : Plan) : (Reduction.start plan).held f = 0 := by
  rw [Reduction.held, IndexMap.total]
  refine List.sum_eq_zero fun n hn => ?_
  obtain ⟨⟨groupName, group⟩, hmem, rfl⟩ := List.mem_map.1 hn
  have hgroup := group_start plan groupName
  rw [Reduction.group, IndexMap.get?_eq_some_iff.2 hmem, Option.getD_some] at hgroup
  subst hgroup
  rfl

theorem accounted_start (plan : Plan) : Accounted plan (Reduction.start plan) := by
  refine ⟨rfl, (held_start _ plan).symm, (held_start _ plan).symm, (held_start _ plan).symm, ?_, ?_⟩
  · rintro (h | h | h) <;> exact absurd h (Nat.not_lt_zero _)
  · intro groupName spec _ key entry hget
    rw [group_start] at hget
    cases hget

variable {pushes : List (String × List Row)}

theorem Pushed.accounted
    (h : Pushed (Reduction.start plan) pushes r) : Accounted plan r := by
  induction h with
  | start => exact accounted_start plan
  | push hrun hpush ih =>
      obtain ⟨_, spec, hspec, hrows⟩ := push_eq_ok hpush
      exact (ih.entered _).fileRows (ih.samePlan ▸ hspec) hrows

inductive Call
  | push (groupName : String) (rows : List Row)
  | finish
  | invalidate

def Reduction.after (r : Reduction) : Call → Reduction
  | .push groupName rows => (r.push groupName rows).2
  | .finish => r.finish.2
  | .invalidate => r.invalidate

def Reduction.Refuses (r : Reduction) : Prop :=
  (∀ groupName rows, ∃ message, (r.push groupName rows).1 = .error message) ∧ ∃ message, r.finish.1 = .error message

theorem ready_eq_error (h : r.failed = true ∨ r.finished = true) : ∃ message, r.ready = .error message := by
  rw [Reduction.ready]
  split_ifs with hfailed hfinished
  · exact ⟨_, rfl⟩
  · exact ⟨_, rfl⟩
  · exact absurd h (not_or.2 ⟨hfailed, hfinished⟩)

theorem pushInner_closed {message : String} (h : r.ready = .error message) (groupName : String)
    (rows : List Row) : r.pushInner groupName rows = .error ⟨message, r⟩ := by
  rw [Reduction.pushInner, h]

theorem push_closed {message : String} (h : r.ready = .error message) (groupName : String)
    (rows : List Row) : r.push groupName rows = (.error message, r.invalidate) := by
  rw [Reduction.push, pushInner_closed h]

theorem finish_closed {message : String} (h : r.ready = .error message) :
    r.finish = (.error message, r) := by
  rw [Reduction.finish, h]

theorem refuses_of_closed (h : r.failed = true ∨ r.finished = true) : r.Refuses := by
  obtain ⟨message, hready⟩ := ready_eq_error h
  refine ⟨fun groupName rows => ⟨message, ?_⟩, message, ?_⟩
  · rw [push_closed hready]
  · rw [finish_closed hready]

theorem closed_after (h : r.failed = true ∨ r.finished = true) (calls : List Call) :
    (calls.foldl Reduction.after r).failed = true ∨ (calls.foldl Reduction.after r).finished = true := by
  induction calls generalizing r with
  | nil => exact h
  | cons call rest ih =>
      refine ih ?_
      obtain ⟨message, hready⟩ := ready_eq_error h
      cases call with
      | push groupName rows =>
          rw [Reduction.after, push_closed hready]
          exact .inl rfl
      | finish =>
          rw [Reduction.after, finish_closed hready]
          exact h
      | invalidate => exact .inl rfl

theorem failed_of_push {r left : Reduction} {groupName message : String} {rows : List Row}
    (h : r.push groupName rows = (.error message, left)) : left.failed = true := by
  rw [Reduction.push] at h
  cases hrun : r.pushInner groupName rows with
  | error failure =>
      rw [hrun] at h
      cases h
      rfl
  | ok next =>
      rw [hrun] at h
      cases h

theorem closed_of_finish {r left : Reduction} {result : Except String Json} (h : r.finish = (result, left)) :
    left.failed = true ∨ left.finished = true := by
  cases hready : r.ready with
  | error message =>
      rw [finish_closed hready] at h
      cases h
      by_contra hopen
      rw [not_or, Bool.not_eq_true, Bool.not_eq_true] at hopen
      rw [Reduction.ready, if_neg (by rw [hopen.1]; decide), if_neg (by rw [hopen.2]; decide)] at hready
      cases hready
  | ok _ =>
      rw [Reduction.finish, hready] at h
      simp only at h
      split_ifs at h with hbudget
      · cases h
        exact .inl rfl
      · cases h
        exact .inr rfl

/-- The counts of every state reached are those of what it holds and within its plan, no row takes away more than is
counted, and after a push that fails, or a finish, no call succeeds. -/
theorem reduction_accounts {raw : Json} {start : Reduction} (hnew : Reduction.new raw = .ok start) :
    (∀ pushes r, Pushed start pushes r →
      (r.bytes = r.heldBytes ∧ r.keys = r.heldKeys ∧ r.members = r.heldMembers) ∧
      (r.bytes ≤ start.plan.maxStateBytes ∧ r.keys ≤ start.plan.maxKeys ∧ r.members ≤ start.plan.maxMembers) ∧
      ∀ (groupName : String) (spec : Group) (front : List Row) (mid : Reduction) (row : Row) (change : Change),
        r.plan.groups.get? groupName = some spec →
        front.foldlM (Reduction.fileRow groupName spec) (r.entered groupName) = .ok mid →
        changeOf spec (mid.prior groupName row) row = .ok change → change.remove ≤ mid.bytes) ∧
    (∀ (r left : Reduction) (groupName : String) (rows : List Row) (message : String),
      r.push groupName rows = (.error message, left) → ∀ calls : List Call, (calls.foldl Reduction.after left).Refuses) ∧
    ∀ (r left : Reduction) (result : Except String Json), r.finish = (result, left) →
      ∀ calls : List Call, (calls.foldl Reduction.after left).Refuses := by
  obtain ⟨plan, hplan, rfl⟩ := Records.map_eq_ok.1 hnew
  refine ⟨fun pushes r hrun => ?_, fun r left groupName rows message hpush calls => ?_, fun r left result hfinish calls => ?_⟩
  · have haccounted := hrun.accounted
    have hbudget := haccounted.budget
    rw [Reduction.OverBudget, haccounted.samePlan, not_or, not_or] at hbudget
    refine ⟨⟨haccounted.bytes, haccounted.keys, haccounted.members⟩,
      ⟨not_lt.1 hbudget.2.2, not_lt.1 hbudget.1, not_lt.1 hbudget.2.1⟩, ?_⟩
    intro groupName spec front mid row change hspec hfront hchange
    rw [haccounted.samePlan] at hspec
    have hmid := (haccounted.entered groupName).fileRows hspec hfront
    exact hmid.remove_le hchange
  · exact refuses_of_closed (closed_after (.inl (failed_of_push hpush)) calls)
  · exact refuses_of_closed (closed_after (closed_of_finish hfinish) calls)

/-- A plan whose group keeps the members of a key, one of them as a sample with the value filed last. -/
def holdersPlan (maxStateBytes maxOutputRows : String) : Json :=
  .obj [("max_rows", .num "100"), ("max_input_bytes", .num "1024"), ("max_state_bytes", .num maxStateBytes),
    ("max_keys", .num "100"), ("max_members", .num "100"), ("max_output_rows", .num maxOutputRows),
    ("max_output_bytes", .num "1024"),
    ("groups", .obj [("all", .obj [("source", .str "main"), ("table", .str "rows"), ("keys", .arr [.str "key"]),
      ("mode", .str "members"), ("member", .str "holder"), ("last", .str "time"), ("count", .str "count"),
      ("sample", .str "sample"), ("sample_limit", .num "1")])])]

def holderRow (key member last : String) : Row := ⟨[key], some member, some last⟩

def pushAll (start : Reduction) (pushes : List (String × List Row)) : Option Reduction :=
  pushes.foldlM (fun r entry =>
    match r.push entry.1 entry.2 with
    | (.ok (), next) => some next
    | _ => none) start

theorem pushed_of_pushAll {start next : Reduction} (h : pushAll start pushes = some next) :
    Pushed start pushes next := by
  induction pushes using List.reverseRecOn generalizing next with
  | nil =>
      cases h
      exact .start
  | append_singleton front entry ih =>
      rw [pushAll, List.foldlM_append] at h
      obtain ⟨mid, hmid, h⟩ := Option.bind_eq_some_iff.1 h
      rw [List.foldlM_cons] at h
      obtain ⟨last, hlast, h⟩ := Option.bind_eq_some_iff.1 h
      cases h
      refine .push (ih hmid) ?_
      cases hpush : mid.push entry.1 entry.2 with
      | mk result left =>
          rw [hpush] at hlast
          cases result with
          | error message => cases hlast
          | ok _ =>
              cases hlast
              rfl

/-- The state of a new reduction after some pushes that all succeed. -/
def pushNew (raw : Json) (pushes : List (String × List Row)) : Option Reduction :=
  (Reduction.new raw).toOption.bind fun start => pushAll start pushes

theorem new_of_toOption {raw : Json} {start : Reduction} (h : (Reduction.new raw).toOption = some start) :
    Reduction.new raw = .ok start := by
  cases hresult : Reduction.new raw with
  | error message =>
      rw [hresult] at h
      cases h
  | ok found =>
      rw [hresult] at h
      cases h
      rfl

theorem pushed_of_pushNew {raw : Json} (h : pushNew raw pushes = some r) :
    ∃ start, Reduction.new raw = .ok start ∧ Pushed start pushes r := by
  obtain ⟨start, hnew, hpushed⟩ := Option.bind_eq_some_iff.1 h
  exact ⟨start, new_of_toOption hnew, pushed_of_pushAll hpushed⟩

/-- A value filed again is counted in the place of the one before it. -/
theorem reduction_accounts_holders : ∃ start r, Reduction.new (holdersPlan "1024" "100") = .ok start ∧
    Pushed start [("all", [holderRow "a" "A" "first"]), ("all", [holderRow "a" "A" "x"])] r ∧
      r.bytes = r.heldBytes ∧ r.bytes = 11 := by
  have hrun : (pushNew (holdersPlan "1024" "100")
      [("all", [holderRow "a" "A" "first"]), ("all", [holderRow "a" "A" "x"])]).map Reduction.bytes = some 11 := by
    decide +kernel
  obtain ⟨r, hpushed, hbytes⟩ := Option.map_eq_some_iff.1 hrun
  obtain ⟨start, hstart, hpushed⟩ := pushed_of_pushNew hpushed
  exact ⟨start, r, hstart, hpushed, ((reduction_accounts hstart).1 _ _ hpushed).1.1, hbytes⟩

end EdgarPlatform.Reductions
