import EdgarPlatform.Relationships.Agreeing
import EdgarPlatform.Records.Matching

/-!
# Preparing again

What is returned once is stored, and the starts it puts back the next time are those it took the first: of periods alike but for their starts only the first takes one, and it is the earliest. So a run over its own output changes nothing.
-/

namespace EdgarPlatform.Relationships

open Records (Calendar Env Json Object readText hasValue valuesMatch)

variable {calendar : Calendar} {anyBasis : Bool}

/-- A period takes the start of another: its own may be moved, and the two differ only there. -/
def movable (anyBasis : Bool) (period : Object) : Bool := anyBasis || isText period "valid_from_basis" "observed"

def Takes (anyBasis : Bool) (period own : Object) : Prop :=
  movable anyBasis own = true ∧ valuesMatch (withoutStart anyBasis period) (withoutStart anyBasis own) = true

/-- A period with another start written, on any basis with the basis of it. -/
def StartMoved (anyBasis : Bool) (period moved : Object) : Prop :=
  ∃ start, moved = period.insert "valid_from" start ∨
    anyBasis = true ∧ ∃ basis, moved = (period.insert "valid_from" start).insert "valid_from_basis" basis

theorem moveStart_moved {period s : Object} {value : Json} (h : s.get? "valid_from" = some value) :
    StartMoved anyBasis period (moveStart anyBasis s period) := by
  refine ⟨value, ?_⟩
  cases anyBasis with
  | false =>
      refine .inl ?_
      simp only [moveStart, Bool.false_eq_true, if_false, List.foldl_cons, List.foldl_nil, copyField, h, Option.elim]
  | true =>
      simp only [moveStart, if_true, List.foldl_cons, List.foldl_nil, copyField, h, Option.elim]
      cases hbasis : s.get? "valid_from_basis" with
      | none => exact .inl rfl
      | some basis => exact .inr ⟨trivial, basis, rfl⟩

theorem StartMoved.trans {period moved last : Object} (h : StartMoved anyBasis period moved) (h' : StartMoved anyBasis moved last) :
    StartMoved anyBasis period last := by
  obtain ⟨start, hmoved⟩ := h
  obtain ⟨start', hlast⟩ := h'
  refine ⟨start', ?_⟩
  -- Writing the start again leaves the basis that was written after it.
  have hagain : moved.insert "valid_from" start' = period.insert "valid_from" start' ∨ anyBasis = true ∧
      ∃ basis, moved.insert "valid_from" start' = (period.insert "valid_from" start').insert "valid_from_basis" basis := by
    rcases hmoved with rfl | ⟨hany, basis, rfl⟩
    · exact .inl (IndexMap.insert_insert _ _ _ _)
    · refine .inr ⟨hany, basis, ?_⟩
      rw [IndexMap.insert_comm (by decide) (IndexMap.mem_keys_insert.2 (.inl rfl)), IndexMap.insert_insert]
  rcases hlast with rfl | ⟨hany, basis', rfl⟩
  · exact hagain
  · refine .inr ⟨hany, basis', ?_⟩
    rcases hagain with hagain | ⟨_, basis, hagain⟩
    · rw [hagain]
    · rw [hagain, IndexMap.insert_insert]

theorem StartMoved.again {period moved : Object} (h : StartMoved anyBasis period moved) : moveStart anyBasis moved period = moved := by
  obtain ⟨start, rfl | ⟨rfl, basis, rfl⟩⟩ := h
  · have hfrom : (period.insert "valid_from" start).get? "valid_from" = some start := IndexMap.get?_insert_self _ _ _
    cases anyBasis with
    | false => simp only [moveStart, Bool.false_eq_true, if_false, List.foldl_cons, List.foldl_nil, copyField, hfrom, Option.elim]
    | true =>
        simp only [moveStart, if_true, List.foldl_cons, List.foldl_nil, copyField, hfrom, Option.elim]
        cases hbasis : (period.insert "valid_from" start).get? "valid_from_basis" with
        | none => rfl
        | some basis => exact IndexMap.insert_own hbasis
  · have hfrom : ((period.insert "valid_from" start).insert "valid_from_basis" basis).get? "valid_from" = some start := by
      rw [IndexMap.get?_insert_of_ne _ _ (by decide), IndexMap.get?_insert_self]
    have hbasis : ((period.insert "valid_from" start).insert "valid_from_basis" basis).get? "valid_from_basis" = some basis :=
      IndexMap.get?_insert_self _ _ _
    simp only [moveStart, if_true, List.foldl_cons, List.foldl_nil, copyField, hfrom, hbasis, Option.elim]

theorem StartMoved.withoutStart {period moved : Object} (h : StartMoved anyBasis period moved) :
    withoutStart anyBasis moved = withoutStart anyBasis period := by
  rw [Relationships.withoutStart, Relationships.withoutStart]
  have hfrom : ∀ start : Json, (period.insert "valid_from" start).entries.filter
      (fun entry => decide (entry.1 ≠ "valid_from" ∧ (anyBasis = false ∨ entry.1 ≠ "valid_from_basis"))) =
      period.entries.filter fun entry => decide (entry.1 ≠ "valid_from" ∧ (anyBasis = false ∨ entry.1 ≠ "valid_from_basis")) :=
    fun start => IndexMap.filter_setEntry (fun _ => by simp) _
  obtain ⟨start, rfl | ⟨rfl, basis, rfl⟩⟩ := h
  · rw [hfrom]
  · have hbasis : ((period.insert "valid_from" start).insert "valid_from_basis" basis).entries.filter
        (fun entry => decide (entry.1 ≠ "valid_from" ∧ (true = false ∨ entry.1 ≠ "valid_from_basis"))) =
        (period.insert "valid_from" start).entries.filter
          fun entry => decide (entry.1 ≠ "valid_from" ∧ (true = false ∨ entry.1 ≠ "valid_from_basis")) :=
      IndexMap.filter_setEntry (fun _ => by simp) _
    rw [hbasis, hfrom]

theorem StartMoved.movable {period moved : Object} (h : StartMoved anyBasis period moved) :
    movable anyBasis moved = movable anyBasis period := by
  obtain ⟨start, rfl | ⟨rfl, basis, rfl⟩⟩ := h
  · rw [Relationships.movable, Relationships.movable, isText, isText, readText, readText, IndexMap.get?_insert_of_ne _ _ (by decide)]
  · rfl

theorem takes_iff {period own : Object} : Takes anyBasis period own ↔
    (anyBasis = true ∨ isText own "valid_from_basis" "observed" = true) ∧
      valuesMatch (withoutStart anyBasis period) (withoutStart anyBasis own) = true := by
  rw [Takes, movable, Bool.or_eq_true]

theorem keepEarlierStart_none {period : Object} {periods : List Object}
    (h : keepEarlierStart calendar period anyBasis periods = .ok none) : ∀ own ∈ periods, ¬ Takes anyBasis period own := by
  induction periods with
  | nil => exact fun own hown => absurd hown List.not_mem_nil
  | cons first rest ih =>
      rw [keepEarlierStart] at h
      split_ifs at h with htakes
      · obtain ⟨start, _, h⟩ := Except.bind_eq_ok.1 h
        obtain ⟨own, _, h⟩ := Except.bind_eq_ok.1 h
        cases h
      · obtain ⟨found, hfound, h⟩ := Except.bind_eq_ok.1 h
        obtain rfl := Option.map_eq_none_iff.1 (Except.ok.inj h)
        exact List.forall_mem_cons.2 ⟨fun hfirst => htakes (takes_iff.1 hfirst), ih hfound⟩

theorem keepEarlierStart_some {period : Object} {periods kept : List Object}
    (h : keepEarlierStart calendar period anyBasis periods = .ok (some kept)) :
    ∃ i own start before, periods[i]? = some own ∧ Takes anyBasis period own ∧
      (∀ j < i, ∀ other, periods[j]? = some other → ¬ Takes anyBasis period other) ∧
      readAt calendar period "valid_from" firstTime = .ok start ∧ readAt calendar own "valid_from" firstTime = .ok before ∧
      kept = periods.set i (if start < before then moveStart anyBasis period own else own) := by
  induction periods generalizing kept with
  | nil => cases h
  | cons first rest ih =>
      rw [keepEarlierStart] at h
      split_ifs at h with htakes
      · obtain ⟨start, hstart, h⟩ := Except.bind_eq_ok.1 h
        obtain ⟨before, hbefore, h⟩ := Except.bind_eq_ok.1 h
        cases h
        exact ⟨0, first, start, before, rfl, takes_iff.2 htakes, fun j hj => absurd hj (Nat.not_lt_zero j), hstart, hbefore, rfl⟩
      · obtain ⟨found, hfound, h⟩ := Except.bind_eq_ok.1 h
        obtain ⟨kept', rfl, rfl⟩ := Option.map_eq_some_iff.1 (Except.ok.inj h)
        obtain ⟨i, own, start, before, hown, htaken, hfirst, hstart, hbefore, rfl⟩ := ih hfound
        refine ⟨i + 1, own, start, before, hown, htaken, fun j hj other hother => ?_, hstart, hbefore, rfl⟩
        cases j with
        | zero =>
            cases hother
            exact fun hnot => htakes (takes_iff.1 hnot)
        | succ j => exact hfirst j (by omega) other hother

theorem keepEarlierStart_ok {period : Object} {periods : List Object} {start : Int}
    (hstart : readAt calendar period "valid_from" firstTime = .ok start)
    (hperiods : ∀ own ∈ periods, ∃ before, readAt calendar own "valid_from" firstTime = .ok before) :
    ∃ found, keepEarlierStart calendar period anyBasis periods = .ok found := by
  induction periods with
  | nil => exact ⟨none, rfl⟩
  | cons first rest ih =>
      obtain ⟨hfirst, hrest⟩ := List.forall_mem_cons.1 hperiods
      obtain ⟨before, hbefore⟩ := hfirst
      obtain ⟨found, hfound⟩ := ih hrest
      rw [keepEarlierStart, hstart, hbefore, hfound]
      split_ifs
      · exact ⟨_, rfl⟩
      · exact ⟨_, rfl⟩

/-- Periods whose starts are moved: each takes an earlier one, and only the first of those that are alike. -/
structure Lowered (calendar : Calendar) (anyBasis : Bool) (periods moved : List Object) : Prop where
  length : moved.length = periods.length
  each : ∀ (i : Nat) (own last : Object), periods[i]? = some own → moved[i]? = some last → last = own ∨
    movable anyBasis own = true ∧ StartMoved anyBasis own last ∧
    (∃ start before, readAt calendar last "valid_from" firstTime = .ok start ∧
      readAt calendar own "valid_from" firstTime = .ok before ∧ start < before) ∧
    ∀ j < i, ∀ other, periods[j]? = some other → ¬ Takes anyBasis own other

theorem Lowered.refl (periods : List Object) : Lowered calendar anyBasis periods periods :=
  ⟨rfl, fun _ _ _ hown hlast => .inl (Option.some.inj (hlast.symm.trans hown))⟩

variable {periods moved : List Object}

theorem Lowered.alike (h : Lowered calendar anyBasis periods moved) {i : Nat} {own last : Object}
    (hown : periods[i]? = some own) (hlast : moved[i]? = some last) :
    movable anyBasis last = movable anyBasis own ∧ withoutStart anyBasis last = withoutStart anyBasis own := by
  rcases h.each i own last hown hlast with rfl | ⟨_, hmoved, _⟩
  · exact ⟨rfl, rfl⟩
  · exact ⟨hmoved.movable, hmoved.withoutStart⟩

theorem Lowered.exists_own (h : Lowered calendar anyBasis periods moved) {i : Nat} {last : Object}
    (hlast : moved[i]? = some last) : ∃ own, periods[i]? = some own := by
  obtain ⟨hi, _⟩ := List.getElem?_eq_some_iff.1 hlast
  exact ⟨_, List.getElem?_eq_getElem (h.length ▸ hi)⟩

theorem Lowered.exists_last (h : Lowered calendar anyBasis periods moved) {i : Nat} {own : Object}
    (hown : periods[i]? = some own) : ∃ last, moved[i]? = some last := by
  obtain ⟨hi, _⟩ := List.getElem?_eq_some_iff.1 hown
  exact ⟨_, List.getElem?_eq_getElem (h.length.symm ▸ hi)⟩

theorem set_own {α : Type} {items : List α} {i : Nat} {a : α} (h : items[i]? = some a) : items.set i a = items := by
  obtain ⟨hi, rfl⟩ := List.getElem?_eq_some_iff.1 h
  exact List.set_getElem_self hi

theorem valuesMatch_trans {a b c : Json} (h : valuesMatch a b = true) (h' : valuesMatch b c = true) : valuesMatch a c = true :=
  Records.valuesMatch_is_python_equality.2.2.1 _ _ _ h h'

theorem keepEarlierStart_lowered {s : Object} {periods moved kept : List Object} {value : Json} (hs : s.get? "valid_from" = some value)
    (hmoved : Lowered calendar anyBasis periods moved) (h : keepEarlierStart calendar s anyBasis moved = .ok (some kept)) :
    Lowered calendar anyBasis periods kept := by
  obtain ⟨i, last, start, before, hlast, htakes, hfirst, hstart, hbefore, rfl⟩ := keepEarlierStart_some h
  split_ifs with hearlier
  · refine ⟨by rw [List.length_set, hmoved.length], fun k own next hown hnext => ?_⟩
    rw [List.getElem?_set] at hnext
    split_ifs at hnext with hk
    · subst hk
      cases hnext
      have halike := hmoved.alike hown hlast
      have hmoves : StartMoved anyBasis last (moveStart anyBasis s last) := moveStart_moved hs
      refine .inr ⟨halike.1 ▸ htakes.1, ?_, ⟨start, ?_⟩, fun j hj other hother htaken => ?_⟩
      · rcases hmoved.each i own last hown hlast with rfl | ⟨_, hmoved, _⟩
        · exact hmoves
        · exact hmoved.trans hmoves
      · have hread : readAt calendar (moveStart anyBasis s last) "valid_from" firstTime = .ok start := by
          rw [← hstart]
          refine readAt_congr ?_ firstTime
          rw [moveStart_get?, if_pos (.inl rfl), hs]
          rfl
        rcases hmoved.each i own last hown hlast with rfl | ⟨_, _, ⟨start', before', hstart', hbefore', hlt⟩, _⟩
        · exact ⟨before, hread, hbefore, hearlier⟩
        · cases hbefore.symm.trans hstart'
          exact ⟨before', hread, hbefore', hearlier.trans hlt⟩
      · -- One alike before it would have taken the start.
        obtain ⟨other', hother'⟩ := hmoved.exists_last hother
        have halike' := hmoved.alike hother hother'
        refine hfirst j hj other' hother' ⟨halike'.1.trans htaken.1, ?_⟩
        rw [halike'.2]
        exact valuesMatch_trans htakes.2 (halike.2 ▸ htaken.2)
    · exact hmoved.each k own next hown hnext
  · rw [set_own hlast]
    exact hmoved

theorem putBackStarts_lowered {raws : List Json}
    (hraws : ∀ raw ∈ raws, ∀ s, Records.readFields raw = .ok s → s.contains "valid_from" = true)
    (h : raws.foldlM (putBackStart calendar anyBasis) periods = .ok moved) : Lowered calendar anyBasis periods moved := by
  refine Runs.run_invariant (fun _ mid => Lowered calendar anyBasis periods mid) h (.refl periods) ?_
  intro front raw back mid next hsplit hmid hstep
  obtain ⟨s, hs, hstep⟩ := Except.bind_eq_ok.1 hstep
  split_ifs at hstep
  · obtain ⟨kept, hkept, hstep⟩ := Except.bind_eq_ok.1 hstep
    cases hstep
    cases kept with
    | none => exact hmid
    | some kept =>
        obtain ⟨value, hvalue⟩ := IndexMap.mem_keys_iff.1 (IndexMap.contains_iff.1 (hraws raw (by simp [hsplit]) s hs))
        exact keepEarlierStart_lowered hvalue hmid hkept
  · cases hstep
    exact hmid

/-- Periods in the order of the starts they are read to have. -/
structure InOrder (calendar : Calendar) (periods : List Object) : Prop where
  read : ∀ period ∈ periods, ∃ start, readAt calendar period "valid_from" firstTime = .ok start
  ordered : ∀ (i j : Nat) period other start start', i ≤ j → periods[i]? = some period → periods[j]? = some other →
    readAt calendar period "valid_from" firstTime = .ok start → readAt calendar other "valid_from" firstTime = .ok start' → start ≤ start'

theorem Lowered.read {periods moved : List Object} (h : Lowered calendar anyBasis periods moved) (hperiods : InOrder calendar periods)
    {i : Nat} {own last : Object} (hown : periods[i]? = some own) (hlast : moved[i]? = some last) :
    ∃ start before, readAt calendar last "valid_from" firstTime = .ok start ∧
      readAt calendar own "valid_from" firstTime = .ok before ∧ start ≤ before := by
  rcases h.each i own last hown hlast with rfl | ⟨_, _, ⟨start, before, hstart, hbefore, hlt⟩, _⟩
  · obtain ⟨start, hstart⟩ := hperiods.read last (List.mem_of_getElem? hown)
    exact ⟨start, start, hstart, hstart, le_rfl⟩
  · exact ⟨start, before, hstart, hbefore, hlt.le⟩

/-- One period moved, put back among those moved before it and those that were after it, is where it was. -/
theorem putBackStart_again (h : Lowered calendar anyBasis periods moved)
    (hperiods : InOrder calendar periods) {mid : List Object} {n : Nat} {own last : Object}
    (hbefore : ∀ j < n, mid[j]? = moved[j]?) (hafter : ∀ j, n ≤ j → mid[j]? = periods[j]?)
    (hown : periods[n]? = some own) (hlast : moved[n]? = some last) :
    putBackStart calendar anyBasis mid last.toJson = .ok (mid.set n last) := by
  have hn : mid[n]? = some own := (hafter n le_rfl).trans hown
  have halike := h.alike hown hlast
  obtain ⟨start, before, hstart, hread, hle⟩ := h.read hperiods hown hlast
  have hreads : ∀ period ∈ mid, ∃ start, readAt calendar period "valid_from" firstTime = .ok start := by
    intro period hperiod
    obtain ⟨j, hj⟩ := List.mem_iff_getElem?.1 hperiod
    rcases Nat.lt_or_ge j n with hlt | hge
    · have hmoved := (hbefore j hlt).symm.trans hj
      obtain ⟨own', hown'⟩ := h.exists_own hmoved
      obtain ⟨start', _, hstart', _⟩ := h.read hperiods hown' hmoved
      exact ⟨start', hstart'⟩
    · exact hperiods.read period (List.mem_of_getElem? ((hafter j hge).symm.trans hj))
  rw [putBackStart, readFields_toJson, Except.bind_ok]
  split_ifs with hmoves
  · obtain ⟨found, hfound⟩ : ∃ found, keepEarlierStart calendar last anyBasis mid = .ok found :=
      keepEarlierStart_ok hstart hreads
    rw [hfound, Except.bind_ok]
    have htakes : Takes anyBasis last own := by
      refine ⟨?_, ?_⟩
      · rw [← halike.1, movable, Bool.or_eq_true]
        exact hmoves
      · rw [halike.2]
        exact Records.valuesMatch_is_python_equality.1 _
    cases found with
    | none => exact absurd htakes (keepEarlierStart_none hfound own (List.mem_of_getElem? hn))
    | some kept =>
        obtain ⟨i, taker, start', own', htaker, htaken, hfirst, hstart', hown', rfl⟩ := keepEarlierStart_some hfound
        cases hstart.symm.trans hstart'
        refine congrArg Except.ok ?_
        rw [Option.getD_some]
        rcases lt_trichotomy i n with hlt | rfl | hgt
        · -- One alike comes before it, so its start was not moved, and is no earlier than that one's.
          have hmoved := (hbefore i hlt).symm.trans htaker
          obtain ⟨other, hother⟩ := h.exists_own hmoved
          have halike' := h.alike hother hmoved
          have hsame : last = own := by
            refine (h.each n own last hown hlast).resolve_right fun hmoved => hmoved.2.2.2 i hlt other hother ⟨?_, ?_⟩
            · exact halike'.1 ▸ htaken.1
            · rw [← halike.2, ← halike'.2]
              exact htaken.2
          obtain ⟨start'', before'', hstart'', hbefore'', hle'⟩ := h.read hperiods hother hmoved
          cases hown'.symm.trans hstart''
          have horder := hperiods.ordered i n other own before'' before hlt.le hother hown hbefore'' hread
          subst hsame
          cases hstart.symm.trans hread
          rw [if_neg (by omega), set_own htaker, set_own hn]
        · cases htaker.symm.trans hn
          cases hread.symm.trans hown'
          rcases h.each i own last hown hlast with rfl | ⟨_, hmoved, ⟨earlier, later, hearlier, hlater, hlt⟩, _⟩
          · have hsame := Except.ok.inj (hstart.symm.trans hread)
            rw [if_neg (by omega)]
          · have hsame := Except.ok.inj (hstart.symm.trans hearlier)
            have hsame' := Except.ok.inj (hread.symm.trans hlater)
            rw [if_pos (by omega), hmoved.again]
        · exact absurd htakes (hfirst n hgt own hn)
  · have hsame : last = own := by
      refine (h.each n own last hown hlast).resolve_right fun hmoved => hmoves ?_
      have hmovable := halike.1.trans hmoved.1
      rwa [movable, Bool.or_eq_true] at hmovable
    rw [hsame, set_own hn]

theorem putBackStarts_again (h : Lowered calendar anyBasis periods moved)
    (hperiods : InOrder calendar periods) (back : List Object) {n : Nat} {mid : List Object} (hback : moved.drop n = back)
    (hbefore : ∀ j < n, mid[j]? = moved[j]?) (hafter : ∀ j, n ≤ j → mid[j]? = periods[j]?) :
    (back.map Object.toJson).foldlM (putBackStart calendar anyBasis) mid = .ok moved := by
  induction back generalizing n mid with
  | nil =>
      refine congrArg Except.ok (List.ext_getElem? fun j => ?_)
      rcases Nat.lt_or_ge j n with hlt | hge
      · exact hbefore j hlt
      · have hend : moved.length ≤ j := (List.drop_eq_nil_iff.1 hback).trans hge
        rw [hafter j hge, List.getElem?_eq_none hend, List.getElem?_eq_none (h.length ▸ hend)]
  | cons last rest ih =>
      have hlast : moved[n]? = some last := by rw [← List.head?_drop, hback, List.head?_cons]
      obtain ⟨own, hown⟩ := h.exists_own hlast
      have hn : n < mid.length := (List.getElem?_eq_some_iff.1 ((hafter n le_rfl).trans hown)).1
      have hrest : moved.drop (n + 1) = rest := by rw [← List.tail_drop, hback, List.tail_cons]
      refine Runs.foldlM_cons_eq_ok.2 ⟨_, putBackStart_again h hperiods hbefore hafter hown hlast, ih hrest (fun j hj => ?_) fun j hj => ?_⟩
      · rw [List.getElem?_set]
        split_ifs with heq
        · rw [← heq, hlast]
        · exact hbefore j (by omega)
      · rw [List.getElem?_set_ne (by omega)]
        exact hafter j (by omega)

theorem inOrder_of_starts {periods : List Object} {starts : List Int}
    (h : List.Forall₂ (fun period start => readAt calendar period "valid_from" firstTime = .ok start) periods starts)
    (hstarts : starts.Pairwise (· ≤ ·)) : InOrder calendar periods := by
  refine ⟨fun period hperiod => ?_, fun i j period other start start' hij hperiod hother hstart hstart' => ?_⟩
  · obtain ⟨start, _, hstart⟩ := Runs.forall₂_exists_right h hperiod
    exact ⟨start, hstart⟩
  · obtain ⟨hi, rfl⟩ := List.getElem?_eq_some_iff.1 hperiod
    obtain ⟨hj, rfl⟩ := List.getElem?_eq_some_iff.1 hother
    have hi' : i < starts.length := h.length_eq ▸ hi
    have hj' : j < starts.length := h.length_eq ▸ hj
    cases (h.get hi hi').symm.trans hstart
    cases (h.get hj hj').symm.trans hstart'
    show starts[i] ≤ starts[j]
    rcases hij.lt_or_eq with hlt | rfl
    · exact List.pairwise_iff_getElem.1 hstarts i j hi' hj' hlt
    · exact le_rfl

variable {env : Env}

theorem starts_sorted {periods : List Object} {ordered : List ((Int × Int) × Object)}
    (h : orderPeriods env periods = .ok ordered) : (ordered.map fun entry => entry.1.1).Pairwise (· ≤ ·) := by
  obtain ⟨timed, _, h⟩ := Except.bind_eq_ok.1 h
  cases h
  rw [List.map_map, List.pairwise_map]
  refine (Sorting.sortByKey_sorted
    (fun entry : (Int × Int) × String × Object => toLex (entry.1.1, toLex (entry.1.2, entry.2.1))) timed).imp fun hle => ?_
  have hfst := Prod.Lex.monotone_fst _ _ hle
  exact hfst

theorem orderPeriods_inOrder {periods : List Object} {ordered : List ((Int × Int) × Object)}
    (h : orderPeriods env periods = .ok ordered) : InOrder env.calendar (ordered.map Prod.snd) := by
  have hbounds := (orderPeriods_eq_ok h).2
  refine inOrder_of_starts (List.forall₂_map_left_iff.2 (List.forall₂_map_right_iff.2 (List.forall₂_same.2 fun entry hentry => ?_)))
    (starts_sorted h)
  exact (interval_eq_ok.1 (hbounds entry hentry)).1

/-- The links of a calculation that have periods have them in order. -/
def PeriodsInOrder (calendar : Calendar) (link : Object) : Prop :=
  link.contains "periods" = true → ∃ periods : List Object, link.get? "periods" = some (.arr (periods.map Object.toJson)) ∧ InOrder calendar periods

theorem group_inOrder {edges : Edges} {found : Grouping} (h : group env edges = .ok found) {key : String}
    {edge : Relationship} (hedge : found.edges.get? key = some edge) : InOrder env.calendar edge.periods := by
  have hall := Runs.run_invariant
    (fun _ (mid : Grouping) => ∀ key edge, mid.edges.get? key = some edge → InOrder env.calendar edge.periods) h
    (fun _ _ hnone => (nomatch hnone)) ?_
  · exact hall key edge hedge
  · intro front entry back mid next _ hmid hstep key edge hget
    obtain ⟨ordered, hordered, hstep⟩ := Except.bind_eq_ok.1 hstep
    obtain ⟨kind, _, hstep⟩ := Except.bind_eq_ok.1 hstep
    obtain ⟨scope, _, hstep⟩ := Except.bind_eq_ok.1 hstep
    obtain ⟨source, _, hstep⟩ := Except.bind_eq_ok.1 hstep
    obtain ⟨target, _, hstep⟩ := Except.bind_eq_ok.1 hstep
    cases hstep
    rw [IndexMap.get?_insert] at hget
    split_ifs at hget
    · cases hget
      exact orderPeriods_inOrder hordered
    · exact hmid key edge hget

theorem HistoryLink.periodsInOrder {kind scope : String} {entry : (String × String) × List Span} {link : Object}
    (h : HistoryLink calendar kind scope entry link) (hjoined : Timeline.Joined entry.2) : PeriodsInOrder calendar link := by
  obtain ⟨periods, hperiods, hspans⟩ := h.periods
  have hreads : List.Forall₂ (fun period start => readAt calendar period "valid_from" firstTime = .ok start) periods
      (entry.2.map Timeline.Span.start) :=
    List.forall₂_map_right_iff.2 (hspans.flip.imp fun period span his => (interval_eq_ok.1 his.bounds).1)
  refine fun _ => ⟨periods, hperiods, inOrder_of_starts hreads ?_⟩
  · refine List.pairwise_map.2 (hjoined.apart.imp_of_mem fun {a b} ha _ hapart => ?_)
    have hbefore := hjoined.nonempty a ha
    rcases hapart with hlt | ⟨heq, _⟩
    · omega
    · omega

variable {rules : IndexMap String TypeRules}

theorem deriveGroup_inOrder {command : Command} {edges : Edges} {invalid : List String}
    {entry : (String × String) × List LinkPeriod} {derived : List Object} (hdated : ∀ link ∈ entry.2, Dated env.calendar link)
    (h : deriveGroup env command edges rules invalid entry = .ok derived) {link : Object} (hlink : link ∈ derived) :
    PeriodsInOrder env.calendar link := by
  obtain ⟨first, _, h⟩ := Except.bind_eq_ok.1 h
  obtain ⟨scope, _, h⟩ := Except.bind_eq_ok.1 h
  split at h
  · obtain ⟨time, _, h⟩ := Except.bind_eq_ok.1 h
    obtain ⟨found, _, hfound⟩ := Runs.mapM_exists_of_mem h hlink
    obtain ⟨kind, _, hfound⟩ := Except.bind_eq_ok.1 hfound
    cases hfound
    intro hcontains
    obtain ⟨value, hvalue⟩ := IndexMap.mem_keys_iff.1 (IndexMap.contains_iff.1 hcontains)
    rw [withRelationshipId_get? _ _ (by decide),
      IndexMap.get?_ofList_eq (by simp only [List.map_cons, List.map_nil]; decide)] at hvalue
    simp [IndexMap.lookupEntry] at hvalue
  · obtain ⟨kind, hkind⟩ := history_kind h hlink
    obtain ⟨spanEntry, hentry, hof⟩ := Runs.forall₂_exists_left (deriveParentHistory_eq_ok h hdated hkind) hlink
    have hspans := historySpans_spansOf entry.2 invalid spanEntry.1
    rw [IndexMap.get?_eq_some_iff.2 (Sorting.mem_sortByKey.1 hentry)] at hspans
    exact hof.periodsInOrder hspans.joined
  · cases h
    exact absurd hlink List.not_mem_nil

theorem calculate_inOrder {command : Command} {found : Gathered} {calculated : Calculated}
    (h : calculate env command rules found = .ok calculated) (hedges : EdgesOf found.edges) {link : Object}
    (hlink : link ∈ calculated.direct ++ calculated.derived) : PeriodsInOrder env.calendar link := by
  obtain ⟨grouping, hgrouping, h⟩ := Except.bind_eq_ok.1 h
  obtain ⟨aside, haside, h⟩ := Except.bind_eq_ok.1 h
  obtain ⟨derived, hderived, h⟩ := Except.bind_eq_ok.1 h
  cases h
  rcases List.mem_append.1 hlink with hlink | hlink
  · obtain ⟨key, edge, hget, _, rfl⟩ := mem_directLinks.1 hlink
    exact fun _ => ⟨edge.periods, directBody_periods env edge, group_inOrder hgrouping hget⟩
  · obtain ⟨links, hlinks, hmem⟩ := List.mem_flatten.1 hlink
    obtain ⟨entry, hentry, hgroup⟩ := Runs.mapM_exists_of_mem hderived hlinks
    have hdated := (group_eq_ok hgrouping).dated hedges entry.1
    rw [IndexMap.get?_eq_some_iff.2 hentry] at hdated
    exact deriveGroup_inOrder hdated hgroup hmem

def returnedAs (output : List Object) : IndexMap String Object :=
  .ofList (output.filterMap fun link => (readText link "relationship_id").toOption.map fun key => (key, link))

def Command.storing (command : Command) (output : List Object) : Command := { command with stored := returnedAs output }

def StoredStarts (stored : IndexMap String Object) : Prop :=
  ∀ key link, stored.get? key = some link → ∀ period, IsStoredPeriod link period → period.contains "valid_from" = true

theorem returnedAs_get? {output : List Object} (hids : (output.map fun link => readText link "relationship_id").Nodup) {link : Object}
    (hlink : link ∈ output) {key : String} (hkey : readText link "relationship_id" = .ok key) :
    (returnedAs output).get? key = some link := by
  have hnodup : ((output.filterMap fun link => (readText link "relationship_id").toOption.map fun key => (key, link)).map
      Prod.fst).Nodup := by
    rw [List.map_filterMap]
    have hsub : ((output.filterMap fun link => ((readText link "relationship_id").toOption.map fun key => (key, link)).map Prod.fst).map
        fun key => (Except.ok key : Except String String)).Sublist (output.map fun link => readText link "relationship_id") := ?_
    · exact (hids.sublist hsub).of_map _
    clear hids hlink
    induction output with
    | nil => exact .slnil
    | cons first rest ih =>
        cases hfirst : readText first "relationship_id" with
        | error e =>
            rw [List.filterMap_cons, hfirst]
            exact .cons _ ih
        | ok id =>
            rw [List.filterMap_cons, hfirst, List.map_cons, hfirst]
            exact .cons_cons _ ih
  refine (IndexMap.get?_ofList hnodup).2 (List.mem_filterMap.2 ⟨link, hlink, ?_⟩)
  rw [hkey]
  rfl

theorem putBackStarts_stored {command next : Command} {link put : Object}
    (hstored : StoredStarts command.stored) (horder : PeriodsInOrder env.calendar link)
    (hput : putBackStarts env command rules link = .ok put)
    (hnext : ∀ key, readText link "relationship_id" = .ok key → next.stored.get? key = some put) :
    putBackStarts env next rules link = .ok put := by
  unfold putBackStarts at hput ⊢
  split_ifs at hput ⊢ with hcontains
  · obtain ⟨periods, hperiods, hinorder⟩ := horder hcontains
    have hread : Records.readArray link "periods" = .ok (periods.map Object.toJson) := by
      unfold Records.readArray
      rw [hperiods]
    obtain ⟨key, hkey, hput⟩ := Except.bind_eq_ok.1 hput
    obtain ⟨kind, hkind, hput⟩ := Except.bind_eq_ok.1 hput
    -- What is put back are the periods, moved.
    obtain ⟨moved, hmoved, rfl⟩ : ∃ moved, Lowered env.calendar (keepsStartOf rules kind) periods moved ∧
        put = link.insert "periods" (.arr (moved.map Object.toJson)) := by
      cases hget : command.stored.get? key with
      | none =>
          rw [hget] at hput
          cases hput
          exact ⟨periods, .refl periods, (IndexMap.insert_own hperiods).symm⟩
      | some stored =>
          rw [hget] at hput
          obtain ⟨raws, hraws, hput⟩ := Except.bind_eq_ok.1 hput
          cases hread.symm.trans hraws
          obtain ⟨bodies, hbodies, hput⟩ := Except.bind_eq_ok.1 hput
          cases (mapM_readFields periods).symm.trans hbodies
          obtain ⟨storedRaws, hstoredRaws, hput⟩ := Except.bind_eq_ok.1 hput
          obtain ⟨moved, hrun, hput⟩ := Except.bind_eq_ok.1 hput
          cases hput
          refine ⟨moved, putBackStarts_lowered (fun raw hraw s hs => ?_) hrun, rfl⟩
          exact hstored key stored hget s ⟨storedRaws, hstoredRaws, raw, hraw, hs⟩
    have hstoredRead : Records.readArray (link.insert "periods" (.arr (moved.map Object.toJson))) "periods" =
        .ok (moved.map Object.toJson) := by
      unfold Records.readArray
      rw [IndexMap.get?_insert_self]
    have hrun : (moved.map Object.toJson).foldlM (putBackStart env.calendar (keepsStartOf rules kind)) periods = .ok moved :=
      putBackStarts_again hmoved hinorder moved rfl (fun j hj => absurd hj (Nat.not_lt_zero j)) fun j _ => rfl
    refine Except.bind_eq_ok.2 ⟨key, hkey, Except.bind_eq_ok.2 ⟨kind, hkind, ?_⟩⟩
    rw [hnext key hkey]
    refine Except.bind_eq_ok.2 ⟨_, hread, Except.bind_eq_ok.2 ⟨_, mapM_readFields periods, ?_⟩⟩
    exact Except.bind_eq_ok.2 ⟨_, hstoredRead, Except.bind_eq_ok.2 ⟨moved, hrun, rfl⟩⟩
  · exact hput

/-- Preparing again with the links returned stored returns them again, with the same reviews, where the stored periods hold their starts and no two links returned have one id. -/
theorem prepareRelationships_again {env : Env} {command : Command} {output reviews : List Object}
    (h : prepareRelationships env command = .ok (output, reviews)) (hstored : StoredStarts command.stored)
    (hids : (output.map fun link => readText link "relationship_id").Nodup) :
    prepareRelationships env (command.storing output) = .ok (output, reviews) := by
  obtain ⟨rules, hrules, h⟩ := Except.bind_eq_ok.1 h
  obtain ⟨found, hfound, h⟩ := Except.bind_eq_ok.1 h
  obtain ⟨calculated, hcalculated, h⟩ := Except.bind_eq_ok.1 h
  obtain ⟨links, hlinks, h⟩ := Except.bind_eq_ok.1 h
  obtain ⟨ordered, hordered, h⟩ := Except.bind_eq_ok.1 h
  cases h
  have hagain : (calculated.direct ++ calculated.derived).mapM (putBackStarts env (command.storing output) rules) = .ok links := by
    refine Runs.mapM_eq_ok.2 ?_
    have hpairs := Runs.mapM_eq_ok.1 hlinks
    have hwithin : List.Forall₂ (fun link put => put ∈ links ∧ putBackStarts env command rules link = .ok put)
        (calculated.direct ++ calculated.derived) links :=
      (Runs.forall₂_imp_of_mem hpairs.flip fun put link hmem hput => And.intro hmem hput).flip
    refine Runs.forall₂_imp_of_mem hwithin fun link put hlink hput => ?_
    refine putBackStarts_stored hstored (calculate_inOrder hcalculated (gather_edgesOf hfound) hlink) hput.2 fun key hkey => ?_
    refine returnedAs_get? hids ((orderLinks_eq_ok hordered).mem_iff.2 hput.1) ?_
    rw [readText, (putBackStarts_eq_ok hput.2).get? (by decide)]
    exact hkey
  refine Except.bind_eq_ok.2 ⟨rules, hrules, Except.bind_eq_ok.2 ⟨found, hfound, Except.bind_eq_ok.2 ⟨calculated, hcalculated, ?_⟩⟩⟩
  exact Except.bind_eq_ok.2 ⟨links, hagain, Except.bind_eq_ok.2 ⟨_, hordered, rfl⟩⟩

/-- A run that puts a stored start back, and the run over what it returns. -/
theorem prepareRelationships_again_stored : ∃ result,
    prepareRelationships env2024 (oneParent [("[\"PARENT\",\"A\",\"B\",\"\"]", storedFrom2020)]) = .ok result ∧
    prepareRelationships env2024 ((oneParent [("[\"PARENT\",\"A\",\"B\",\"\"]", storedFrom2020)]).storing result.1) = .ok result := by
  obtain ⟨⟨output, reviews⟩, hrun, hids⟩ : ∃ result,
      prepareRelationships env2024 (oneParent [("[\"PARENT\",\"A\",\"B\",\"\"]", storedFrom2020)]) = .ok result ∧
      (result.1.map fun link => readText link "relationship_id").Nodup := by
    decide +kernel
  refine ⟨(output, reviews), hrun, prepareRelationships_again hrun ?_ hids⟩
  intro key link hget period hperiod
  obtain ⟨raws, hraws, raw, hraw, hread⟩ := hperiod
  rcases IndexMap.get?_extend_cases hget with hmem | hnone
  · cases List.mem_singleton.1 hmem
    have hperiods : Records.readArray storedFrom2020 "periods" = .ok [.obj [("valid_from", .str "2020-01-01T00:00:00+00:00"),
        ("valid_from_basis", .str "observed")]] := by decide +kernel
    cases hperiods.symm.trans hraws
    cases List.mem_singleton.1 hraw
    cases hread
    decide +kernel
  · cases hnone

/-- The derived link stored with the path of one of its types, from 2020 or without a start. -/
private def ultimateFrom (start : List (String × Json)) : String × Object :=
  (storedUltimate.1, .ofList [("periods", .arr [.obj (start ++ [("valid_from_basis", .str "observed"), ("valid_to", .null),
    ("path", .arr [.str "[\"PARENT\",\"A\",\"B\",\"\"]"])])])])

/-- B is the parent and the owner of A, and both types name one ultimate type, whose starts are kept. -/
private def parentAndOwner : Command :=
  { parentsCommand [("a", companyRecord "r1" [parentLink "b" [], .obj [("type", .str "OWNER"), ("target_subject", .str "b")]])]
      [ultimateFrom [("valid_from", .str "2020-01-01T00:00:00+00:00")]] with
    types := changedTypes "accounting-chain-v2" [("keeps_start", .bool true)] }

/-- Preparing again changes what is returned where a stored period has a basis without a start, and where two links returned have one id. -/
theorem prepared_again_differs :
    (∃ result, prepareRelationships env2024 { oneParent [ultimateFrom []] with
        types := changedTypes "accounting-chain-v2" [("keeps_start", .bool true)] } = .ok result ∧
      prepareRelationships env2024 ({ oneParent [ultimateFrom []] with
        types := changedTypes "accounting-chain-v2" [("keeps_start", .bool true)] }.storing result.1) ≠ .ok result) ∧
    ∃ result, prepareRelationships env2024 parentAndOwner = .ok result ∧
      prepareRelationships env2024 (parentAndOwner.storing result.1) ≠ .ok result := by
  decide +kernel

end EdgarPlatform.Relationships
