import EdgarPlatform.Records.Matching
import EdgarPlatform.Relationships.Edges

/-!
# The history sightings are combined into

Sightings are read in the order of their days. So the periods that have ended lie one after another, the last of them by the day that has been come to, and the period that goes on began after them. A sighting without a day counts as one of the first time there is: no sighting comes before it, and it ends no period.
-/

namespace EdgarPlatform.Relationships

open Records (Calendar Json Object readText hasValue hasContent readOptionalValue valuesMatch)

theorem hasValue_eq_hasContent (body : Object) (field : String) : hasValue body field = hasContent (readOptionalValue body field) := by
  rw [hasValue, readOptionalValue]
  cases body.get? field <;> rfl

theorem readAt_eq_of_value {calendar : Calendar} {body other : Object} {field field' : String}
    (h : readOptionalValue body field = readOptionalValue other field') (otherwise : Int) :
    readAt calendar body field otherwise = readAt calendar other field' otherwise := by
  have hsame : hasValue body field = hasValue other field' := by rw [hasValue_eq_hasContent, h, ← hasValue_eq_hasContent]
  rw [readAt, readAt, hsame]
  split_ifs with hvalue
  · obtain ⟨value, hget, _⟩ := hasValue_iff.1 (hsame.trans hvalue)
    obtain ⟨value', hget', _⟩ := hasValue_iff.1 hvalue
    rw [readOptionalValue, readOptionalValue, hget, hget'] at h
    cases h
    rw [Records.readInstant, Records.readInstant, readText, readText, hget, hget']
    cases value <;> rfl
  · rfl

theorem readAt_of_hasValue {calendar : Calendar} {body : Object} {field : String} (h : hasValue body field = true) (first last : Int) :
    readAt calendar body field first = readAt calendar body field last := by
  rw [readAt, readAt, if_pos h, if_pos h]

theorem readAt_of_not_hasValue {calendar : Calendar} {body : Object} {field : String} (h : hasValue body field = false) (otherwise : Int) :
    readAt calendar body field otherwise = .ok otherwise := by
  rw [readAt, if_neg (by rw [h]; exact Bool.false_ne_true)]

theorem readOptionalValue_insert_self (body : Object) (key : String) (value : Json) :
    readOptionalValue (body.insert key value) key = value := by
  rw [readOptionalValue, IndexMap.get?_insert_self]
  rfl

theorem readOptionalValue_insert_of_ne (body : Object) {key field : String} (value : Json) (h : field ≠ key) :
    readOptionalValue (body.insert key value) field = readOptionalValue body field := by
  rw [readOptionalValue, readOptionalValue, IndexMap.get?_insert_of_ne _ _ h]

/-- A period that has ended: it began, not before the first time, before it ended. -/
structure Ended (calendar : Calendar) (period : Object) (start stop : Int) : Prop where
  began : readAt calendar period "valid_from" firstTime = .ok start
  closed : hasValue period "valid_to" = true
  ended : readAt calendar period "valid_to" lastTime = .ok stop
  first : firstTime ≤ start
  before : start < stop

/-- Periods that ended one after another, the last of them by a time. -/
inductive EndedBy (calendar : Calendar) : List Object → Int → Prop
  | none (time : Int) : EndedBy calendar [] time
  | next {periods : List Object} {period : Object} {earlier start stop time : Int} (h : EndedBy calendar periods earlier)
      (hperiod : Ended calendar period start stop) (hstart : earlier ≤ start) (hstop : stop ≤ time) :
      EndedBy calendar (periods ++ [period]) time

/-- A period that has begun and not ended. -/
structure Going (calendar : Calendar) (period : Object) (start : Int) : Prop where
  began : readAt calendar period "valid_from" firstTime = .ok start
  going : hasValue period "valid_to" = false
  first : firstTime ≤ start

/-- What the sightings up to a time have come to: periods that have ended by then, or by the start of the one that goes on. -/
def Combining.History (calendar : Calendar) (found : Combining) (time : Int) : Prop :=
  match found.current with
  | none => EndedBy calendar found.periods time
  | some period => ∃ start, Going calendar period start ∧ EndedBy calendar found.periods start ∧ start ≤ time

variable {calendar : Calendar}

theorem EndedBy.mono {periods : List Object} {time later : Int} (h : EndedBy calendar periods time) (hle : time ≤ later) :
    EndedBy calendar periods later := by
  cases h with
  | none => exact .none later
  | next h hperiod hstart hstop => exact .next h hperiod hstart (hstop.trans hle)

theorem Combining.History.mono {found : Combining} {time later : Int} (h : found.History calendar time) (hle : time ≤ later) :
    found.History calendar later := by
  rw [Combining.History] at h ⊢
  cases hcurrent : found.current with
  | none =>
      rw [hcurrent] at h
      exact EndedBy.mono h hle
  | some period =>
      rw [hcurrent] at h
      obtain ⟨start, hgoing, hended, hstart⟩ := h
      exact ⟨start, hgoing, hended, hstart.trans hle⟩

/-- A sighting as it was read from its body. -/
structure Sighting.Read (calendar : Calendar) (s : Sighting) : Prop where
  time : readAt calendar s.body "on" firstTime = .ok s.time
  first : firstTime ≤ s.time

variable {s : Sighting}

theorem ended_withEnd {period : Object} {start : Int} (hs : s.Read calendar) (basis : String)
    (hstart : readAt calendar period "valid_from" firstTime = .ok start) (hfirst : firstTime ≤ start) (hbefore : start < s.time) :
    Ended calendar (withEnd s basis period) start s.time := by
  have hfrom : readOptionalValue (withEnd s basis period) "valid_from" = readOptionalValue period "valid_from" := by
    rw [withEnd, readOptionalValue_insert_of_ne _ _ (by decide), readOptionalValue_insert_of_ne _ _ (by decide)]
  have hto : readOptionalValue (withEnd s basis period) "valid_to" = readOptionalValue s.body "on" := by
    rw [withEnd, readOptionalValue_insert_of_ne _ _ (by decide), readOptionalValue_insert_self, endedOn]
  -- A sighting without a day is one of the first time, by which no period has begun.
  have hon : hasValue s.body "on" = true := by
    by_contra hnone
    rw [Bool.not_eq_true] at hnone
    have htime := hs.time
    rw [readAt_of_not_hasValue hnone] at htime
    have hsame := Except.ok.inj htime
    omega
  refine ⟨?_, ?_, ?_, hfirst, hbefore⟩
  · rw [readAt_eq_of_value hfrom]
    exact hstart
  · rw [hasValue_eq_hasContent, hto, ← hasValue_eq_hasContent]
    exact hon
  · rw [readAt_eq_of_value hto, readAt_of_hasValue hon lastTime firstTime]
    exact hs.time

theorem changeLast_append {α : Type} (change : α → α) (front : List α) (last : α) :
    changeLast change (front ++ [last]) = front ++ [change last] := by
  induction front with
  | nil => rfl
  | cons first rest ih =>
      cases rest with
      | nil => rfl
      | cons second rest =>
          show first :: changeLast change ((second :: rest) ++ [last]) = _
          rw [ih]
          rfl

theorem EndedBy.changeLast {periods : List Object} {time : Int} {s : Sighting} (hs : s.Read calendar)
    (h : EndedBy calendar periods time) (htime : time ≤ s.time) (basis : String) :
    EndedBy calendar (changeLast (withEnd s basis) periods) s.time := by
  cases h with
  | none => exact .none _
  | next h hperiod hstart hstop =>
      have hbefore := hperiod.before
      rw [changeLast_append]
      exact .next h (ended_withEnd hs basis hperiod.began hperiod.first (by omega)) hstart le_rfl

variable {found next : Combining}

variable {basis : String}

theorem drop_history {time : Int} (hs : s.Read calendar)
    (hfound : found.History calendar time) (htime : time ≤ s.time) (h : drop calendar found s basis = .ok next) :
    next.History calendar s.time := by
  obtain ⟨periods, hperiods, h⟩ := Except.bind_eq_ok.1 h
  cases h
  show EndedBy calendar periods s.time
  rw [Combining.History] at hfound
  rw [endPeriod] at hperiods
  cases hcurrent : found.current with
  | some period =>
      rw [hcurrent] at hfound hperiods
      obtain ⟨start, hgoing, hended, hstart⟩ := hfound
      obtain ⟨start', hread, hperiods⟩ := Except.bind_eq_ok.1 hperiods
      cases hgoing.began.symm.trans hread
      cases hperiods
      split_ifs with hbefore
      · exact .next hended (ended_withEnd hs basis hgoing.began hgoing.first hbefore) le_rfl le_rfl
      · exact hended.mono (hstart.trans htime)
  | none =>
      rw [hcurrent] at hfound hperiods
      simp only at hperiods
      split_ifs at hperiods
      · cases hperiods
        exact EndedBy.changeLast hs hfound htime "stated"
      · cases hperiods
        exact EndedBy.mono hfound htime

theorem going_goOn {period : Object} {start : Int}
    (hperiod : Going calendar period start) (h : goOn found s basis period = .ok next) :
    next.periods = found.periods ∧ ∃ current, next.current = some current ∧ Going calendar current start := by
  obtain ⟨titled, htitled, h⟩ := Except.bind_eq_ok.1 h
  cases h
  refine ⟨rfl, titled, rfl, ?_⟩
  simp only [addTitle, Except.bind_eq_ok] at htitled
  obtain ⟨raw, _, titles, _, htitled⟩ := htitled
  cases htitled
  have hkeep : ∀ body : Object, ∀ field, field ≠ "titles" → field ≠ "last_observed" → ∀ value value' : Json,
      readOptionalValue ((if basis = "observed" then body.insert "last_observed" value else body).insert "titles" value') field =
        readOptionalValue body field := by
    intro body field htitles hlast value value'
    rw [readOptionalValue_insert_of_ne _ _ htitles]
    split_ifs
    · exact readOptionalValue_insert_of_ne _ _ hlast
    · rfl
  refine ⟨?_, ?_, hperiod.first⟩
  · rw [readAt_eq_of_value (hkeep period "valid_from" (by decide) (by decide) _ _)]
    exact hperiod.began
  · rw [hasValue_eq_hasContent, hkeep period "valid_to" (by decide) (by decide), ← hasValue_eq_hasContent]
    exact hperiod.going

theorem going_beginPeriod (hs : s.Read calendar) (basis : String) : Going calendar (beginPeriod s basis) s.time := by
  have hkeys : ∀ field, readOptionalValue (beginPeriod s basis) field =
      (IndexMap.lookupEntry field [("valid_from", readOptionalValue s.body "on"), ("valid_from_basis", Json.str basis), ("valid_to", .null),
        ("valid_to_basis", .null), ("last_observed", .null), ("titles", .arr [])]).getD .null := by
    intro field
    rw [readOptionalValue, beginPeriod, IndexMap.get?_ofList_eq (by simp only [List.map_cons, List.map_nil]; decide)]
  refine ⟨?_, ?_, hs.first⟩
  · have hfrom : readOptionalValue (beginPeriod s basis) "valid_from" = readOptionalValue s.body "on" := hkeys "valid_from"
    rw [readAt_eq_of_value hfrom]
    exact hs.time
  · rw [hasValue_eq_hasContent, hkeys "valid_to"]
    rfl

theorem goOn_history {period : Object} {start : Int}
    (hperiod : Going calendar period start) (hended : EndedBy calendar found.periods start) (hstart : start ≤ s.time)
    (h : goOn found s basis period = .ok next) : next.History calendar s.time := by
  obtain ⟨hperiods, current, hcurrent, hgoing⟩ := going_goOn hperiod h
  rw [Combining.History, hcurrent, hperiods]
  exact ⟨start, hgoing, hended, hstart⟩

theorem observe_history {time : Int} (hs : s.Read calendar)
    (hfound : found.History calendar time) (htime : time ≤ s.time) (h : observe calendar found s basis = .ok next) :
    next.History calendar s.time := by
  rw [observe] at h
  cases hcurrent : found.current with
  | some period =>
      rw [hcurrent] at h
      rw [Combining.History, hcurrent] at hfound
      obtain ⟨start, hgoing, hended, hstart⟩ := hfound
      exact goOn_history hgoing hended (hstart.trans htime) h
  | none =>
      have hbegins : ∀ started : Combining, started.periods = found.periods →
          goOn started s basis (beginPeriod s basis) = .ok next → next.History calendar s.time := by
        intro started hperiods hgoes
        rw [Combining.History, hcurrent] at hfound
        refine goOn_history (going_beginPeriod hs basis) ?_ le_rfl hgoes
        rw [hperiods]
        exact EndedBy.mono hfound htime
      have hkept := hfound.mono htime
      rw [Combining.History, hcurrent] at hkept
      rw [hcurrent] at h
      cases hstated : found.statedEnd with
      | none =>
          rw [hstated] at h
          exact hbegins found rfl h
      | some statedEnd =>
          rw [hstated] at h
          simp only at h
          split_ifs at h
          · obtain ⟨raw, _, h⟩ := Except.bind_eq_ok.1 h
            obtain ⟨ended, _, h⟩ := Except.bind_eq_ok.1 h
            cases h
            split_ifs
            · exact hkept
            · rw [Combining.History, hcurrent]
              exact hkept
          · exact hbegins { found with statedEnd := none } rfl h

theorem combineSighting_history {statedTimes : List Int} {time : Int} (hs : s.Read calendar)
    (hfound : found.History calendar time) (htime : time ≤ s.time) (h : combineSighting calendar statedTimes found s = .ok next) :
    next.History calendar s.time := by
  obtain ⟨basis, _, h⟩ := Except.bind_eq_ok.1 h
  split_ifs at h
  · cases h
    exact hfound.mono htime
  · exact drop_history hs hfound htime h
  · exact observe_history hs hfound htime h

/-- Periods that lie one after another: each begins before it ends, where it has ended, and only the last may go on. -/
structure WellFormed (calendar : Calendar) (periods : List Object) : Prop where
  apart : ∃ spans : List (Int × Int), List.Forall₂ (fun period span => interval calendar period = .ok span) periods spans ∧
    spans.Pairwise fun span next => span.1 < next.1 ∧ span.2 ≤ next.1
  closed : ∀ period ∈ periods, hasValue period "valid_to" = true →
    ∃ start stop, interval calendar period = .ok (start, stop) ∧ start < stop
  last : ∀ front period back, periods = front ++ period :: back → back ≠ [] → hasValue period "valid_to" = true

theorem Ended.interval {period : Object} {start stop : Int} (h : Ended calendar period start stop) :
    interval calendar period = .ok (start, stop) :=
  Except.bind_eq_ok.2 ⟨start, h.began, Except.bind_eq_ok.2 ⟨stop, h.ended, rfl⟩⟩

theorem Going.interval {period : Object} {start : Int} (h : Going calendar period start) :
    interval calendar period = .ok (start, lastTime) :=
  Except.bind_eq_ok.2 ⟨start, h.began, Except.bind_eq_ok.2 ⟨lastTime, readAt_of_not_hasValue h.going lastTime, rfl⟩⟩

theorem EndedBy.spans {periods : List Object} {time : Int} (h : EndedBy calendar periods time) :
    ∃ spans : List (Int × Int), List.Forall₂ (fun period span => Ended calendar period span.1 span.2) periods spans ∧
      (spans.Pairwise fun span next => span.1 < next.1 ∧ span.2 ≤ next.1) ∧ ∀ span ∈ spans, span.1 < time ∧ span.2 ≤ time := by
  induction h with
  | none => exact ⟨[], .nil, .nil, fun span hspan => absurd hspan List.not_mem_nil⟩
  | @next periods period earlier start stop time h hperiod hstart hstop ih =>
      obtain ⟨spans, hspans, hapart, hby⟩ := ih
      have hbefore := hperiod.before
      refine ⟨spans ++ [(start, stop)], List.rel_append hspans (.cons hperiod .nil), ?_, ?_⟩
      · refine List.pairwise_append.2 ⟨hapart, List.pairwise_singleton _ _, fun span hspan next hnext => ?_⟩
        cases List.mem_singleton.1 hnext
        have := hby span hspan
        exact ⟨by omega, by omega⟩
      · intro span hspan
        rcases List.mem_append.1 hspan with hspan | hspan
        · have := hby span hspan
          exact ⟨by omega, by omega⟩
        · cases List.mem_singleton.1 hspan
          exact ⟨by omega, hstop⟩

theorem EndedBy.wellFormed {periods : List Object} {time : Int} (h : EndedBy calendar periods time) {current : Option Object}
    (hcurrent : ∀ period ∈ current, Going calendar period time) : WellFormed calendar (periods ++ current.toList) := by
  obtain ⟨spans, hspans, hapart, hby⟩ := h.spans
  have hended : ∀ period ∈ periods, ∃ start stop, Ended calendar period start stop := by
    intro period hperiod
    obtain ⟨span, _, hspan⟩ := Runs.forall₂_exists_right hspans hperiod
    exact ⟨span.1, span.2, hspan⟩
  have hintervals := hspans.imp fun _ _ h => h.interval
  refine ⟨?_, ?_, ?_⟩
  · cases current with
    | none => exact ⟨spans, by rw [Option.toList_none, List.append_nil]; exact hintervals, hapart⟩
    | some period =>
        refine ⟨spans ++ [(time, lastTime)], List.rel_append hintervals (.cons (hcurrent period rfl).interval .nil), ?_⟩
        refine List.pairwise_append.2 ⟨hapart, List.pairwise_singleton _ _, fun span hspan next hnext => ?_⟩
        cases List.mem_singleton.1 hnext
        exact hby span hspan
  · intro period hperiod hclosed
    rcases List.mem_append.1 hperiod with hperiod | hperiod
    · obtain ⟨start, stop, hperiod⟩ := hended period hperiod
      exact ⟨start, stop, hperiod.interval, hperiod.before⟩
    · have hgoing := (hcurrent period (Option.mem_toList.1 hperiod)).going
      rw [hclosed] at hgoing
      cases hgoing
  · intro front period back hsplit hback
    -- With something after it, the period is one of those that have ended.
    have hperiod : period ∈ periods := by
      cases current with
      | none =>
          rw [Option.toList_none, List.append_nil] at hsplit
          rw [hsplit]
          exact List.mem_append_right front List.mem_cons_self
      | some going =>
          obtain ⟨rest, last, rfl⟩ := (List.eq_nil_or_concat back).resolve_left hback
          rw [List.concat_eq_append, ← List.cons_append, ← List.append_assoc] at hsplit
          rw [(List.append_inj' hsplit rfl).1]
          exact List.mem_append_right front List.mem_cons_self
    obtain ⟨start, stop, hperiod⟩ := hended period hperiod
    exact hperiod.closed

theorem readSighting_read {body : Object} (h : readSighting calendar body = .ok s) :
    s.body = body ∧ readAt calendar body "on" firstTime = .ok s.time ∧ s.dropped = decide (hasValue body "held" = false) ∧
      readOrder body = .ok s.order := by
  obtain ⟨time, htime, h⟩ := Except.bind_eq_ok.1 h
  obtain ⟨_, _, h⟩ := Except.bind_eq_ok.1 h
  obtain ⟨order, horder, h⟩ := Except.bind_eq_ok.1 h
  cases h
  exact ⟨rfl, htime, rfl, horder⟩

theorem time_le_of_key_le {s next : Sighting} (h : s.key ≤ next.key) : s.time ≤ next.time :=
  Prod.Lex.monotone_fst _ _ h

theorem combinePeriods_wellFormed {sightings periods contradictions : List Object}
    (hfirst : ∀ body ∈ sightings, ∀ time, readAt calendar body "on" firstTime = .ok time → firstTime ≤ time)
    (h : combinePeriods calendar sightings = .ok (periods, contradictions)) : WellFormed calendar periods := by
  obtain ⟨read, hread, h⟩ := Except.bind_eq_ok.1 h
  obtain ⟨found, hrun, h⟩ := Except.bind_eq_ok.1 h
  cases h
  have hsightings : ∀ s ∈ Sorting.sortByKey Sighting.key read, s.Read calendar := by
    intro s hs
    obtain ⟨body, hbody, hs⟩ := Runs.mapM_exists_of_mem hread (Sorting.mem_sortByKey.1 hs)
    obtain ⟨rfl, htime, _, _⟩ := readSighting_read hs
    exact ⟨htime, hfirst _ hbody _ htime⟩
  have hhistory := Runs.run_invariant
    (fun front mid => ∃ time, mid.History calendar time ∧ (time = firstTime ∨ ∃ s ∈ front, s.time = time)) hrun
    ⟨firstTime, EndedBy.none firstTime, .inl rfl⟩ ?_
  · obtain ⟨time, hhistory, _⟩ := hhistory
    rw [Combining.History] at hhistory
    cases hcurrent : found.current with
    | none =>
        rw [hcurrent] at hhistory
        exact EndedBy.wellFormed hhistory (fun period hperiod => absurd hperiod (by simp))
    | some period =>
        rw [hcurrent] at hhistory
        obtain ⟨start, hgoing, hended, _⟩ := hhistory
        refine hended.wellFormed fun other hother => ?_
        cases hother
        exact hgoing
  · intro front s back mid next hsplit hmid hstep
    obtain ⟨time, hhistory, htime⟩ := hmid
    have hs := hsightings s (by rw [hsplit]; simp)
    refine ⟨s.time, combineSighting_history hs hhistory ?_ hstep, .inr ⟨s, by simp, rfl⟩⟩
    rcases htime with rfl | ⟨earlier, hearlier, rfl⟩
    · exact hs.first
    · exact time_le_of_key_le (Sorting.key_le_of_split Sighting.key hsplit hearlier)

/-- Two sightings of one time, both held or both dropped, with one assertion id. -/
structure SameSighting (calendar : Calendar) (body other : Object) : Prop where
  time : ∃ time, readAt calendar body "on" firstTime = .ok time ∧ readAt calendar other "on" firstTime = .ok time
  kind : hasValue body "held" = hasValue other "held"
  assertion : valuesMatch (readOptionalValue body "assertion_id") (readOptionalValue other "assertion_id") = true

theorem SameSighting.symm {body other : Object} (h : SameSighting calendar body other) : SameSighting calendar other body := by
  obtain ⟨time, hbody, hother⟩ := h.time
  exact ⟨⟨time, hother, hbody⟩, h.kind.symm, Records.valuesMatch_is_python_equality.2.1 _ _ h.assertion⟩

def complement (c : Char) : Char := Char.ofNat ('9'.toNat - (c.toNat - '0'.toNat))

theorem complement_complement {c : Char} (h : c.isDigit = true) : complement (complement c) = c := by
  have hdigits : ∀ d : Fin 10, complement (complement (Char.ofNat (48 + d))) = Char.ofNat (48 + d) := by decide
  obtain ⟨hle, hle'⟩ := Char.isDigit_iff_toNat.1 h
  have hzero : '0'.toNat = 48 := rfl
  have hnine : '9'.toNat = 57 := rfl
  have hc := hdigits ⟨c.toNat - 48, by omega⟩
  have hsum : 48 + (c.toNat - 48) = c.toNat := by omega
  simp only [hsum, Char.ofNat_toNat] at hc
  exact hc

def orderText (order : Nat × Nat × String) : String :=
  if order.1 = 0 then String.ofList ('-' :: order.2.2.toList.map complement) else order.2.2

variable {order : Nat × Nat × String}

theorem readSightingOrder_ok {value : Json} (h : readSightingOrder value = .ok order) :
    (order.1 = 2 ∧ value = .str order.2.2) ∨ order.1 ≠ 2 ∧ Records.readNumberText value = some (orderText order) := by
  cases value with
  | str text =>
      cases h
      exact .inl ⟨rfl, rfl⟩
  | bool value =>
      cases h
      cases value
      · exact .inr ⟨by decide, rfl⟩
      · exact .inr ⟨by decide, rfl⟩
  | num lexeme =>
      simp only [readSightingOrder] at h
      split_ifs at h with hnegative hrefused hrefused
      · cases h
        refine .inr ⟨by simp, congrArg some ?_⟩
        obtain ⟨rest, hrest⟩ : ∃ rest, lexeme.toList = '-' :: rest := by
          cases hlist : lexeme.toList with
          | nil =>
              rw [hlist] at hnegative
              cases hnegative
          | cons c rest =>
              rw [hlist] at hnegative
              cases hnegative
              exact ⟨rest, rfl⟩
        have hdigits : ∀ c ∈ rest, c.isDigit = true := by
          intro c hc
          by_contra hnot
          refine hrefused (.inr (List.any_eq_true.2 ⟨c, ?_, by simpa using hnot⟩))
          rw [hrest]
          exact hc
        have hback : (rest.map complement).map complement = rest := by
          rw [List.map_map]
          exact (List.map_congr_left fun c hc => complement_complement (hdigits c hc)).trans (List.map_id rest)
        rw [orderText, if_pos rfl, hrest, List.tail_cons]
        show lexeme = String.ofList ('-' :: (String.ofList (rest.map complement)).toList.map complement)
        rw [String.toList_ofList, hback, ← hrest, String.ofList_toList]
      · cases h
        refine .inr ⟨by simp, congrArg some ?_⟩
        rw [orderText, if_neg (by simp), String.ofList_toList]
  | null => cases h
  | arr items => cases h
  | obj fields => cases h

theorem valuesMatch_of_readSightingOrder {value other : Json} (h : readSightingOrder value = .ok order)
    (hother : readSightingOrder other = .ok order) : valuesMatch value other = true := by
  rcases readSightingOrder_ok h with ⟨hkind, rfl⟩ | ⟨hkind, hvalue⟩
  · rcases readSightingOrder_ok hother with ⟨_, rfl⟩ | ⟨hkind', _⟩
    · exact Records.valuesMatch_is_python_equality.1 _
    · exact absurd hkind hkind'
  · rcases readSightingOrder_ok hother with ⟨hkind', _⟩ | ⟨_, hvalue'⟩
    · exact absurd hkind' hkind
    · exact (Records.valuesMatch_number hvalue).2 ⟨_, hvalue', Records.numbersMatch_iff.2 rfl⟩

theorem readOrder_ok {body : Object} (h : readOrder body = .ok order) :
    readSightingOrder (readOptionalValue body "assertion_id") = .ok order := by
  rw [readOrder] at h
  rw [readOptionalValue]
  cases hget : body.get? "assertion_id" with
  | none =>
      rw [hget] at h
      cases h
  | some value =>
      rw [hget] at h
      exact h

theorem sameSighting_of_key {body other : Object} {s s' : Sighting} (hs : readSighting calendar body = .ok s)
    (hs' : readSighting calendar other = .ok s') (h : s.key = s'.key) : SameSighting calendar body other := by
  obtain ⟨_, htime, hkind, horder⟩ := readSighting_read hs
  obtain ⟨_, htime', hkind', horder'⟩ := readSighting_read hs'
  rw [Sighting.key, Sighting.key] at h
  have hpairs := Prod.ext_iff.1 (toLex.injective h)
  have hrest := Prod.ext_iff.1 (toLex.injective hpairs.2)
  have hlast := Prod.ext_iff.1 (toLex.injective hrest.2)
  have hdropped : s.dropped = s'.dropped := by
    have h : (if s.dropped then 1 else 0) = (if s'.dropped then 1 else 0) := hrest.1
    cases hd : s.dropped <;> cases hd' : s'.dropped <;> simp [hd, hd'] at h ⊢
  have hsame : s.order = s'.order := Prod.ext hlast.1 (toLex.injective hlast.2)
  refine ⟨⟨s.time, htime, ?_⟩, ?_, ?_⟩
  · rw [htime']
    exact congrArg Except.ok hpairs.1.symm
  · rw [hkind, hkind'] at hdropped
    cases hheld : hasValue body "held" <;> cases hheld' : hasValue other "held" <;> simp [hheld, hheld'] at hdropped ⊢
  · exact valuesMatch_of_readSightingOrder (readOrder_ok horder) (hsame ▸ readOrder_ok horder')

theorem combineSighting_congr {times times' : List Int} (h : ∀ time, time ∈ times ↔ time ∈ times') :
    combineSighting calendar times = combineSighting calendar times' := by
  funext found s
  rw [combineSighting, combineSighting]
  simp only [h]

theorem combinePeriods_perm {sightings others : List Object} (hperm : sightings.Perm others)
    (hapart : sightings.Pairwise fun body other => ¬ SameSighting calendar body other) {result : List Object × List Object}
    (h : combinePeriods calendar sightings = .ok result) : combinePeriods calendar others = .ok result := by
  obtain ⟨read, hread, h⟩ := Except.bind_eq_ok.1 h
  obtain ⟨found, hrun, h⟩ := Except.bind_eq_ok.1 h
  obtain ⟨read', hread', hperm'⟩ := Runs.mapM_perm hperm hread
  have hkeys : read.Pairwise fun s s' => s.key ≠ s'.key :=
    Runs.pairwise_of_forall₂ (fun body s other s' hs hs' hnot hkey => hnot (sameSighting_of_key hs hs' hkey))
      (Runs.mapM_eq_ok.1 hread) hapart
  have hinj : ∀ a ∈ read.map id, ∀ b ∈ read.map id, Sighting.key a = Sighting.key b → a = b := by
    rw [List.map_id]
    exact fun a ha b hb heq => List.inj_on_of_nodup_map (List.pairwise_map.2 hkeys) ha hb heq
  have hsorted : (Sorting.sortByKey Sighting.key read).map id = (Sorting.sortByKey Sighting.key read').map id :=
    Sorting.sortByKey_map_eq Sighting.key (hperm'.map id) (fun _ _ => rfl) (fun _ _ => rfl) hinj
  rw [List.map_id, List.map_id] at hsorted
  refine Except.bind_eq_ok.2 ⟨read', hread', Except.bind_eq_ok.2 ⟨found, ?_, h⟩⟩
  rw [← hsorted, ← combineSighting_congr fun time => ?_]
  · exact hrun
  · exact ((hperm'.filter _).map _).mem_iff

/-- Sightings of no day before the first time combine into well-formed periods, and sightings of which no two are the same into the same periods whatever their order. -/
theorem combinePeriods_is_well_formed_and_order_free (calendar : Calendar) (sightings : List Object) :
    ((∀ body ∈ sightings, ∀ time, readAt calendar body "on" firstTime = .ok time → firstTime ≤ time) →
      ∀ periods contradictions, combinePeriods calendar sightings = .ok (periods, contradictions) → WellFormed calendar periods) ∧
    ((sightings.Pairwise fun body other => ¬ SameSighting calendar body other) →
      ∀ others, sightings.Perm others → (combinePeriods calendar sightings).toOption = (combinePeriods calendar others).toOption) := by
  refine ⟨fun hfirst periods contradictions h => combinePeriods_wellFormed hfirst h, fun hapart others hperm => ?_⟩
  have hapart' : others.Pairwise fun body other => ¬ SameSighting calendar body other :=
    hperm.pairwise hapart fun hnot hsame => hnot hsame.symm
  cases h : combinePeriods calendar sightings with
  | ok result => rw [combinePeriods_perm hperm hapart h]
  | error e =>
      cases h' : combinePeriods calendar others with
      | error e' => rfl
      | ok result =>
          rw [combinePeriods_perm hperm.symm hapart' h'] at h
          cases h

private def sighted (day held assertion : Json) : Object :=
  .ofList [("on", day), ("held", held), ("basis", .str "observed"), ("assertion_id", assertion)]

private def days : Calendar := .ofTable [("0000-06-01T00:00:00Z", -62154086400000000000), ("2020-01-01T00:00:00Z", 1577836800000000000),
  ("2021-01-01T00:00:00Z", 1609459200000000000)]

/-- A relationship held and then dropped, read in either order. -/
theorem combinePeriods_is_well_formed_and_order_free_dropped :
    let held := sighted (.str "2020-01-01T00:00:00Z") (.bool true) (.num "7")
    let dropped := sighted (.str "2021-01-01T00:00:00Z") .null (.str "a")
    ∃ period, combinePeriods days [dropped, held] = .ok ([period], []) ∧ WellFormed days [period] ∧
      (combinePeriods days [dropped, held]).toOption = (combinePeriods days [held, dropped]).toOption := by
  intro held dropped
  obtain ⟨result, hresult, hperiods, hnone⟩ : ∃ result, combinePeriods days [dropped, held] = .ok result ∧
      result.1.length = 1 ∧ result.2 = [] := by decide +kernel
  obtain ⟨periods, contradictions⟩ := result
  obtain ⟨period, rfl⟩ := List.length_eq_one_iff.1 hperiods
  cases hnone
  have hheld : readAt days held "on" firstTime = .ok 1577836800000000 := by decide +kernel
  have hdropped : readAt days dropped "on" firstTime = .ok 1609459200000000 := by decide +kernel
  refine ⟨period, hresult, (combinePeriods_is_well_formed_and_order_free days [dropped, held]).1 ?_ _ _ hresult,
    (combinePeriods_is_well_formed_and_order_free days [dropped, held]).2 ?_ _ (.swap _ _ _)⟩
  · intro body hbody time htime
    simp only [List.mem_cons, List.not_mem_nil, or_false] at hbody
    obtain rfl | rfl := hbody
    · cases hdropped.symm.trans htime
      decide
    · cases hheld.symm.trans htime
      decide
  · refine List.pairwise_pair.2 fun hsame => ?_
    obtain ⟨time, htime, htime'⟩ := hsame.time
    cases hdropped.symm.trans htime
    cases hheld.symm.trans htime'

/-- A period that began before the first time is ended by a sighting without a day, and stays open before another. And of two sightings that are refused the first one's error is told. -/
theorem period_left_open_and_errors_ordered :
    (∃ result, combinePeriods days [sighted (.str "0000-06-01T00:00:00Z") (.bool true) (.str "a"), sighted .null .null (.str "b"),
        sighted (.str "2020-01-01T00:00:00Z") (.bool true) (.str "c")] = .ok result ∧ ¬ WellFormed days result.1) ∧
      combinePeriods days [sighted (.str "1") .null (.str "a"), sighted .null .null .null] ≠
        combinePeriods days [sighted .null .null .null, sighted (.str "1") .null (.str "a")] := by
  refine ⟨?_, by decide +kernel⟩
  obtain ⟨result, hresult, hlength, hopen⟩ : ∃ result, combinePeriods days [sighted (.str "0000-06-01T00:00:00Z") (.bool true) (.str "a"),
      sighted .null .null (.str "b"), sighted (.str "2020-01-01T00:00:00Z") (.bool true) (.str "c")] = .ok result ∧
      result.1.length = 2 ∧ result.1.head?.any (hasValue · "valid_to") = false := by decide +kernel
  refine ⟨result, hresult, fun h => ?_⟩
  obtain ⟨first, second, hperiods⟩ := List.length_eq_two.1 hlength
  have hclosed := h.last [] first [second] hperiods (by simp)
  rw [hperiods] at hopen
  simp only [List.head?_cons, Option.any_some, hclosed] at hopen
  cases hopen

end EdgarPlatform.Relationships
