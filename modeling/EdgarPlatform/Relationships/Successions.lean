import EdgarPlatform.Relationships.Combined

/-!
# What a succession ends

An entity is succeeded from the earliest start of the links that say so. A parent link is cut there at its source, and at its target unless it was seen since: of its periods those that begin before every cut are left, shortened to the earliest, and each of the others is told in a review.
-/

namespace EdgarPlatform.Relationships

open Records (Calendar Json Object readText hasValue readOptionalValue)

variable {calendar : Calendar} {rules : IndexMap String TypeRules}

/-- A period of one of the links from which an entity is succeeded. -/
def IsSuccession (calendar : Calendar) (rules : IndexMap String TypeRules) (entries : List (String × Relationship)) (entity : String)
    (s : Succession) : Prop :=
  ∃ edge, (s.key, edge) ∈ entries ∧
    (∃ kind, readText edge.body "type" = .ok kind ∧ (rules.get? kind).any TypeRules.isEndingParentLinks = true) ∧
    readText edge.body "source_id" = .ok entity ∧ s.period ∈ edge.periods ∧ ∃ stop, interval calendar s.period = .ok (s.on, stop)

def IsEarliest (calendar : Calendar) (rules : IndexMap String TypeRules) (entries : List (String × Relationship)) (entity : String)
    (s : Succession) : Prop :=
  IsSuccession calendar rules entries entity s ∧ ∀ other, IsSuccession calendar rules entries entity other → s.on ≤ other.on

/-- What has been noted for each entity is one of its successions, none of them earlier. -/
def Notes (successions : String → Succession → Prop) (ceased : Ceased) : Prop :=
  ∀ entity, (∀ s, ceased.get? entity = some s → successions entity s) ∧
    ∀ s, successions entity s → ∃ noted, ceased.get? entity = some noted ∧ noted.on ≤ s.on

variable {ceased : Ceased}

theorem Notes.congr {successions successions' : String → Succession → Prop} (h : Notes successions ceased)
    (hsame : ∀ entity s, successions entity s ↔ successions' entity s) : Notes successions' ceased :=
  fun entity => ⟨fun s hs => (hsame entity s).1 ((h entity).1 s hs), fun s hs => (h entity).2 s ((hsame entity s).2 hs)⟩

variable {period : Object}

variable {edges : Edges}

def SameButEnd (period left : Object) : Prop :=
  ∀ field, field ∉ ["valid_to", "valid_to_basis", "ended_by"] → left.get? field = period.get? field

/-- A period shortened to the cuts, which it begins before. -/
structure Shortened (calendar : Calendar) (cuts : List Int) (period left : Object) : Prop where
  span : ∃ start stop, interval calendar period = .ok (start, stop) ∧ (∀ on ∈ cuts, start < on) ∧
    interval calendar left = .ok (start, cuts.foldr min stop)
  fields : SameButEnd period left

/-- The periods left of a link that is cut: those that begin before every cut. -/
inductive Trimmed (calendar : Calendar) (cuts : List Int) : List Object → List Object → Prop
  | nil : Trimmed calendar cuts [] []
  | kept {period left : Object} {periods kept : List Object} (h : Shortened calendar cuts period left)
      (hrest : Trimmed calendar cuts periods kept) : Trimmed calendar cuts (period :: periods) (left :: kept)
  | removed {period : Object} {periods kept : List Object} {start stop on : Int} (h : interval calendar period = .ok (start, stop))
      (hon : on ∈ cuts) (hstart : on ≤ start) (hrest : Trimmed calendar cuts periods kept) : Trimmed calendar cuts (period :: periods) kept

variable {cuts : List Int}

theorem lt_foldr_min {stop time : Int} : time < cuts.foldr min stop ↔ time < stop ∧ ∀ on ∈ cuts, time < on := by
  induction cuts with
  | nil => simp
  | cons on rest ih =>
      rw [List.foldr_cons, lt_min_iff, ih, List.forall_mem_cons]
      exact ⟨fun ⟨hon, hstop, hrest⟩ => ⟨hstop, hon, hrest⟩, fun ⟨hstop, hon, hrest⟩ => ⟨hon, hstop, hrest⟩⟩

theorem foldr_min_le {stop on : Int} (h : on ∈ cuts) : cuts.foldr min stop ≤ on := by
  by_contra hlt
  exact absurd ((lt_foldr_min.1 (not_le.1 hlt)).2 on h) (lt_irrefl _)

theorem Shortened.trans {cuts cuts' : List Int} {period mid left : Object} (h : Shortened calendar cuts period mid)
    (h' : Shortened calendar cuts' mid left) : Shortened calendar (cuts' ++ cuts) period left := by
  obtain ⟨start, stop, hperiod, hbegins, hmid⟩ := h.span
  obtain ⟨start', stop', hmid', hbegins', hleft⟩ := h'.span
  cases hmid.symm.trans hmid'
  refine ⟨⟨start, stop, hperiod, fun on hon => ?_, ?_⟩, fun field hfield => (h'.fields field hfield).trans (h.fields field hfield)⟩
  · rcases List.mem_append.1 hon with hon | hon
    · exact hbegins' on hon
    · exact hbegins on hon
  · rw [List.foldr_append]
    exact hleft

theorem Trimmed.trans {cuts cuts' : List Int} {periods mid kept : List Object} (h : Trimmed calendar cuts periods mid)
    (h' : Trimmed calendar cuts' mid kept) : Trimmed calendar (cuts' ++ cuts) periods kept := by
  induction h generalizing kept with
  | nil =>
      cases h'
      exact .nil
  | kept h _ ih =>
      cases h' with
      | kept h' hrest' => exact .kept (h.trans h') (ih hrest')
      | removed hleft hon hstart hrest' =>
          obtain ⟨start, stop, hperiod, _, hmid⟩ := h.span
          cases hmid.symm.trans hleft
          exact .removed hperiod (List.mem_append_left _ hon) hstart (ih hrest')
  | removed hperiod hon hstart _ ih => exact .removed hperiod (List.mem_append_right _ hon) hstart (ih h')

def afterReview (key link : String) (ends : List String) : Object :=
  reviewBody "parent_link_after_succession"
    [("relationship_id", .str key), ("successor_link", .str link), ("entities", textsJson ends)]

/-- A succession with the start it states. -/
structure Succession.Stated (calendar : Calendar) (s : Succession) : Prop where
  start : hasValue s.period "valid_from" = true
  time : ∃ stop, interval calendar s.period = .ok (s.on, stop)

variable {s : Succession}

variable {found next : List Object × List Object}

/-- What cutting left of the periods of a link, with a review for each one removed. -/
structure CutTo (calendar : Calendar) (told : Object → Prop) (cuts : List Int) (periods kept reviews : List Object) : Prop where
  trimmed : Trimmed calendar cuts periods kept
  reported : reviews.length + kept.length = periods.length
  told : ∀ review ∈ reviews, told review

variable {told : Object → Prop}

theorem CutTo.trans {cuts cuts' : List Int} {periods mid kept reviews reviews' : List Object}
    (h : CutTo calendar told cuts periods mid reviews) (h' : CutTo calendar told cuts' mid kept reviews') :
    CutTo calendar told (cuts' ++ cuts) periods kept (reviews ++ reviews') := by
  refine ⟨h.trimmed.trans h'.trimmed, ?_, fun review hreview => ?_⟩
  · have := h.reported
    have := h'.reported
    rw [List.length_append]
    omega
  · rcases List.mem_append.1 hreview with hreview | hreview
    · exact h.told review hreview
    · exact h'.told review hreview

def beginsBefore (calendar : Calendar) (time : Int) (period : Object) : Bool :=
  (interval calendar period).toOption.any fun span => span.1 < time

/-- Two periods that are the same before a time. -/
structure SameBefore (calendar : Calendar) (time : Int) (period left : Object) : Prop where
  span : ∃ start stop stop', interval calendar period = .ok (start, stop) ∧ interval calendar left = .ok (start, stop') ∧
    min stop time = min stop' time
  fields : SameButEnd period left

theorem beginsBefore_of_interval {start stop : Int} (h : interval calendar period = .ok (start, stop)) (time : Int) :
    beginsBefore calendar time period = decide (start < time) := by
  rw [beginsBefore, h]
  rfl

theorem Shortened.sameBefore {time : Int} (htime : ∀ on ∈ cuts, time ≤ on) {period left : Object}
    (h : Shortened calendar cuts period left) : SameBefore calendar time period left := by
  obtain ⟨start, stop, hperiod, _, hleft⟩ := h.span
  refine ⟨⟨start, stop, _, hperiod, hleft, ?_⟩, h.fields⟩
  refine eq_of_forall_lt_iff fun earlier => ?_
  rw [lt_min_iff, lt_min_iff, lt_foldr_min]
  exact ⟨fun ⟨hstop, hlt⟩ => ⟨⟨hstop, fun on hon => hlt.trans_le (htime on hon)⟩, hlt⟩, fun ⟨hstop, hlt⟩ => ⟨hstop.1, hlt⟩⟩

theorem Trimmed.sameBefore {time : Int} (htime : ∀ on ∈ cuts, time ≤ on) {periods kept : List Object}
    (h : Trimmed calendar cuts periods kept) :
    List.Forall₂ (SameBefore calendar time) (periods.filter (beginsBefore calendar time)) (kept.filter (beginsBefore calendar time)) := by
  induction h with
  | nil => exact .nil
  | @kept period left periods kept h _ ih =>
      obtain ⟨start, stop, hperiod, _, hleft⟩ := h.span
      rw [List.filter_cons, List.filter_cons, beginsBefore_of_interval hperiod, beginsBefore_of_interval hleft]
      split_ifs with hbefore
      · exact .cons (h.sameBefore htime) ih
      · exact ih
  | @removed period periods kept start stop on hperiod hon hstart _ ih =>
      have hon := htime on hon
      rw [List.filter_cons, beginsBefore_of_interval hperiod, if_neg (by rw [decide_eq_true_eq]; omega)]
      exact ih

theorem Trimmed.within {periods kept : List Object} (h : Trimmed calendar cuts periods kept) {on : Int}
    (hon : on ∈ cuts) {left : Object} (hleft : left ∈ kept) : ∃ start stop, interval calendar left = .ok (start, stop) ∧ stop ≤ on := by
  induction h with
  | nil => exact absurd hleft List.not_mem_nil
  | kept h _ ih =>
      rcases List.mem_cons.1 hleft with rfl | hleft
      · obtain ⟨start, stop, _, _, hspan⟩ := h.span
        exact ⟨start, _, hspan, foldr_min_le hon⟩
      · exact ih hleft
  | removed _ _ _ _ ih => exact ih hleft

/-- What is left of the periods of a link that is cut, or of one that is not. -/
def LeftBy (calendar : Calendar) (told : Object → Prop) (cuts : List Int) (periods kept reviews : List Object) : Prop :=
  (cuts = [] ∧ kept = periods ∧ reviews = []) ∨ CutTo calendar told cuts periods kept reviews

theorem LeftBy.trans {cuts cuts' : List Int} {periods mid kept reviews reviews' : List Object}
    (h : LeftBy calendar told cuts periods mid reviews) (h' : LeftBy calendar told cuts' mid kept reviews') :
    LeftBy calendar told (cuts' ++ cuts) periods kept (reviews ++ reviews') := by
  obtain ⟨rfl, rfl, rfl⟩ | h := h
  · rw [List.append_nil, List.nil_append]
    exact h'
  · obtain ⟨rfl, rfl, rfl⟩ | h' := h'
    · rw [List.append_nil, List.nil_append]
      exact .inr h
    · exact .inr (h.trans h')

variable {periods kept reviews : List Object}

theorem LeftBy.sameBefore {time : Int} (htime : ∀ on ∈ cuts, time ≤ on)
    (h : LeftBy calendar told cuts periods kept reviews) :
    List.Forall₂ (SameBefore calendar time) (periods.filter (beginsBefore calendar time)) (kept.filter (beginsBefore calendar time)) := by
  obtain ⟨_, rfl, _⟩ | h := h
  · refine List.forall₂_same.2 fun period hperiod => ?_
    obtain ⟨⟨start, stop⟩, hspan, _⟩ := Except.exists_of_any (List.mem_filter.1 hperiod).2
    exact ⟨⟨start, stop, stop, hspan, hspan, rfl⟩, fun _ _ => rfl⟩
  · exact h.trimmed.sameBefore htime

theorem LeftBy.within
    (h : LeftBy calendar told cuts periods kept reviews) {on : Int} (hon : on ∈ cuts) {left : Object} (hleft : left ∈ kept) :
    ∃ start stop, interval calendar left = .ok (start, stop) ∧ stop ≤ on := by
  obtain ⟨rfl, _, _⟩ | h := h
  · exact absurd hon List.not_mem_nil
  · exact h.trimmed.within hon hleft

theorem LeftBy.reported
    (h : LeftBy calendar told cuts periods kept reviews) :
    reviews.length + kept.length = periods.length ∧ ∀ review ∈ reviews, told review := by
  obtain ⟨_, rfl, rfl⟩ | h := h
  · exact ⟨Nat.zero_add _, fun review hreview => absurd hreview List.not_mem_nil⟩
  · exact ⟨h.reported, h.told⟩

/-- A time a link is cut at, by a succession of its source, or of its target which it was not seen after. -/
def IsCut (calendar : Calendar) (rules : IndexMap String TypeRules) (entries : List (String × Relationship)) (body : Object)
    (on : Int) : Prop :=
  (∃ entity s, readText body "source_id" = .ok entity ∧ IsEarliest calendar rules entries entity s ∧ s.on = on) ∨
  ∃ entity s seen, readText body "target_id" = .ok entity ∧ IsEarliest calendar rules entries entity s ∧ s.on = on ∧
    readAt calendar body "last_seen" firstTime = .ok seen ∧ seen ≤ on

/-- The review of a period removed from a link, naming the link an end was succeeded by. -/
def IsAfterReview (calendar : Calendar) (rules : IndexMap String TypeRules) (entries : List (String × Relationship)) (key : String)
    (body review : Object) : Prop :=
  ∃ side entity s ends, side ∈ ["source_id", "target_id"] ∧ readText body side = .ok entity ∧
    IsEarliest calendar rules entries entity s ∧ endsOf body = .ok ends ∧ review = afterReview key s.key ends

def StartsStated (edges : Edges) : Prop :=
  ∀ entry ∈ edges.entries, ∀ period ∈ entry.2.periods, hasValue period "valid_from" = true

theorem IsSuccession.stated (hstarts : StartsStated edges) {entity : String}
    (h : IsSuccession calendar rules edges.entries entity s) : s.Stated calendar := by
  obtain ⟨edge, hedge, _, _, hperiod, htime⟩ := h
  exact ⟨hstarts _ hedge _ hperiod, htime⟩

def periodsOf (edge : Option Relationship) : List Object := edge.elim [] Relationship.periods

/-- What a parent link is when the successions have cut it. -/
structure Finished (calendar : Calendar) (rules : IndexMap String TypeRules) (entries : List (String × Relationship)) (key : String)
    (edge : Relationship) (left : Option Relationship) (reviews : List Object) : Prop where
  /-- No period reaches past a succession. -/
  within : ∀ on, IsCut calendar rules entries edge.body on → ∀ period ∈ periodsOf left,
    ∃ start stop, interval calendar period = .ok (start, stop) ∧ stop ≤ on
  /-- The part before the successions is as it was. -/
  before : ∀ time, (∀ on, IsCut calendar rules entries edge.body on → time ≤ on) → List.Forall₂ (SameBefore calendar time)
    (edge.periods.filter (beginsBefore calendar time)) ((periodsOf left).filter (beginsBefore calendar time))
  rest : ∀ edge' ∈ left, { edge' with periods := edge.periods } = edge
  /-- A link whose periods are all removed is gone. -/
  gone : edge.periods ≠ [] → ∀ edge' ∈ left, edge'.periods ≠ []
  /-- Each period removed is told in a review. -/
  reported : reviews.length + (periodsOf left).length = edge.periods.length ∧
    ∀ review ∈ reviews, IsAfterReview calendar rules entries key edge.body review

theorem LeftBy.finished {entries : List (String × Relationship)} {key : String} {edge : Relationship}
    {kept reviews : List Object} (h : LeftBy calendar (IsAfterReview calendar rules entries key edge.body) cuts edge.periods kept reviews)
    (hcuts : ∀ on, on ∈ cuts ↔ IsCut calendar rules entries edge.body on) {left : Option Relationship} (hperiods : periodsOf left = kept)
    (hrest : ∀ edge' ∈ left, { edge' with periods := edge.periods } = edge)
    (hgone : edge.periods ≠ [] → ∀ edge' ∈ left, edge'.periods ≠ []) : Finished calendar rules entries key edge left reviews := by
  refine ⟨fun on hon period hperiod => ?_, fun time htime => ?_, hrest, hgone, ?_⟩
  · rw [hperiods] at hperiod
    exact h.within ((hcuts on).2 hon) hperiod
  · rw [hperiods]
    exact h.sameBefore fun on hon => htime on ((hcuts on).1 hon)
  · rw [hperiods]
    exact h.reported

end EdgarPlatform.Relationships
