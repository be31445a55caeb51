import EdgarPlatform.Sequences.Sizes

/-!
# A scan under a tighter bound

The bound on records is looked at in four places. Wherever the tighter of two bounds refuses and the looser does not, an element or a record is left that the tighter one does not allow, and it stays until its record is handed on.
-/

namespace EdgarPlatform.Sequences

open Bounds (Tighter)

variable {σ : Type} {settings : Settings σ} {s t : State σ} {bound : Nat}

def Settings.bounded (settings : Settings σ) (bound : Nat) : Settings σ :=
  { settings with limits := { settings.limits with maxRecord := bound } }

/-- A refusal for the length of a record, or of what is part of one. -/
def TooLong (e : Rejected) : Prop :=
  e ∈ [reject "XML normalized attributes exceed byte bound", reject "XML normalized text exceeds encoded byte bound",
    reject "XML normalized node exceeds encoded byte bound", reject "XML record exceeds encoded byte bound"]

theorem finish_tighter {frame : Frame} (h : frame.Counts) {loose : Nat} (hle : bound ≤ loose) :
    Tighter TooLong (fun value => bound < encodedLength value) (frame.finish bound) (frame.finish loose) := by
  rw [Frame.finish_eq h, Frame.finish_eq h]
  refine .ite (fun _ => .check hle (by simp [TooLong]) ?_ fun _ => .refl _) fun _ => .refl _
  intro hlong value hvalue
  cases hvalue
  rwa [Frame.encodedLength_whole h]

theorem leadingText_tighter (frame : Frame) (text : Text) {loose : Nat} (hle : bound ≤ loose) :
    Tighter TooLong (fun next => bound < next.full) (frame.leadingText text bound) (frame.leadingText text loose) := by
  rw [Frame.leadingText_eq, Frame.leadingText_eq]
  refine .ite (fun _ => .check hle (by simp [TooLong]) ?_ fun _ => .refl _) fun _ => .refl _
  intro hlong next hnext
  cases hnext
  exact hlong

theorem child_tighter (frame : Frame) (name : Text) (value : Value) {loose : Nat} (hle : bound ≤ loose) :
    Tighter TooLong (fun next => bound < next.full) (frame.child name value bound) (frame.child name value loose) := by
  refine .check hle (by simp [TooLong]) ?_ fun _ => .refl _
  intro hlong next hnext
  cases hnext
  exact lt_of_lt_of_le hlong (Frame.size_le_full (frame.joined name value))

theorem counted_tighter (bindings : List (Text × Text)) (stack : List Frame) (attributes : List (Text × Text)) {loose : Nat} (hle : bound ≤ loose)
    (read : List (Text × Value) × Nat) : Tighter TooLong (fun read => bound < read.2)
      (attributes.foldlM (counted bindings stack bound) read) (attributes.foldlM (counted bindings stack loose) read) := by
  refine .foldlM (fun _ => True) (fun _ _ _ _ _ => trivial) ?_ ?_ trivial
  · intro read entry read' _ hlong h
    obtain ⟨key, rfl, _⟩ := counted_eq_ok h
    show bound < read.2 + _ + _ + _ + _
    omega
  · intro read entry _
    refine .bind_same fun named _ => .check hle (by simp [TooLong]) ?_ fun _ => .refl _
    intro hlong read' h
    obtain ⟨_, h⟩ := Except.ite_error_eq_ok.1 h
    cases h
    exact hlong

theorem nodeBound_bounded (stack : List Frame) : (settings.bounded bound).nodeBound stack =
    if 3 ≤ stack.length ∧ inside stack settings.envelope.container = true then bound else settings.limits.maxHeader := rfl

def StateOver (settings : Settings σ) (bound : Nat) (s : State σ) : Prop := Over settings bound s.stack s.records

theorem joinedText_tighter (hle : bound ≤ settings.limits.maxRecord) (s : State σ) (text : Text) :
    Tighter TooLong (StateOver settings bound) ((settings.bounded bound).joinedText s text) (settings.joinedText s text) := by
  unfold Settings.joinedText
  split
  · exact .refl _
  · next frame rest hstack =>
      rw [nodeBound_bounded, Settings.nodeBound, hstack]
      by_cases hrecord : 3 ≤ (frame :: rest).length ∧ inside (frame :: rest) settings.envelope.container = true
      · rw [if_pos hrecord, if_pos hrecord]
        have hrest : 2 ≤ rest.length := by simpa using hrecord.1
        refine (leadingText_tighter frame text hle).bind ?_ fun _ _ => .refl _
        intro next _ hlong t ht
        cases ht
        refine .inr ((heavy_cons hrest).2 (.inl ⟨?_, hlong⟩))
        rw [← inside_cons frame hrest]
        exact hrecord.2
      · rw [if_neg hrecord, if_neg hrecord]
        exact .refl _

theorem textRead_tighter (hle : bound ≤ settings.limits.maxRecord) (s : State σ) (raw : Text) :
    Tighter TooLong (StateOver settings bound) ((settings.bounded bound).textRead s raw) (settings.textRead s raw) := by
  refine .ite (fun _ => .refl _) fun _ => .ite (fun _ => .refl _) fun _ => .bind_same fun text _ => .ite (fun _ => .refl _) fun _ => ?_
  exact joinedText_tighter hle s text

theorem cdataRead_tighter (hle : bound ≤ settings.limits.maxRecord) (s : State σ) (raw : Text) :
    Tighter TooLong (StateOver settings bound) ((settings.bounded bound).cdataRead s raw) (settings.cdataRead s raw) := by
  refine .ite (fun _ => .refl _) fun _ => .bind_same fun _ _ => ?_
  exact joinedText_tighter hle s _

theorem opened_tighter (hle : bound ≤ settings.limits.maxRecord) (s : State σ) (raw : Text) (attributes : List Attribute) :
    Tighter TooLong (StateOver settings bound) ((settings.bounded bound).opened s raw attributes) (settings.opened s raw attributes) := by
  refine .bind_same fun _ _ => .ite (fun _ => .refl _) fun _ => .bind_same fun read _ => .bind_same fun named _ => ?_
  have hsame : (settings.bounded bound).placed s named.1 named.2 = settings.placed s named.1 named.2 := rfl
  show Tighter TooLong _ ((settings.bounded bound).placed s named.1 named.2 >>= _) _
  rw [hsame]
  refine .bind_same fun placed hplaced => ?_
  obtain ⟨hstack, _⟩ := placed_eq_ok hplaced
  cases hrecord : inside placed.stack settings.envelope.container with
  | true =>
      simp only [Settings.bounded, hrecord, if_true]
      refine Tighter.bind (counted_tighter read.1 placed.stack read.2 hle ([], 2)) ?_ fun _ _ => .refl _
      intro counted _ hlong t ht
      cases ht
      refine .inr (heavy_of_size ?_ ?_ hlong)
      · rw [length_touched]
        exact two_le_of_inside hrecord
      · rwa [inside_touched]
  | false =>
      simp only [Settings.bounded, hrecord, Bool.false_eq_true, if_false]
      exact .refl _

theorem handed_over {value : Value} {stack : List Frame} (hlong : bound < encodedLength value)
    (h : (do let held ← settings.consume s.held value s.records.length
             return { s with stack := stack, records := s.records ++ [value], held := held }) = .ok t) : StateOver settings bound t := by
  obtain ⟨held, _, h⟩ := Except.bind_eq_ok.1 h
  cases h
  exact .inl ⟨value, List.mem_append_right _ (List.mem_singleton_self value), hlong⟩

theorem closed_tighter (hle : bound ≤ settings.limits.maxRecord) (hcounts : ∀ frame ∈ s.stack, frame.Counts) :
    Tighter TooLong (StateOver settings bound) ((settings.bounded bound).closed s) (settings.closed s) := by
  unfold Settings.closed
  split
  · exact .refl _
  · exact .refl _
  · next frame parent others hstack =>
      rw [hstack] at hcounts
      have hframe := hcounts frame (List.mem_cons_self ..)
      refine .ite (fun _ => .refl _) fun _ => .ite (fun hrecord => ?_) fun hrecord => .ite (fun hothers => ?_) fun _ => .refl _
      · refine (finish_tighter hframe hle).bind ?_ fun value _ => .check hle (by simp [TooLong]) ?_ fun _ => .refl _
        · intro value _ hlong t ht
          obtain ⟨_, ht⟩ := Except.ite_error_eq_ok.1 ht
          exact handed_over (lt_of_lt_of_le hlong (wrapped_length settings.envelope value)) ht
        · intro hlong t ht
          exact handed_over hlong ht
      · have hlength : 3 ≤ (frame :: parent :: others).length := by
          have := List.length_pos_of_ne_nil hothers
          simp only [List.length_cons]
          omega
        rw [nodeBound_bounded, Settings.nodeBound, hstack, inside_cons frame (by simpa using hlength)]
        cases hinside : inside (parent :: others) settings.envelope.container with
        | false =>
            rw [if_neg (by simp), if_neg (by simp)]
            exact .refl _
        | true =>
            rw [if_pos ⟨hlength, rfl⟩, if_pos ⟨hlength, rfl⟩]
            obtain ⟨hdeep, hbelow⟩ := deep_of_record hinside (Bool.eq_false_iff.2 hrecord)
            have hjoined : ∀ next : Frame, bound < next.full → ∀ t : State σ,
                Except.ok (ε := Rejected) { s with stack := next :: others } = .ok t → StateOver settings bound t := by
              intro next hlong t ht
              cases ht
              exact .inr ((heavy_cons hdeep).2 (.inl ⟨hbelow, hlong⟩))
            refine (finish_tighter hframe hle).bind ?_ fun value _ => (child_tighter parent _ value hle).bind ?_ fun _ _ => .refl _
            · intro value _ hlong t ht
              obtain ⟨next, hnext, ht⟩ := Except.bind_eq_ok.1 ht
              obtain ⟨_, hnext⟩ := Except.ite_error_eq_ok.1 hnext
              cases hnext
              have hgrows := Frame.full_joined parent (frame.key settings.envelope) value
              exact hjoined _ (by omega) t ht
            · intro next _ hlong t ht
              exact hjoined next hlong t ht

theorem step_tighter (hle : bound ≤ settings.limits.maxRecord) (hcounts : ∀ frame ∈ s.stack, frame.Counts) (event : Event) :
    Tighter TooLong (StateOver settings bound) ((settings.bounded bound).step s event) (settings.step s event) := by
  have hhandled : Tighter TooLong (StateOver settings bound) ((settings.bounded bound).handled s event) (settings.handled s event) := by
    cases event with
    | start name attributes => exact opened_tighter hle s name attributes
    | text contents => exact textRead_tighter hle s contents
    | cdata contents => exact cdataRead_tighter hle s contents
    | close => exact closed_tighter hle hcounts
    | _ => exact .refl _
  refine hhandled.bind ?_ fun _ _ => .refl _
  intro mid _ hover t ht
  cases ht
  exact hover

/-- What every event keeps: the counters are right, and no record that was handed on is too long. -/
structure Kept (settings : Settings σ) (s : State σ) : Prop where
  counts : ∀ frame ∈ s.stack, frame.Counts
  records : ∀ record ∈ s.records, encodedLength record ≤ settings.limits.maxRecord

theorem begin_kept (settings : Settings σ) (held : σ) : Kept settings (State.begin held) :=
  ⟨fun _ h => absurd h List.not_mem_nil, fun _ h => absurd h List.not_mem_nil⟩

theorem step_kept (h : Kept settings s) {event : Event} (hstep : settings.step s event = .ok t) : Kept settings t := by
  have hmoves := step_moves h.counts hstep
  exact ⟨hmoves.counts h.counts, hmoves.within_limit h.records⟩

theorem run_kept {held : σ} {events : List Event} (h : events.foldlM settings.step (State.begin held) = .ok s) : Kept settings s := by
  refine Runs.run_invariant (fun _ s => Kept settings s) h (begin_kept settings held) ?_
  intro _ event _ mid next _ hmid hnext
  exact step_kept hmid hnext

theorem run_tighter (hle : bound ≤ settings.limits.maxRecord) (held : σ) (events : List Event) : Tighter TooLong (StateOver settings bound)
    (events.foldlM (settings.bounded bound).step (State.begin held)) (events.foldlM settings.step (State.begin held)) := by
  refine .foldlM (Kept settings) ?_ ?_ ?_ (begin_kept settings held)
  · intro s event t hs h
    exact step_kept hs h
  · intro s event t hs hover h
    exact (step_moves hs.counts h).exceeds hs.counts hover
  · intro s event hs
    exact step_tighter hle hs.counts event

theorem scan_eq_ok {held : σ} {events : List Event} (h : settings.scan held events = .ok t) :
    settings.valid = true ∧ events.foldlM settings.step (State.begin held) = .ok t ∧ t.stack = [] := by
  obtain ⟨hvalid, h⟩ := Except.ite_error_eq_ok.1 h
  obtain ⟨s, hrun, h⟩ := Except.bind_eq_ok.1 h
  obtain ⟨hdone, h⟩ := Except.ite_error_eq_ok.1 h
  cases h
  refine ⟨by simpa using hvalid, hrun, ?_⟩
  by_contra hopen
  exact hdone (.inr (.inl hopen))

theorem valid_bounded (hvalid : settings.valid = true) (hpos : 0 < bound) : (settings.bounded bound).valid = true := by
  simp only [Settings.valid, Settings.bounded, Bool.and_eq_true] at hvalid ⊢
  exact ⟨⟨⟨hvalid.1.1.1, decide_eq_true hpos.ne'⟩, hvalid.1.2⟩, hvalid.2⟩

theorem scan_bounded (hpos : 0 < bound) (hle : bound ≤ settings.limits.maxRecord) {held : σ} {events : List Event}
    (h : settings.scan held events = .ok t) :
    (settings.bounded bound).scan held events = .ok t ∨
      (∃ e, TooLong e ∧ (settings.bounded bound).scan held events = .error e) ∧ ∃ record ∈ t.records, bound < encodedLength record := by
  obtain ⟨hvalid, hrun, hstack⟩ := scan_eq_ok h
  have hloose := h
  have hbounded := valid_bounded hvalid hpos
  rw [Settings.scan, if_neg (by simp [hvalid])] at hloose
  rw [Settings.scan, if_neg (by simp [hbounded])]
  obtain hsame | ⟨⟨e, he, hrefused⟩, hover⟩ := run_tighter hle held events
  · rw [hsame]
    exact .inl hloose
  · rw [hrefused]
    refine .inr ⟨⟨e, he, rfl⟩, ?_⟩
    obtain hlong | hheavy := hover t hrun
    · exact hlong
    · have hlength := hheavy.length
      rw [hstack] at hlength
      exact absurd hlength (by decide)

/-- After any events that are accepted each open element's counter is the length of its object, and a document that passes one bound on records passes a tighter one exactly where each record is within it, the refusal naming the length. -/
theorem scan_counts_exactly (settings : Settings σ) (held : σ) :
    (∀ (events : List Event) (s : State σ), events.foldlM settings.step (State.begin held) = .ok s → ∀ frame ∈ s.stack, frame.size = encodedLength (.object frame.values)) ∧
      ∀ (events : List Event) (t : State σ) (bound : Nat), 0 < bound → bound ≤ settings.limits.maxRecord → settings.scan held events = .ok t →
        ((∃ t', (settings.bounded bound).scan held events = .ok t') ↔ ∀ record ∈ t.records, encodedLength record ≤ bound) ∧
          ∀ e, (settings.bounded bound).scan held events = .error e → TooLong e := by
  refine ⟨fun events s h frame hframe => ((run_kept h).counts frame hframe).size, ?_⟩
  intro events t bound hpos hle h
  obtain hsame | ⟨⟨e, he, hrefused⟩, record, hrecord, hlong⟩ := scan_bounded hpos hle h
  · rw [hsame]
    have hrecords := (run_kept (scan_eq_ok hsame).2.1).records
    exact ⟨⟨fun _ => hrecords, fun _ => ⟨t, rfl⟩⟩, fun e he => by cases he⟩
  · rw [hrefused]
    refine ⟨⟨fun ⟨t', ht'⟩ => (nomatch ht'), fun hall => absurd (hall record hrecord) (not_le.2 hlong)⟩, fun e' he' => ?_⟩
    cases he'
    exact he

def feedSettings : Settings Unit where
  envelope := ⟨"urn:feed".toList, "Data".toList, "Header".toList, "Records".toList, "Record".toList, none⟩
  limits := ⟨100000, 10000, 10000, 100, 64⟩
  unescape := .ok
  header _ _ := .ok ()
  consume _ _ _ := .ok ()

/-- A record with an attribute, leading text and two children of one name: 55 bytes. -/
def feedEvents : List Event :=
  [.start "Data".toList [.ok ("xmlns".toList, "urn:feed".toList)], .start "Header".toList [], .close, .start "Records".toList [],
    .start "Record".toList [.ok ("id".toList, "B".toList)], .text "lead".toList, .start "Name".toList [], .text "One".toList, .close,
    .start "Name".toList [], .text "Two".toList, .close, .close, .close, .close]

theorem feed_refused_below_its_length : (∃ s, feedSettings.scan () feedEvents = .ok s ∧ s.records.map encodedLength = [55]) ∧
    ¬ ∃ t, (feedSettings.bounded 54).scan () feedEvents = .ok t := by
  have hfeed : ∃ s, feedSettings.scan () feedEvents = .ok s ∧ s.records.map encodedLength = [55] := by decide +kernel
  refine ⟨hfeed, fun hbounded => ?_⟩
  obtain ⟨s, hs, hlengths⟩ := hfeed
  have hall := ((scan_counts_exactly feedSettings ()).2 feedEvents s 54 (by decide) (by decide) hs).1.1 hbounded
  have hrecord : ∀ length ∈ s.records.map encodedLength, length ≤ 54 := by
    intro length hlength
    obtain ⟨record, hmem, rfl⟩ := List.mem_map.1 hlength
    exact hall record hmem
  rw [hlengths] at hrecord
  exact absurd (hrecord 55 (List.mem_singleton_self 55)) (by decide)

end EdgarPlatform.Sequences
