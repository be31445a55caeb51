import EdgarPlatform.Sequences.Scans

/-!
# The lengths a scan bounds

Whatever events a scan accepts, the counter of each open element is the length its object is encoded in. An element of a record cannot get shorter and is part of its record, so a bound that refuses an element refuses a record that would exceed it, and a scan under a bound refuses a document that passes a looser one exactly where a record of it is too long.
-/

namespace EdgarPlatform.Sequences

open Bounds (Tighter)
open Frame (Counts)

/-- The open elements from the record on, where the envelope's container is open. -/
def recordFrames (stack : List Frame) : List Frame := stack.take (stack.length - 2)

theorem recordFrames_cons (frame : Frame) {rest : List Frame} (h : 2 ≤ rest.length) : recordFrames (frame :: rest) = frame :: recordFrames rest := by
  rw [recordFrames, List.length_cons, show rest.length + 1 - 2 = (rest.length - 2) + 1 by omega, List.take_succ_cons]
  rfl

theorem recordFrames_short {stack : List Frame} (h : stack.length ≤ 2) : recordFrames stack = [] := by
  rw [recordFrames, Nat.sub_eq_zero_of_le h, List.take_zero]

theorem inside_cons (frame : Frame) {rest : List Frame} (h : 2 ≤ rest.length) (name : Text) : inside (frame :: rest) name = inside rest name := by
  rw [inside, inside, List.map_cons, List.reverse_cons, List.getElem?_append_left (by simp only [List.length_reverse, List.length_map]; omega)]

theorem two_le_of_inside {stack : List Frame} {name : Text} (h : inside stack name = true) : 2 ≤ stack.length := by
  by_contra hshort
  rw [inside, List.getElem?_eq_none (by simp only [List.length_reverse, List.length_map]; omega)] at h
  simp at h

def Heavy (container : Text) (bound : Nat) (stack : List Frame) : Prop :=
  inside stack container = true ∧ ∃ frame ∈ recordFrames stack, bound < frame.full

variable {container : Text} {bound : Nat} {frame next parent : Frame} {stack rest others : List Frame}

theorem Heavy.length (h : Heavy container bound stack) : 3 ≤ stack.length := by
  obtain ⟨_, frame, hframe, _⟩ := h
  by_contra hshort
  rw [recordFrames_short (by omega)] at hframe
  exact List.not_mem_nil hframe

theorem heavy_cons (h : 2 ≤ rest.length) :
    Heavy container bound (frame :: rest) ↔ (inside rest container = true ∧ bound < frame.full) ∨ Heavy container bound rest := by
  rw [Heavy, Heavy, inside_cons frame h, recordFrames_cons frame h, List.exists_mem_cons_iff, and_or_left]

theorem Heavy.head (h : Heavy container bound (frame :: rest)) (hfull : frame.full ≤ next.full) :
    Heavy container bound (next :: rest) := by
  have hrest : 2 ≤ rest.length := by simpa using h.length
  rw [heavy_cons hrest] at h ⊢
  exact h.imp_left fun h => ⟨h.1, lt_of_lt_of_le h.2 hfull⟩

variable {σ : Type} {settings : Settings σ} {s t : State σ}

/-- The open elements and the records after an event. -/
inductive Moves (settings : Settings σ) : List Frame → List Value → List Frame → List Value → Prop where
  | stays (stack records) : Moves settings stack records stack records
  | hears (frame rest records text) : Moves settings (frame :: rest) records (frame.heard text :: rest) records
  | opens (frame stack records) (h : frame.Counts) : Moves settings stack records (frame :: touched stack) records
  | leaves (frame rest records) (h : rest.length ≤ 1) : Moves settings (frame :: rest) records rest records
  | hands (frame rest records value) (h : rest.length = 2) (hfull : frame.full ≤ encodedLength value)
      (hmax : encodedLength value ≤ settings.limits.maxRecord) : Moves settings (frame :: rest) records rest (records ++ [value])
  | joins (frame parent others records key) (h : others ≠ []) (hrecord : settings.inEnvelope (parent :: others) = false) (hkey : key ≠ textKey) :
      Moves settings (frame :: parent :: others) records (parent.joined key frame.whole :: others) records

theorem key_ne_textKey (h : frame.Counts) (envelope : Envelope) : frame.key envelope ≠ textKey := by
  unfold Frame.key
  split_ifs
  · exact h.named
  · split
    · exact fun heq => absurd (List.cons.inj heq).1 (by decide)
    · exact h.named

theorem wrapped_length (envelope : Envelope) (value : Value) : encodedLength value ≤ encodedLength (envelope.wrapped value) := by
  unfold Envelope.wrapped
  split
  · rw [encodedLength, fieldsLength, fieldsLength]
    omega
  · exact le_rfl

/-- Counting an attribute keeps the count and the names apart from the text's. -/
structure Attributed (read : List (Text × Value) × Nat) : Prop where
  size : read.2 = encodedLength (.object read.1)
  arrays : ∀ entry ∈ read.1, entry.2 ≠ .array []
  keys : ∀ entry ∈ read.1, entry.1 ≠ textKey

variable {maximum : Nat} {bindings : List (Text × Text)}

theorem counted_eq_ok {read read' : List (Text × Value) × Nat} {entry : Text × Text}
    (h : counted bindings stack maximum read entry = .ok read') :
    ∃ key, read' = (read.1 ++ [(key, .text entry.2)], read.2 + textLength key + 1 + textLength entry.2 + if read.1.isEmpty then 0 else 1) ∧
      key ≠ textKey := by
  obtain ⟨⟨uri, name⟩, _, h⟩ := Except.bind_eq_ok.1 h
  dsimp only at h
  obtain ⟨_, h⟩ := Except.ite_error_eq_ok.1 h
  obtain ⟨_, h⟩ := Except.ite_error_eq_ok.1 h
  refine ⟨_, (Except.ok.inj h).symm, ?_⟩
  split
  · exact fun heq => absurd (List.cons.inj heq).1 (by decide)
  · exact fun heq => absurd (List.cons.inj heq).1 (by decide)

theorem counted_keeps {read read' : List (Text × Value) × Nat} {entry : Text × Text}
    (hread : Attributed read) (h : counted bindings stack maximum read entry = .ok read') : Attributed read' := by
  obtain ⟨key, rfl, hkey⟩ := counted_eq_ok h
  refine ⟨?_, fun entry hentry => ?_, fun entry hentry => ?_⟩
  · show _ = encodedLength (.object (read.1 ++ _))
    rw [encodedLength_append, ← hread.size, encodedLength]
    omega
  · obtain hentry | hentry := List.mem_append.1 hentry
    · exact hread.arrays entry hentry
    · rw [List.mem_singleton.1 hentry]
      simp
  · obtain hentry | hentry := List.mem_append.1 hentry
    · exact hread.keys entry hentry
    · rwa [List.mem_singleton.1 hentry]

theorem counted_run {attributes : List (Text × Text)} {read : List (Text × Value) × Nat}
    (h : attributes.foldlM (counted bindings stack maximum) ([], 2) = .ok read) : Attributed read := by
  have hstart : Attributed ([], 2) := ⟨rfl, by simp, by simp⟩
  refine Runs.run_invariant (fun _ read => Attributed read) h hstart ?_
  intro _ entry _ mid next _ hmid hnext
  exact counted_keeps hmid hnext

theorem placed_eq_ok {uri : Option Text} {name : Text} (h : settings.placed s uri name = .ok t) : t.stack = s.stack ∧ t.records = s.records := by
  unfold Settings.placed at h
  dsimp only at h
  split at h
  · split_ifs at h
    cases h
    exact ⟨rfl, rfl⟩
  · split_ifs at h <;> cases h <;> exact ⟨rfl, rfl⟩
  · split_ifs at h <;> cases h <;> exact ⟨rfl, rfl⟩
  · cases h
    exact ⟨rfl, rfl⟩

theorem leadingText_eq_ok {text : Text} (h : frame.leadingText text maximum = .ok next) : next = frame.heard text := by
  rw [Frame.leadingText_eq] at h
  split_ifs at h <;> cases h <;> rfl

theorem finish_eq_ok (hcounts : frame.Counts) {value : Value} (h : frame.finish maximum = .ok value) : value = frame.whole := by
  rw [Frame.finish_eq hcounts] at h
  split_ifs at h <;> cases h <;> rfl

theorem opened_moves {raw : Text} {attributes : List Attribute} (h : settings.opened s raw attributes = .ok t) :
    Moves settings s.stack s.records t.stack t.records := by
  obtain ⟨_, _, h⟩ := Except.bind_eq_ok.1 h
  obtain ⟨_, h⟩ := Except.ite_error_eq_ok.1 h
  obtain ⟨⟨bindings, kept⟩, _, h⟩ := Except.bind_eq_ok.1 h
  obtain ⟨⟨uri, name⟩, hname, h⟩ := Except.bind_eq_ok.1 h
  obtain ⟨placed, hplaced, h⟩ := Except.bind_eq_ok.1 h
  obtain ⟨⟨values, size⟩, hcounted, h⟩ := Except.bind_eq_ok.1 h
  obtain ⟨hstack, hrecords⟩ := placed_eq_ok hplaced
  have hattributed := counted_run hcounted
  cases h
  show Moves settings s.stack s.records (_ :: touched placed.stack) placed.records
  rw [hstack, hrecords]
  exact .opens _ _ _ ⟨hattributed.size, hattributed.arrays, hattributed.keys, resolved_ne_textKey hname⟩

theorem joinedText_moves {text : Text} (h : settings.joinedText s text = .ok t) : Moves settings s.stack s.records t.stack t.records := by
  unfold Settings.joinedText at h
  split at h
  · cases h
    exact .stays _ _
  · next frame rest hstack =>
      obtain ⟨next, hnext, h⟩ := Except.bind_eq_ok.1 h
      cases h
      rw [hstack, leadingText_eq_ok hnext]
      exact .hears _ _ _ _

theorem textRead_moves {raw : Text} (h : settings.textRead s raw = .ok t) : Moves settings s.stack s.records t.stack t.records := by
  obtain ⟨_, h⟩ := Except.ite_error_eq_ok.1 h
  obtain ⟨_, h⟩ := Except.ite_error_eq_ok.1 h
  obtain ⟨text, _, h⟩ := Except.bind_eq_ok.1 h
  split_ifs at h
  · cases h
    exact .stays _ _
  · exact joinedText_moves h

theorem cdataRead_moves {raw : Text} (h : settings.cdataRead s raw = .ok t) : Moves settings s.stack s.records t.stack t.records := by
  obtain ⟨_, h⟩ := Except.ite_error_eq_ok.1 h
  obtain ⟨_, _, h⟩ := Except.bind_eq_ok.1 h
  exact joinedText_moves h

theorem closed_moves (hcounts : ∀ frame ∈ s.stack, frame.Counts) (h : settings.closed s = .ok t) :
    Moves settings s.stack s.records t.stack t.records := by
  unfold Settings.closed at h
  split at h
  · cases h
  · next frame hstack =>
      cases h
      rw [hstack]
      exact .leaves _ _ _ (Nat.zero_le _)
  · next frame parent others hstack =>
      rw [hstack] at hcounts
      have hframe := hcounts frame (List.mem_cons_self ..)
      dsimp only at h
      split_ifs at h with hheader hrecord hothers
      · obtain ⟨value, _, h⟩ := Except.bind_eq_ok.1 h
        obtain ⟨_, h⟩ := Except.ite_error_eq_ok.1 h
        obtain ⟨held, _, h⟩ := Except.bind_eq_ok.1 h
        cases h
        rw [hstack, hheader.1]
        exact .leaves _ _ _ le_rfl
      · obtain ⟨value, hvalue, h⟩ := Except.bind_eq_ok.1 h
        obtain ⟨hmax, h⟩ := Except.ite_error_eq_ok.1 h
        obtain ⟨held, _, h⟩ := Except.bind_eq_ok.1 h
        cases h
        rw [hstack]
        rw [Settings.inEnvelope, Bool.and_eq_true, decide_eq_true_eq] at hrecord
        refine .hands _ _ _ _ hrecord.1 ?_ (not_lt.1 hmax)
        rw [← Frame.encodedLength_whole hframe, ← finish_eq_ok hframe hvalue]
        exact wrapped_length _ _
      · obtain ⟨value, hvalue, h⟩ := Except.bind_eq_ok.1 h
        obtain ⟨next, hnext, h⟩ := Except.bind_eq_ok.1 h
        obtain ⟨_, hnext⟩ := Except.ite_error_eq_ok.1 hnext
        cases h
        cases hnext
        rw [hstack, finish_eq_ok hframe hvalue]
        exact .joins _ _ _ _ _ hothers (Bool.eq_false_iff.2 hrecord) (key_ne_textKey hframe _)
      · cases h
        rw [hstack, not_not.1 hothers]
        exact .leaves _ _ _ le_rfl

theorem handled_moves (hcounts : ∀ frame ∈ s.stack, frame.Counts) {event : Event} (h : settings.handled s event = .ok t) :
    Moves settings s.stack s.records t.stack t.records := by
  cases event with
  | docType => cases h
  | decl version attributes =>
      obtain ⟨_, h⟩ := Except.ite_error_eq_ok.1 h
      obtain ⟨_, _, h⟩ := Except.bind_eq_ok.1 h
      obtain ⟨_, h⟩ := Except.ite_error_eq_ok.1 h
      obtain ⟨_, _, h⟩ := Except.bind_eq_ok.1 h
      cases h
      exact .stays _ _
  | start name attributes => exact opened_moves h
  | text contents => exact textRead_moves h
  | cdata contents => exact cdataRead_moves h
  | close => exact closed_moves hcounts h
  | comment contents =>
      obtain ⟨_, _, h⟩ := Except.bind_eq_ok.1 h
      cases h
      exact .stays _ _
  | pi target contents =>
      obtain ⟨_, _, h⟩ := Except.bind_eq_ok.1 h
      obtain ⟨_, h⟩ := Except.ite_error_eq_ok.1 h
      obtain ⟨_, h⟩ := Except.ite_error_eq_ok.1 h
      obtain ⟨_, _, h⟩ := Except.bind_eq_ok.1 h
      obtain ⟨_, h⟩ := Except.ite_error_eq_ok.1 h
      cases h
      exact .stays _ _
  | other =>
      cases h
      exact .stays _ _

theorem step_moves (hcounts : ∀ frame ∈ s.stack, frame.Counts) {event : Event} (h : settings.step s event = .ok t) :
    Moves settings s.stack s.records t.stack t.records := by
  obtain ⟨mid, hmid, h⟩ := Except.bind_eq_ok.1 h
  cases h
  show Moves settings s.stack s.records mid.stack mid.records
  exact handled_moves hcounts hmid

theorem touched_counts (h : ∀ frame ∈ stack, frame.Counts) : ∀ frame ∈ touched stack, frame.Counts := by
  cases stack with
  | nil => exact h
  | cons parent others =>
      rw [touched, List.forall_mem_cons]
      rw [List.forall_mem_cons] at h
      exact ⟨⟨h.1.size, h.1.arrays, h.1.keys, h.1.named⟩, h.2⟩

variable {records records' : List Value} {stack' : List Frame}

theorem Moves.counts (h : Moves settings stack records stack' records') (hcounts : ∀ frame ∈ stack, frame.Counts) :
    ∀ frame ∈ stack', frame.Counts := by
  cases h with
  | stays => exact hcounts
  | hears frame rest _ text =>
      rw [List.forall_mem_cons] at hcounts ⊢
      exact ⟨Frame.heard_counts hcounts.1 text, hcounts.2⟩
  | opens frame _ _ hframe => exact List.forall_mem_cons.2 ⟨hframe, touched_counts hcounts⟩
  | leaves frame rest => exact fun next hnext => hcounts next (List.mem_cons_of_mem _ hnext)
  | hands frame rest => exact fun next hnext => hcounts next (List.mem_cons_of_mem _ hnext)
  | joins frame parent others _ key _ _ hkey =>
      rw [List.forall_mem_cons, List.forall_mem_cons] at hcounts
      exact List.forall_mem_cons.2 ⟨Frame.joined_counts hcounts.2.1 hkey (by simp [Frame.whole]), hcounts.2.2⟩

theorem Moves.within_limit (h : Moves settings stack records stack' records')
    (hrecords : ∀ record ∈ records, encodedLength record ≤ settings.limits.maxRecord) :
    ∀ record ∈ records', encodedLength record ≤ settings.limits.maxRecord := by
  cases h with
  | hands frame rest _ value _ _ hmax =>
      intro record hrecord
      obtain hrecord | hrecord := List.mem_append.1 hrecord
      · exact hrecords record hrecord
      · rwa [List.mem_singleton.1 hrecord]
  | _ => exact hrecords

def Over (settings : Settings σ) (bound : Nat) (stack : List Frame) (records : List Value) : Prop :=
  (∃ record ∈ records, bound < encodedLength record) ∨ Heavy settings.envelope.container bound stack

theorem length_touched (stack : List Frame) : (touched stack).length = stack.length := by
  cases stack <;> rfl

theorem inside_touched (stack : List Frame) (name : Text) : inside (touched stack) name = inside stack name := by
  cases stack <;> rfl

theorem heavy_of_size (hlength : 2 ≤ rest.length) (hinside : inside rest container = true) (hsize : bound < frame.size) :
    Heavy container bound (frame :: rest) :=
  (heavy_cons hlength).2 (.inl ⟨hinside, lt_of_lt_of_le hsize (Frame.size_le_full frame)⟩)

theorem Heavy.touched (h : Heavy container bound stack) : Heavy container bound (touched stack) := by
  cases stack with
  | nil => exact h
  | cons parent others => exact h.head le_rfl

theorem deep_of_record (hinside : inside (parent :: others) settings.envelope.container = true)
    (hrecord : settings.inEnvelope (parent :: others) = false) : 2 ≤ others.length ∧ inside others settings.envelope.container = true := by
  have htwo := two_le_of_inside hinside
  rw [Settings.inEnvelope, Bool.and_eq_false_iff, hinside, decide_eq_false_iff_not] at hrecord
  have hthree : (parent :: others).length ≠ 2 := by simpa using hrecord
  have hdeep : 2 ≤ others.length := by
    rw [List.length_cons] at htwo hthree
    omega
  rw [inside_cons parent hdeep] at hinside
  exact ⟨hdeep, hinside⟩

theorem Moves.exceeds (h : Moves settings stack records stack' records') (hcounts : ∀ frame ∈ stack, frame.Counts)
    (hover : Over settings bound stack records) : Over settings bound stack' records' := by
  obtain ⟨record, hrecord, hlong⟩ | hheavy := hover
  · refine .inl ⟨record, ?_, hlong⟩
    cases h with
    | hands => exact List.mem_append_left _ hrecord
    | _ => exact hrecord
  · have hlength := hheavy.length
    cases h with
    | stays => exact .inr hheavy
    | hears frame rest _ text => exact .inr (hheavy.head (Frame.full_heard frame text))
    | opens frame _ _ _ =>
        have htouched := hheavy.touched
        refine .inr ((heavy_cons ?_).2 (.inr htouched))
        have := htouched.length
        omega
    | leaves frame rest _ hrest =>
        rw [List.length_cons] at hlength
        omega
    | hands frame rest _ value hrest hfull =>
        rw [heavy_cons (by omega)] at hheavy
        obtain ⟨_, hlong⟩ | hheavy := hheavy
        · exact .inl ⟨value, List.mem_append_right _ (List.mem_singleton_self _), lt_of_lt_of_le hlong hfull⟩
        · have := hheavy.length
          omega
    | joins frame parent others _ key hothers hrecord =>
        have hframe := hcounts frame (List.mem_cons_self ..)
        have hgrows := Frame.full_joined parent key frame.whole
        rw [Frame.encodedLength_whole hframe] at hgrows
        rw [heavy_cons (by simpa using hlength)] at hheavy
        obtain ⟨hinside, hlong⟩ | hheavy := hheavy
        · obtain ⟨hdeep, hbelow⟩ := deep_of_record hinside hrecord
          exact .inr ((heavy_cons hdeep).2 (.inl ⟨hbelow, by omega⟩))
        · exact .inr (hheavy.head (by omega))

end EdgarPlatform.Sequences
