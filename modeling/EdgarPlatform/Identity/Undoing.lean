import EdgarPlatform.Identity.Replay

/-!
# What the first two passes know

The decisions in effect, in their order, and what reading the reversals and the quarantine periods from them establishes: which decisions are undone and until when, and in which periods a record's binds stood or a quarantine held it.
-/

namespace EdgarPlatform.Identities

def InEffect (decisions : List Decision) (clock : Int) (d : Decision) : Prop := d ∈ decisions ∧ d.time ≤ clock

def Undone (decisions : List Decision) (clock : Int) (id : String) : Prop :=
  ∃ undoing, InEffect decisions clock undoing ∧ Undoes undoing id

instance (decisions : List Decision) (clock : Int) (d : Decision) : Decidable (InEffect decisions clock d) :=
  inferInstanceAs (Decidable (_ ∧ _))

instance (decisions : List Decision) (clock : Int) (id : String) : Decidable (Undone decisions clock id) :=
  decidable_of_iff (∃ d ∈ decisions, d.time ≤ clock ∧ Undoes d id) (by simp [Undone, InEffect, and_assoc])

variable {decisions : List Decision} {clock : Int}

variable {entry : Nat × Decision}

theorem mem_inEffect :
    entry ∈ inEffect decisions clock ↔ decisions[entry.1]? = some entry.2 ∧ entry.2.time ≤ clock := by
  obtain ⟨index, d⟩ := entry
  simp [inEffect, List.mem_zipIdx_iff_getElem?]

theorem mem_inOrder :
    entry ∈ inOrder decisions clock ↔ decisions[entry.1]? = some entry.2 ∧ entry.2.time ≤ clock := by
  rw [inOrder, Sorting.mem_sortByKey, mem_inEffect]

theorem inEffect_of_mem (h : entry ∈ inOrder decisions clock) :
    InEffect decisions clock entry.2 := by
  rw [mem_inOrder] at h
  exact ⟨List.mem_of_getElem? h.1, h.2⟩

theorem exists_mem_inOrder {d : Decision} (h : InEffect decisions clock d) :
    ∃ index, (index, d) ∈ inOrder decisions clock := by
  obtain ⟨index, hindex⟩ := List.mem_iff_getElem?.1 h.1
  exact ⟨index, mem_inOrder.2 ⟨hindex, h.2⟩⟩

theorem exists_inOrder_iff (holds : Decision → Prop) :
    (∃ entry ∈ inOrder decisions clock, holds entry.2) ↔ ∃ d, InEffect decisions clock d ∧ holds d := by
  constructor
  · rintro ⟨entry, hentry, h⟩
    exact ⟨entry.2, inEffect_of_mem hentry, h⟩
  · rintro ⟨d, hd, h⟩
    obtain ⟨index, hindex⟩ := exists_mem_inOrder hd
    exact ⟨_, hindex, h⟩

theorem time_le_of_sortKey_le {found : IndexMap String Nat} {a b : Decision}
    (h : sortKey found a ≤ sortKey found b) : a.time ≤ b.time := by
  rw [sortKey, sortKey, Prod.Lex.le_iff] at h
  rcases h with h | h
  · exact h.le
  · exact h.1.le

theorem time_le_of_front {front back : List (Nat × Decision)} {entry other : Nat × Decision}
    (h : inOrder decisions clock = front ++ entry :: back) (hother : other ∈ front) :
    other.2.time ≤ entry.2.time :=
  time_le_of_sortKey_le (Sorting.key_le_of_split (fun entry : Nat × Decision => sortKey _ entry.2) h hother)

def byId (ordered : List (Nat × Decision)) : IndexMap String Decision :=
  IndexMap.ofList (ordered.map fun entry => (entry.2.id, entry.2))

variable {ordered : List (Nat × Decision)}

theorem byId_get? {id : String} {d : Decision}
    (h : (byId ordered).get? id = some d) : d.id = id ∧ ∃ index, (index, d) ∈ ordered := by
  rcases IndexMap.get?_extend_cases h with hmem | hget
  · obtain ⟨entry, hentry, heq⟩ := List.mem_map.1 hmem
    cases heq
    exact ⟨rfl, entry.1, hentry⟩
  · simp at hget

theorem byId_get?_of_mem (hids : (ordered.map (·.2.id)).Nodup)
    (h : entry ∈ ordered) : (byId ordered).get? entry.2.id = some entry.2 := by
  refine (IndexMap.get?_ofList ?_).2 (List.mem_map.2 ⟨entry, h, rfl⟩)
  simpa [List.map_map, Function.comp_def] using hids

/-- What reading a list of decisions in time order says of the decisions it undoes. -/
structure Reversals.Of (ordered read : List (Nat × Decision)) (r : Reversals) : Prop where
  revoked_iff : ∀ id, id ∈ r.revoked ↔ ∃ entry ∈ read, Undoes entry.2 id
  revokedAt_some : ∀ id time, r.revokedAt.get? id = some time →
    ∃ entry ∈ read, Undoes entry.2 id ∧ entry.2.time = time
  revokedAt_le : ∀ entry ∈ read, ∀ id, Undoes entry.2 id →
    ∃ time, r.revokedAt.get? id = some time ∧ entry.2.time ≤ time
  target : ∀ entry ∈ read, ∀ id, Undoes entry.2 id → ∃ target, (byId ordered).get? id = some target ∧
    target.time < entry.2.time ∧ mayTarget entry.2.op target.op = true
  window : ∀ entry ∈ read, ∀ id, Undoes entry.2 id → ∀ target, (byId ordered).get? id = some target →
    target.op = .bind → ∃ subject entity, target.subject = some subject ∧ target.entity = some entity ∧
      (target.time, entry.2.time, entity) ∈ (r.unbound.get? subject).getD []

theorem Reversals.Of.empty (ordered : List (Nat × Decision)) : Reversals.Of ordered [] .empty := by
  constructor <;> simp [Reversals.empty]

theorem undoes_unique {d : Decision} {id other : String} (h : Undoes d id) (h' : Undoes d other) : id = other := by
  have := h.2.symm.trans h'.2
  simpa using this

theorem Reversals.mem_addWindow {r : Reversals} {subject other : String} {window : Int × Int × String}
    {w : Int × Int × String} (h : w ∈ (r.unbound.get? other).getD []) :
    w ∈ ((r.addWindow subject window).unbound.get? other).getD [] := by
  simp only [Reversals.addWindow, IndexMap.get?_insert]
  split_ifs with hother
  · subst hother
    simp [h]
  · exact h

theorem Reversals.Of.step {ordered front : List (Nat × Decision)} {r r' : Reversals} {entry : Nat × Decision}
    (h : Reversals.Of ordered front r) (htime : ∀ other ∈ front, other.2.time ≤ entry.2.time)
    (hstep : readReversal (byId ordered) r entry.2 = .ok r') : Reversals.Of ordered (front ++ [entry]) r' := by
  rcases readReversal_eq_ok.1 hstep with ⟨hnot, rfl⟩ | ⟨id, target, hundo, hget, hlt, hmay, heffect⟩
  · have hno : ∀ id, ¬ Undoes entry.2 id := fun id hid => hnot hid.1
    constructor <;> simp only [List.mem_append, List.mem_singleton, or_and_right, exists_or, exists_eq_left, hno,
      or_false]
    · exact h.revoked_iff
    · simpa only [false_and, or_false] using h.revokedAt_some
    · rintro other (hother | rfl) id hid
      · exact h.revokedAt_le other hother id hid
      · exact absurd hid (hno id)
    · rintro other (hother | rfl) id hid
      · exact h.target other hother id hid
      · exact absurd hid (hno id)
    · rintro other (hother | rfl) id hid
      · exact h.window other hother id hid
      · exact absurd hid (hno id)
  · have hid : target.id = id := (byId_get? hget).1
    have hrevoked : r'.revoked = insert id r.revoked := by
      rcases heffect with ⟨_, rfl⟩ | ⟨_, _, _, _, _, _, _, _, rfl⟩ <;> simp [Reversals.undo, Reversals.addWindow, hid]
    have hat : r'.revokedAt = r.revokedAt.insert id entry.2.time := by
      rcases heffect with ⟨_, rfl⟩ | ⟨_, _, _, _, _, _, _, _, rfl⟩ <;> simp [Reversals.undo, Reversals.addWindow, hid]
    have hwindows : ∀ subject w, w ∈ (r.unbound.get? subject).getD [] → w ∈ (r'.unbound.get? subject).getD [] := by
      intro subject w hw
      rcases heffect with ⟨_, rfl⟩ | ⟨_, _, _, _, s, e, _, _, rfl⟩
      · exact hw
      · exact Reversals.mem_addWindow hw
    constructor
    · intro other
      rw [hrevoked, Finset.mem_insert, h.revoked_iff]
      simp only [List.mem_append, List.mem_singleton, or_and_right, exists_or, exists_eq_left]
      constructor
      · rintro (rfl | hother)
        · exact .inr hundo
        · exact .inl hother
      · rintro (hother | hother)
        · exact .inr hother
        · exact .inl (undoes_unique hother hundo)
    · intro other time hother
      rw [hat, IndexMap.get?_insert] at hother
      split_ifs at hother with heq
      · exact ⟨entry, by simp, heq ▸ hundo, by simpa using hother⟩
      · obtain ⟨e, he, hu, ht⟩ := h.revokedAt_some other time hother
        exact ⟨e, by simp [he], hu, ht⟩
    · intro other hother id' hid'
      rw [hat]
      simp only [IndexMap.get?_insert]
      rcases List.mem_append.1 hother with hfront | hlast
      · split_ifs with heq
        · exact ⟨_, rfl, htime other hfront⟩
        · exact h.revokedAt_le other hfront id' hid'
      · obtain rfl : other = entry := by simpa using hlast
        rw [if_pos (undoes_unique hid' hundo)]
        exact ⟨_, rfl, le_rfl⟩
    · intro other hother id' hid'
      rcases List.mem_append.1 hother with hfront | hlast
      · exact h.target other hfront id' hid'
      · obtain rfl : other = entry := by simpa using hlast
        cases undoes_unique hid' hundo
        exact ⟨target, hget, hlt, hmay⟩
    · intro other hother id' hid' target' hget' hbind
      rcases List.mem_append.1 hother with hfront | hlast
      · obtain ⟨subject, entity, hs, he, hw⟩ := h.window other hfront id' hid' target' hget' hbind
        exact ⟨subject, entity, hs, he, hwindows subject _ hw⟩
      · obtain rfl : other = entry := by simpa using hlast
        cases undoes_unique hid' hundo
        cases Option.some.inj (hget.symm.trans hget')
        rcases heffect with ⟨hne, _⟩ | ⟨_, _, _, _, s, e, hs, he, rfl⟩
        · exact absurd hbind hne
        · refine ⟨s, e, hs, he, ?_⟩
          simp [Reversals.undo, Reversals.addWindow]

theorem readReversals_of {r : Reversals} (h : readReversals (inOrder decisions clock) = .ok r) :
    Reversals.Of (inOrder decisions clock) (inOrder decisions clock) r := by
  refine Runs.run_invariant (Reversals.Of (inOrder decisions clock)) h (Reversals.Of.empty _) ?_
  intro front entry back mid next hsplit hmid hstep
  exact hmid.step (fun other hother => time_le_of_front hsplit hother) hstep

theorem mem_revoked_iff {r : Reversals} (h : readReversals (inOrder decisions clock) = .ok r) (id : String) :
    id ∈ r.revoked ↔ Undone decisions clock id := by
  rw [(readReversals_of h).revoked_iff]
  exact exists_inOrder_iff (fun d => Undoes d id)

theorem readHolds_of {r : Reversals} {held : Held}
    (h : readHolds r ordered = .ok held) :
    (∀ entry ∈ ordered, entry.2.op = .merge → entry.2.id ∉ r.revoked → ∀ id ∈ entry.2.depends, id ∉ r.revoked) ∧
    (∀ entry ∈ ordered, entry.2.op = .quarantine → ∃ subject, entry.2.subject = some subject ∧
      (entry.2.time, r.revokedAt.get? entry.2.id) ∈ (held.get? subject).getD []) := by
  refine Runs.run_invariant (fun (front : List (Nat × Decision)) (held : Held) =>
    (∀ entry ∈ front, entry.2.op = .merge → entry.2.id ∉ r.revoked → ∀ id ∈ entry.2.depends, id ∉ r.revoked) ∧
    (∀ entry ∈ front, entry.2.op = .quarantine → ∃ subject, entry.2.subject = some subject ∧
      (entry.2.time, r.revokedAt.get? entry.2.id) ∈ (held.get? subject).getD [])) h (by simp) ?_
  rintro front entry back mid next - ⟨hmerges, hholds⟩ hstep
  obtain ⟨hdepends, heffect⟩ := readHeld_eq_ok.1 hstep
  refine ⟨fun other hother => ?_, fun other hother => ?_⟩
  · rcases List.mem_append.1 hother with hfront | hlast
    · exact hmerges other hfront
    · obtain rfl : other = entry := by simpa using hlast
      intro hop hlive id hid hrevoked
      exact hdepends ⟨hop, hlive, id, hid, hrevoked⟩
  · rcases List.mem_append.1 hother with hfront | hlast
    · intro hop
      obtain ⟨subject, hsubject, hmem⟩ := hholds other hfront hop
      refine ⟨subject, hsubject, ?_⟩
      rcases heffect with ⟨_, rfl⟩ | ⟨_, s, _, rfl⟩
      · exact hmem
      · simp only [addPeriod, IndexMap.get?_insert]
        split_ifs with heq
        · subst heq
          simp [hmem]
        · exact hmem
    · obtain rfl : other = entry := by simpa using hlast
      intro hop
      rcases heffect with ⟨hne, _⟩ | ⟨_, s, hs, rfl⟩
      · exact absurd hop hne
      · exact ⟨s, hs, by simp [addPeriod]⟩

end EdgarPlatform.Identities
