import EdgarPlatform.Identity.Partition
import EdgarPlatform.Matching.Consolidations
import EdgarPlatform.Records.Decisions

/-!
# The planner reads the decisions as the replay does

Reading the consolidations folds the decision records in the order they are stored, with what undoes what collected first; the replay orders them by time and depth. Both come to the same components and the same pairs kept apart, since each is a function of which merges are live and which pairs stand apart, and on that they agree.
-/

namespace EdgarPlatform.Matching

open Identities (Decision Identity State Undoes Undone InEffect keptApart)
open Records (Object Decoded readText readRecordKey)
open ParentMap (above)

variable {decisions : List Decision}

def undoneIn (decisions : List Decision) (id : String) : Prop := ∃ d ∈ decisions, Undoes d id

def apartIn (decisions : List Decision) (id : String) : Prop :=
  ∃ d ∈ decisions, d.op = .reverse ∧ d.target = some id ∧ ¬ undoneIn decisions d.id

instance (decisions : List Decision) (id : String) : Decidable (undoneIn decisions id) :=
  inferInstanceAs (Decidable (∃ _ ∈ _, _))

instance (decisions : List Decision) (id : String) : Decidable (apartIn decisions id) :=
  inferInstanceAs (Decidable (∃ _ ∈ _, _))

def liveMerge (decisions : List Decision) (d : Decision) : Option Merged :=
  if d.op = .merge ∧ ¬ undoneIn decisions d.id then
    d.left.bind fun left => d.right.map fun right => ⟨d.id, left, right⟩
  else none

def apartPair (decisions : List Decision) (d : Decision) : Option (String × String) :=
  if d.op = .exclude ∧ ¬ undoneIn decisions d.id ∨
      d.op = .merge ∧ undoneIn decisions d.id ∧ apartIn decisions d.id then
    d.left.bind fun left => d.right.map fun right => (left, right)
  else none

def liveMerges (decisions : List Decision) : List Merged := decisions.filterMap (liveMerge decisions)

def apartPairs (decisions : List Decision) : List (String × String) := decisions.filterMap (apartPair decisions)

theorem mem_liveMerges {m : Merged} :
    m ∈ liveMerges decisions ↔ ∃ d ∈ decisions, d.op = .merge ∧ ¬ undoneIn decisions d.id ∧ d.id = m.id ∧
      d.left = some m.left ∧ d.right = some m.right := by
  obtain ⟨id, left, right⟩ := m
  rw [liveMerges, List.mem_filterMap]
  refine exists_congr fun d => and_congr_right fun _ => ?_
  unfold liveMerge
  split_ifs with h
  · simp only [Option.bind_eq_some_iff, Option.map_eq_some_iff, Merged.mk.injEq]
    grind
  · simp only [false_iff]
    tauto

def undoingName (d : Decision) : String := if d.op = .reverse then "reverse" else "revoke"

def noteOf (targeted : Consolidations.Targeted) (d : Decision) : Consolidations.Targeted :=
  if d.op = .reverse ∨ d.op = .revoke then
    d.target.elim targeted fun target =>
      targeted.insert target
        ((targeted.get? target).getD [] ++ [(undoingName d, d.id)])
  else targeted

def Targets (decisions : List Decision) : Prop := ∀ d ∈ decisions, d.op = .reverse ∨ d.op = .revoke → ∃ id, d.target = some id

section Records

variable {calendar : Records.Calendar} {effective : Records.Effective}

theorem noteTarget_decoded {targeted : Consolidations.Targeted} {body : Object} {d : Decision}
    (hbody : Decoded calendar effective body d) (htarget : d.op = .reverse ∨ d.op = .revoke → ∃ id, d.target = some id) :
    Consolidations.noteTarget targeted body = .ok (noteOf targeted d) := by
  obtain ⟨name, hname, hop⟩ := hbody.operation
  unfold Consolidations.noteTarget noteOf
  rw [hname, Except.bind_ok]
  have hreverse : name = "reverse" ↔ d.op = .reverse := by rw [hop, Records.Op.read_eq_reverse]
  have hrevoke : name = "revoke" ↔ d.op = .revoke := by rw [hop, Records.Op.read_eq_revoke]
  by_cases hundoing : d.op = .reverse ∨ d.op = .revoke
  · obtain ⟨id, hid⟩ := htarget hundoing
    have hread := hbody.target hundoing
    rw [hid] at hread
    have hnamed : name = undoingName d := by
      unfold undoingName
      split_ifs with h
      · exact hreverse.2 h
      · exact hrevoke.2 (hundoing.resolve_left h)
    rw [if_pos (by tauto), if_pos hundoing, Records.readText_of_optional hread, hbody.id, hid, ← hnamed]
    rfl
  · rw [if_neg (by tauto), if_neg hundoing]

theorem noteTargets_decoded {bodies : List Object} {decisions : List Decision}
    (hbodies : List.Forall₂ (Decoded calendar effective) bodies decisions) (htargets : Targets decisions)
    (targeted : Consolidations.Targeted) :
    bodies.foldlM Consolidations.noteTarget targeted = .ok (decisions.foldl noteOf targeted) := by
  induction hbodies generalizing targeted with
  | nil => rfl
  | @cons body d _ _ hbody _ ih =>
      rw [List.foldlM_cons, noteTarget_decoded hbody (htargets d (by simp)), Except.bind_ok, List.foldl_cons]
      exact ih (fun other hother => htargets other (by simp [hother])) _

end Records

theorem mem_notes (decisions : List Decision) (targeted : Consolidations.Targeted) (id name by_ : String) :
    (name, by_) ∈ ((decisions.foldl noteOf targeted).get? id).getD [] ↔
      (name, by_) ∈ (targeted.get? id).getD [] ∨
        ∃ d ∈ decisions, Undoes d id ∧ d.id = by_ ∧ name = undoingName d := by
  induction decisions generalizing targeted with
  | nil => simp
  | cons d rest ih =>
      rw [List.foldl_cons, ih]
      simp only [List.mem_cons, or_and_right, exists_or, exists_eq_left, ← or_assoc]
      refine or_congr_left ?_
      unfold noteOf
      split_ifs with hop
      · cases htarget : d.target with
        | none => simp [Undoes, htarget]
        | some target =>
            simp only [Option.elim, IndexMap.get?_insert, Undoes, hop, htarget, Option.some.injEq, true_and]
            by_cases heq : id = target
            · subst heq
              simp only [if_true, Option.getD_some, List.mem_append, List.mem_singleton, Prod.mk.injEq, true_and]
              refine or_congr_right ?_
              constructor
              · intro h
                exact ⟨h.2.symm, h.1⟩
              · intro h
                exact ⟨h.2, h.1.symm⟩
            · simp [heq, Ne.symm heq]
      · simp [Undoes, hop]

def notes (decisions : List Decision) : Consolidations.Targeted := decisions.foldl noteOf .empty

theorem mem_notes_nil (decisions : List Decision) (id name by_ : String) :
    (name, by_) ∈ ((notes decisions).get? id).getD [] ↔
      ∃ d ∈ decisions, Undoes d id ∧ d.id = by_ ∧ name = undoingName d := by
  rw [notes, mem_notes]
  simp

theorem isRevoked_notes (decisions : List Decision) (id : String) :
    Consolidations.isRevoked (notes decisions) id = true ↔ undoneIn decisions id := by
  have hany : Consolidations.isRevoked (notes decisions) id = true ↔ ((notes decisions).get? id).getD [] ≠ [] := by
    unfold Consolidations.isRevoked
    cases (notes decisions).get? id <;> simp
  rw [hany]
  constructor
  · intro h
    obtain ⟨⟨name, by_⟩, hmem⟩ := List.exists_mem_of_ne_nil _ h
    rw [mem_notes_nil] at hmem
    obtain ⟨d, hd, hundo, _⟩ := hmem
    exact ⟨d, hd, hundo⟩
  · intro h
    obtain ⟨d, hd, hundo⟩ := h
    exact List.ne_nil_of_mem ((mem_notes_nil decisions id _ _).2 ⟨d, hd, hundo, rfl, rfl⟩)

theorem apart_notes (decisions : List Decision) (id : String) :
    (((notes decisions).get? id).getD []).any (fun undoing =>
      undoing.1 = "reverse" ∧ Consolidations.isRevoked (notes decisions) undoing.2 = false) = true ↔
      apartIn decisions id := by
  have hlive : ∀ other, Consolidations.isRevoked (notes decisions) other = false ↔ ¬ undoneIn decisions other :=
    fun other => by rw [← isRevoked_notes, Bool.not_eq_true]
  simp only [List.any_eq_true, decide_eq_true_eq, Prod.exists, mem_notes_nil, hlive, apartIn]
  constructor
  · intro h
    obtain ⟨name, by_, ⟨d, hd, hundo, rfl, hname⟩, hreverse, hstands⟩ := h
    refine ⟨d, hd, ?_, hundo.2, hstands⟩
    by_contra hne
    rw [hname, undoingName, if_neg hne] at hreverse
    exact absurd hreverse (by decide)
  · intro h
    obtain ⟨d, hd, hop, htarget, hstands⟩ := h
    exact ⟨"reverse", d.id, ⟨d, hd, ⟨.inl hop, htarget⟩, rfl, by rw [undoingName, if_pos hop]⟩, rfl, hstands⟩

def NamesSides (body : Object) : Prop := ∃ left right, readText body "left" = .ok left ∧ readText body "right" = .ok right

/-- The decision's sides are read: it is a merge, or an exclusion nothing undoes. -/
def ReadsSides (decisions : List Decision) (d : Decision) : Prop :=
  d.op = .merge ∨ d.op = .exclude ∧ ¬ undoneIn decisions d.id

def takeOne (decisions : List Decision) (found : Consolidations) (d : Decision) : Consolidations :=
  match liveMerge decisions d, apartPair decisions d with
  | some m, _ => found.join m.left m.right m.id
  | none, some pair => { found with exclusions := found.exclusions ++ [pair] }
  | none, none => found

section Records

variable {calendar : Records.Calendar} {effective : Records.Effective} {body : Object} {d : Decision}

/-- Reading one record adds what its decision adds, and fails only where it reads a side that is not a text. -/
theorem readOne_decoded (hbody : Decoded calendar effective body d) (found : Consolidations) :
    (ReadsSides decisions d → NamesSides body) →
      Consolidations.readOne (notes decisions) found body = .ok (takeOne decisions found d) := by
  intro hsides
  obtain ⟨name, hname, hop⟩ := hbody.operation
  have hmerge : name = "merge" ↔ d.op = .merge := by rw [hop, Records.Op.read_eq_merge]
  have hexclude : name = "exclude" ↔ d.op = .exclude := by rw [hop, Records.Op.read_eq_exclude]
  have hlive : Consolidations.isRevoked (notes decisions) d.id = false ↔ ¬ undoneIn decisions d.id := by
    rw [← isRevoked_notes, Bool.not_eq_true]
  have hleft := hbody.left
  have hright := hbody.right
  unfold Consolidations.readOne takeOne
  rw [hname, Except.bind_ok, hbody.id, Except.bind_ok]
  by_cases hm : d.op = .merge
  · obtain ⟨left, right, hl, hr⟩ := hsides (.inl hm)
    rw [Records.readRecordKey_of_text hl] at hleft
    rw [Records.readRecordKey_of_text hr] at hright
    rw [if_pos (hmerge.2 hm), hl, hr, Except.bind_ok, Except.bind_ok]
    by_cases hundone : undoneIn decisions d.id
    · have hnone : liveMerge decisions d = none := if_neg (by tauto)
      rw [if_neg (by tauto), hnone]
      by_cases hapart : apartIn decisions d.id
      · have hpair : apartPair decisions d = some (left, right) := by simp [apartPair, hm, hundone, hapart, hleft, hright]
        rw [if_pos ((apart_notes decisions d.id).2 hapart), hpair]
      · have hpair : apartPair decisions d = none := by simp [apartPair, hm, hundone, hapart]
        rw [if_neg (fun h => hapart ((apart_notes decisions d.id).1 h)), hpair]
    · have hsome : liveMerge decisions d = some ⟨d.id, left, right⟩ := by simp [liveMerge, hm, hundone, hleft, hright]
      rw [if_pos (hlive.2 hundone), hsome]
  · have hnone : liveMerge decisions d = none := if_neg (by tauto)
    rw [if_neg (fun h => hm (hmerge.1 h)), hnone]
    by_cases hx : d.op = .exclude ∧ ¬ undoneIn decisions d.id
    · obtain ⟨left, right, hl, hr⟩ := hsides (.inr hx)
      rw [Records.readRecordKey_of_text hl] at hleft
      rw [Records.readRecordKey_of_text hr] at hright
      have hpair : apartPair decisions d = some (left, right) := by simp [apartPair, hx, hleft, hright]
      rw [if_pos (by tauto), hl, hr, Except.bind_ok, Except.bind_ok, hpair]
    · have hpair : apartPair decisions d = none := if_neg (by tauto)
      rw [if_neg (by tauto), hpair]

theorem readAll_decoded {bodies : List Object} {read : List Decision}
    (hbodies : List.Forall₂ (Decoded calendar effective) bodies read)
    (hsides : List.Forall₂ (fun body d => ReadsSides decisions d → NamesSides body) bodies read)
    (found : Consolidations) :
    bodies.foldlM (Consolidations.readOne (notes decisions)) found = .ok (read.foldl (takeOne decisions) found) := by
  induction hbodies generalizing found with
  | nil => rfl
  | cons hbody _ ih =>
      cases hsides with
      | cons hside hrest =>
          rw [List.foldlM_cons, readOne_decoded hbody found hside, Except.bind_ok, List.foldl_cons]
          exact ih hrest _

end Records

/-- What reading the records comes to: the components of the live merges, and the pairs kept apart. -/
structure Consolidations.Reads (decisions : List Decision) (c : Consolidations) : Prop where
  of : Consolidations.Of (liveMerges decisions) c
  exclusions : c.exclusions = apartPairs decisions

theorem takeOne_run (decisions read : List Decision) {merges : List Merged} {found : Consolidations}
    (h : Consolidations.Of merges found) :
    Consolidations.Of (merges ++ read.filterMap (liveMerge decisions)) (read.foldl (takeOne decisions) found) ∧
      (read.foldl (takeOne decisions) found).exclusions =
        found.exclusions ++ read.filterMap (apartPair decisions) := by
  induction read generalizing merges found with
  | nil => simpa using h
  | cons d rest ih =>
      rw [List.foldl_cons]
      cases hm : liveMerge decisions d with
      | some m =>
          have hstep : takeOne decisions found d = found.join m.left m.right m.id := by simp [takeOne, hm]
          have hnone : apartPair decisions d = none := by
            have hop : d.op = .merge ∧ ¬ undoneIn decisions d.id := by
              by_contra hnot
              rw [liveMerge, if_neg hnot] at hm
              cases hm
            simp [apartPair, hop]
          have hrest := ih (h.join m.left m.right m.id)
          rw [hstep, List.filterMap_cons_some hm, List.filterMap_cons_none hnone]
          rw [List.append_assoc, Consolidations.join_exclusions] at hrest
          exact hrest
      | none =>
          rw [List.filterMap_cons_none hm]
          cases hp : apartPair decisions d with
          | some pair =>
              have hstep : takeOne decisions found d = { found with exclusions := found.exclusions ++ [pair] } := by
                simp [takeOne, hm, hp]
              have hkept : Consolidations.Of merges { found with exclusions := found.exclusions ++ [pair] } := ⟨h.keeps, h.held⟩
              have hrest := ih hkept
              rw [hstep, List.filterMap_cons_some hp]
              rw [List.append_assoc] at hrest
              exact hrest
          | none =>
              have hstep : takeOne decisions found d = found := by simp [takeOne, hm, hp]
              rw [hstep, List.filterMap_cons_none hp]
              exact ih h

theorem reads_takeAll (decisions : List Decision) :
    Consolidations.Reads decisions (decisions.foldl (takeOne decisions) .empty) := by
  obtain ⟨hof, hexclusions⟩ := takeOne_run decisions decisions Consolidations.Of.empty
  exact ⟨hof, hexclusions⟩

variable {calendar : Records.Calendar} {identities : List Identity} {bodies : List Object} {clock : Int} {state : State}

theorem undone_iff (hclock : ∀ d ∈ decisions, d.time ≤ clock) (id : String) :
    Undone decisions clock id ↔ undoneIn decisions id := by
  refine exists_congr fun d => and_congr_left fun _ => ?_
  exact ⟨fun h => h.1, fun h => ⟨h, hclock d h⟩⟩

theorem inEffect_iff (hclock : ∀ d ∈ decisions, d.time ≤ clock) (d : Decision) :
    InEffect decisions clock d ↔ d ∈ decisions :=
  ⟨fun h => h.1, fun h => ⟨h, hclock d h⟩⟩

theorem targets_of_replay (hclock : ∀ d ∈ decisions, d.time ≤ clock)
    (h : Identities.replay identities decisions clock = .ok state) : Targets decisions := by
  obtain ⟨reversals, held, p, hpasses, _⟩ := Identities.replay_eq_ok.1 h
  intro d hd hop
  obtain ⟨index, hindex⟩ := Identities.exists_mem_inOrder ((inEffect_iff hclock d).2 hd)
  obtain ⟨front, back, hsplit⟩ := List.append_of_mem hindex
  have hrun := hpasses.undo
  unfold Identities.readReversals at hrun
  simp only [hsplit] at hrun
  obtain ⟨mid, next, _, hstep, _⟩ := Runs.run_split hrun
  rcases Identities.readReversal_eq_ok.1 hstep with ⟨hnot, _⟩ | ⟨id, _, hundo, _⟩
  · exact absurd hop hnot
  · exact ⟨id, hundo.2⟩

theorem read_eq_of_replay (hdecisions : Records.readDecisions calendar bodies = .ok decisions)
    (hclock : ∀ d ∈ decisions, d.time ≤ clock) (h : Identities.replay identities decisions clock = .ok state) :
    Consolidations.read bodies = bodies.foldlM (Consolidations.readOne (notes decisions)) .empty := by
  obtain ⟨effective, hbodies⟩ := Records.readDecisions_decoded hdecisions
  rw [Consolidations.read, noteTargets_decoded hbodies (targets_of_replay hclock h), Except.bind_ok]
  rfl

theorem mem_joinedPairs_iff (hclock : ∀ d ∈ decisions, d.time ≤ clock) {reversals : Identities.Reversals}
    (h : Identities.readReversals (Identities.inOrder decisions clock) = .ok reversals) (pair : String × String) :
    pair ∈ Identities.joinedPairs reversals.revoked (Identities.inOrder decisions clock) ↔
      pair ∈ pairs (liveMerges decisions) := by
  obtain ⟨left, right⟩ := pair
  simp only [Identities.mem_joinedPairs, Identities.joinedPair_eq_some, Identities.mem_revoked_iff h, undone_iff hclock]
  rw [Identities.exists_inOrder_iff fun d => d.op = .merge ∧ ¬ undoneIn decisions d.id ∧ d.left = some left ∧
    d.right = some right]
  simp only [inEffect_iff hclock, pairs, List.mem_map, mem_liveMerges, Prod.mk.injEq]
  constructor
  · intro h
    obtain ⟨d, hd, hop, hlive, hleft, hright⟩ := h
    exact ⟨⟨d.id, left, right⟩, ⟨d, hd, hop, hlive, rfl, hleft, hright⟩, rfl, rfl⟩
  · intro h
    obtain ⟨m, ⟨d, hd, hop, hlive, _, hleft, hright⟩, rfl, rfl⟩ := h
    exact ⟨d, hd, hop, hlive, hleft, hright⟩

theorem mem_exclusions_iff (hclock : ∀ d ∈ decisions, d.time ≤ clock) {reversals : Identities.Reversals}
    {held : Identities.Held} {p : Identities.Progress}
    (h : Identities.Passes identities decisions clock reversals held p) (pair : String × String) :
    pair ∈ p.state.exclusions ↔ pair ∈ apartPairs decisions := by
  have hrevoked : ∀ id, id ∈ reversals.revoked ↔ undoneIn decisions id := fun id => by
    rw [Identities.mem_revoked_iff h.undo, undone_iff hclock]
  have hkept : ∀ d, keptApart (Identities.readingOf identities decisions clock reversals held) d ↔ apartIn decisions d.id := by
    intro d
    unfold keptApart apartIn
    simp only [Identities.readingOf, hrevoked]
    rw [Identities.exists_inOrder_iff fun x => x.op = .reverse ∧ x.target = some d.id ∧ ¬ undoneIn decisions x.id]
    simp only [inEffect_iff hclock]
  obtain ⟨left, right⟩ := pair
  rw [h.of.exclusions, List.mem_filterMap, apartPairs, List.mem_filterMap]
  have hpair : ∀ d, Identities.excludedPair (Identities.readingOf identities decisions clock reversals held) d =
      apartPair decisions d := by
    intro d
    unfold Identities.excludedPair apartPair
    simp only [hkept, Identities.readingOf_reversals, hrevoked]
  simp only [hpair]
  rw [Identities.exists_inOrder_iff fun d => apartPair decisions d = some (left, right)]
  simp only [inEffect_iff hclock]

/-- **The planner reads what the replay reads.** Where every merge and every exclusion nothing undoes names both its sides as texts, the records of an accepted replay are read; following the parents then ends for every identity, two identities have one root exactly when the replay gives them one canonical identity, and the pairs kept apart are those of the replay. -/
theorem consolidations_read_eq_replay (calendar : Records.Calendar) (identities : List Identity) (bodies : List Object)
    (decisions : List Decision) (clock : Int) (state : State)
    (hdecisions : Records.readDecisions calendar bodies = .ok decisions) (hclock : ∀ d ∈ decisions, d.time ≤ clock)
    (hsides : List.Forall₂ (fun body d => ReadsSides decisions d → NamesSides body) bodies decisions)
    (h : Identities.replay identities decisions clock = .ok state) :
    ∃ c, Consolidations.read bodies = .ok c ∧
      (∀ x, Forest.Climbs (above c.parent) x (c.root x)) ∧
      (∀ x ∈ identities.map (·.id), ∀ y ∈ identities.map (·.id),
        c.root x = c.root y ↔ state.canonical.get? x = state.canonical.get? y) ∧
      ∀ pair, pair ∈ c.exclusions ↔ pair ∈ state.exclusions := by
  obtain ⟨effective, hbodies⟩ := Records.readDecisions_decoded hdecisions
  have hread : Consolidations.read bodies = .ok (decisions.foldl (takeOne decisions) .empty) := by
    rw [read_eq_of_replay hdecisions hclock h, readAll_decoded hbodies hsides]
  obtain ⟨hof, hexclusions⟩ := reads_takeAll decisions
  obtain ⟨reversals, held, p, hpasses, hfinish⟩ := Identities.replay_eq_ok.1 h
  have hstate := (Identities.finish_eq_ok hfinish).1
  refine ⟨_, hread, hof.climbs, fun x hx y hy => ?_, fun pair => ?_⟩
  · rw [hof.root_eq_iff, Identities.canonical_eq_iff hpasses hfinish hx hy]
    exact Forest.linked_congr (fun pair => (mem_joinedPairs_iff hclock hpasses.undo pair).symm) x y
  · rw [hexclusions, hstate]
    exact (mem_exclusions_iff hclock hpasses pair).symm

def calendar2026 : Records.Calendar :=
  .ofTable [("2026-01-05T00:00:00+00:00", 1767571200 * 10 ^ 9), ("2026-01-06T00:00:00+00:00", 1767657600 * 10 ^ 9),
    ("2026-01-07T00:00:00+00:00", 1767744000 * 10 ^ 9), ("2026-01-08T00:00:00+00:00", 1767830400 * 10 ^ 9)]

def dayOf2026 (day : Nat) : Int := (1767571200 + 86400 * (day - 5)) * 10 ^ 6

/-- A stored decision: its id, operation and time, and its other fields. -/
def stored (id operation time : String) (fields : List (String × Records.Json)) : Object :=
  .ofList ([("decision_id", .str id), ("operation", .str operation), ("at", .str time)] ++ fields)

def sides (left right : String) : List (String × Records.Json) := [("left", .str left), ("right", .str right)]

/-- Two merges, the second reversed, an exclusion and its revocation. -/
def splitBodies : List Object :=
  [stored "m2" "merge" "2026-01-06T00:00:00+00:00" (sides "b" "c" ++ [("depends_on", .arr [.str "m1"])]),
   stored "x1" "exclude" "2026-01-05T00:00:00+00:00" (sides "c" "d"),
   stored "m1" "merge" "2026-01-05T00:00:00+00:00" (sides "a" "b"),
   stored "r2" "reverse" "2026-01-07T00:00:00+00:00" [("target", .str "m2")],
   stored "v1" "revoke" "2026-01-06T00:00:00+00:00" [("target", .str "x1")]]

def splitRead : List Decision :=
  [{ Decision.bare "m2" (dayOf2026 6) .merge with left := some "b", right := some "c" },
   { Decision.bare "x1" (dayOf2026 5) .exclude with left := some "c", right := some "d" },
   { Decision.bare "m1" (dayOf2026 5) .merge with left := some "a", right := some "b" },
   { Decision.bare "r2" (dayOf2026 7) .reverse with target := some "m2" },
   { Decision.bare "v1" (dayOf2026 6) .revoke with target := some "x1" }]

def splitReadState : State :=
  { State.empty with
    canonical := .ofList [("a", "a"), ("b", "a"), ("c", "c"), ("d", "d")]
    exclusions := [("b", "c")] }

theorem consolidations_read_eq_replay_split :
    Identities.replay Identities.splitIdentities splitRead (dayOf2026 8) = .ok splitReadState ∧
      ∃ c, Consolidations.read splitBodies = .ok c ∧ (c.root "a" = c.root "b" ∧ c.root "b" ≠ c.root "c") := by
  have hstate : Identities.replay Identities.splitIdentities splitRead (dayOf2026 8) = .ok splitReadState := by
    decide +kernel
  have hsides : List.Forall₂ (fun body d => ReadsSides splitRead d → NamesSides body) splitBodies splitRead :=
    .cons (fun _ => ⟨"b", "c", by decide +kernel, by decide +kernel⟩) <|
    .cons (fun _ => ⟨"c", "d", by decide +kernel, by decide +kernel⟩) <|
    .cons (fun _ => ⟨"a", "b", by decide +kernel, by decide +kernel⟩) <|
    .cons (fun h => by simp [ReadsSides, Decision.bare] at h) <|
    .cons (fun h => by simp [ReadsSides, Decision.bare] at h) .nil
  obtain ⟨c, hread, _, hclasses, _⟩ := consolidations_read_eq_replay calendar2026 Identities.splitIdentities splitBodies
    splitRead (dayOf2026 8) splitReadState (by decide +kernel) (by decide +kernel) hsides hstate
  refine ⟨hstate, c, hread, ?_, ?_⟩
  · exact (hclasses "a" (by decide) "b" (by decide)).2 (by decide +kernel)
  · exact fun hbc => absurd ((hclasses "b" (by decide) "c" (by decide)).1 hbc) (by decide +kernel)

/-- A merge without its left side, its reversal, and the reversal's revocation. -/
def sidelessBodies : List Object :=
  [stored "m1" "merge" "2026-01-05T00:00:00+00:00" [("right", .str "b")],
   stored "r1" "reverse" "2026-01-06T00:00:00+00:00" [("target", .str "m1")],
   stored "v1" "revoke" "2026-01-07T00:00:00+00:00" [("target", .str "r1")]]

def sidelessRead : List Decision :=
  [{ Decision.bare "m1" (dayOf2026 5) .merge with right := some "b" },
   { Decision.bare "r1" (dayOf2026 6) .reverse with target := some "m1" },
   { Decision.bare "v1" (dayOf2026 7) .revoke with target := some "r1" }]

/-- A merge whose sides are numbers, which the replay reads as their texts. -/
def numberedBodies : List Object :=
  [stored "m1" "merge" "2026-01-05T00:00:00+00:00" [("left", .num "5"), ("right", .num "6")]]

def numberedRead : List Decision :=
  [{ Decision.bare "m1" (dayOf2026 5) .merge with left := some "5", right := some "6" }]

/-- The replay accepts both lists, and neither is read. -/
theorem sideless_not_read :
    (Records.readDecisions calendar2026 sidelessBodies = .ok sidelessRead ∧
      (∀ d ∈ sidelessRead, d.time ≤ dayOf2026 8) ∧
      (Identities.replay Identities.splitIdentities sidelessRead (dayOf2026 8)).isOk = true ∧
      Consolidations.read sidelessBodies = .error "Missing record field: left") ∧
    (Records.readDecisions calendar2026 numberedBodies = .ok numberedRead ∧
      (∀ d ∈ numberedRead, d.time ≤ dayOf2026 8) ∧
      (Identities.replay [Identities.company "5" 1, Identities.company "6" 2] numberedRead (dayOf2026 8)).isOk = true ∧
      Consolidations.read numberedBodies = .error "Invalid record value") := by
  decide +kernel

end EdgarPlatform.Matching
