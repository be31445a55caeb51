import Mathlib.Data.List.Chain
import Mathlib.Data.List.Pairwise
import Mathlib.Order.Lattice
import Mathlib.Order.Defs.LinearOrder

/-!
# Timelines

A timeline is a list of spans, each a value over the times from its start up to its end. Cutting time at some boundaries and joining each slice to the span before it, where the value goes on, gives a timeline whose spans are in order and disjoint, and no two of one value touch. What it says of a time is what was found for the slice the time is in.
-/

namespace Timeline

variable {τ β : Type} [LinearOrder τ]

/-- A value over the times from a start up to an end. -/
structure Span (τ β : Type) where
  start : τ
  stop : τ
  value : β
  deriving DecidableEq

def At (spans : List (Span τ β)) (t : τ) (v : β) : Prop :=
  ∃ span ∈ spans, span.start ≤ t ∧ t < span.stop ∧ span.value = v

/-- Spans in order, none empty, disjoint, and no two that touch with one value. -/
structure Joined (spans : List (Span τ β)) : Prop where
  nonempty : ∀ span ∈ spans, span.start < span.stop
  apart : spans.Pairwise fun a b => a.stop < b.start ∨ a.stop = b.start ∧ a.value ≠ b.value

/-- A span added after the others, or the last of them going on. -/
def join [DecidableEq β] (spans : List (Span τ β)) (span : Span τ β) : List (Span τ β) :=
  match spans.getLast? with
  | none => [span]
  | some last =>
      if last.stop = span.start ∧ last.value = span.value then spans.dropLast ++ [{ last with stop := span.stop }]
      else spans ++ [span]

theorem Joined.nil : Joined ([] : List (Span τ β)) := ⟨by simp, .nil⟩

theorem join_nil [DecidableEq β] (span : Span τ β) : join [] span = [span] := rfl

theorem join_concat [DecidableEq β] (spans : List (Span τ β)) (last span : Span τ β) :
    join (spans ++ [last]) span =
      if last.stop = span.start ∧ last.value = span.value then spans ++ [{ last with stop := span.stop }]
      else spans ++ [last] ++ [span] := by
  simp [join]

variable [DecidableEq β]

theorem mem_join {spans : List (Span τ β)} {span s : Span τ β} (h : s ∈ join spans span) :
    (s.start = span.start ∨ ∃ s' ∈ spans, s'.start = s.start) ∧ (s.stop = span.stop ∨ ∃ s' ∈ spans, s'.stop = s.stop) := by
  rcases List.eq_nil_or_concat spans with rfl | ⟨front, last, rfl⟩
  · obtain rfl := List.mem_singleton.1 h
    exact ⟨.inl rfl, .inl rfl⟩
  · rw [List.concat_eq_append] at h ⊢
    rw [join_concat] at h
    split_ifs at h
    · rcases List.mem_append.1 h with hs | hs
      · exact ⟨.inr ⟨s, by simp [hs], rfl⟩, .inr ⟨s, by simp [hs], rfl⟩⟩
      · obtain rfl := List.mem_singleton.1 hs
        exact ⟨.inr ⟨last, by simp, rfl⟩, .inl rfl⟩
    · rcases List.mem_append.1 h with hs | hs
      · exact ⟨.inr ⟨s, hs, rfl⟩, .inr ⟨s, hs, rfl⟩⟩
      · obtain rfl := List.mem_singleton.1 hs
        exact ⟨.inl rfl, .inl rfl⟩

/-- A span that starts where the others have ended joins them to a timeline that says of its times its value and of the others what it said. -/
theorem Joined.join {spans : List (Span τ β)} {span : Span τ β} (h : Joined spans) (hspan : span.start < span.stop)
    (hafter : ∀ s ∈ spans, s.stop ≤ span.start) :
    Joined (join spans span) ∧
      ∀ t v, At (Timeline.join spans span) t v ↔ At spans t v ∨ span.start ≤ t ∧ t < span.stop ∧ span.value = v := by
  rcases List.eq_nil_or_concat spans with rfl | ⟨front, last, rfl⟩
  · refine ⟨⟨?_, ?_⟩, fun t v => ?_⟩ <;> simp [join_nil, At, hspan]
  · rw [List.concat_eq_append] at h hafter ⊢
    have hlast := hafter last (by simp)
    have hfront : ∀ s ∈ front, s.stop < span.start := by
      intro s hs
      have hpair := (List.pairwise_append.1 h.apart).2.2 s hs last (by simp)
      have hle : s.stop ≤ last.start := by
        rcases hpair with hlt | ⟨heq, _⟩
        · exact hlt.le
        · exact heq.le
      exact lt_of_le_of_lt hle (lt_of_lt_of_le (h.nonempty last (by simp)) hlast)
    rw [join_concat]
    split_ifs with hgoes
    · obtain ⟨htouch, hvalue⟩ := hgoes
      obtain ⟨hpairs, _, hbetween⟩ := List.pairwise_append.1 h.apart
      refine ⟨⟨?_, ?_⟩, fun t v => ?_⟩
      · intro s hs
        rcases List.mem_append.1 hs with hs | hs
        · exact h.nonempty s (by simp [hs])
        · obtain rfl := List.mem_singleton.1 hs
          exact (h.nonempty last (by simp)).trans (htouch ▸ hspan)
      · refine List.pairwise_append.2 ⟨hpairs, by simp, fun a ha b hb => ?_⟩
        obtain rfl := List.mem_singleton.1 hb
        exact hbetween a ha last (by simp)
      · unfold At
        simp only [List.mem_append, List.mem_singleton, or_and_right, exists_or, exists_eq_left, or_assoc]
        refine or_congr_right ⟨fun hat => ?_, fun hat => ?_⟩
        · obtain ⟨hstart, hstop, hv⟩ := hat
          by_cases ht : t < last.stop
          · exact .inl ⟨hstart, ht, hv⟩
          · exact .inr ⟨htouch ▸ not_lt.1 ht, hstop, hvalue ▸ hv⟩
        · rcases hat with ⟨hstart, ht, hv⟩ | ⟨ht, hstop, hv⟩
          · exact ⟨hstart, (htouch ▸ ht).trans hspan, hv⟩
          · exact ⟨(h.nonempty last (by simp)).le.trans (htouch ▸ ht), hstop, hvalue ▸ hv⟩
    · refine ⟨⟨?_, ?_⟩, fun t v => ?_⟩
      · intro s hs
        rcases List.mem_append.1 hs with hs | hs
        · exact h.nonempty s hs
        · rwa [List.mem_singleton.1 hs]
      · refine List.pairwise_append.2 ⟨h.apart, by simp, fun a ha b hb => ?_⟩
        obtain rfl := List.mem_singleton.1 hb
        rcases List.mem_append.1 ha with ha | ha
        · exact .inl (hfront a ha)
        · obtain rfl := List.mem_singleton.1 ha
          rcases lt_or_eq_of_le hlast with hlt | heq
          · exact .inl hlt
          · exact .inr ⟨heq, fun hvalue => hgoes ⟨heq, hvalue⟩⟩
      · unfold At
        simp only [List.mem_append, List.mem_singleton, or_and_right, exists_or, exists_eq_left]

/-- The times between one boundary and the next, the last up to the end of time. -/
def slices (last : τ) (cuts : List τ) : List (τ × τ) := cuts.zip (cuts.tail ++ [last])

omit [LinearOrder τ] in
theorem slices_cons_cons (last a b : τ) (rest : List τ) :
    slices last (a :: b :: rest) = (a, b) :: slices last (b :: rest) := rfl

omit [LinearOrder τ] in
theorem slices_singleton (last a : τ) : slices last [a] = [(a, last)] := rfl

/-- What the slices of sorted boundaries are. -/
structure Sliced (last : τ) (cuts : List τ) (found : List (τ × τ)) : Prop where
  nonempty : ∀ slice ∈ found, slice.1 < slice.2
  start : ∀ slice ∈ found, slice.1 ∈ cuts
  stop : ∀ slice ∈ found, slice.2 ∈ cuts ∨ slice.2 = last
  apart : found.Pairwise fun a b => a.2 ≤ b.1
  covers : ∀ c ∈ cuts, ∀ t, c ≤ t → t < last → ∃ slice ∈ found, slice.1 ≤ t ∧ t < slice.2
  uncut : ∀ slice ∈ found, ∀ c ∈ cuts, c ≤ slice.1 ∨ slice.2 ≤ c
  first : ∀ slice ∈ found, ∀ c, cuts.head? = some c → c ≤ slice.1

theorem sliced {last : τ} {cuts : List τ} (hsorted : cuts.Pairwise (· < ·)) (hlast : ∀ c ∈ cuts, c < last) :
    Sliced last cuts (slices last cuts) := by
  induction cuts with
  | nil => constructor <;> simp [slices]
  | cons a rest ih =>
      cases rest with
      | nil =>
          rw [slices_singleton]
          have ha := hlast a (by simp)
          constructor <;> simp [ha]
          intro t hstart hstop
          exact ⟨hstart, hstop⟩
      | cons b rest =>
          obtain ⟨hfirst, htail⟩ := List.pairwise_cons.1 hsorted
          have h := ih htail fun c hc => hlast c (List.mem_cons_of_mem _ hc)
          have hab : a < b := hfirst b (by simp)
          have hbound : ∀ slice ∈ slices last (b :: rest), b ≤ slice.1 := fun slice hs => h.first slice hs b rfl
          rw [slices_cons_cons]
          constructor
          · intro slice hs
            rcases List.mem_cons.1 hs with rfl | hs
            · exact hab
            · exact h.nonempty slice hs
          · intro slice hs
            rcases List.mem_cons.1 hs with rfl | hs
            · simp
            · exact List.mem_cons_of_mem _ (h.start slice hs)
          · intro slice hs
            rcases List.mem_cons.1 hs with rfl | hs
            · exact .inl (by simp)
            · exact (h.stop slice hs).imp (List.mem_cons_of_mem _) id
          · exact List.pairwise_cons.2 ⟨hbound, h.apart⟩
          · intro c hc t hct ht
            by_cases hb : b ≤ t
            · obtain ⟨slice, hs, hslice⟩ := h.covers b (by simp) t hb ht
              exact ⟨slice, List.mem_cons_of_mem _ hs, hslice⟩
            · refine ⟨(a, b), by simp, ?_, not_le.1 hb⟩
              rcases List.mem_cons.1 hc with rfl | hc
              · exact hct
              · obtain ⟨hbrest, _⟩ := List.pairwise_cons.1 htail
                rcases List.mem_cons.1 hc with rfl | hc
                · exact absurd hct hb
                · exact absurd ((hbrest c hc).le.trans hct) hb
          · intro slice hs c hc
            rcases List.mem_cons.1 hs with rfl | hs
            · rcases List.mem_cons.1 hc with rfl | hc
              · exact .inl (le_refl _)
              · right
                rcases List.mem_cons.1 hc with rfl | hc
                · exact le_refl _
                · exact ((List.pairwise_cons.1 htail).1 c hc).le
            · rcases List.mem_cons.1 hc with heq | hc
              · exact .inl (heq ▸ hab.le.trans (hbound slice hs))
              · exact h.uncut slice hs c hc
          · intro slice hs c hc
            obtain rfl : a = c := Option.some.inj hc
            rcases List.mem_cons.1 hs with rfl | hs
            · exact le_refl _
            · exact hab.le.trans (hbound slice hs)

/-- The slices in which something was found, each joined to the span before it. -/
def gather (find : τ × τ → Option β) (found : List (τ × τ)) : List (Span τ β) :=
  found.foldl (fun spans slice => (find slice).elim spans fun v => join spans ⟨slice.1, slice.2, v⟩) []

theorem gather_concat (find : τ × τ → Option β) (front : List (τ × τ)) (slice : τ × τ) :
    gather find (front ++ [slice]) =
      (find slice).elim (gather find front) fun v => join (gather find front) ⟨slice.1, slice.2, v⟩ := by
  simp [gather]

/-- The bounds of the spans gathered are bounds of the slices. -/
theorem mem_gather {find : τ × τ → Option β} {found : List (τ × τ)} {s : Span τ β} (h : s ∈ gather find found) :
    (∃ slice ∈ found, slice.1 = s.start) ∧ ∃ slice ∈ found, slice.2 = s.stop := by
  induction found using List.reverseRecOn generalizing s with
  | nil => simp [gather] at h
  | append_singleton front slice ih =>
      have hold : ∀ {s'}, s' ∈ gather find front →
          (∃ slice' ∈ front ++ [slice], slice'.1 = s'.start) ∧ ∃ slice' ∈ front ++ [slice], slice'.2 = s'.stop := by
        intro s' hs'
        obtain ⟨⟨a, ha, hstart⟩, b, hb, hstop⟩ := ih hs'
        exact ⟨⟨a, by simp [ha], hstart⟩, b, by simp [hb], hstop⟩
      rw [gather_concat] at h
      cases hfind : find slice with
      | none =>
          rw [hfind] at h
          exact hold h
      | some v =>
          rw [hfind] at h
          obtain ⟨hstart, hstop⟩ := mem_join h
          constructor
          · rcases hstart with heq | ⟨s', hs', heq⟩
            · exact ⟨slice, by simp, heq.symm⟩
            · exact heq ▸ (hold hs').1
          · rcases hstop with heq | ⟨s', hs', heq⟩
            · exact ⟨slice, by simp, heq.symm⟩
            · exact heq ▸ (hold hs').2

/-- The timeline gathered from slices in order says of a time what was found for its slice. -/
theorem gather_spec (find : τ × τ → Option β) {found : List (τ × τ)} (hnonempty : ∀ slice ∈ found, slice.1 < slice.2)
    (hapart : found.Pairwise fun a b => a.2 ≤ b.1) :
    Joined (gather find found) ∧
      ∀ t v, At (gather find found) t v ↔ ∃ slice ∈ found, slice.1 ≤ t ∧ t < slice.2 ∧ find slice = some v := by
  induction found using List.reverseRecOn with
  | nil => exact ⟨.nil, by simp [gather, At]⟩
  | append_singleton front slice ih =>
      obtain ⟨hfront, _, hbetween⟩ := List.pairwise_append.1 hapart
      obtain ⟨hjoined, hat⟩ := ih (fun s hs => hnonempty s (by simp [hs])) hfront
      have hslice : slice.1 < slice.2 := hnonempty slice (by simp)
      rw [gather_concat]
      cases hfind : find slice with
      | none =>
          refine ⟨hjoined, fun t v => ?_⟩
          simp only [Option.elim, hat, List.mem_append, List.mem_singleton, or_and_right, exists_or, exists_eq_left, hfind]
          simp
      | some v =>
          have hafter : ∀ s ∈ gather find front, s.stop ≤ slice.1 := by
            intro s hs
            obtain ⟨_, earlier, hmem, heq⟩ := mem_gather hs
            exact heq ▸ hbetween earlier hmem slice (by simp)
          obtain ⟨hjoined', hat'⟩ := hjoined.join (show (Span.mk slice.1 slice.2 v).start < _ from hslice) hafter
          refine ⟨hjoined', fun t w => ?_⟩
          show At (Timeline.join _ _) t w ↔ _
          rw [hat', hat]
          simp only [List.mem_append, List.mem_singleton, or_and_right, exists_or, exists_eq_left, hfind,
            Option.some.injEq]

end Timeline
