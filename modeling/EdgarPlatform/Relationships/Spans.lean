import EdgarPlatform.Relationships.Following

/-!
# The spans of a pair

Time is cut wherever a period of the group begins or ends, so in one slice every link holds throughout or not at all, and the chain followed at a slice's start is the one followed at each instant of it. The spans kept for a pair of entities are those of the chain from the one to the other.
-/

namespace EdgarPlatform.Relationships

open Records (Calendar Env Json Object readText readOptionalValue)

variable {c : Int} {dates : IndexMap Int Json}

theorem mem_keys_noteDate {date : Int × Json} :
    c ∈ (noteDate dates date).keys ↔ c ∈ dates.keys ∨ date.1 = c ∧ c < lastTime := by
  unfold noteDate
  split_ifs with hnew
  · rw [IndexMap.mem_keys_insert, or_comm]
    refine or_congr_right ⟨fun heq => ⟨heq.symm, heq ▸ hnew.1⟩, fun h => h.1.symm⟩
  · refine ⟨.inl, fun h => h.elim id fun hdate => ?_⟩
    obtain ⟨rfl, hlast⟩ := hdate
    rw [← IndexMap.contains_iff]
    simpa [hlast] using hnew

theorem mem_keys_foldl_noteDate {noted : List (Int × Json)} :
    c ∈ (noted.foldl noteDate dates).keys ↔ c ∈ dates.keys ∨ c ∈ noted.map Prod.fst ∧ c < lastTime := by
  induction noted generalizing dates with
  | nil => simp
  | cons date rest ih =>
      rw [List.foldl_cons, ih, mem_keys_noteDate, List.map_cons, List.mem_cons, or_and_right, or_assoc, eq_comm]

theorem get?_foldl_noteDate {noted : List (Int × Json)} {text : Json}
    (h : (noted.foldl noteDate dates).get? c = some text) : dates.get? c = some text ∨ (c, text) ∈ noted := by
  induction noted generalizing dates with
  | nil => exact .inl h
  | cons date rest ih =>
      rcases ih h with hget | hmem
      · unfold noteDate at hget
        split_ifs at hget
        · rw [IndexMap.get?_insert] at hget
          split_ifs at hget with heq
          · subst heq
            cases hget
            exact .inr (by simp)
          · exact .inl hget
        · exact .inl hget
      · exact .inr (List.mem_cons_of_mem _ hmem)

variable {links : List LinkPeriod}

theorem mem_keys_datesOf :
    c ∈ (datesOf links).keys ↔ (∃ link ∈ links, link.start = c ∨ link.stop = c) ∧ c < lastTime := by
  rw [datesOf, mem_keys_foldl_noteDate]
  simp only [IndexMap.keys_empty, List.not_mem_nil, false_or, List.mem_map, List.mem_flatMap, List.mem_cons, or_false]
  refine and_congr_left fun _ => ?_
  constructor
  · intro h
    obtain ⟨_, ⟨link, hlink, rfl | rfl⟩, rfl⟩ := h
    · exact ⟨link, hlink, .inl rfl⟩
    · exact ⟨link, hlink, .inr rfl⟩
  · intro h
    obtain ⟨link, hlink, rfl | rfl⟩ := h
    · exact ⟨_, ⟨link, hlink, .inl rfl⟩, rfl⟩
    · exact ⟨_, ⟨link, hlink, .inr rfl⟩, rfl⟩

theorem get?_datesOf {text : Json} (h : (datesOf links).get? c = some text) :
    c < lastTime ∧ ∃ link ∈ links, link.start = c ∧ text = readOptionalValue link.body "valid_from" ∨
      link.stop = c ∧ text = readOptionalValue link.body "valid_to" := by
  refine ⟨(mem_keys_datesOf.1 (IndexMap.mem_keys_of_get? h)).2, ?_⟩
  rcases get?_foldl_noteDate h with hempty | hmem
  · cases hempty
  · obtain ⟨link, hlink, hdate⟩ := List.mem_flatMap.1 hmem
    simp only [List.mem_cons, Prod.mk.injEq, List.not_mem_nil, or_false] at hdate
    rcases hdate with ⟨hc, htext⟩ | ⟨hc, htext⟩
    · exact ⟨link, hlink, .inl ⟨hc.symm, htext⟩⟩
    · exact ⟨link, hlink, .inr ⟨hc.symm, htext⟩⟩

def slicesOf (links : List LinkPeriod) : List (Int × Int) :=
  Timeline.slices lastTime (Sorting.distinct (datesOf links).keys)

theorem slicesOf_sliced (links : List LinkPeriod) :
    Timeline.Sliced lastTime (Sorting.distinct (datesOf links).keys) (slicesOf links) := by
  refine Timeline.sliced (Sorting.distinct_sorted _) fun c hc => ?_
  exact (mem_keys_datesOf.1 (Sorting.mem_distinct.1 hc)).2

variable {slice : Int × Int}

theorem slice_stop_le (hslice : slice ∈ slicesOf links) :
    slice.2 ≤ lastTime := by
  rcases (slicesOf_sliced links).stop slice hslice with hstop | hstop
  · exact (mem_keys_datesOf.1 (Sorting.mem_distinct.1 hstop)).2.le
  · exact hstop.le

theorem bound_le_iff (hslice : slice ∈ slicesOf links) {t : Int}
    (hstart : slice.1 ≤ t) (hstop : t < slice.2) (hc : ∃ link ∈ links, link.start = c ∨ link.stop = c) :
    c ≤ slice.1 ↔ c ≤ t := by
  refine ⟨fun h => h.trans hstart, fun h => ?_⟩
  by_cases hlast : c < lastTime
  · have hcut := Sorting.mem_distinct.2 (mem_keys_datesOf.2 ⟨hc, hlast⟩)
    exact ((slicesOf_sliced links).uncut slice hslice c hcut).resolve_right (by omega)
  · have := slice_stop_le hslice
    omega

theorem holds_iff (hslice : slice ∈ slicesOf links) {t : Int}
    (hstart : slice.1 ≤ t) (hstop : t < slice.2) {link : LinkPeriod} (hlink : link ∈ links) :
    link.start ≤ slice.1 ∧ slice.1 < link.stop ↔ link.start ≤ t ∧ t < link.stop := by
  have hfrom := bound_le_iff hslice hstart hstop ⟨link, hlink, .inl rfl⟩
  have hto := bound_le_iff hslice hstart hstop ⟨link, hlink, .inr rfl⟩
  omega

theorem chainAt_slice {links disputed : List LinkPeriod} (hslice : slice ∈ slicesOf (links ++ disputed))
    {t : Int} (hstart : slice.1 ≤ t) (hstop : t < slice.2) (pair : String × String) :
    chainAt links disputed pair slice.1 = chainAt links disputed pair t := by
  have hparents : parentsAt links slice.1 = parentsAt links t := by
    unfold parentsAt
    rw [List.filter_congr fun link hlink => ?_]
    exact decide_eq_decide.2 (holds_iff hslice hstart hstop (List.mem_append_left _ hlink))
  have hdisputed : disputedAt disputed slice.1 = disputedAt disputed t := by
    funext node
    unfold disputedAt
    rw [Bool.eq_iff_iff]
    simp only [List.any_eq_true, decide_eq_true_eq]
    refine exists_congr fun link => and_congr_right fun hlink => and_congr_right fun _ => ?_
    exact holds_iff hslice hstart hstop (List.mem_append_right _ hlink)
  rw [chainAt, chainAt, hparents, hdisputed]

theorem extendSpan_get? (parents : Parents) (isDisputed : String → Bool) (slice : Int × Int) (found : Spans)
    (source : String) (pair : String × String) :
    ((extendSpan parents isDisputed slice found source).get? pair).getD [] =
      if source = pair.1 then
        ((ultimateAt parents isDisputed pair.1).bind fun ultimate => if ultimate.1 = pair.2 then some ultimate.2 else none).elim
          ((found.get? pair).getD []) fun path => Timeline.join ((found.get? pair).getD []) ⟨slice.1, slice.2, path⟩
      else (found.get? pair).getD [] := by
  unfold extendSpan
  split_ifs with hsource
  · subst hsource
    cases hultimate : ultimateAt parents isDisputed pair.1 with
    | none => simp
    | some ultimate =>
        obtain ⟨node, path⟩ := ultimate
        by_cases hnode : node = pair.2
        · subst hnode
          simp
        · have hne : pair ≠ (pair.1, node) := fun heq => hnode (congrArg Prod.snd heq).symm
          simp [IndexMap.get?_insert_of_ne _ _ hne, hnode]
  · have hne : ∀ node, pair ≠ (source, node) := fun node heq => hsource (congrArg Prod.fst heq).symm
    cases ultimateAt parents isDisputed source with
    | none => rfl
    | some ultimate => simp only [IndexMap.get?_insert_of_ne _ _ (hne ultimate.1)]

theorem foldl_extendSpan_get? (parents : Parents) (isDisputed : String → Bool) (slice : Int × Int) (pair : String × String)
    {sources : List String} (hnodup : sources.Nodup) (found : Spans) :
    ((sources.foldl (extendSpan parents isDisputed slice) found).get? pair).getD [] =
      if pair.1 ∈ sources then
        ((ultimateAt parents isDisputed pair.1).bind fun ultimate => if ultimate.1 = pair.2 then some ultimate.2 else none).elim
          ((found.get? pair).getD []) fun path => Timeline.join ((found.get? pair).getD []) ⟨slice.1, slice.2, path⟩
      else (found.get? pair).getD [] := by
  induction sources generalizing found with
  | nil => simp
  | cons source rest ih =>
      obtain ⟨hnew, hnodup⟩ := List.nodup_cons.1 hnodup
      rw [List.foldl_cons, ih hnodup, extendSpan_get?]
      by_cases hsource : source = pair.1
      · have hout : pair.1 ∉ rest := hsource ▸ hnew
        simp [hsource, hout]
      · have hmem : pair.1 ∈ source :: rest ↔ pair.1 ∈ rest := by simp [Ne.symm hsource]
        simp only [hsource, if_false, hmem]

theorem deriveSlice_get? (links disputed : List LinkPeriod) (found : Spans) (slice : Int × Int) (pair : String × String) :
    ((deriveSlice links disputed found slice).get? pair).getD [] =
      (chainAt links disputed pair slice.1).elim ((found.get? pair).getD []) fun path =>
        Timeline.join ((found.get? pair).getD []) ⟨slice.1, slice.2, path⟩ := by
  unfold deriveSlice
  rw [foldl_extendSpan_get? _ _ _ _ ((Sorting.sortByKey_perm id _).nodup_iff.2 (IndexMap.keys_nodup _))]
  simp only [Sorting.mem_sortByKey, chainAt]
  split_ifs
  · rfl
  · rfl

theorem foldl_deriveSlice_get? (links disputed : List LinkPeriod) (pair : String × String) (found : List (Int × Int))
    (spans : Spans) :
    ((found.foldl (deriveSlice links disputed) spans).get? pair).getD [] =
      found.foldl (fun kept slice => (chainAt links disputed pair slice.1).elim kept fun path =>
        Timeline.join kept ⟨slice.1, slice.2, path⟩) ((spans.get? pair).getD []) := by
  induction found generalizing spans with
  | nil => rfl
  | cons slice rest ih => rw [List.foldl_cons, List.foldl_cons, ih, deriveSlice_get?]

theorem historySpans_get? (group : List LinkPeriod) (invalid : List String) (pair : String × String) :
    ((historySpans group invalid).get? pair).getD [] =
      Timeline.gather (fun slice => chainAt (validOf group invalid) (disputedOf group invalid) pair slice.1)
        (slicesOf (validOf group invalid ++ disputedOf group invalid)) :=
  foldl_deriveSlice_get? _ _ pair _ .empty

/-- What the spans of a pair of entities are. -/
structure SpansOf (links disputed : List LinkPeriod) (pair : String × String) (spans : List Span) : Prop where
  joined : Timeline.Joined spans
  chain : ∀ t path, Timeline.At spans t path ↔ t < lastTime ∧ chainAt links disputed pair t = some path
  start : ∀ span ∈ spans, span.start ∈ (datesOf (links ++ disputed)).keys
  stop : ∀ span ∈ spans, span.stop ∈ (datesOf (links ++ disputed)).keys ∨ span.stop = lastTime

theorem historySpans_spansOf (group : List LinkPeriod) (invalid : List String) (pair : String × String) :
    SpansOf (validOf group invalid) (disputedOf group invalid) pair (((historySpans group invalid).get? pair).getD []) := by
  rw [historySpans_get?]
  generalize hlinks : validOf group invalid = links
  generalize hdisputed : disputedOf group invalid = disputed
  have hsliced := slicesOf_sliced (links ++ disputed)
  obtain ⟨hjoined, hat⟩ := Timeline.gather_spec (fun slice => chainAt links disputed pair slice.1) hsliced.nonempty hsliced.apart
  refine ⟨hjoined, fun t path => ?_, fun span hspan => ?_, fun span hspan => ?_⟩
  · rw [hat]
    constructor
    · intro h
      obtain ⟨slice, hslice, hstart, hstop, hchain⟩ := h
      exact ⟨lt_of_lt_of_le hstop (slice_stop_le hslice), (chainAt_slice hslice hstart hstop pair) ▸ hchain⟩
    · intro h
      obtain ⟨hlast, hchain⟩ := h
      -- Some link holds at the instant, and the time is cut where it begins.
      have hkey : pair.1 ∈ (parentsAt links t).keys := by
        unfold chainAt at hchain
        split_ifs at hchain with hkey
        exact hkey
      obtain ⟨link, hlink, _, hfrom, _⟩ := mem_keys_parentsAt.1 hkey
      have hcut : link.start ∈ Sorting.distinct (datesOf (links ++ disputed)).keys :=
        Sorting.mem_distinct.2 (mem_keys_datesOf.2 ⟨⟨link, List.mem_append_left _ hlink, .inl rfl⟩, by omega⟩)
      obtain ⟨slice, hslice, hstart, hstop⟩ := hsliced.covers _ hcut t hfrom hlast
      exact ⟨slice, hslice, hstart, hstop, (chainAt_slice hslice hstart hstop pair).trans hchain⟩
  · obtain ⟨slice, hslice, heq⟩ := (Timeline.mem_gather hspan).1
    exact heq ▸ Sorting.mem_distinct.1 (hsliced.start slice hslice)
  · obtain ⟨slice, hslice, heq⟩ := (Timeline.mem_gather hspan).2
    exact heq ▸ (hsliced.stop slice hslice).imp_left Sorting.mem_distinct.1

end EdgarPlatform.Relationships
