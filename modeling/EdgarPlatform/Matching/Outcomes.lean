import EdgarPlatform.Matching.Landing

/-!
# What matching makes of a record

A record takes one turn, so it is bound once, sent to review once, or neither. A bind goes where the record's values point: to the one master that is left of those its values reach, or to a new one where they reach none. What the bind withholds are the values by which the record reached other masters, where a rule that takes the first match settled it.

A master is of the kind it is held under. A caller's holding is read after the stored ones and may name another kind than they do; where every holding gives a master one kind, a record is only bound to a master of its own.
-/

namespace EdgarPlatform.Matching

open Records (Env Object readText)

variable {env : Env} {input : PreparedInputs} {stored : Found} {s s' : Linking} {entry : String × List Match}

/-- The value is held by a master that is, or was merged into, this one. -/
def Reaches (s : Linking) (item : Match) (x : String) : Prop :=
  ∃ holder, Holds s.found item.key holder ∧ Forest.Climbs s.moved.get? holder x

def ReachesAs (s : Linking) (item : Match) (x kind : String) : Prop :=
  ∃ held, heldBy s.found s.moved item.key = some held ∧ held.get? x = some kind

variable {x : String}

theorem reaches_iff (hends : Forest.Ends s.moved.get?) {item : Match} :
    Reaches s item x ↔ ∃ holder, Holds s.found item.key holder ∧ resolve s.moved holder = x := by
  constructor
  · intro h
    obtain ⟨holder, hholds, hclimbs⟩ := h
    exact ⟨holder, hholds, resolve_of_climbs hclimbs⟩
  · intro h
    obtain ⟨holder, hholds, rfl⟩ := h
    exact ⟨holder, hholds, climbs_resolve hends holder⟩

theorem reaches_iff_held (hends : Forest.Ends s.moved.get?) {item : Match} :
    Reaches s item x ↔ ∃ held, heldBy s.found s.moved item.key = some held ∧ x ∈ held.keys := by
  rw [reaches_iff hends]
  constructor
  · intro h
    obtain ⟨holder, ⟨held, hget, hmem⟩, rfl⟩ := h
    have hheld : heldBy s.found s.moved item.key =
        some (.ofList (held.entries.map fun entry => (resolve s.moved entry.1, entry.2))) := by
      rw [heldBy, hget]
      rfl
    exact ⟨_, hheld, (mem_heldBy hheld).2 ⟨holder, ⟨held, hget, hmem⟩, rfl⟩⟩
  · intro h
    obtain ⟨held, hheld, hx⟩ := h
    exact (mem_heldBy hheld).1 hx

section Reach

variable {kind : String} {items : List Match} {x : String}

theorem mem_matched_iff (hends : Forest.Ends s.moved.get?) (hproblem : (reachAt input s kind items).problem = none)
    {item : Match} : item ∈ ((reachAt input s kind items).matched.get? x).getD [] ↔ item ∈ items ∧ Reaches s item x := by
  rw [reaches_iff_held hends]
  constructor
  · intro h
    obtain ⟨held, hmet⟩ := (reachAt_of input s kind items).sound x item h
    obtain ⟨hitem, holders, hholders, hget⟩ := mem_metAll.1 hmet
    exact ⟨hitem, holders, hholders, IndexMap.mem_keys_of_get? hget⟩
  · intro h
    obtain ⟨hitem, held, hheld, hx⟩ := h
    exact mem_matched_of_held hproblem hitem hheld hx

theorem mem_matched_keys_iff (hends : Forest.Ends s.moved.get?) (hproblem : (reachAt input s kind items).problem = none) :
    x ∈ (reachAt input s kind items).matched.keys ↔ ∃ item ∈ items, Reaches s item x := by
  constructor
  · intro h
    obtain ⟨matched, hmatched⟩ := IndexMap.mem_keys_iff.1 h
    obtain ⟨item, hitem⟩ := List.exists_mem_of_ne_nil matched fun hnil =>
      (reachAt_of input s kind items).nonempty x (hnil ▸ hmatched)
    have hmem : item ∈ ((reachAt input s kind items).matched.get? x).getD [] := by
      rw [hmatched]
      exact hitem
    exact ⟨item, (mem_matched_iff hends hproblem).1 hmem⟩
  · intro h
    obtain ⟨item, hitem, hreaches⟩ := h
    have hmem := (mem_matched_iff hends hproblem).2 ⟨hitem, hreaches⟩
    cases hget : (reachAt input s kind items).matched.get? x with
    | none =>
        rw [hget] at hmem
        simp at hmem
    | some matched => exact IndexMap.mem_keys_of_get? hget

theorem mem_merging_iff (hends : Forest.Ends s.moved.get?) (hproblem : (reachAt input s kind items).problem = none) :
    x ∈ (reachAt input s kind items).merging ↔ ∃ item ∈ items, merges item ∧ Reaches s item x := by
  constructor
  · intro h
    obtain ⟨item, hitem, hmerges⟩ := (reachAt_of input s kind items).merging x h
    obtain ⟨hmem, hreaches⟩ := (mem_matched_iff hends hproblem).1 hitem
    exact ⟨item, hmem, hmerges, hreaches⟩
  · intro h
    obtain ⟨item, hitem, hmerges, hreaches⟩ := h
    obtain ⟨held, hheld, hx⟩ := (reaches_iff_held hends).1 hreaches
    obtain ⟨k, hk⟩ := IndexMap.mem_keys_iff.1 hx
    have hmet : ⟨item, x, k⟩ ∈ metAll s.found s.moved items := mem_metAll.2 ⟨hitem, held, hheld, hk⟩
    exact ((reachAt_of input s kind items).complete hproblem _ hmet).2.2.2 hmerges

theorem reached_allowed (hends : Forest.Ends s.moved.get?) (hproblem : (reachAt input s kind items).problem = none)
    {item : Match} (hitem : item ∈ items) (h : Reaches s item x) :
    x ∉ input.suspended ∧ ∀ other ∈ items, ∀ k, ReachesAs s other x k → k = kind := by
  have hcomplete := (reachAt_of input s kind items).complete hproblem
  obtain ⟨held, hheld, hx⟩ := (reaches_iff_held hends).1 h
  obtain ⟨k, hk⟩ := IndexMap.mem_keys_iff.1 hx
  refine ⟨(hcomplete ⟨item, x, k⟩ (mem_metAll.2 ⟨hitem, held, hheld, hk⟩)).2.1, ?_⟩
  intro other hother k' hreaches
  obtain ⟨held', hheld', hk'⟩ := hreaches
  exact (hcomplete ⟨other, x, k'⟩ (mem_metAll.2 ⟨hother, held', hheld', hk'⟩)).1

end Reach

/-- The record's values reach several masters, no two of them by rules that merge, and this is the one master a rule that takes the first match reaches. -/
structure Settles (s : Linking) (items : List Match) (x : String) : Prop where
  several : ∃ y ≠ x, ∃ item ∈ items, Reaches s item y
  apart : ∀ item ∈ items, ∀ other ∈ items, merges item → merges other → ∀ y z, Reaches s item y → Reaches s other z → y = z
  reached : ∃ item ∈ items, isFirst item = true ∧ Reaches s item x
  alone : ∀ item ∈ items, isFirst item = true → ∀ y, Reaches s item y → y = x

theorem distinct_length_le_one {items : List String} :
    ¬1 < (Sorting.distinct items).length ↔ ∀ x ∈ items, ∀ y ∈ items, x = y := by
  rw [not_lt]
  constructor
  · intro h x hx y hy
    have hx := Sorting.mem_distinct.2 hx
    have hy := Sorting.mem_distinct.2 hy
    generalize Sorting.distinct items = distinct at h hx hy
    match distinct with
    | [] => simp at hx
    | [only] => rw [List.mem_singleton.1 hx, List.mem_singleton.1 hy]
    | _ :: _ :: _ => simp at h
  · intro h
    by_contra hlong
    have hnodup := Sorting.distinct_nodup items
    have hmem : ∀ x ∈ Sorting.distinct items, x ∈ items := fun x => Sorting.mem_distinct.1
    generalize Sorting.distinct items = distinct at hlong hnodup hmem
    match distinct with
    | [] => simp at hlong
    | [_] => simp at hlong
    | x :: y :: _ =>
        refine (List.nodup_cons.1 hnodup).1 ?_
        rw [h x (hmem x (by simp)) y (hmem y (by simp))]
        exact List.mem_cons_self

theorem mergers_eq_nil_iff {r : Reach} : r.mergers = [] ↔ ∀ x ∈ r.merging, ∀ y ∈ r.merging, x = y := by
  rw [← distinct_length_le_one, Reach.mergers_eq]
  split_ifs with h
  · refine ⟨fun hnil => ?_, fun hnot => absurd h hnot⟩
    rw [hnil] at h
    simp at h
  · exact ⟨fun _ => h, fun _ => rfl⟩

theorem one_lt_size_iff {matched : IndexMap String (List Match)} (hx : x ∈ matched.keys) :
    1 < matched.size ↔ ∃ y ≠ x, y ∈ matched.keys := by
  have hnodup : matched.keys.Nodup := matched.nodup
  rw [← IndexMap.length_keys]
  generalize matched.keys = keys at hx hnodup
  constructor
  · intro h
    match keys with
    | [] => simp at h
    | [_] => simp at h
    | y :: z :: _ =>
        by_cases hy : y = x
        · refine ⟨z, ?_, by simp⟩
          rintro rfl
          exact (List.nodup_cons.1 hnodup).1 (by simp [hy])
        · exact ⟨y, hy, by simp⟩
  · intro h
    obtain ⟨y, hne, hy⟩ := h
    match keys with
    | [] => simp at hx
    | [only] =>
        rw [List.mem_singleton.1 hx, List.mem_singleton.1 hy] at hne
        exact absurd rfl hne
    | _ :: _ :: _ => simp

theorem Reach.first_eq_some {r : Reach} :
    r.first = some x ↔ r.problem = none ∧ r.mergers = [] ∧ 1 < r.matched.size ∧
      ∃ items, r.matched.entries.filter (fun entry => entry.2.any isFirst) = [(x, items)] := by
  unfold Reach.first
  split_ifs with hcase
  · constructor
    · intro h
      split at h
      · next only honly =>
          cases h
          exact ⟨hcase.1, hcase.2.1, hcase.2.2, only.2, honly⟩
      · cases h
    · intro h
      obtain ⟨_, _, _, items, honly⟩ := h
      rw [honly]
  · exact ⟨fun h => absurd h (by simp), fun h => absurd ⟨h.1, h.2.1, h.2.2.1⟩ hcase⟩

/-- One entry of a map passes, the one of a key, when the key's value passes and no other key's does. -/
theorem filter_eq_singleton_iff {α : Type} {m : IndexMap String α} {p : α → Bool} :
    (∃ a, m.entries.filter (fun entry => p entry.2) = [(x, a)]) ↔
      (∃ a, m.get? x = some a ∧ p a = true) ∧ ∀ y a, m.get? y = some a → p a = true → y = x := by
  have hmem : ∀ y a, (y, a) ∈ m.entries.filter (fun entry => p entry.2) ↔ m.get? y = some a ∧ p a = true := by
    intro y a
    rw [List.mem_filter, IndexMap.get?_eq_some_iff]
  constructor
  · intro h
    obtain ⟨a, hfilter⟩ := h
    rw [hfilter] at hmem
    refine ⟨⟨a, (hmem x a).1 List.mem_cons_self⟩, fun y b hget hp => ?_⟩
    have hy := (hmem y b).2 ⟨hget, hp⟩
    exact congrArg Prod.fst (List.mem_singleton.1 hy)
  · intro h
    obtain ⟨⟨a, hget, hp⟩, hall⟩ := h
    refine ⟨a, ?_⟩
    have hnodup : ((m.entries.filter fun entry => p entry.2).map Prod.fst).Nodup :=
      m.nodup.sublist (List.filter_sublist.map Prod.fst)
    have hhere := (hmem x a).2 ⟨hget, hp⟩
    have hkeys : ∀ entry ∈ m.entries.filter (fun entry => p entry.2), entry.1 = x := by
      intro entry hentry
      obtain ⟨hentry', hp'⟩ := (hmem entry.1 entry.2).1 hentry
      exact hall entry.1 entry.2 hentry' hp'
    generalize m.entries.filter (fun entry => p entry.2) = entries at hnodup hhere hkeys
    match entries with
    | [] => simp at hhere
    | [only] => rw [List.mem_singleton.1 hhere]
    | first :: second :: _ =>
        refine absurd ?_ (List.nodup_cons.1 hnodup).1
        rw [hkeys first (by simp), ← hkeys second (by simp)]
        simp

theorem first_eq_some_iff {kind : String} {items : List Match} (hends : Forest.Ends s.moved.get?)
    (hproblem : (reachAt input s kind items).problem = none) :
    (reachAt input s kind items).first = some x ↔ Settles s items x := by
  have hfirst : ∀ y, (∃ matched, (reachAt input s kind items).matched.get? y = some matched ∧ matched.any isFirst = true) ↔
      ∃ item ∈ items, isFirst item = true ∧ Reaches s item y := by
    intro y
    constructor
    · intro h
      obtain ⟨matched, hget, hany⟩ := h
      obtain ⟨item, hitem, hf⟩ := List.any_eq_true.1 hany
      have hmem : item ∈ ((reachAt input s kind items).matched.get? y).getD [] := by
        rw [hget]
        exact hitem
      obtain ⟨hitem', hreaches⟩ := (mem_matched_iff hends hproblem).1 hmem
      exact ⟨item, hitem', hf, hreaches⟩
    · intro h
      obtain ⟨item, hitem, hf, hreaches⟩ := h
      have hmem := (mem_matched_iff hends hproblem).2 ⟨hitem, hreaches⟩
      cases hget : (reachAt input s kind items).matched.get? y with
      | none =>
          rw [hget] at hmem
          simp at hmem
      | some matched =>
          rw [hget] at hmem
          exact ⟨matched, rfl, List.any_eq_true.2 ⟨item, hmem, hf⟩⟩
  have honly : (∃ matched, (reachAt input s kind items).matched.entries.filter (fun entry => entry.2.any isFirst) = [(x, matched)]) ↔
      (∃ matched, (reachAt input s kind items).matched.get? x = some matched ∧ matched.any isFirst = true) ∧
        ∀ y matched, (reachAt input s kind items).matched.get? y = some matched → matched.any isFirst = true → y = x :=
    filter_eq_singleton_iff (p := fun matched : List Match => matched.any isFirst)
  rw [Reach.first_eq_some, honly, hfirst, mergers_eq_nil_iff]
  have hkeys : ∀ y, y ∈ (reachAt input s kind items).matched.keys ↔ ∃ item ∈ items, Reaches s item y :=
    fun y => mem_matched_keys_iff hends hproblem
  constructor
  · intro h
    obtain ⟨_, hapart, hsize, hreached, halone⟩ := h
    obtain ⟨first, hfirstMem, hisFirst, hreaches⟩ := hreached
    obtain ⟨y, hne, hy⟩ := (one_lt_size_iff ((hkeys x).2 ⟨first, hfirstMem, hreaches⟩)).1 hsize
    refine ⟨⟨y, hne, (hkeys y).1 hy⟩, ?_, ⟨first, hfirstMem, hisFirst, hreaches⟩, ?_⟩
    · intro item hitem other hother hmerges hmerges' y z hy hz
      exact hapart y ((mem_merging_iff hends hproblem).2 ⟨item, hitem, hmerges, hy⟩) z
        ((mem_merging_iff hends hproblem).2 ⟨other, hother, hmerges', hz⟩)
    · intro item hitem hf y hy
      obtain ⟨matched, hget, hany⟩ := (hfirst y).2 ⟨item, hitem, hf, hy⟩
      exact halone y matched hget hany
  · intro h
    obtain ⟨y, hne, hy⟩ := h.several
    obtain ⟨item, hitem, _, hreaches⟩ := h.reached
    refine ⟨hproblem, ?_, (one_lt_size_iff ((hkeys x).2 ⟨item, hitem, hreaches⟩)).2 ⟨y, hne, (hkeys y).2 hy⟩, h.reached, ?_⟩
    · intro y hy z hz
      obtain ⟨item, hitem, hmerges, hy⟩ := (mem_merging_iff hends hproblem).1 hy
      obtain ⟨other, hother, hmerges', hz⟩ := (mem_merging_iff hends hproblem).1 hz
      exact h.apart item hitem other hother hmerges hmerges' y z hy hz
    · intro y matched hget hany
      obtain ⟨item, hitem, hf, hy⟩ := (hfirst y).1 ⟨matched, hget, hany⟩
      exact h.alone item hitem hf y hy

def outcomes (result : Results) (subject : String) : Nat :=
  result.decisions.countP (fun body => readText body "operation" = .ok "bind" ∧ readText body "subject" = .ok subject) +
    result.reviews.countP fun body => readText body "subject" = .ok subject

theorem reviewBody_subject (record : Object) (subject : String) (problem : String × String) :
    readText (reviewBody record subject problem) "subject" = .ok subject :=
  readText_of_get? (by simp [reviewBody, IndexMap.get?_ofList_eq, IndexMap.lookupEntry])

theorem write_reviews (basis : Basis) (subject kind entity : String) (items : List Match) (selected : Match) (r : Reach) :
    (write env basis subject kind entity items selected r s).result.reviews = s.result.reviews := by
  have hmerges : ∀ (others : List String) (s : Linking),
      (others.foldl (mergeOther env basis entity) s).result.reviews = s.result.reviews := by
    intro others
    induction others with
    | nil => exact fun _ => rfl
    | cons other rest ih => exact fun s => ih (mergeOther env basis entity s other)
  have hholds : ∀ (items : List Match) (s : Linking),
      (items.foldl (holdItem (r.matched.size = 0) selected entity kind) s).result.reviews = s.result.reviews := by
    intro items
    induction items with
    | nil => exact fun _ => rfl
    | cons item rest ih =>
        intro s
        rw [List.foldl_cons, ih, holdItem]
        split_ifs <;> rfl
  unfold write bindRecord
  exact (hholds items _).trans (hmerges _ s)

theorem turn_reviews (h : turn env input stored s entry = .ok s') :
    (s'.result.decisions = s.result.decisions ∧ ∃ body, s'.result.reviews = s.result.reviews ++ [body] ∧
      readText body "subject" = .ok entry.1) ∨ s'.result.reviews = s.result.reviews := by
  unfold turn at h
  obtain ⟨record, _, h⟩ := Except.bind_eq_ok.1 h
  obtain ⟨kind, _, h⟩ := Except.bind_eq_ok.1 h
  cases hreview : (reach s.found s.moved input.suspended kind entry.2).review s.consolidations with
  | some problem =>
      simp only [hreview] at h
      cases h
      exact .inl ⟨rfl, _, rfl, reviewBody_subject record entry.1 problem⟩
  | none =>
      simp only [hreview] at h
      right
      obtain ⟨chosen, hchosen, h⟩ := Except.bind_eq_ok.1 h
      obtain ⟨rfl, _⟩ | ⟨t, entity, selected, rfl, hchose⟩ := choose_eq_ok hchosen
      · cases h
        rfl
      · have hkept : t.result.reviews = s.result.reviews := by
          cases hchose with
          | reached _ _ => rfl
          | created _ _ _ => rfl
        obtain ⟨ruleId, _, h⟩ := Except.bind_eq_ok.1 h
        obtain ⟨version, _, h⟩ := Except.bind_eq_ok.1 h
        by_cases hrefused : (entry.1, ruleId, version) ∈ input.refused
        · rw [if_pos hrefused] at h
          cases h
          exact hkept
        · rw [if_neg hrefused] at h
          obtain ⟨time, _, h⟩ := Except.bind_eq_ok.1 h
          obtain ⟨assertion, _, h⟩ := Except.bind_eq_ok.1 h
          cases h
          rw [write_reviews]
          exact hkept

theorem turn_outcomes (h : turn env input stored s entry = .ok s') (subject : String) :
    outcomes s'.result subject ≤ outcomes s.result subject + if subject = entry.1 then 1 else 0 := by
  have hone : ∀ body : Object, readText body "subject" = .ok entry.1 → readText body "subject" = .ok subject → subject = entry.1 :=
    fun body hown hsubject => Except.ok.inj (hsubject.symm.trans hown)
  obtain ⟨hdecisions, body, hreviews, hbody⟩ | hreviews := turn_reviews h
  · rw [outcomes, outcomes, hdecisions, hreviews, List.countP_append, List.countP_singleton]
    split_ifs with hsame hsubject
    · omega
    · exact absurd (hone body hbody (of_decide_eq_true hsame)) hsubject
    · omega
    · omega
  · rw [outcomes, outcomes, hreviews]
    cases turn_eq_ok h with
    | reviewed _ _ => exact Nat.le_add_right _ _
    | waited _ _ _ _ => exact Nat.le_add_right _ _
    | refused _ _ hchosen _ =>
        rw [hchosen.entity.2.2.2.1]
        exact Nat.le_add_right _ _
    | @bound kind entity t selected basis _ _ hchosen _ =>
        obtain ⟨added, hadded, hmerges⟩ := mergeOthers_decisions env basis entity (mergedAt input s kind entry.2 entity) t
        rw [mergedAt] at hadded
        have hnone : added.countP (fun body => readText body "operation" = .ok "bind" ∧ readText body "subject" = .ok subject) = 0 := by
          rw [List.countP_eq_zero]
          intro body hbody hbinds
          have hop := (hmerges body hbody).symm.trans (of_decide_eq_true hbinds).1
          exact absurd (Except.ok.inj hop) (by decide)
        rw [write_decisions, hadded, hchosen.entity.2.2.2.1, List.countP_append, List.countP_append, hnone, List.countP_singleton]
        split_ifs with hsame hsubject
        · omega
        · exact absurd (hone _ (bindBody_subject _ _ _ _ _) (of_decide_eq_true hsame).2) hsubject
        · omega
        · omega

variable {entries : List (String × List Match)}

theorem run_outcomes (hrun : entries.foldlM (turn env input stored) s = .ok s')
    (subject : String) : outcomes s'.result subject ≤ outcomes s.result subject + (entries.map Prod.fst).count subject := by
  refine Runs.run_invariant (fun front mid => outcomes mid.result subject ≤ outcomes s.result subject + (front.map Prod.fst).count subject)
    hrun (by simp) ?_
  intro front entry back mid next _ hmid hstep
  have hnext := turn_outcomes hstep subject
  rw [List.map_append, List.map_singleton, List.count_append, List.count_singleton]
  simp only [beq_iff_eq, eq_comm (a := entry.1)]
  omega

theorem bindBody_withholds_iff (digest : String → String) (basis : Basis) (subject entity : String)
    {withheld : List (String × String)} {value : String × String} :
    Withholds (withId digest (bindBody basis subject entity withheld)) value ↔ value ∈ withheld := by
  refine ⟨fun h => ?_, bindBody_withholds digest basis subject entity⟩
  obtain ⟨texts, hget, hmem⟩ := h
  by_cases hnil : withheld = []
  · simp [withId_get?, bindBody_get?, IndexMap.lookupEntry, withheldJson, hnil] at hget
  · have htexts : texts = withheld.map fun value => .obj [("namespace", .str value.1), ("raw", .str value.2)] := by
      simpa [withId_get?, bindBody_get?, IndexMap.lookupEntry, withheldJson, hnil, eq_comm] using hget
    rw [htexts] at hmem
    obtain ⟨other, hother, heq⟩ := List.mem_map.1 hmem
    have hsame : other = value := by
      simp only [Records.Json.obj.injEq, List.cons.injEq, Prod.mk.injEq, Records.Json.str.injEq, true_and, and_true] at heq
      exact Prod.ext heq.1 heq.2
    exact hsame ▸ hother

/-- A bind made on a record's turn: where it goes, and what it withholds. -/
structure BoundAt (input : PreparedInputs) (before next : Linking) (entry : String × List Match) (kind : String) (body : Object)
    (entity : String) : Prop where
  subject : readText body "subject" = .ok entry.1
  hasKind : HasKind input entry.1 kind
  /-- Its master is one its values reach, not suspended and held under the record's kind, or a new one where they reach none. -/
  goes : ((∃ item ∈ entry.2, Reaches before item entity) ∧ entity ∉ input.suspended ∧
      ∀ item ∈ entry.2, ∀ k, ReachesAs before item entity k → k = kind) ∨
    (∀ item ∈ entry.2, ∀ x, ¬Reaches before item x) ∧ before.ids = entity :: next.ids ∧
      ∃ floor, next.result.identities = before.result.identities ++ [identityBody entity kind floor]
  withheld : ∀ value, Withholds body value ↔ Settles before entry.2 entity ∧
    ∃ item ∈ entry.2, (item.idNamespace, item.raw) = value ∧ ∃ x ≠ entity, Reaches before item x

theorem Chosen.withholds_iff {kind entity : String} {items : List Match} {t : Linking} {selected : Match} {c : Consolidations}
    (hends : Forest.Ends s.moved.get?) (hreview : (reachAt input s kind items).review c = none)
    (h : Chosen input stored s kind items (reachAt input s kind items) t entity selected) (value : String × String) :
    value ∈ (reachAt input s kind items).withheld entity ↔ Settles s items entity ∧
      ∃ item ∈ items, (item.idNamespace, item.raw) = value ∧ ∃ x ≠ entity, Reaches s item x := by
  have hproblem := (Reach.review_eq_none.1 hreview).1
  have hsettled : (reachAt input s kind items).first ≠ none ↔ (reachAt input s kind items).first = some entity := by
    constructor
    · intro hsome
      obtain ⟨settled, hfirst⟩ := Option.ne_none_iff_exists'.1 hsome
      have htarget := h.entity_matched (Reach.first_matched hfirst)
      rw [Reach.target, hfirst] at htarget
      exact hfirst.trans htarget
    · intro hfirst hnone
      rw [hfirst] at hnone
      cases hnone
  rw [Reach.mem_withheld, hsettled, first_eq_some_iff hends hproblem]
  refine and_congr_right fun _ => ?_
  constructor
  · intro h
    obtain ⟨x, matched, hget, hne, item, hitem, hvalue⟩ := h
    have hmem : item ∈ ((reachAt input s kind items).matched.get? x).getD [] := by
      rw [hget]
      exact hitem
    obtain ⟨hitem', hreaches⟩ := (mem_matched_iff hends hproblem).1 hmem
    exact ⟨item, hitem', hvalue, x, hne, hreaches⟩
  · intro h
    obtain ⟨item, hitem, hvalue, x, hne, hreaches⟩ := h
    have hmem := (mem_matched_iff hends hproblem).2 ⟨hitem, hreaches⟩
    cases hget : (reachAt input s kind items).matched.get? x with
    | none =>
        rw [hget] at hmem
        simp at hmem
    | some matched =>
        rw [hget] at hmem
        exact ⟨x, matched, hget, hne, item, hmem, hvalue⟩

theorem Turned.boundAt (hends : Forest.Ends s.moved.get?) (h : Turned env input stored s entry s') {body : Object}
    (hbody : body ∈ s'.result.decisions) {entity : String} (hbinds : BindsTo body entity) :
    body ∈ s.result.decisions ∨ ∃ kind, BoundAt input s s' entry kind body entity := by
  cases h with
  | reviewed _ _ => exact .inl hbody
  | waited _ _ _ _ => exact .inl hbody
  | refused _ _ hchosen _ =>
      rw [hchosen.entity.2.2.2.1] at hbody
      exact .inl hbody
  | @bound kind own t selected basis hkind hreview hchosen _ =>
      obtain ⟨_, _, _, hdecisions, hentity⟩ := hchosen.entity
      have hproblem := (Reach.review_eq_none.1 hreview).1
      obtain ⟨added, hadded, hmerges⟩ := mergeOthers_decisions env basis own (mergedAt input s kind entry.2 own) t
      rw [mergedAt] at hadded
      rw [write_decisions, hadded, hdecisions] at hbody
      rcases List.mem_append.1 hbody with hbody | hlast
      · rcases List.mem_append.1 hbody with hold | hmerge
        · exact .inl hold
        · have hop := (hmerges body hmerge).symm.trans hbinds.1
          exact absurd (Except.ok.inj hop) (by decide)
      · right
        obtain rfl := List.mem_singleton.1 hlast
        have hown := Except.ok.inj ((bindBody_bindsTo env.digest basis entry.1 own _).2.symm.trans hbinds.2)
        subst hown
        refine ⟨kind, bindBody_subject _ _ _ _ _, hkind, ?_, fun value => ?_⟩
        · rcases hentity with ⟨hmatched, _, _⟩ | ⟨hsize, hids, floor, hidentities⟩
          · obtain ⟨item, hitem, hreaches⟩ := (mem_matched_keys_iff hends hproblem).1 hmatched
            obtain ⟨hallowed, hheld⟩ := reached_allowed hends hproblem hitem hreaches
            exact .inl ⟨⟨item, hitem, hreaches⟩, hallowed, hheld⟩
          · refine .inr ⟨fun item hitem x hreaches => ?_, ?_, floor, ?_⟩
            · exact IndexMap.not_mem_keys_of_size hsize x ((mem_matched_keys_iff hends hproblem).2 ⟨item, hitem, hreaches⟩)
            · rw [write_ids]
              exact hids
            · rw [write_identities]
              exact hidentities
        · rw [bindBody_withholds_iff]
          exact hchosen.withholds_iff hends hreview value

theorem Turned.ends (h : Turned env input stored s entry s') (hends : Forest.Ends s.moved.get?) : Forest.Ends s'.moved.get? := by
  cases h with
  | reviewed _ _ => exact hends
  | waited _ _ _ _ => exact hends
  | refused _ _ hchosen _ =>
      rw [hchosen.entity.2.1]
      exact hends
  | @bound kind entity t selected basis _ _ hchosen _ =>
      obtain ⟨hgather, hroots, hentity, hnot⟩ := hchosen.gathered env basis entry.1 hends
      exact fun x => ⟨_, climbs_gathered hends hgather hroots hentity hnot x⟩

/-- Every stored and every caller's holding gives a master the kind it has. -/
def OneKind (input : PreparedInputs) (kindOf : String → String) : Prop :=
  ∀ holder ∈ input.found ++ input.plan.callerHolders, ∀ x k, holder.records.get? x = some k → k = kindOf x

/-- The masters of a batch have one kind each: the kind they are held under, created with and bound to, and merges keep to it. -/
structure Kinded (input : PreparedInputs) (kindOf : String → String) (s : Linking) : Prop where
  held : ∀ key held x k, s.found.get? key = some held → held.get? x = some k → k = kindOf x
  moved : ∀ x y, s.moved.get? x = some y → kindOf x = kindOf y
  created : ∀ body ∈ s.result.identities, ∃ x, readText body "entity_id" = .ok x ∧ readText body "kind" = .ok (kindOf x) ∧ x ∉ s.ids
  bound : ∀ body ∈ s.result.decisions, ∀ x, BindsTo body x →
    ∃ subject, readText body "subject" = .ok subject ∧ HasKind input subject (kindOf x)
  unmoved : ∀ x ∈ s.ids, s.moved.get? x = none

variable {kindOf kindOf' : String → String} {kind entity : String} {t : Linking} {selected : Match} {items : List Match}

theorem mem_of_get?_ofList {entries : List (String × String)} {x k : String} (h : (IndexMap.ofList entries).get? x = some k) :
    (x, k) ∈ entries := by
  refine (IndexMap.get?_extend_cases h).resolve_right fun hempty => ?_
  cases hempty

theorem identityBody_kind (entity kind floor : String) : readText (identityBody entity kind floor) "kind" = .ok kind :=
  readText_of_get? (by simp [identityBody, IndexMap.get?_ofList_eq, IndexMap.lookupEntry])

theorem Kinded.congr (h : Kinded input kindOf s) (hfresh : Fresh s) (hsame : ∀ x ∉ s.ids, kindOf' x = kindOf x) :
    Kinded input kindOf' s where
  held := by
    intro key held x k hget hk
    have hknown : Known s x := .inl ⟨key, held, hget, IndexMap.mem_keys_of_get? hk⟩
    rw [hsame x fun hx => hfresh.2 x hx (.inl hknown)]
    exact h.held key held x k hget hk
  moved := by
    intro x y hxy
    have hx : x ∉ s.ids := fun hx => by simp [h.unmoved x hx] at hxy
    have hy : y ∉ s.ids := fun hy => hfresh.2 y hy (.inl (.inr ⟨x, hxy⟩))
    rw [hsame x hx, hsame y hy]
    exact h.moved x y hxy
  created := by
    intro body hbody
    obtain ⟨x, hx, hk, hnot⟩ := h.created body hbody
    exact ⟨x, hx, (hsame x hnot).symm ▸ hk, hnot⟩
  bound := by
    intro body hbody x hbinds
    rw [hsame x fun hx => hfresh.2 x hx (.inr ⟨body, hbody, hbinds⟩)]
    exact h.bound body hbody x hbinds
  unmoved := h.unmoved

theorem Kinded.climbs (h : Kinded input kindOf s) {x y : String} (hclimbs : Forest.Climbs s.moved.get? x y) : kindOf x = kindOf y := by
  induction hclimbs with
  | stop _ => rfl
  | step hnext _ ih => exact (h.moved _ _ hnext).trans ih

theorem Kinded.matched (h : Kinded input kindOf s) (hends : Forest.Ends s.moved.get?)
    (hproblem : (reachAt input s kind items).problem = none) (hx : x ∈ (reachAt input s kind items).matched.keys) :
    kindOf x = kind := by
  obtain ⟨item, hitem, hreaches⟩ := (mem_matched_keys_iff hends hproblem).1 hx
  obtain ⟨held, hheld, hmem⟩ := (reaches_iff_held hends).1 hreaches
  obtain ⟨k, hk⟩ := IndexMap.mem_keys_iff.1 hmem
  rw [← (reached_allowed hends hproblem hitem hreaches).2 item hitem k ⟨held, hheld, hk⟩]
  rw [heldBy] at hheld
  obtain ⟨holders, hget, rfl⟩ := Option.map_eq_some_iff.1 hheld
  obtain ⟨holding, hholding, heq⟩ := List.mem_map.1 (mem_of_get?_ofList hk)
  cases heq
  have hkind := h.held item.key holders holding.1 holding.2 hget (IndexMap.get?_eq_some_iff.2 hholding)
  rw [hkind]
  exact (h.climbs (climbs_resolve hends holding.1)).symm

theorem Kinded.chosen (h : Kinded input kindOf s) (hnodup : s.ids.Nodup)
    (hchosen : Chosen input stored s kind items (reachAt input s kind items) t entity selected) (hentity : kindOf entity = kind) :
    Kinded input kindOf t := by
  obtain ⟨hfound, hmoved, _, hdecisions, hcases⟩ := hchosen.entity
  have hids : ∀ x ∈ t.ids, x ∈ s.ids := by
    intro x hx
    rcases hcases with ⟨_, hsame, _⟩ | ⟨_, htaken, _⟩
    · exact hsame ▸ hx
    · rw [htaken]
      exact List.mem_cons_of_mem _ hx
  refine ⟨hfound ▸ h.held, hmoved ▸ h.moved, ?_, hdecisions ▸ h.bound, fun x hx => hmoved ▸ h.unmoved x (hids x hx)⟩
  intro body hbody
  rcases hcases with ⟨_, hsame, hidentities⟩ | ⟨_, htaken, floor, hidentities⟩
  · rw [hidentities] at hbody
    rw [hsame]
    exact h.created body hbody
  · rw [hidentities] at hbody
    rcases List.mem_append.1 hbody with hold | hnew
    · obtain ⟨x, hx, hk, hnot⟩ := h.created body hold
      exact ⟨x, hx, hk, fun hx => hnot (hids x hx)⟩
    · obtain rfl := List.mem_singleton.1 hnew
      rw [htaken] at hnodup
      exact ⟨entity, identityBody_entity _ _ _, hentity ▸ identityBody_kind _ _ _, (List.nodup_cons.1 hnodup).1⟩

theorem Kinded.write (h : Kinded input kindOf t) (basis : Basis) {subject : String} (hsubject : HasKind input subject kind) {r : Reach}
    (hentity : kindOf entity = kind) (hmergers : ∀ x ∈ r.mergers, kindOf x = kind ∧ x ∉ t.ids) :
    Kinded input kindOf (write env basis subject kind entity items selected r t) := by
  refine ⟨?_, ?_, ?_, ?_, ?_⟩
  · intro key held x k hget hk
    obtain ⟨hkept, hgiven, hnever⟩ := write_found env basis subject kind entity items selected r t key
    by_cases hheld : t.found.get? key = none
    · by_cases hgives : Gives (r.matched.size = 0) selected items key
      · rw [hgiven hheld hgives] at hget
        cases hget
        have hmem := mem_of_get?_ofList hk
        cases List.mem_singleton.1 hmem
        exact hentity.symm
      · rw [hnever hheld hgives] at hget
        cases hget
    · rw [hkept hheld] at hget
      exact h.held key held x k hget hk
  · intro x y hxy
    rw [write_moved] at hxy
    split_ifs at hxy with hmerged
    · cases hxy
      exact (hmergers x hmerged.1).1.trans hentity.symm
    · exact h.moved x y hxy
  · rw [write_identities, write_ids]
    exact h.created
  · intro body hbody x hbinds
    obtain ⟨added, hadded, hmerges⟩ := mergeOthers_decisions env basis entity (r.mergers.filter (· ≠ entity)) t
    rw [write_decisions, hadded] at hbody
    rcases List.mem_append.1 hbody with hbody | hlast
    · rcases List.mem_append.1 hbody with hold | hmerge
      · exact h.bound body hold x hbinds
      · have hop := (hmerges body hmerge).symm.trans hbinds.1
        exact absurd (Except.ok.inj hop) (by decide)
    · obtain rfl := List.mem_singleton.1 hlast
      have hx := Except.ok.inj ((bindBody_bindsTo env.digest basis subject entity _).2.symm.trans hbinds.2)
      subst hx
      exact ⟨subject, bindBody_subject _ _ _ _ _, hentity.symm ▸ hsubject⟩
  · intro x hx
    rw [write_ids] at hx
    rw [write_moved]
    split_ifs with hmerged
    · exact absurd hx (hmergers x hmerged.1).2
    · exact h.unmoved x hx

theorem Turned.kinded (h : Turned env input stored s entry s') (hkinded : Kinded input kindOf s) (hends : Forest.Ends s.moved.get?)
    (hfresh : Fresh s) : ∃ kindOf', (∀ x ∉ s.ids, kindOf' x = kindOf x) ∧ Kinded input kindOf' s' := by
  have hkinds : ∀ {kind : String} {t : Linking} {entity : String} {selected : Match},
      (reachAt input s kind entry.2).problem = none →
      Chosen input stored s kind entry.2 (reachAt input s kind entry.2) t entity selected →
      ∃ kindOf', (∀ x ∉ s.ids, kindOf' x = kindOf x) ∧ kindOf' entity = kind ∧ Kinded input kindOf' s := by
    intro kind t entity selected hproblem hchosen
    rcases hchosen.entity.2.2.2.2 with ⟨hmatched, _, _⟩ | ⟨_, htaken, _⟩
    · exact ⟨kindOf, fun _ _ => rfl, hkinded.matched hends hproblem hmatched, hkinded⟩
    · have hsame : ∀ x ∉ s.ids, Function.update kindOf entity kind x = kindOf x := by
        intro x hx
        rw [Function.update_of_ne]
        rintro rfl
        exact hx (htaken ▸ List.mem_cons_self)
      exact ⟨Function.update kindOf entity kind, hsame, Function.update_self _ _ _, hkinded.congr hfresh hsame⟩
  cases h with
  | reviewed _ _ => exact ⟨kindOf, fun _ _ => rfl, ⟨hkinded.held, hkinded.moved, hkinded.created, hkinded.bound, hkinded.unmoved⟩⟩
  | waited _ _ _ _ => exact ⟨kindOf, fun _ _ => rfl, hkinded⟩
  | refused _ hreview hchosen _ =>
      obtain ⟨kindOf', hsame, hentity, hkinded'⟩ := hkinds (Reach.review_eq_none.1 hreview).1 hchosen
      exact ⟨kindOf', hsame, hkinded'.chosen hfresh.1 hchosen hentity⟩
  | @bound kind entity t selected basis hkind hreview hchosen _ =>
      have hproblem := (Reach.review_eq_none.1 hreview).1
      obtain ⟨kindOf', hsame, hentity, hkinded'⟩ := hkinds hproblem hchosen
      refine ⟨kindOf', hsame, (hkinded'.chosen hfresh.1 hchosen hentity).write basis hkind hentity fun x hx => ?_⟩
      have hmatched := (reachAt_of input s kind entry.2).mergers_matched hx
      refine ⟨hkinded'.matched hends hproblem hmatched, fun hids => ?_⟩
      refine hfresh.2 x ?_ (.inl (known_of_matched hmatched))
      rcases hchosen.entity.2.2.2.2 with ⟨_, hsame, _⟩ | ⟨_, htaken, _⟩
      · exact hsame ▸ hids
      · rw [htaken]
        exact List.mem_cons_of_mem _ hids

theorem holdAll_given {holders : List Holder} {found : Found} {key : String × String} {held : IndexMap String String} {x k : String}
    (hget : (holders.foldl hold found).get? key = some held) (hk : held.get? x = some k) :
    (∃ before, found.get? key = some before ∧ before.get? x = some k) ∨ ∃ holder ∈ holders, holder.records.get? x = some k := by
  induction holders generalizing found with
  | nil => exact .inl ⟨held, hget, hk⟩
  | cons holder rest ih =>
      obtain ⟨before, hbefore, hk⟩ | ⟨other, hother, hk⟩ := ih hget
      · rw [hold, IndexMap.get?_insert] at hbefore
        split_ifs at hbefore with hkey
        · cases hbefore
          obtain hentry | hold := IndexMap.get?_extend_cases hk
          · exact .inr ⟨holder, List.mem_cons_self, IndexMap.get?_eq_some_iff.2 hentry⟩
          · subst hkey
            cases hfound : found.get? holder.key with
            | none =>
                rw [hfound] at hold
                cases hold
            | some before =>
                rw [hfound] at hold
                exact .inl ⟨before, rfl, hold⟩
        · exact .inl ⟨before, hbefore, hk⟩
      · exact .inr ⟨other, List.mem_cons_of_mem _ hother, hk⟩

theorem start_kinded (c : Consolidations) (h : OneKind input kindOf) : Kinded input kindOf (start input c) where
  held := by
    intro key held x k hget hk
    rw [start_found] at hget
    obtain ⟨before, hbefore, _⟩ | ⟨holder, hholder, hk⟩ := holdAll_given hget hk
    · cases hbefore
    · exact h holder hholder x k hk
  moved := by
    intro x y hxy
    cases hxy
  created := by
    intro body hbody
    cases hbody
  bound := by
    intro body hbody
    cases hbody
  unmoved := fun _ _ => rfl

theorem run_ends (hrun : entries.foldlM (turn env input stored) s = .ok s')
    (hends : Forest.Ends s.moved.get?) : Forest.Ends s'.moved.get? :=
  Runs.run_invariant (fun _ mid => Forest.Ends mid.moved.get?) hrun hends
    fun _ _ _ _ _ _ hmid hstep => (turn_eq_ok hstep).ends hmid

theorem run_ids (hrun : entries.foldlM (turn env input stored) s = .ok s') :
    ∀ x ∈ s'.ids, x ∈ s.ids := by
  refine Runs.run_invariant (fun _ mid => ∀ x ∈ mid.ids, x ∈ s.ids) hrun (fun _ hx => hx) ?_
  intro front entry back mid next _ hmid hstep x hx
  rcases (turn_eq_ok hstep).seen.1 with hsame | ⟨entity, htaken⟩
  · exact hmid x (hsame ▸ hx)
  · refine hmid x ?_
    rw [htaken]
    exact List.mem_cons_of_mem _ hx

theorem run_boundAt {c : Consolidations} (hc : Consolidations.read input.consolidations = .ok c)
    (hrun : (batchOrder input).foldlM (turn env input (storedFound input)) (start input c) = .ok s) {body : Object}
    (hbody : body ∈ s.result.decisions) {entity : String} (hbinds : BindsTo body entity) :
    ∃ front entry back before next kind, batchOrder input = front ++ entry :: back ∧ after env input front = .ok before ∧
      turn env input (storedFound input) before entry = .ok next ∧ BoundAt input before next entry kind body entity := by
  have hstart : Forest.Ends (start input c).moved.get? := fun x => ⟨x, .stop rfl⟩
  have hall := Runs.run_invariant
    (fun front mid => front.foldlM (turn env input (storedFound input)) (start input c) = .ok mid ∧
      ∀ body ∈ mid.result.decisions, BindsTo body entity →
        ∃ front entry back before next kind, batchOrder input = front ++ entry :: back ∧ after env input front = .ok before ∧
          turn env input (storedFound input) before entry = .ok next ∧ BoundAt input before next entry kind body entity)
    hrun ⟨rfl, fun body hbody => by cases hbody⟩ ?_
  · exact hall.2 body hbody hbinds
  · intro front entry back mid next hsplit hmid hstep
    obtain ⟨hfront, hmade⟩ := hmid
    refine ⟨Runs.foldlM_append_eq_ok.2 ⟨mid, hfront, Runs.foldlM_cons_eq_ok.2 ⟨next, hstep, rfl⟩⟩, ?_⟩
    intro body hbody hbinds
    rcases (turn_eq_ok hstep).boundAt (run_ends hfront hstart) hbody hbinds with hold | ⟨kind, hbound⟩
    · exact hmade body hold hbinds
    · exact ⟨front, entry, back, mid, next, kind, hsplit, (after_eq_ok hc).2 hfront, hstep, hbound⟩

theorem run_kinded {c : Consolidations} (hnew : NewIds input) (hkinds : OneKind input kindOf)
    (hrun : entries.foldlM (turn env input stored) (start input c) = .ok s) :
    ∃ kinds : String → String, OneKind input kinds ∧ Kinded input kinds s := by
  have hall := Runs.run_invariant
    (fun front mid => Forest.Ends mid.moved.get? ∧ Fresh mid ∧ (∀ x ∈ mid.ids, x ∈ input.newIds) ∧
      ∃ kinds : String → String, (∀ x ∉ input.newIds, kinds x = kindOf x) ∧ Kinded input kinds mid)
    hrun ⟨fun x => ⟨x, .stop rfl⟩, start_fresh c hnew, fun _ hx => hx, kindOf, fun _ _ => rfl, start_kinded c hkinds⟩ ?_
  · obtain ⟨_, _, _, kinds, hsame, hkinded⟩ := hall
    refine ⟨kinds, fun holder hholder x k hk => ?_, hkinded⟩
    rw [hsame x fun hx => hnew.2 x hx ⟨holder, hholder, IndexMap.mem_keys_of_get? hk⟩]
    exact hkinds holder hholder x k hk
  · intro front entry back mid next _ hmid hstep
    obtain ⟨hends, hfresh, hids, kinds, hsame, hkinded⟩ := hmid
    have hturned := turn_eq_ok hstep
    obtain ⟨kinds', hsame', hkinded'⟩ := hturned.kinded hkinded hends hfresh
    refine ⟨hturned.ends hends, hfresh.turned hturned, fun x hx => ?_, kinds', fun x hx => ?_, hkinded'⟩
    · rcases hturned.seen.1 with hkept | ⟨entity, htaken⟩
      · exact hids x (hkept ▸ hx)
      · refine hids x ?_
        rw [htaken]
        exact List.mem_cons_of_mem _ hx
    · exact (hsame' x fun hmem => hx (hids x hmem)).trans (hsame x hx)

/-- **What matching makes of a record.** A record has one outcome at most. A bind goes to the one master that is left of those the record's values reach, or to a new one where they reach none, and withholds exactly the values that reach other masters where a rule that takes the first match settles the record. Where every holding gives a master one kind, so does the batch, and a record is bound to masters of its own kind only. -/
theorem record_outcomes (env : Env) (input : PreparedInputs) (s : Linking) (h : link env input = .ok s) :
    (∀ subject, outcomes s.result subject ≤ 1) ∧
    (∀ body ∈ s.result.decisions, ∀ entity, BindsTo body entity →
      ∃ front entry back before next kind, batchOrder input = front ++ entry :: back ∧ after env input front = .ok before ∧
        turn env input (storedFound input) before entry = .ok next ∧ BoundAt input before next entry kind body entity) ∧
    ((∀ x ∈ input.newIds, x ∉ input.suspended) → ∀ body ∈ s.result.decisions, ∀ entity, BindsTo body entity →
      entity ∉ input.suspended) ∧
    (NewIds input → ∀ kindOf, OneKind input kindOf → ∃ kinds : String → String, OneKind input kinds ∧
      (∀ body ∈ s.result.identities, ∃ x, readText body "entity_id" = .ok x ∧ readText body "kind" = .ok (kinds x)) ∧
      ∀ body ∈ s.result.decisions, ∀ entity, BindsTo body entity →
        ∃ subject, readText body "subject" = .ok subject ∧ HasKind input subject (kinds entity)) := by
  rw [link_eq_after] at h
  obtain ⟨c, hc, hrun⟩ := Except.bind_eq_ok.1 h
  refine ⟨fun subject => ?_, fun body hbody entity hbinds => run_boundAt hc hrun hbody hbinds, ?_, ?_⟩
  · have hcount := run_outcomes hrun subject
    have hstart : outcomes (start input c).result subject = 0 := rfl
    have hnodup : ((batchOrder input).map Prod.fst).Nodup :=
      (((Sorting.sortByKey_perm _ input.plan.applicable.entries).map Prod.fst).nodup_iff).2 input.plan.applicable.nodup
    exact hcount.trans (by rw [hstart, Nat.zero_add]; exact List.nodup_iff_count_le_one.1 hnodup subject)
  · intro hsuspended body hbody entity hbinds
    obtain ⟨front, entry, back, before, next, kind, _, hbefore, _, hbound⟩ := run_boundAt hc hrun hbody hbinds
    rcases hbound.goes with ⟨_, hallowed, _⟩ | ⟨_, hids, _⟩
    · exact hallowed
    · refine hsuspended entity (run_ids ((after_eq_ok hc).1 hbefore) entity ?_)
      rw [hids]
      exact List.mem_cons_self
  · intro hnew kindOf hkinds
    obtain ⟨kinds, hsame, hkinded⟩ := run_kinded hnew hkinds hrun
    refine ⟨kinds, hsame, fun body hbody => ?_, hkinded.bound⟩
    obtain ⟨x, hx, hk, _⟩ := hkinded.created body hbody
    exact ⟨x, hx, hk⟩

/-- Two filers whose value a stored company holds. -/
theorem record_outcomes_filers :
    ∃ s, link env2026 (filersBatch [⟨"lei", "5493", .ofList [("e1", "company")]⟩] []) = .ok s ∧ s.result.decisions.length = 2 ∧
      (∀ subject, outcomes s.result subject ≤ 1) ∧
      ∃ kinds : String → String, kinds "e1" = "company" ∧ ∀ body ∈ s.result.decisions, ∀ entity, BindsTo body entity →
        ∃ subject, readText body "subject" = .ok subject ∧
          HasKind (filersBatch [⟨"lei", "5493", .ofList [("e1", "company")]⟩] []) subject (kinds entity) := by
  have hrun : ∃ s, link env2026 (filersBatch [⟨"lei", "5493", .ofList [("e1", "company")]⟩] []) = .ok s ∧
      decide (s.result.decisions.length = 2) = true :=
    Except.exists_of_any (by decide +kernel)
  obtain ⟨s, hs, hlength⟩ := hrun
  obtain ⟨honce, _, _, hkinds⟩ := record_outcomes env2026 _ s hs
  have hgiven : ∀ holder ∈ [(⟨"lei", "5493", .ofList [("e1", "company")]⟩ : Holder)], ∀ x k, holder.records.get? x = some k →
      x = "e1" ∧ k = "company" := by
    intro holder hholder x k hk
    rw [List.mem_singleton.1 hholder] at hk
    have hmem := mem_of_get?_ofList hk
    cases List.mem_singleton.1 hmem
    exact ⟨rfl, rfl⟩
  have hnew : NewIds (filersBatch [⟨"lei", "5493", .ofList [("e1", "company")]⟩] []) := by
    refine ⟨by decide, fun x hx hnamed => ?_⟩
    obtain ⟨holder, hholder, hmem⟩ := hnamed
    obtain ⟨k, hk⟩ := IndexMap.mem_keys_iff.1 hmem
    obtain ⟨rfl, _⟩ := hgiven holder hholder x k hk
    revert hx
    decide
  obtain ⟨kinds, hone, _, hbound⟩ := hkinds hnew (fun _ => "company") fun holder hholder x k hk => (hgiven holder hholder x k hk).2
  refine ⟨s, hs, of_decide_eq_true hlength, honce, kinds, ?_, hbound⟩
  exact (hone _ List.mem_cons_self "e1" "company" (by decide)).symm

/-- A stored person's value that a caller gives it as a company. -/
def heldTwice : PreparedInputs :=
  { filersBatch [⟨"lei", "5493", .ofList [("e1", "person")]⟩] [] with
    plan := { (filersBatch [] []).plan with callerHolders := [⟨"lei", "5493", .ofList [("e1", "company")]⟩] } }

/-- The caller's holding is read last, and a company's record is bound to the master stored as a person. -/
theorem stored_person_bound_as_company :
    ∃ s, link env2026 heldTwice = .ok s ∧ (∃ body ∈ s.result.decisions, BindsTo body "e1" ∧ readText body "subject" = .ok "s1") ∧
      HasKind heldTwice "s1" "company" ∧ ∃ holder ∈ heldTwice.found, holder.records.get? "e1" = some "person" := by
  have hrun : ∃ s, link env2026 heldTwice = .ok s ∧ decide (∃ body ∈ s.result.decisions,
      (readText body "operation" = .ok "bind" ∧ readText body "entity_id" = .ok "e1") ∧ readText body "subject" = .ok "s1") = true :=
    Except.exists_of_any (by decide +kernel)
  obtain ⟨s, hs, hcheck⟩ := hrun
  obtain ⟨body, hbody, hbinds, hsubject⟩ := of_decide_eq_true hcheck
  exact ⟨s, hs, ⟨body, hbody, hbinds, hsubject⟩, ⟨companyRecord "a1", by decide, by decide⟩, _, List.mem_cons_self, by decide⟩

end EdgarPlatform.Matching
