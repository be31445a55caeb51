import EdgarPlatform.Cascade.Places

/-!
# What the cascade binds

What one pass adds to what is found is described for every state of the passes before it, and the runs follow by induction. The pairs found are those of the rounds of a pairing, so no filer and no entity is bound twice. Nothing of the result depends on the order of the two sources or on the order in which a set is iterated.
-/

namespace EdgarPlatform.Cascade

variable {setting : Setting} {filers : List Filer} {entities : List Entity}

theorem byId_eq {α : Type} {id : α → String} {rows : List α} (h : (rows.map id).Nodup) : byId id rows = rows := by
  have hkeys : ((rows.map fun row => (id row, row)).map Prod.fst).Nodup := by
    rw [List.map_map]
    exact h
  rw [byId, IndexMap.values, IndexMap.ofList, IndexMap.entries_extend (by simpa using hkeys), List.map_append, List.map_map]
  exact List.map_id rows

theorem countP_eq_one_iff {α : Type} {p : α → Bool} {l : List α} {a : α} (hnodup : l.Nodup) (ha : a ∈ l) (hp : p a = true) :
    l.countP p = 1 ↔ ∀ b ∈ l, p b = true → b = a := by
  have hmem : a ∈ l.filter p := List.mem_filter.2 ⟨ha, hp⟩
  rw [List.countP_eq_length_filter]
  constructor
  · intro h b hb hpb
    obtain ⟨c, hc⟩ := List.length_eq_one_iff.1 h
    rw [hc, List.mem_singleton] at hmem
    have hb' : b ∈ l.filter p := List.mem_filter.2 ⟨hb, hpb⟩
    rw [hc, List.mem_singleton] at hb'
    rw [hb', hmem]
  · intro h
    have hall : ∀ b ∈ l.filter p, b = a := fun b hb => h b (List.mem_filter.1 hb).1 (List.mem_filter.1 hb).2
    have hone : (l.filter p).length ≤ [a].length :=
      (List.subperm_of_subset (hnodup.filter p) fun b hb => List.mem_singleton.2 (hall b hb)).length_le
    have hpos := List.length_pos_of_mem hmem
    simp only [List.length_singleton] at hone
    omega

theorem map_filterMap_sublist {α β γ : Type} {f : α → Option β} {g : β → γ} {k : α → γ}
    (h : ∀ a b, f a = some b → g b = k a) (l : List α) : ((l.filterMap f).map g).Sublist (l.map k) := by
  induction l with
  | nil => exact List.Sublist.slnil
  | cons a rest ih =>
      rw [List.filterMap_cons, List.map_cons]
      cases ha : f a with
      | none => exact ih.cons _
      | some b =>
          rw [List.map_cons, h a b ha]
          exact ih.cons_cons _

/-- The two hold one name and agree on the parts of a pass. -/
structure Agreeing (setting : Setting) (pass : Pass) (filer : Filer) (entity : Entity) : Prop where
  named : filer.key ≠ ""
  held : filer.key ∈ entity.keys
  placed : agreesAt setting pass filer entity = .ok true

section Pass

variable {pass : Pass} {found after : List Assignment}

variable (harrange : ∀ rows, (setting.arrange rows).Perm rows)

include harrange

theorem mem_proposals {taken : List String} {filer : Filer} {kept : List Entity}
    (h : proposals setting pass taken entities filer = .ok kept) (entity : Entity) :
    entity ∈ kept ↔ entity ∈ entities ∧ filer.key ∈ entity.keys ∧ entity.lei ∉ taken ∧ entity.eligible = true ∧
      agreesAt setting pass filer entity = .ok true := by
  obtain ⟨hread, rfl⟩ := Runs.selectM_eq_ok.1 h
  have haccept : (agreesAt setting pass filer entity).toOption = some true ↔ agreesAt setting pass filer entity = .ok true := by
    cases agreesAt setting pass filer entity <;> simp [Except.toOption]
  simp only [List.mem_filter, holders, (harrange _).mem_iff, List.contains_iff_mem, Bool.and_eq_true, Bool.not_eq_true',
    ← Bool.not_eq_true, decide_eq_true_eq, haccept, and_assoc]

theorem proposals_nodup {taken : List String} {filer : Filer} {kept : List Entity} (hnodup : entities.Nodup)
    (h : proposals setting pass taken entities filer = .ok kept) : kept.Nodup := by
  obtain ⟨_, rfl⟩ := Runs.selectM_eq_ok.1 h
  exact (((harrange _).nodup_iff.2 (hnodup.filter _)).filter _).filter _

end Pass

/-- A pass binds the two: they agree, the entity is eligible, no earlier pass took either, and neither agrees with another filer or eligible entity that is still free. -/
structure BindsAt (setting : Setting) (filers : List Filer) (entities : List Entity) (found : List Assignment) (pass : Pass)
    (filer : Filer) (entity : Entity) : Prop where
  agreeing : Agreeing setting pass filer entity
  eligible : entity.eligible = true
  filer_free : filer.cik ∉ found.map Assignment.cik
  entity_free : entity.lei ∉ found.map Assignment.lei
  filer_only : ∀ other ∈ filers, other.cik ∉ found.map Assignment.cik → Agreeing setting pass other entity → other = filer
  entity_only : ∀ other ∈ entities, other.eligible = true → other.lei ∉ found.map Assignment.lei →
    Agreeing setting pass filer other → other = entity

section Pass

variable {pass : Pass} {found after : List Assignment}

def freeFilers (filers : List Filer) (found : List Assignment) : List Filer :=
  (Sorting.sortByKey Filer.cik filers).filter fun filer => !(found.map Assignment.cik).contains filer.cik && filer.key ≠ ""

theorem mem_freeFilers {filer : Filer} :
    filer ∈ freeFilers filers found ↔ filer ∈ filers ∧ filer.cik ∉ found.map Assignment.cik ∧ filer.key ≠ "" := by
  simp only [freeFilers, List.mem_filter, Sorting.mem_sortByKey, Bool.and_eq_true, Bool.not_eq_true', ← Bool.not_eq_true,
    List.contains_iff_mem, decide_eq_true_eq, ne_eq]

theorem freeFilers_nodup (h : (filers.map Filer.cik).Nodup) : ((freeFilers filers found).map Filer.cik).Nodup :=
  (((Sorting.sortByKey_perm Filer.cik filers).map Filer.cik).nodup_iff.2 h).sublist (List.filter_sublist.map _)

theorem runPass_eq_ok : runPass setting filers entities found pass = .ok after ↔
    ∃ proposed, (freeFilers filers found).mapM (fun filer => do
        let agreed ← proposals setting pass (found.map Assignment.lei) entities filer
        Except.ok (filer, agreed)) = .ok proposed ∧
      after = found ++ proposed.filterMap (bindPair setting pass filers entities proposed) := by
  rw [runPass, Except.bind_eq_ok]
  exact exists_congr fun _ => and_congr_right fun _ => ⟨fun h => (Except.ok.inj h).symm, fun h => by rw [h]⟩

theorem bindPair_eq_some {proposed : List (Filer × List Entity)} {filer : Filer} {kept : List Entity} {found : Assignment} :
    bindPair setting pass filers entities proposed (filer, kept) = some found ↔
      ∃ entity, kept = [entity] ∧ claims proposed entity = 1 ∧ assignment setting pass filers entities filer entity = found := by
  rw [bindPair]
  split
  case h_1 entity heq =>
    have hkept : kept = [entity] := heq
    subst hkept
    rw [Option.ite_none_right_eq_some, Option.some.injEq]
    constructor
    · rintro ⟨hone, hfound⟩
      exact ⟨entity, rfl, hone, hfound⟩
    · rintro ⟨other, hother, hone, hfound⟩
      cases hother
      exact ⟨hone, hfound⟩
  case h_2 hne =>
    refine iff_of_false (fun h => nomatch h) ?_
    rintro ⟨entity, rfl, _⟩
    exact hne entity rfl

variable (hciks : (filers.map Filer.cik).Nodup) (hleis : (entities.map Entity.lei).Nodup)
  (harrange : ∀ rows, (setting.arrange rows).Perm rows)

include hciks hleis harrange

theorem claims_eq_one {proposed : List (Filer × List Entity)} {filer : Filer} {entity : Entity} {kept : List Entity}
    (hfirsts : proposed.map Prod.fst = freeFilers filers found)
    (hmem : ∀ filer kept, (filer, kept) ∈ proposed ↔
      filer ∈ freeFilers filers found ∧ proposals setting pass (found.map Assignment.lei) entities filer = .ok kept)
    (hfiler : (filer, kept) ∈ proposed) (hentity : entity ∈ kept) :
    claims proposed entity = 1 ↔
      ∀ other ∈ filers, other.cik ∉ found.map Assignment.cik → Agreeing setting pass other entity → other = filer := by
  have hread := ((hmem _ _).1 hfiler).2
  obtain ⟨hheld, _, hfree, heligible, _⟩ := (mem_proposals harrange hread entity).1 hentity
  have hnodup : proposed.Nodup := by
    refine List.Nodup.of_map Prod.fst ?_
    rw [hfirsts]
    exact (freeFilers_nodup hciks).of_map
  have hclaim : ∀ other rows, (other, rows) ∈ proposed →
      ((rows.any fun row => row.lei = entity.lei) = true ↔ Agreeing setting pass other entity) := by
    intro other rows hother
    obtain ⟨hfilers, hrows⟩ := (hmem _ _).1 hother
    rw [List.any_eq_true]
    constructor
    · rintro ⟨row, hrow, hlei⟩
      have hrow' := (mem_proposals harrange hrows row).1 hrow
      have heq : row = entity := List.inj_on_of_nodup_map hleis hrow'.1 hheld (of_decide_eq_true hlei)
      subst heq
      exact ⟨(mem_freeFilers.1 hfilers).2.2, hrow'.2.1, hrow'.2.2.2.2⟩
    · intro hagree
      exact ⟨entity, (mem_proposals harrange hrows entity).2 ⟨hheld, hagree.held, hfree, heligible, hagree.placed⟩,
        decide_eq_true rfl⟩
  rw [claims, countP_eq_one_iff hnodup hfiler (List.any_eq_true.2 ⟨entity, hentity, decide_eq_true rfl⟩)]
  constructor
  · intro h other hother hcik hagree
    have hother' : other ∈ freeFilers filers found := mem_freeFilers.2 ⟨hother, hcik, hagree.named⟩
    rw [← hfirsts, List.mem_map] at hother'
    obtain ⟨⟨_, rows⟩, hrows, rfl⟩ := hother'
    exact congrArg Prod.fst (h _ hrows ((hclaim _ _ hrows).2 hagree))
  · rintro h ⟨other, rows⟩ hother hany
    obtain ⟨hfilers, hrows⟩ := (hmem _ _).1 hother
    have heq : other = filer := h other (mem_freeFilers.1 hfilers).1 (mem_freeFilers.1 hfilers).2.1 ((hclaim _ _ hother).1 hany)
    subst heq
    rw [Except.ok.inj (hrows.symm.trans hread)]

theorem mem_runPass (h : runPass setting filers entities found pass = .ok after) :
    ∃ bound, after = found ++ bound ∧ (bound.map Assignment.cik).Nodup ∧ ∀ added, added ∈ bound ↔
      ∃ filer ∈ filers, ∃ entity ∈ entities, BindsAt setting filers entities found pass filer entity ∧
        assignment setting pass filers entities filer entity = added := by
  obtain ⟨proposed, hproposed, rfl⟩ := runPass_eq_ok.1 h
  obtain ⟨hfirsts, hmem⟩ := Runs.mapM_paired_eq_ok hproposed
  refine ⟨_, rfl, ?_, fun added => ?_⟩
  · have hsub : ((proposed.filterMap (bindPair setting pass filers entities proposed)).map Assignment.cik).Sublist
        (proposed.map fun proposal => proposal.1.cik) := by
      refine map_filterMap_sublist (fun proposal added hadded => ?_) proposed
      obtain ⟨entity, _, _, rfl⟩ := bindPair_eq_some.1 hadded
      rfl
    have hfree : ((freeFilers filers found).map Filer.cik).Nodup := freeFilers_nodup hciks
    rw [← hfirsts, List.map_map] at hfree
    exact hfree.sublist hsub
  · rw [List.mem_filterMap]
    constructor
    · rintro ⟨⟨filer, kept⟩, hpair, hbind⟩
      obtain ⟨entity, rfl, hone, rfl⟩ := bindPair_eq_some.1 hbind
      obtain ⟨hfiler, hread⟩ := (hmem _ _).1 hpair
      obtain ⟨hcikmem, hcik, hnamed⟩ := mem_freeFilers.1 hfiler
      obtain ⟨hentity, hheld, hlei, heligible, hplaced⟩ := (mem_proposals harrange hread entity).1 (List.mem_singleton.2 rfl)
      refine ⟨filer, hcikmem, entity, hentity, ⟨⟨hnamed, hheld, hplaced⟩, heligible, hcik, hlei, ?_, ?_⟩, rfl⟩
      · exact (claims_eq_one hciks hleis harrange hfirsts hmem hpair (List.mem_singleton.2 rfl)).1 hone
      · intro other hother hopen hfree hagree
        exact List.mem_singleton.1 ((mem_proposals harrange hread other).2 ⟨hother, hagree.held, hfree, hopen, hagree.placed⟩)
    · rintro ⟨filer, hfiler, entity, hentity, hbinds, rfl⟩
      have hfree : filer ∈ freeFilers filers found := mem_freeFilers.2 ⟨hfiler, hbinds.filer_free, hbinds.agreeing.named⟩
      have hpair := hfree
      rw [← hfirsts, List.mem_map] at hpair
      obtain ⟨⟨_, kept⟩, hpair, rfl⟩ := hpair
      have hread := ((hmem _ _).1 hpair).2
      have hin : entity ∈ kept := (mem_proposals harrange hread entity).2
        ⟨hentity, hbinds.agreeing.held, hbinds.entity_free, hbinds.eligible, hbinds.agreeing.placed⟩
      have hkept : kept = [entity] := by
        refine List.perm_singleton.1 ((List.perm_ext_iff_of_nodup (proposals_nodup harrange hleis.of_map hread)
          (List.nodup_singleton entity)).2 fun other => ?_)
        rw [List.mem_singleton]
        refine ⟨fun hother => ?_, fun heq => heq ▸ hin⟩
        obtain ⟨hother, hheld, hopen, heligible, hplaced⟩ := (mem_proposals harrange hread other).1 hother
        exact hbinds.entity_only other hother heligible hopen ⟨hbinds.agreeing.named, hheld, hplaced⟩
      refine ⟨_, hpair, bindPair_eq_some.2 ⟨entity, hkept, ?_, rfl⟩⟩
      exact (claims_eq_one hciks hleis harrange hfirsts hmem hpair hin).2 hbinds.filer_only

end Pass

def Bound (filers : List Filer) (entities : List Entity) (found : List Assignment) (filer : Filer) (entity : Entity) : Prop :=
  filer ∈ filers ∧ entity ∈ entities ∧ ∃ added ∈ found, added.cik = filer.cik ∧ added.lei = entity.lei

def round (setting : Setting) (filers : List Filer) (entities : List Entity) (pass : Pass) (filer : Filer) (entity : Entity) : Prop :=
  filer ∈ filers ∧ entity ∈ entities ∧ entity.eligible = true ∧ Agreeing setting pass filer entity

/-- What is found is about members of the two sources, and about no filer twice. -/
structure Known (filers : List Filer) (entities : List Entity) (found : List Assignment) : Prop where
  members : ∀ added ∈ found, ∃ filer ∈ filers, ∃ entity ∈ entities, added.cik = filer.cik ∧ added.lei = entity.lei
  ciks : (found.map Assignment.cik).Nodup

section Runs

variable {pass : Pass} {found after : List Assignment}

theorem Known.filer_free (h : Known filers entities found) {filer : Filer} (hfiler : filer ∈ filers) :
    (∀ entity, ¬ Bound filers entities found filer entity) ↔ filer.cik ∉ found.map Assignment.cik := by
  rw [List.mem_map]
  constructor
  · rintro hfree ⟨added, hadded, hcik⟩
    obtain ⟨_, _, entity, hentity, _, hlei⟩ := h.members added hadded
    exact hfree entity ⟨hfiler, hentity, added, hadded, hcik, hlei⟩
  · rintro hfree entity ⟨_, _, added, hadded, hcik, _⟩
    exact hfree ⟨added, hadded, hcik⟩

theorem Known.entity_free (h : Known filers entities found) {entity : Entity} (hentity : entity ∈ entities) :
    (∀ filer, ¬ Bound filers entities found filer entity) ↔ entity.lei ∉ found.map Assignment.lei := by
  rw [List.mem_map]
  constructor
  · rintro hfree ⟨added, hadded, hlei⟩
    obtain ⟨filer, hfiler, _, _, hcik, _⟩ := h.members added hadded
    exact hfree filer ⟨hfiler, hentity, added, hadded, hcik, hlei⟩
  · rintro hfree filer ⟨_, _, added, hadded, _, hlei⟩
    exact hfree ⟨added, hadded, hlei⟩

theorem Known.binds_iff (h : Known filers entities found) (filer : Filer) (entity : Entity) :
    Pairing.Binds (round setting filers entities pass) (Bound filers entities found) filer entity ↔
      filer ∈ filers ∧ entity ∈ entities ∧ BindsAt setting filers entities found pass filer entity := by
  constructor
  · intro hbinds
    obtain ⟨hfiler, hentity, heligible, hagree⟩ := hbinds.agreed
    refine ⟨hfiler, hentity, hagree, heligible, (h.filer_free hfiler).1 hbinds.left_free,
      (h.entity_free hentity).1 hbinds.right_free, ?_, ?_⟩
    · intro other hother hfree hagree'
      exact hbinds.left_only other ⟨hother, hentity, heligible, hagree'⟩ ((h.filer_free hother).2 hfree)
    · intro other hother heligible' hfree hagree'
      exact hbinds.right_only other ⟨hfiler, hother, heligible', hagree'⟩ ((h.entity_free hother).2 hfree)
  · rintro ⟨hfiler, hentity, hbinds⟩
    refine ⟨⟨hfiler, hentity, hbinds.eligible, hbinds.agreeing⟩, (h.filer_free hfiler).2 hbinds.filer_free,
      (h.entity_free hentity).2 hbinds.entity_free, ?_, ?_⟩
    · intro other hother hfree
      exact hbinds.filer_only other hother.1 ((h.filer_free hother.1).1 hfree) hother.2.2.2
    · intro other hother hfree
      exact hbinds.entity_only other hother.2.1 hother.2.2.1 ((h.entity_free hother.2.1).1 hfree) hother.2.2.2

variable (hciks : (filers.map Filer.cik).Nodup) (hleis : (entities.map Entity.lei).Nodup)
  (harrange : ∀ rows, (setting.arrange rows).Perm rows)

include hciks hleis harrange

theorem Known.runPass (h : Known filers entities found) (hrun : runPass setting filers entities found pass = .ok after) :
    Known filers entities after := by
  obtain ⟨bound, rfl, hnodup, hbound⟩ := mem_runPass hciks hleis harrange hrun
  refine ⟨fun added hadded => ?_, ?_⟩
  · rcases List.mem_append.1 hadded with hadded | hadded
    · exact h.members added hadded
    · obtain ⟨filer, hfiler, entity, hentity, _, rfl⟩ := (hbound added).1 hadded
      exact ⟨filer, hfiler, entity, hentity, rfl, rfl⟩
  · rw [List.map_append]
    refine List.Nodup.append h.ciks hnodup fun cik hold hnew => ?_
    obtain ⟨added, hadded, rfl⟩ := List.mem_map.1 hnew
    obtain ⟨filer, _, entity, _, hbinds, rfl⟩ := (hbound added).1 hadded
    exact hbinds.filer_free hold

omit harrange in
theorem assigned_iff_binds {bound : List Assignment}
    (hbound : ∀ added, added ∈ bound ↔ ∃ filer ∈ filers, ∃ entity ∈ entities,
      BindsAt setting filers entities found pass filer entity ∧ assignment setting pass filers entities filer entity = added)
    {filer : Filer} (hfiler : filer ∈ filers) {entity : Entity} (hentity : entity ∈ entities) :
    (∃ added ∈ bound, added.cik = filer.cik ∧ added.lei = entity.lei) ↔
      BindsAt setting filers entities found pass filer entity := by
  constructor
  · rintro ⟨added, hadded, hcik, hlei⟩
    obtain ⟨filer', hfiler', entity', hentity', hbinds, rfl⟩ := (hbound added).1 hadded
    cases List.inj_on_of_nodup_map hciks hfiler' hfiler hcik
    cases List.inj_on_of_nodup_map hleis hentity' hentity hlei
    exact hbinds
  · intro hbinds
    exact ⟨_, (hbound _).2 ⟨filer, hfiler, entity, hentity, hbinds, rfl⟩, rfl, rfl⟩

theorem bound_runPass (h : Known filers entities found) (hrun : Cascade.runPass setting filers entities found pass = .ok after) :
    Bound filers entities after = Pairing.extend (Bound filers entities found) (round setting filers entities pass) := by
  obtain ⟨bound, rfl, _, hbound⟩ := mem_runPass hciks hleis harrange hrun
  funext filer entity
  simp only [Pairing.extend, h.binds_iff, Bound, List.mem_append, or_and_right, exists_or, eq_iff_iff]
  constructor
  · rintro ⟨hfiler, hentity, hold | hnew⟩
    · exact .inl ⟨hfiler, hentity, hold⟩
    · exact .inr ⟨hfiler, hentity, (assigned_iff_binds hciks hleis hbound hfiler hentity).1 hnew⟩
  · rintro (⟨hfiler, hentity, hold⟩ | ⟨hfiler, hentity, hbinds⟩)
    · exact ⟨hfiler, hentity, .inl hold⟩
    · exact ⟨hfiler, hentity, .inr ((assigned_iff_binds hciks hleis hbound hfiler hentity).2 hbinds)⟩

theorem bound_run {passes : List Pass} (hrun : passes.foldlM (Cascade.runPass setting filers entities) [] = .ok found) :
    Known filers entities found ∧
      Bound filers entities found = Pairing.after (passes.map (round setting filers entities)) := by
  refine Runs.run_invariant (fun front mid => Known filers entities mid ∧
    Bound filers entities mid = Pairing.after (front.map (round setting filers entities))) hrun ?_ ?_
  · refine ⟨⟨fun added hadded => absurd hadded (List.not_mem_nil), List.nodup_nil⟩, ?_⟩
    funext filer entity
    simp [Bound, Pairing.after]
  · rintro front pass back mid next rfl ⟨hknown, hmid⟩ hstep
    refine ⟨hknown.runPass hciks hleis harrange hstep, ?_⟩
    rw [bound_runPass hciks hleis harrange hknown hstep, hmid, List.map_append]
    exact (Pairing.after_append _ _).symm

omit hciks hleis harrange in
theorem run_extends {passes : List Pass} (h : passes.foldlM (Cascade.runPass setting filers entities) found = .ok after) :
    ∃ rest, after = found ++ rest := by
  refine Runs.run_invariant (fun _ mid => ∃ rest, mid = found ++ rest) h ⟨[], (List.append_nil _).symm⟩ ?_
  rintro _ pass _ _ next _ ⟨rest, rfl⟩ hstep
  obtain ⟨proposed, _, rfl⟩ := runPass_eq_ok.1 hstep
  exact ⟨_, List.append_assoc _ _ _⟩

theorem leis_nodup {passes : List Pass} (hrun : passes.foldlM (Cascade.runPass setting filers entities) [] = .ok found) :
    (found.map Assignment.lei).Nodup := by
  obtain ⟨hknown, hbound⟩ := bound_run hciks hleis harrange hrun
  have hone : Pairing.OneToOne (Bound filers entities found) := hbound ▸ Pairing.after_oneToOne _
  refine List.Nodup.map_on (fun a ha b hb hlei => ?_) hknown.ciks.of_map
  obtain ⟨filer, hfiler, entity, hentity, hcik, hlei'⟩ := hknown.members a ha
  obtain ⟨filer', hfiler', _, _, hcik', _⟩ := hknown.members b hb
  have heq : filer = filer' :=
    hone.right ⟨hfiler, hentity, a, ha, hcik, hlei'⟩ ⟨hfiler', hentity, b, hb, hcik', hlei ▸ hlei'⟩
  exact List.inj_on_of_nodup_map hknown.ciks ha hb (by rw [hcik, hcik', heq])

end Runs

end EdgarPlatform.Cascade
