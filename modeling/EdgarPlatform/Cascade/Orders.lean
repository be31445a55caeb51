import EdgarPlatform.Cascade.Pairs

/-!
# The cascade in any order

A pass reads its filers sorted, and of the entities only which there are and how many. So two runs over the same filers and entities, in whatever order they come and whatever order sets are iterated in, find the same, and the runs fail together.
-/

namespace EdgarPlatform.Cascade

variable {setting : Setting} {filers filers' : List Filer} {entities entities' : List Entity}

def SameProposal (proposal other : Filer × List Entity) : Prop := proposal.1 = other.1 ∧ proposal.2.Perm other.2

section Pass

variable {pass : Pass} {found after : List Assignment} {arrange : List Entity → List Entity}
  (hfilers : filers.Perm filers') (hentities : entities.Perm entities')
  (harrange : ∀ rows, (setting.arrange rows).Perm rows) (harrange' : ∀ rows, (arrange rows).Perm rows)

section

include hentities harrange harrange'

theorem holders_perm (key : String) :
    (holders setting entities key).Perm (holders { setting with arrange := arrange } entities' key) :=
  ((harrange _).trans (hentities.filter _)).trans (harrange' _).symm

theorem proposals_perm {taken : List String} {filer : Filer} {kept : List Entity}
    (h : proposals setting pass taken entities filer = .ok kept) :
    ∃ kept', proposals { setting with arrange := arrange } pass taken entities' filer = .ok kept' ∧ kept.Perm kept' := by
  obtain ⟨hread, rfl⟩ := Runs.selectM_eq_ok.1 h
  have hperm := (holders_perm hentities harrange harrange' filer.key).filter
    fun entity => !taken.contains entity.lei && entity.eligible
  exact ⟨_, Runs.selectM_eq_ok.2 ⟨fun entity hentity => hread entity (hperm.mem_iff.2 hentity), rfl⟩, hperm.filter _⟩

end

include hfilers hentities harrange harrange'

theorem assignment_perm (filer : Filer) (entity : Entity) :
    assignment setting pass filers entities filer entity =
      assignment { setting with arrange := arrange } pass filers' entities' filer entity := by
  have hnames : (filers.filter fun other => other.key = filer.key).length =
      (filers'.filter fun other => other.key = filer.key).length := (hfilers.filter _).length_eq
  have hholders : ((holders setting entities filer.key).filter Entity.eligible).length =
      ((holders { setting with arrange := arrange } entities' filer.key).filter Entity.eligible).length :=
    ((holders_perm hentities harrange harrange' filer.key).filter _).length_eq
  simp only [assignment, hnames, hholders]

theorem bindPair_perm {proposed proposed' : List (Filer × List Entity)} (h : List.Forall₂ SameProposal proposed proposed')
    {proposal proposal' : Filer × List Entity} (hsame : SameProposal proposal proposal') :
    bindPair setting pass filers entities proposed proposal =
      bindPair { setting with arrange := arrange } pass filers' entities' proposed' proposal' := by
  have hclaims : ∀ entity, claims proposed entity = claims proposed' entity := by
    intro entity
    induction h with
    | nil => rfl
    | cons hhead _ ih =>
        have hany := hhead.2.any_eq (f := fun other => decide (other.lei = entity.lei))
        simp only [claims, List.countP_cons] at ih ⊢
        rw [ih, hany]
  obtain ⟨filer, kept⟩ := proposal
  obtain ⟨_, kept'⟩ := proposal'
  obtain ⟨rfl, hperm⟩ := hsame
  refine Option.ext fun added => ?_
  rw [bindPair_eq_some, bindPair_eq_some]
  refine exists_congr fun entity => ?_
  rw [hclaims, assignment_perm hfilers hentities harrange harrange']
  exact and_congr_left fun _ => ⟨fun h => (List.singleton_perm.1 (h ▸ hperm)).symm, fun h => List.perm_singleton.1 (h ▸ hperm)⟩

theorem runPass_perm (hciks : (filers.map Filer.cik).Nodup) (h : runPass setting filers entities found pass = .ok after) :
    runPass { setting with arrange := arrange } filers' entities' found pass = .ok after := by
  obtain ⟨proposed, hproposed, rfl⟩ := runPass_eq_ok.1 h
  have hsorted : (Sorting.sortByKey Filer.cik filers).map id = (Sorting.sortByKey Filer.cik filers').map id := by
    refine Sorting.sortByKey_map_eq Filer.cik (hfilers.map id) (fun _ _ => rfl) (fun _ _ => rfl) ?_
    intro filer hfiler other hother heq
    rw [List.map_id] at hfiler hother
    exact List.inj_on_of_nodup_map hciks hfiler hother heq
  have hfree : freeFilers filers' found = freeFilers filers found := by
    rw [List.map_id, List.map_id] at hsorted
    rw [freeFilers, freeFilers, hsorted]
  -- Each free filer proposes the same entities, so each claim is made as often.
  have hother : ∀ filers proposed, List.Forall₂ (fun filer (proposal : Filer × List Entity) => (do
        let agreed ← proposals setting pass (found.map Assignment.lei) entities filer
        Except.ok (filer, agreed)) = .ok proposal) filers proposed →
      ∃ proposed', List.Forall₂ (fun filer (proposal : Filer × List Entity) => (do
        let agreed ← proposals { setting with arrange := arrange } pass (found.map Assignment.lei) entities' filer
        Except.ok (filer, agreed)) = .ok proposal) filers proposed' ∧ List.Forall₂ SameProposal proposed proposed' := by
    intro filers proposed hread
    induction hread with
    | nil => exact ⟨[], .nil, .nil⟩
    | @cons filer proposal _ _ hhead _ ih =>
        obtain ⟨kept, hkept, heq⟩ := Except.bind_eq_ok.1 hhead
        obtain ⟨kept', hkept', hperm⟩ := proposals_perm hentities harrange harrange' hkept
        obtain ⟨proposed', hread', hsame⟩ := ih
        refine ⟨(filer, kept') :: proposed', .cons (Except.bind_eq_ok.2 ⟨kept', hkept', rfl⟩) hread', .cons ?_ hsame⟩
        cases heq
        exact ⟨rfl, hperm⟩
  obtain ⟨proposed', hread', hsame⟩ := hother _ _ (Runs.mapM_eq_ok.1 hproposed)
  refine runPass_eq_ok.2 ⟨proposed', by rw [hfree]; exact Runs.mapM_eq_ok.2 hread', ?_⟩
  have hbind : ∀ some others, List.Forall₂ SameProposal some others →
      some.filterMap (bindPair setting pass filers entities proposed) =
        others.filterMap (bindPair { setting with arrange := arrange } pass filers' entities' proposed') := by
    intro some others hall
    induction hall with
    | nil => rfl
    | cons hhead _ ih =>
        rw [List.filterMap_cons, List.filterMap_cons, ih,
          bindPair_perm hfilers hentities harrange harrange' hsame hhead]
  rw [hbind proposed proposed' hsame]

theorem run_perm (hciks : (filers.map Filer.cik).Nodup) {passes : List Pass} {start : List Assignment}
    (h : passes.foldlM (runPass setting filers entities) start = .ok found) :
    passes.foldlM (runPass { setting with arrange := arrange } filers' entities') start = .ok found := by
  induction passes generalizing start with
  | nil => exact h
  | cons pass rest ih =>
      obtain ⟨mid, hmid, hrest⟩ := Runs.foldlM_cons_eq_ok.1 h
      exact Runs.foldlM_cons_eq_ok.2 ⟨mid, runPass_perm hfilers hentities harrange harrange' hciks hmid, ih hrest⟩

end Pass

/-- The cascade binds one to one, a pair at a pass exactly when the two agree there, are free and agree with nothing else that is free; and it finds the same in whatever order the two sources come and sets are iterated. -/
theorem cascade_binds_one_to_one (hciks : (filers.map Filer.cik).Nodup) (hleis : (entities.map Entity.lei).Nodup)
    (harrange : ∀ rows, (setting.arrange rows).Perm rows) (passes : List Pass) :
    (∀ found, assign setting filers entities passes = .ok found →
      (found.map Assignment.cik).Nodup ∧ (found.map Assignment.lei).Nodup ∧
      ∀ front pass back, passes = front ++ pass :: back → ∃ before bound rest, found = before ++ bound ++ rest ∧
        assign setting filers entities front = .ok before ∧
        assign setting filers entities (front ++ [pass]) = .ok (before ++ bound) ∧
        (∀ added ∈ bound, ∃ filer ∈ filers, ∃ entity ∈ entities, added = assignment setting pass filers entities filer entity) ∧
        ∀ filer ∈ filers, ∀ entity ∈ entities, (∃ added ∈ bound, added.cik = filer.cik ∧ added.lei = entity.lei) ↔
          BindsAt setting filers entities before pass filer entity) ∧
    ∀ filers' entities' arrange, filers.Perm filers' → entities.Perm entities' → (∀ rows, (arrange rows).Perm rows) →
      ∀ found, assign setting filers entities passes = .ok found ↔
        assign { setting with arrange := arrange } filers' entities' passes = .ok found := by
  have hassign : ∀ passes, assign setting filers entities passes = passes.foldlM (runPass setting filers entities) [] := by
    intro passes
    rw [assign, byId_eq hciks, byId_eq hleis]
  refine ⟨fun found hrun => ?_, fun filers' entities' arrange hfilers hentities harrange' found => ?_⟩
  · rw [hassign] at hrun
    refine ⟨(bound_run hciks hleis harrange hrun).1.ciks, leis_nodup hciks hleis harrange hrun, ?_⟩
    rintro front pass back rfl
    obtain ⟨before, next, hfront, hstep, hback⟩ := Runs.run_split hrun
    obtain ⟨bound, rfl, _, hbound⟩ := mem_runPass hciks hleis harrange hstep
    obtain ⟨rest, rfl⟩ := run_extends hback
    refine ⟨before, bound, rest, rfl, by rw [hassign, hfront], ?_, ?_, ?_⟩
    · rw [hassign]
      exact Runs.foldlM_append_eq_ok.2 ⟨before, hfront, Runs.foldlM_cons_eq_ok.2 ⟨_, hstep, rfl⟩⟩
    · intro added hadded
      obtain ⟨filer, hfiler, entity, hentity, _, rfl⟩ := (hbound added).1 hadded
      exact ⟨filer, hfiler, entity, hentity, rfl⟩
    · intro filer hfiler entity hentity
      exact assigned_iff_binds hciks hleis hbound hfiler hentity
  · have hassign' : assign { setting with arrange := arrange } filers' entities' passes =
        passes.foldlM (runPass { setting with arrange := arrange } filers' entities') [] := by
      rw [assign, byId_eq ((hfilers.map _).nodup_iff.1 hciks), byId_eq ((hentities.map _).nodup_iff.1 hleis)]
    rw [hassign, hassign']
    constructor
    · exact run_perm hfilers hentities harrange harrange' hciks
    · intro h
      have hback : ∀ rows, (({ setting with arrange := arrange } : Setting).arrange rows).Perm rows := harrange'
      exact run_perm hfilers.symm hentities.symm hback harrange ((hfilers.map _).nodup_iff.1 hciks) h

def plainSetting : Setting where
  uppercase := id
  arrange := id
  counts := fun _ => 0
  overShared := 25

def namedFiler (cik key : String) (country : Option String) : Filer := ⟨cik, key, countryPlace country, none, none⟩

def namedEntity (lei key : String) (country : Option String) : Entity := ⟨lei, [key], countryPlace country, none, true, "", key⟩

/-- Two filers of one name are told apart by their country in the strict pass, which leaves the other pair to the loose one; read backwards, with sets iterated backwards, they are bound the same. -/
theorem cascade_binds_one_to_one_of_two :
    assign { plainSetting with arrange := List.reverse }
      [namedFiler "2" "ACME" none, namedFiler "1" "ACME" (some "US")]
      [namedEntity "L2" "ACME" (some "DE"), namedEntity "L1" "ACME" (some "US")]
      [⟨"country", some []⟩, ⟨"name", none⟩] =
    .ok [⟨"1", "L1", "", "country", [notUniqueFlag], "ACME", "legal name"⟩,
      ⟨"2", "L2", "", "name", [notUniqueFlag], "ACME", "legal name"⟩] :=
  ((cascade_binds_one_to_one (by decide) (by decide) (fun _ => List.Perm.refl _) _).2 _ _ List.reverse
    (List.Perm.swap (namedFiler "2" "ACME" none) (namedFiler "1" "ACME" (some "US")) [])
    (List.Perm.swap (namedEntity "L2" "ACME" (some "DE")) (namedEntity "L1" "ACME" (some "US")) [])
    (fun rows => List.reverse_perm rows) _).1 (rfl : assign plainSetting
      [namedFiler "1" "ACME" (some "US"), namedFiler "2" "ACME" none]
      [namedEntity "L1" "ACME" (some "US"), namedEntity "L2" "ACME" (some "DE")]
      [⟨"country", some []⟩, ⟨"name", none⟩] = _)

end EdgarPlatform.Cascade
