import EdgarPlatform.Admission.Steps
import Mathlib.Data.List.Pairwise

/-!
# Batches are admitted once

The generations of the gate number the batches that were admitted, one after another, and each scope's positions grow with them. Objects, their versions, the outbox and the proposals all follow the batches: the current object is its latest version, consumers are told of the batches that changed something, and each batch has one applied proposal, of the intent it was admitted with. A batch that is applied again is answered as it was admitted, and changes none of this.
-/

namespace EdgarPlatform.Admission

variable {env : Env} {protocol : Nat} {s next : State}

theorem le_of_getLast? {α : Type} {f : α → Nat} {items : List α} {last a : α} (h : items.Pairwise fun a b => f a < f b)
    (hlast : items.getLast? = some last) (ha : a ∈ items) : f a ≤ f last := by
  obtain ⟨front, rfl⟩ := List.getLast?_eq_some_iff.1 hlast
  rcases List.mem_append.1 ha with ha | ha
  · exact ((List.pairwise_append.1 h).2.2 a ha last (List.mem_singleton.2 rfl)).le
  · rw [List.mem_singleton.1 ha]

theorem eq_of_growing {α : Type} {f : α → Nat} {items : List α} {a b : α} (h : items.Pairwise fun a b => f a < f b)
    (ha : a ∈ items) (hb : b ∈ items) (hsame : f a = f b) : a = b := by
  have hnodup : (items.map f).Nodup := List.pairwise_map.2 (h.imp ne_of_lt)
  exact List.inj_on_of_nodup_map hnodup ha hb hsame

theorem getLast?_eq_some_iff_greatest {α : Type} {f : α → Nat} {items : List α} {a : α}
    (h : items.Pairwise fun a b => f a < f b) : items.getLast? = some a ↔ a ∈ items ∧ ∀ b ∈ items, f b ≤ f a := by
  constructor
  · intro hlast
    exact ⟨List.mem_of_getLast? hlast, fun b hb => le_of_getLast? h hlast hb⟩
  · rintro ⟨ha, hgreatest⟩
    obtain ⟨last, hlast⟩ := Option.ne_none_iff_exists'.1 fun hnone => List.ne_nil_of_mem ha (List.getLast?_eq_none_iff.1 hnone)
    rw [hlast, eq_of_growing h ha (List.mem_of_getLast? hlast)
      (le_antisymm (le_of_getLast? h hlast ha) (hgreatest last (List.mem_of_getLast? hlast)))]

theorem rel_of_growing {α : Type} {f : α → Nat} {rel : α → α → Prop} {items : List α} {a b : α}
    (h : items.Pairwise fun a b => f a < f b) (hrel : items.Pairwise rel) (ha : a ∈ items) (hb : b ∈ items) (hlt : f a < f b) :
    rel a b := by
  have : Std.Symm fun a b : α => (f a < f b → rel a b) ∧ (f b < f a → rel b a) := ⟨fun _ _ hab => ⟨hab.2, hab.1⟩⟩
  have hboth : items.Pairwise fun a b => (f a < f b → rel a b) ∧ (f b < f a → rel b a) :=
    (h.and hrel).imp fun hab => ⟨fun _ => hab.2, fun hba => absurd hba (lt_asymm hab.1)⟩
  have hsame : ∀ a ∈ items, (f a < f a → rel a a) ∧ (f a < f a → rel a a) :=
    fun a _ => ⟨fun hlt => absurd hlt (lt_irrefl _), fun hlt => absurd hlt (lt_irrefl _)⟩
  exact (hboth.forall_of_forall hsame ha hb).1 hlt

def versionsUnder (history : List Version) (key : Key × Key) : List Version := history.filter fun row => row.key = key

theorem versionsUnder_append (front back : List Version) (key : Key × Key) :
    versionsUnder (front ++ back) key = versionsUnder front key ++ versionsUnder back key := List.filter_append ..

theorem mem_versionsUnder {history : List Version} {key : Key × Key} {row : Version} :
    row ∈ versionsUnder history key ↔ row ∈ history ∧ row.key = key := by
  rw [versionsUnder, List.mem_filter, decide_eq_true_eq]

theorem versionsUnder_of_nodup {rows : List Version} (hkeys : (rows.map Version.key).Nodup) (key : Key × Key) :
    versionsUnder rows key = [] ∨ ∃ row ∈ rows, row.key = key ∧ versionsUnder rows key = [row] := by
  induction rows with
  | nil => exact .inl rfl
  | cons row rest ih =>
      rw [List.map_cons, List.nodup_cons] at hkeys
      by_cases hkey : row.key = key
      · right
        refine ⟨row, List.mem_cons_self .., hkey, ?_⟩
        have hrest : versionsUnder rest key = [] := by
          refine List.eq_nil_iff_forall_not_mem.2 fun other hother => hkeys.1 ?_
          obtain ⟨hmem, hother⟩ := mem_versionsUnder.1 hother
          exact List.mem_map.2 ⟨other, hmem, hother.trans hkey.symm⟩
        rw [versionsUnder, List.filter_cons_of_pos (by simpa using hkey)]
        exact congrArg (row :: ·) hrest
      · rw [versionsUnder, List.filter_cons_of_neg (by simpa using hkey)]
        obtain hnone | ⟨other, hother, hsame, hone⟩ := ih hkeys.2
        · exact .inl hnone
        · exact .inr ⟨other, List.mem_cons_of_mem _ hother, hsame, hone⟩

theorem get?_writeCurrent {rows : List Version} {current : IndexMap (Key × Key) Version} (hkeys : (rows.map Version.key).Nodup)
    (hsame : ∀ row ∈ rows, ∀ held, current.get? row.key = some held → held.type = row.type ∧ held.id = row.id) (key : Key × Key) :
    (rows.foldl writeCurrent current).get? key = ((versionsUnder rows key).getLast?).or (current.get? key) := by
  induction rows generalizing current with
  | nil => rfl
  | cons row rest ih =>
      rw [List.map_cons, List.nodup_cons] at hkeys
      have hwritten : writeCurrent current row = current.insert row.key row := by
        rw [writeCurrent]
        cases hheld : current.get? row.key with
        | none => rfl
        | some held =>
            obtain ⟨htype, hid⟩ := hsame row (List.mem_cons_self ..) held hheld
            dsimp only
            rw [htype, hid]
      have hne : ∀ other ∈ rest, other.key ≠ row.key :=
        fun other hother heq => hkeys.1 (List.mem_map.2 ⟨other, hother, heq⟩)
      rw [List.foldl_cons, hwritten, ih hkeys.2]
      · rw [← List.singleton_append, versionsUnder_append, List.getLast?_append]
        by_cases hkey : row.key = key
        · subst hkey
          have hrest : versionsUnder rest row.key = [] := by
            refine List.eq_nil_iff_forall_not_mem.2 fun other hother => ?_
            obtain ⟨hmem, hother⟩ := mem_versionsUnder.1 hother
            exact hne other hmem hother
          rw [hrest, IndexMap.get?_insert, if_pos rfl, versionsUnder, List.filter_cons_of_pos (by simp)]
          rfl
        · rw [IndexMap.get?_insert_of_ne _ _ (Ne.symm hkey)]
          congr 1
          rw [show versionsUnder [row] key = [] by rw [versionsUnder, List.filter_cons_of_neg (by simpa using hkey)]; rfl]
          simp
      · intro other hother held hheld
        rw [IndexMap.get?_insert_of_ne _ _ (hne other hother)] at hheld
        exact hsame other (List.mem_cons_of_mem _ hother) held hheld

def batchesOf (s : State) (scope : Key) : List Batch := s.batches.values.filter fun batch => batch.scopeKey = scope

structure Admitted (env : Env) (s : State) : Prop where
  numbered : s.batches.values.map Batch.generation = List.range' 1 s.generation
  named : ∀ key batch, s.batches.get? key = some batch →
    key = env.sha256 batch.batch ∧ (env.intent batch.intent).batch = some batch.batch
  positions : s.batches.values.Pairwise fun a b => a.scopeKey = b.scopeKey → a.position < b.position
  checkpoints : ∀ scope, s.checkpoints.get? scope = ((batchesOf s scope).getLast?).map Batch.position
  dated : ∀ row ∈ s.history, row.generation ≤ s.generation
  ordered : s.history.Pairwise fun a b => a.key = b.key → a.generation < b.generation
  current : ∀ key, s.current.get? key = (versionsUnder s.history key).getLast?
  counted : ∀ key row, s.current.get? key = some row → row.version = (versionsUnder s.history key).length
  published : ∀ key row, s.outbox.get? key = some row → ∃ batch, s.batches.get? key.1 = some batch
  told : ∀ key batch, s.batches.get? key = some batch → ∀ consumer, (∃ row, s.outbox.get? (key, consumer) = some row) ↔
    batch.changed = true ∧ some consumer ∈ (env.intent batch.intent).consumers.map (Consumer.key env)
  settled : ∀ proposal key intent, s.applied proposal = some (key, intent) → ∃ batch, s.batches.get? key = some batch
  proposed : ∀ key batch, s.batches.get? key = some batch → ∃ proposal, s.applied proposal = some (key, some batch.intent) ∧
    ∀ other intent, s.applied other = some (key, intent) → other = proposal

theorem admitted_empty : Admitted env {} := by
  refine ⟨rfl, ?_, List.Pairwise.nil, fun _ => rfl, ?_, List.Pairwise.nil, fun _ => rfl, ?_, ?_, ?_, ?_, ?_⟩
  · intro key batch h
    cases h
  · intro row hrow
    cases hrow
  · intro key row h
    cases h
  · intro key row h
    cases h
  · intro key batch h
    cases h
  · intro proposal key intent h
    cases h
  · intro key batch h
    cases h

theorem Admitted.congr (h : Admitted env s) (hledger : next.ledger = s.ledger)
    (hkeys : ∀ key, (∃ row, next.outbox.get? key = some row) ↔ ∃ row, s.outbox.get? key = some row)
    (happlied : next.applied = s.applied) : Admitted env next := by
  have hgeneration : next.generation = s.generation := congrArg Ledger.generation hledger
  have hbatches : next.batches = s.batches := congrArg Ledger.batches hledger
  have hcheckpoints : next.checkpoints = s.checkpoints := congrArg Ledger.checkpoints hledger
  have hhistory : next.history = s.history := congrArg Ledger.history hledger
  have hcurrent : next.current = s.current := congrArg Ledger.current hledger
  refine ⟨?_, ?_, ?_, ?_, ?_, ?_, ?_, ?_, ?_, ?_, ?_, ?_⟩
  · rw [hbatches, hgeneration]
    exact h.numbered
  · rw [hbatches]
    exact h.named
  · rw [hbatches]
    exact h.positions
  · intro scope
    rw [hcheckpoints, batchesOf, hbatches]
    exact h.checkpoints scope
  · rw [hhistory, hgeneration]
    exact h.dated
  · rw [hhistory]
    exact h.ordered
  · rw [hcurrent, hhistory]
    exact h.current
  · rw [hcurrent, hhistory]
    exact h.counted
  · intro key row hrow
    obtain ⟨row, hrow⟩ := (hkeys key).1 ⟨row, hrow⟩
    rw [hbatches]
    exact h.published key row hrow
  · intro key batch hbatch consumer
    rw [hkeys]
    exact h.told key batch (hbatches ▸ hbatch) consumer
  · rw [happlied, hbatches]
    exact h.settled
  · rw [happlied, hbatches]
    exact h.proposed

theorem Admitted.quiet (h : Admitted env s) (hquiet : Quiet s next) : Admitted env next :=
  h.congr hquiet.ledger (fun key => by rw [hquiet.outbox]) hquiet.applied

theorem Admitted.writes (h : Admitted env s) {key : Key × Key} {row written : Publication} (hwrites : Writes s next key row written) :
    Admitted env next := by
  refine h.congr hwrites.ledger (fun other => ?_) hwrites.applied
  rw [hwrites.outbox, IndexMap.get?_insert]
  by_cases hother : other = key
  · rw [if_pos hother, hother, hwrites.held]
    simp
  · rw [if_neg hother]

variable {request : Request} {objects : List Object} {proposal : Key}

theorem values_insert {κ α : Type} [DecidableEq κ] {m : IndexMap κ α} {key : κ} (h : m.get? key = none) (value : α) :
    (m.insert key value).values = m.values ++ [value] := by
  have hentries : (m.insert key value).entries = m.entries ++ [(key, value)] :=
    IndexMap.setEntry_of_not_mem value (IndexMap.get?_eq_none_iff.1 h)
  rw [IndexMap.values, IndexMap.values, hentries, List.map_append]
  rfl

theorem newVersions_keys (hkeys : (objects.map (Object.key env)).Nodup) :
    ((newVersions env request objects s).map Version.key).Nodup := by
  rw [newVersions, List.map_map]
  exact hkeys.sublist (List.filter_sublist.map _)

theorem mem_newVersions {row : Version} (h : row ∈ newVersions env request objects s) :
    ∃ object ∈ objects, row = newVersion env request s object := by
  obtain ⟨object, hobject, rfl⟩ := List.mem_map.1 h
  exact ⟨object, List.mem_of_mem_filter hobject, rfl⟩

theorem Admitted.position_lt (h : Admitted env s) (hadmits : Admits env request objects proposal s next) {batch : Batch}
    (hbatch : batch ∈ s.batches.values) (hscope : batch.scopeKey = request.scopeKey env) : batch.position < request.checkpoint := by
  have hmem : batch ∈ batchesOf s (request.scopeKey env) := List.mem_filter.2 ⟨hbatch, by simpa using hscope⟩
  have hpairs : (batchesOf s (request.scopeKey env)).Pairwise fun a b => a.position < b.position := by
    refine (h.positions.sublist List.filter_sublist).imp_of_mem fun ha hb hlt => hlt ?_
    have ha := (List.mem_filter.1 ha).2
    have hb := (List.mem_filter.1 hb).2
    rw [decide_eq_true_eq] at ha hb
    rw [ha, hb]
  obtain ⟨last, hlast⟩ := Option.ne_none_iff_exists'.1 fun hnone => List.ne_nil_of_mem hmem (List.getLast?_eq_none_iff.1 hnone)
  have hposition := hadmits.position
  rw [position, h.checkpoints, hlast] at hposition
  exact Nat.lt_of_le_of_lt (le_of_getLast? hpairs hlast hmem) hposition

theorem Admits.current_eq (h : Admits env request objects proposal s next) (key : Key × Key) :
    next.current.get? key = ((versionsUnder (newVersions env request objects s) key).getLast?).or (s.current.get? key) := by
  rw [h.current]
  refine get?_writeCurrent (newVersions_keys h.keys) (fun row hrow held hheld => ?_) key
  obtain ⟨object, hobject, rfl⟩ := mem_newVersions hrow
  exact h.unmixed object hobject held hheld

theorem Admits.outbox_iff (h : Admits env request objects proposal s next) (key : Key × Key) :
    (∃ row, next.outbox.get? key = some row) ↔ (∃ row, s.outbox.get? key = some row) ∨
      key.1 = request.batchKey env ∧ isChange env request objects s = true ∧
        some key.2 ∈ request.intent.consumers.map (Consumer.key env) := by
  obtain ⟨publications, hpublications, houtbox⟩ := h.outbox
  rw [houtbox, ← IndexMap.mem_keys_iff, ← IndexMap.mem_keys_iff, IndexMap.mem_keys_extend]
  refine or_congr_right ?_
  by_cases hchange : isChange env request objects s = true
  · rw [if_pos hchange] at hpublications
    simp only [hchange, true_and]
    have hrow : ∀ consumer entry, publicationRow env request consumer = .ok entry →
        entry.1.1 = request.batchKey env ∧ some entry.1.2 = consumer.key env := by
      intro consumer entry hentry
      obtain ⟨name, hname, hentry⟩ := Except.bind_eq_ok.1 hentry
      obtain ⟨payload, _, hentry⟩ := Except.bind_eq_ok.1 hentry
      cases hentry
      exact ⟨rfl, by rw [Consumer.key, need_eq_ok.1 hname]; rfl⟩
    constructor
    · intro hmem
      obtain ⟨entry, hentry, rfl⟩ := List.mem_map.1 hmem
      obtain ⟨consumer, hconsumer, hentry⟩ := Runs.mapM_exists_of_mem hpublications hentry
      obtain ⟨hbatch, hkey⟩ := hrow consumer entry hentry
      exact ⟨hbatch, List.mem_map.2 ⟨consumer, hconsumer, hkey.symm⟩⟩
    · rintro ⟨hbatch, hmem⟩
      obtain ⟨consumer, hconsumer, hkey⟩ := List.mem_map.1 hmem
      obtain ⟨entry, hentry, hpublication⟩ := Runs.forall₂_exists_right (Runs.mapM_eq_ok.1 hpublications) hconsumer
      obtain ⟨hentryBatch, hentryKey⟩ := hrow consumer entry hpublication
      refine List.mem_map.2 ⟨entry, hentry, Prod.ext (hentryBatch.trans hbatch.symm) ?_⟩
      exact Option.some.inj (hentryKey.trans hkey)
  · rw [if_neg hchange] at hpublications
    cases hpublications
    simp [hchange]

theorem Admitted.admits (h : Admitted env s) (hadmits : Admits env request objects proposal s next) : Admitted env next := by
  obtain ⟨owner, hbatches⟩ := hadmits.batches
  have hvalues := values_insert hadmits.fresh (batchRow env request owner (isChange env request objects s) s)
  have hget : ∀ key batch, next.batches.get? key = some batch →
      key = request.batchKey env ∧ batch = batchRow env request owner (isChange env request objects s) s ∨
        key ≠ request.batchKey env ∧ s.batches.get? key = some batch := by
    intro key batch hbatch
    rw [hbatches, IndexMap.get?_insert] at hbatch
    by_cases hkey : key = request.batchKey env
    · rw [if_pos hkey] at hbatch
      exact .inl ⟨hkey, (Option.some.inj hbatch).symm⟩
    · rw [if_neg hkey] at hbatch
      exact .inr ⟨hkey, hbatch⟩
  have hkept : ∀ key batch, s.batches.get? key = some batch → ∃ batch, next.batches.get? key = some batch := by
    intro key batch hbatch
    rw [hbatches, IndexMap.get?_insert]
    split_ifs
    · exact ⟨_, rfl⟩
    · exact ⟨batch, hbatch⟩
  have hkeys : ((newVersions env request objects s).map Version.key).Nodup := newVersions_keys hadmits.keys
  refine ⟨?_, ?_, ?_, ?_, ?_, ?_, ?_, ?_, ?_, ?_, ?_, ?_⟩
  · rw [hbatches, hvalues, List.map_append, h.numbered, hadmits.generation, List.range'_1_concat, Nat.add_comm 1]
    rfl
  · intro key batch hbatch
    obtain ⟨hkey, rfl⟩ | ⟨_, hbatch⟩ := hget key batch hbatch
    · refine ⟨hkey, ?_⟩
      show (env.intent request.text).batch = some request.batch
      rw [hadmits.text, hadmits.batch]
    · exact h.named key batch hbatch
  · rw [hbatches, hvalues]
    refine List.pairwise_append.2 ⟨h.positions, List.pairwise_singleton _ _, fun batch hbatch other hother hscope => ?_⟩
    rw [List.mem_singleton.1 hother] at hscope ⊢
    exact h.position_lt hadmits hbatch hscope
  · intro scope
    rw [hadmits.checkpoints, IndexMap.get?_insert, batchesOf, hbatches, hvalues, List.filter_append, List.getLast?_append]
    by_cases hscope : scope = request.scopeKey env
    · subst hscope
      rw [if_pos rfl, List.filter_cons_of_pos (by simp [batchRow])]
      rfl
    · rw [if_neg hscope, List.filter_cons_of_neg (by simp [batchRow, Ne.symm hscope]), h.checkpoints]
      rfl
  · intro row hrow
    rw [hadmits.history] at hrow
    rw [hadmits.generation]
    rcases List.mem_append.1 hrow with hrow | hrow
    · exact (h.dated row hrow).trans (Nat.le_succ _)
    · obtain ⟨object, _, rfl⟩ := mem_newVersions hrow
      exact le_rfl
  · rw [hadmits.history]
    refine List.pairwise_append.2 ⟨h.ordered, ?_, fun row hrow other hother _ => ?_⟩
    · exact (List.pairwise_map.1 hkeys).imp fun hne heq => absurd heq hne
    · obtain ⟨object, _, rfl⟩ := mem_newVersions hother
      exact Nat.lt_succ_of_le (h.dated row hrow)
  · intro key
    rw [hadmits.current_eq, hadmits.history, versionsUnder_append, List.getLast?_append, h.current]
  · intro key row hrow
    rw [hadmits.current_eq] at hrow
    rw [hadmits.history, versionsUnder_append, List.length_append]
    obtain hnone | ⟨written, hwritten, hkey, hone⟩ := versionsUnder_of_nodup hkeys key
    · rw [hnone] at hrow ⊢
      exact h.counted key row hrow
    · rw [hone] at hrow ⊢
      obtain ⟨object, _, rfl⟩ := mem_newVersions hwritten
      cases hrow
      subst hkey
      show (s.current.get? (object.key env)).elim 0 Version.version + 1 =
        (versionsUnder s.history (object.key env)).length + 1
      cases hheld : s.current.get? (object.key env) with
      | none =>
          rw [h.current, List.getLast?_eq_none_iff] at hheld
          rw [hheld]
          rfl
      | some held => exact congrArg (· + 1) (h.counted _ held hheld)
  · intro key row hrow
    obtain ⟨row, hrow⟩ | ⟨hbatch, _⟩ := (hadmits.outbox_iff key).1 ⟨row, hrow⟩
    · obtain ⟨batch, hbatch⟩ := h.published key row hrow
      exact hkept _ batch hbatch
    · rw [hbatch, hbatches, IndexMap.get?_insert, if_pos rfl]
      exact ⟨_, rfl⟩
  · intro key batch hbatch consumer
    rw [hadmits.outbox_iff]
    obtain ⟨hkey, rfl⟩ | ⟨hkey, hbatch⟩ := hget key batch hbatch
    · have hnone : ¬∃ row, s.outbox.get? (key, consumer) = some row := by
        rintro ⟨row, hrow⟩
        obtain ⟨other, hother⟩ := h.published _ row hrow
        dsimp only at hother
        rw [hkey, hadmits.fresh] at hother
        cases hother
      have htext : env.intent (batchRow env request owner (isChange env request objects s) s).intent = request.intent := hadmits.text
      rw [htext, or_iff_right hnone, and_iff_right hkey]
      rfl
    · simp only [hkey, false_and, or_false]
      exact h.told key batch hbatch consumer
  · intro other key intent happlied
    rw [hadmits.applied] at happlied
    by_cases hother : other = proposal
    · rw [if_pos hother] at happlied
      cases happlied
      rw [hbatches, IndexMap.get?_insert, if_pos rfl]
      exact ⟨_, rfl⟩
    · rw [if_neg hother] at happlied
      obtain ⟨batch, hbatch⟩ := h.settled other key intent happlied
      exact hkept key batch hbatch
  · intro key batch hbatch
    obtain ⟨rfl, rfl⟩ | ⟨hkey, hbatch⟩ := hget key batch hbatch
    · refine ⟨proposal, by rw [hadmits.applied, if_pos rfl]; rfl, fun other intent hother => ?_⟩
      by_contra hne
      rw [hadmits.applied, if_neg hne] at hother
      obtain ⟨held, hheld⟩ := h.settled other _ intent hother
      rw [hadmits.fresh] at hheld
      cases hheld
    · obtain ⟨own, hown, honly⟩ := h.proposed key batch hbatch
      have hne : own ≠ proposal := by
        rintro rfl
        rw [hadmits.proposed] at hown
        cases hown
      refine ⟨own, by rw [hadmits.applied, if_neg hne, hown], fun other intent hother => ?_⟩
      rw [hadmits.applied] at hother
      by_cases hsame : other = proposal
      · rw [if_pos hsame] at hother
        cases hother
        exact absurd rfl hkey
      · rw [if_neg hsame] at hother
        exact honly other intent hother

theorem Admitted.perform (h : Admitted env s) {call : Call} {reply : Reply}
    (hcall : perform env protocol s call = .ok (reply, next)) : Admitted env next := by
  obtain hquiet | ⟨key, row, written, hwrites⟩ | ⟨mid, request, objects, proposal, hmid, hadmits⟩ := perform_cases hcall
  · exact h.quiet hquiet
  · exact h.writes hwrites
  · exact (h.quiet hmid).admits hadmits

theorem store_admitted (env : Env) (protocol : Nat) (calls : List Call) : Admitted env (store env protocol calls) := by
  refine Machines.run_keeps (fun _ _ _ _ hs _ hcall => hs.perform hcall) admitted_empty (Machines.meets_true _ calls)

/-- Batches are admitted once, in one line. -/
structure AdmittedOnce (env : Env) (s : State) : Prop where
  generation : s.generation = s.batches.size
  numbers : ∀ number, 0 < number → number ≤ s.generation →
    ∃! key, ∃ batch, s.batches.get? key = some batch ∧ batch.generation = number
  checkpoints : ∀ key batch, s.batches.get? key = some batch →
    (∀ other batch', s.batches.get? other = some batch' → batch'.scopeKey = batch.scopeKey → batch'.generation ≤ batch.generation) →
      s.checkpoints.get? batch.scopeKey = some batch.position
  untouched : ∀ scope, (∀ key batch, s.batches.get? key = some batch → batch.scopeKey ≠ scope) → s.checkpoints.get? scope = none
  positions : ∀ key batch other batch', s.batches.get? key = some batch → s.batches.get? other = some batch' →
    batch.scopeKey = batch'.scopeKey → batch.generation < batch'.generation → batch.position < batch'.position
  current : ∀ key row, s.current.get? key = some row ↔
    row ∈ s.history ∧ row.key = key ∧ ∀ other ∈ s.history, other.key = key → other.generation ≤ row.generation
  versions : ∀ key row, s.current.get? key = some row → row.version = (versionsUnder s.history key).length
  told : ∀ key batch, s.batches.get? key = some batch → ∀ consumer, (∃ row, s.outbox.get? (key, consumer) = some row) ↔
    batch.changed = true ∧ some consumer ∈ (env.intent batch.intent).consumers.map (Consumer.key env)
  proposed : ∀ key batch, s.batches.get? key = some batch → ∃! proposal, ∃ row, s.proposals.get? proposal = some row ∧
    row.batchKey = key ∧ row.state = .applied ∧ row.intent = some batch.intent
  appliedOnce : ∀ key batch, s.batches.get? key = some batch → ∀ proposal row, s.proposals.get? proposal = some row →
    row.batchKey = key → row.state = .applied → row.intent = some batch.intent

theorem applied_eq_some {key batchKey : Key} {intent : Option Bytes} :
    s.applied key = some (batchKey, intent) ↔
      ∃ row, s.proposals.get? key = some row ∧ row.batchKey = batchKey ∧ row.state = .applied ∧ row.intent = intent := by
  rw [State.applied]
  cases s.proposals.get? key with
  | none => simp
  | some row =>
      rw [Option.bind_some]
      by_cases happlied : row.state = .applied
      · simp [happlied]
      · simp [happlied]

theorem Admitted.once (h : Admitted env s) : AdmittedOnce env s := by
  have hmem : ∀ key batch, s.batches.get? key = some batch → batch ∈ s.batches.values :=
    fun key batch hbatch => IndexMap.mem_values_of_get? hbatch
  have hgrows : s.batches.values.Pairwise fun a b => a.generation < b.generation := by
    rw [← List.pairwise_map, h.numbered]
    exact List.pairwise_lt_range'
  have hsize : s.generation = s.batches.size := by
    have hlength := congrArg List.length h.numbered
    rw [List.length_map, List.length_range', IndexMap.values, List.length_map] at hlength
    exact hlength.symm
  have hversions : ∀ key, (versionsUnder s.history key).Pairwise fun a b => a.generation < b.generation := by
    intro key
    refine (h.ordered.sublist List.filter_sublist).imp_of_mem fun ha hb hlt => hlt ?_
    rw [(mem_versionsUnder.1 ha).2, (mem_versionsUnder.1 hb).2]
  refine ⟨hsize, ?_, ?_, ?_, ?_, ?_, h.counted, h.told, ?_, ?_⟩
  · intro number hpos hle
    have hnumber : number ∈ s.batches.values.map Batch.generation := by
      rw [h.numbered, List.mem_range'_1]
      omega
    obtain ⟨batch, hbatch, hgeneration⟩ := List.mem_map.1 hnumber
    obtain ⟨key, hkey⟩ := IndexMap.mem_values_iff.1 hbatch
    refine ⟨key, ⟨batch, hkey, hgeneration⟩, ?_⟩
    rintro other ⟨batch', hother, hsame⟩
    have hequal := eq_of_growing hgrows (hmem other batch' hother) hbatch (hsame.trans hgeneration.symm)
    subst hequal
    rw [(h.named other _ hother).1, (h.named key _ hkey).1]
  · intro key batch hbatch hlast
    have hof : (batchesOf s batch.scopeKey).Pairwise fun a b => a.generation < b.generation := hgrows.sublist List.filter_sublist
    rw [h.checkpoints, (getLast?_eq_some_iff_greatest hof).2]
    · rfl
    · refine ⟨List.mem_filter.2 ⟨hmem key batch hbatch, by simp⟩, fun other hother => ?_⟩
      obtain ⟨hother, hscope⟩ := List.mem_filter.1 hother
      obtain ⟨otherKey, hotherKey⟩ := IndexMap.mem_values_iff.1 hother
      exact hlast otherKey other hotherKey (by simpa using hscope)
  · intro scope hnone
    have hempty : batchesOf s scope = [] := by
      refine List.eq_nil_iff_forall_not_mem.2 fun batch hbatch => ?_
      obtain ⟨hbatch, hscope⟩ := List.mem_filter.1 hbatch
      obtain ⟨key, hkey⟩ := IndexMap.mem_values_iff.1 hbatch
      exact hnone key batch hkey (by simpa using hscope)
    rw [h.checkpoints, hempty]
    rfl
  · intro key batch other batch' hbatch hother hscope hlt
    exact rel_of_growing hgrows h.positions (hmem key batch hbatch) (hmem other batch' hother) hlt hscope
  · intro key row
    rw [h.current, getLast?_eq_some_iff_greatest (hversions key)]
    simp only [mem_versionsUnder, and_assoc, and_imp]
  · intro key batch hbatch
    obtain ⟨proposal, happlied, honly⟩ := h.proposed key batch hbatch
    refine ⟨proposal, applied_eq_some.1 happlied, fun other hother => honly other _ (applied_eq_some.2 hother)⟩
  · intro key batch hbatch other row hrow hkey happlied
    obtain ⟨proposal, hproposal, honly⟩ := h.proposed key batch hbatch
    have hsame := honly other row.intent (applied_eq_some.2 ⟨row, hrow, hkey, happlied, rfl⟩)
    rw [hsame] at hrow
    obtain ⟨held, hheld, _, _, hintent⟩ := applied_eq_some.1 hproposal
    cases hheld.symm.trans hrow
    exact hintent

theorem perform_keeps_batches {call : Call} {reply : Reply} (hcall : perform env protocol s call = .ok (reply, next))
    {key : Key} {batch : Batch} (hbatch : s.batches.get? key = some batch) : next.batches.get? key = some batch := by
  obtain hquiet | ⟨_, _, _, hwrites⟩ | ⟨mid, request, objects, proposal, hmid, hadmits⟩ := perform_cases hcall
  · rw [show next.batches = s.batches from congrArg Ledger.batches hquiet.ledger]
    exact hbatch
  · rw [show next.batches = s.batches from congrArg Ledger.batches hwrites.ledger]
    exact hbatch
  · rw [← show mid.batches = s.batches from congrArg Ledger.batches hmid.ledger] at hbatch
    obtain ⟨owner, hbatches⟩ := hadmits.batches
    rw [hbatches, IndexMap.get?_insert_of_ne, hbatch]
    rintro rfl
    rw [hadmits.fresh] at hbatch
    cases hbatch

theorem apply_admitted (h : Admitted env s) {moment : Moment} {wire : ApplyWire} {reply : Reply} {key : Key} {batch : Batch}
    (hbatch : s.batches.get? key = some batch) (hwire : wire.intent = some batch.intent)
    (hcall : perform env protocol s (.apply moment wire) = .ok (reply, next)) :
    reply = .admitted (batch.answer true) ∧ next.ledger = s.ledger ∧ next.outbox = s.outbox := by
  obtain ⟨answer, happly, rfl⟩ := replying_eq_ok hcall
  obtain ⟨request, htext, hintent, hrequest, hcases⟩ := applyBatch_cases happly
  obtain ⟨hkey, hnamed⟩ := h.named key batch hbatch
  have hsame : request.batchKey env = key := by
    rw [Option.some.inj (hwire.symm.trans htext), hintent, hrequest] at hnamed
    rw [hkey, Request.batchKey, Option.some.inj hnamed]
  obtain ⟨held, hheld, rfl, hquiet⟩ | ⟨mid, objects, proposal, hmid, hadmits, _⟩ := hcases
  · rw [hsame, hbatch] at hheld
    cases hheld
    exact ⟨rfl, hquiet.ledger, hquiet.outbox⟩
  · have hfresh := hadmits.fresh
    rw [hsame, show mid.batches = s.batches from congrArg Ledger.batches hmid.ledger, hbatch] at hfresh
    cases hfresh

theorem apply_admits {moment : Moment} {wire : ApplyWire} {answer : Answer}
    (hcall : perform env protocol s (.apply moment wire) = .ok (.admitted answer, next)) (hnew : answer.duplicate = false) :
    ∃ key batch, s.batches.get? key = none ∧ next.batches.get? key = some batch ∧ wire.intent = some batch.intent ∧
      answer = batch.answer false := by
  obtain ⟨answer, happly, heq⟩ := replying_eq_ok hcall
  cases heq
  obtain ⟨request, htext, _, _, ⟨batch, _, rfl, _⟩ | ⟨mid, objects, proposal, hmid, hadmits, rfl⟩⟩ := applyBatch_cases happly
  · cases hnew
  · obtain ⟨owner, hbatches⟩ := hadmits.batches
    refine ⟨request.batchKey env, batchRow env request owner (isChange env request objects mid) mid, ?_, ?_, htext, rfl⟩
    · rw [← show mid.batches = s.batches from congrArg Ledger.batches hmid.ledger]
      exact hadmits.fresh
    · rw [hbatches, IndexMap.get?_insert_self]

/-- Every store has admitted its batches once and in one line, and an intent it admitted is answered for ever after as it was admitted. -/
theorem batches_admitted_once (env : Env) (protocol : Nat) (calls : List Call) :
    AdmittedOnce env (store env protocol calls) ∧
      (∀ call reply next, perform env protocol (store env protocol calls) call = .ok (reply, next) → ∀ key batch,
        (store env protocol calls).batches.get? key = some batch → next.batches.get? key = some batch) ∧
      (∀ moment wire answer next, perform env protocol (store env protocol calls) (.apply moment wire) = .ok (.admitted answer, next) →
        answer.duplicate = false → ∃ key batch, (store env protocol calls).batches.get? key = none ∧
          next.batches.get? key = some batch ∧ wire.intent = some batch.intent ∧ answer = batch.answer false) ∧
      ∀ moment wire reply next key batch, (store env protocol calls).batches.get? key = some batch →
        wire.intent = some batch.intent → perform env protocol (store env protocol calls) (.apply moment wire) = .ok (reply, next) →
          reply = .admitted (batch.answer true) ∧ next.ledger = (store env protocol calls).ledger ∧
            next.outbox = (store env protocol calls).outbox := by
  have hadmitted := store_admitted env protocol calls
  refine ⟨hadmitted.once, ?_, ?_, ?_⟩
  · exact fun _ _ _ hcall _ _ hbatch => perform_keeps_batches hcall hbatch
  · exact fun _ _ _ _ hcall hnew => apply_admits hcall hnew
  · exact fun _ _ _ _ _ _ hbatch hwire hcall => apply_admitted hadmitted hbatch hwire hcall

def sampleEnv : Env where
  sha256 bytes := String.ofList (bytes.map fun byte => Char.ofNat byte.toNat)
  intent _ :=
    { version := some "6", scope := some [1], batch := some [2], pins := some [3], requiredPins := some [], payload := some [],
      assessment := some [], expectedCheckpoint := some 0, checkpoint := some 7, publishInputs := some true,
      objects := [⟨some [4], some [5], some [6], some 0⟩], consumers := [⟨some [8], some [9], none, none⟩] }
  quote bytes := bytes
  pins bytes := some (bytes.map fun byte => ([byte], some [byte]))

def sampleMoment : Moment := ⟨0, 1, fun _ _ => true⟩

def sampleWire : ApplyWire where
  intent := some [10]
  owner := some [11]
  observer := some [12]
  fence := some 1
  expectedGeneration := some 0
  proposalBody := some [13]

def sampleCalls : List Call := [.claim sampleMoment ⟨some [1], some [11], some 60, .absent⟩, .apply sampleMoment sampleWire]

theorem batches_admitted_once_sample : ∃ batch next,
    (store sampleEnv 6 sampleCalls).batches.get? (sampleEnv.sha256 [2]) = some batch ∧
      perform sampleEnv 6 (store sampleEnv 6 sampleCalls) (.apply sampleMoment sampleWire) =
        .ok (.admitted (batch.answer true), next) ∧ next.outbox = (store sampleEnv 6 sampleCalls).outbox := by
  obtain ⟨_, _, _, hrepeat⟩ := batches_admitted_once sampleEnv 6 sampleCalls
  have hadmitted : ((store sampleEnv 6 sampleCalls).batches.get? (sampleEnv.sha256 [2])).isSome = true ∧
      ((store sampleEnv 6 sampleCalls).batches.get? (sampleEnv.sha256 [2])).all (fun batch => batch.intent = [10]) = true := by
    decide +kernel
  have hanswers : (perform sampleEnv 6 (store sampleEnv 6 sampleCalls) (.apply sampleMoment sampleWire)).toOption.isSome = true := by
    decide +kernel
  obtain ⟨batch, hbatch⟩ := Option.isSome_iff_exists.1 hadmitted.1
  have hintent : batch.intent = [10] := by simpa [hbatch] using hadmitted.2
  cases hcall : perform sampleEnv 6 (store sampleEnv 6 sampleCalls) (.apply sampleMoment sampleWire) with
  | error e =>
      rw [hcall] at hanswers
      cases hanswers
  | ok result =>
      obtain ⟨hreply, _, houtbox⟩ := hrepeat _ _ result.1 result.2 _ batch hbatch (congrArg some hintent.symm) hcall
      exact ⟨batch, result.2, hbatch, by rw [← hreply], houtbox⟩

/-- The object under a key as the history has it at a generation. -/
def State.asOf (s : State) (generation : Nat) (key : Key × Key) : Option Version :=
  (versionsUnder (s.history.filter fun row => row.generation ≤ generation) key).getLast?

/-- A store later on: the batches it holds stay, and what is new in its history is of later generations. -/
structure State.Extends (s later : State) : Prop where
  generation : s.generation ≤ later.generation
  batches : ∀ key batch, s.batches.get? key = some batch → later.batches.get? key = some batch
  history : ∃ more, later.history = s.history ++ more ∧ ∀ row ∈ more, s.generation < row.generation

theorem State.Extends.of_ledger (h : next.ledger = s.ledger) : s.Extends next :=
  ⟨(congrArg Ledger.generation h).ge, fun key _ hbatch => (congrArg (fun ledger => ledger.batches.get? key) h).trans hbatch, [],
    (congrArg Ledger.history h).trans (List.append_nil _).symm, by simp⟩

theorem State.Extends.trans {later : State} (h : s.Extends next) (h' : next.Extends later) : s.Extends later := by
  obtain ⟨more, hmore, hrows⟩ := h.history
  obtain ⟨rest, hrest, hrows'⟩ := h'.history
  refine ⟨h.generation.trans h'.generation, fun key batch hbatch => h'.batches key batch (h.batches key batch hbatch), more ++ rest,
    by rw [hrest, hmore, List.append_assoc], fun row hrow => ?_⟩
  obtain hrow | hrow := List.mem_append.1 hrow
  · exact hrows row hrow
  · exact h.generation.trans_lt (hrows' row hrow)

theorem perform_extends {call : Call} {reply : Reply} (hcall : perform env protocol s call = .ok (reply, next)) : s.Extends next := by
  obtain hquiet | ⟨_, _, _, hwrites⟩ | ⟨mid, request, objects, proposal, hmid, hadmits⟩ := perform_cases hcall
  · exact .of_ledger hquiet.ledger
  · exact .of_ledger hwrites.ledger
  · have hgeneration : mid.generation = s.generation := congrArg Ledger.generation hmid.ledger
    refine ⟨by rw [hadmits.generation]; omega, fun key batch => perform_keeps_batches hcall, _,
      hadmits.history.trans (by rw [show mid.history = s.history from congrArg Ledger.history hmid.ledger]), fun row hrow => ?_⟩
    obtain ⟨object, _, rfl⟩ := List.mem_map.1 hrow
    show s.generation < mid.generation + 1
    omega

/-- Whatever is called later, the batches of a store stay, and its history still tells every object as it was at the store's generation. -/
theorem earlier_generations_stay (env : Env) (protocol : Nat) (calls later : List Call) :
    (store env protocol calls).Extends (store env protocol (calls ++ later)) ∧
      ∀ key, (store env protocol (calls ++ later)).asOf (store env protocol calls).generation key =
        (store env protocol calls).current.get? key := by
  have hextends : (store env protocol calls).Extends (store env protocol (calls ++ later)) := by
    rw [store, store, Machines.run_append]
    exact Machines.run_relates (fun _ => .of_ledger rfl) (fun _ _ _ => .trans) (fun _ _ _ _ _ _ _ => trivial)
      (fun _ _ _ _ _ _ hcall => perform_extends hcall) trivial (Machines.meets_true _ later)
  refine ⟨hextends, fun key => ?_⟩
  have hadmitted := store_admitted env protocol calls
  obtain ⟨more, hmore, hrows⟩ := hextends.history
  have hold : (store env protocol calls).history.filter (fun row => row.generation ≤ (store env protocol calls).generation) =
      (store env protocol calls).history := List.filter_eq_self.2 fun row hrow => by simpa using hadmitted.dated row hrow
  have hnew : more.filter (fun row => row.generation ≤ (store env protocol calls).generation) = [] :=
    List.filter_eq_nil_iff.2 fun row hrow => by simpa using hrows row hrow
  rw [State.asOf, hmore, List.filter_append, hold, hnew, List.append_nil, hadmitted.current]

end EdgarPlatform.Admission
