import EdgarPlatform.Lookups.Inputs

/-!
# Retained inputs that contradict each other

What is retained is the writes of all inputs, and it depends on which inputs there are and not on their order. An index of its own kind leads to each thing it lists, so only the entries that are for one input alone can contradict each other.
-/

namespace EdgarPlatform.Lookups

open Records (Json Object readText readOptionalValue readArray readFields hasValue writeJson writeSortedJson)
open Agreed (Consistent)
open SortedMap (ofList)

theorem append_cons_inj {α : Type} {c : α} {front front' back back' : List α} (h : c ∉ front) (h' : c ∉ front')
    (heq : front ++ c :: back = front' ++ c :: back') : front = front' ∧ back = back' := by
  induction front generalizing front' with
  | nil =>
      cases front' with
      | nil => exact ⟨rfl, List.tail_eq_of_cons_eq heq⟩
      | cons d rest => exact absurd (List.head_eq_of_cons_eq heq ▸ List.mem_cons_self ..) h'
  | cons d rest ih =>
      cases front' with
      | nil => exact absurd (List.head_eq_of_cons_eq heq ▸ List.mem_cons_self ..) h
      | cons e rest' =>
          obtain ⟨rfl, htail⟩ := List.cons_eq_cons.1 heq
          obtain ⟨rfl, hback⟩ := ih (List.not_mem_of_not_mem_cons h) (List.not_mem_of_not_mem_cons h') htail
          exact ⟨rfl, hback⟩

theorem normal_texts (keys : List String) : (Json.arr (keys.map .str)).normal = .arr (keys.map .str) := by
  rw [Json.normal, Records.normalItems_eq, List.map_map]
  rfl

theorem writeSortedJson_texts_inj {keys keys' : List String}
    (h : writeSortedJson (.arr (keys.map .str)) = writeSortedJson (.arr (keys'.map .str))) : keys = keys' := by
  have hvalid : ∀ keys : List String, (Json.arr (keys.map .str)).Valid := fun keys => .arr fun item hitem => by
    obtain ⟨key, _, rfl⟩ := List.mem_map.1 hitem
    exact .str key
  have hnormal := Records.writeSortedJson_inj (hvalid keys) (hvalid keys') h
  rw [normal_texts, normal_texts] at hnormal
  exact List.map_injective_iff.2 (fun _ _ => Json.str.inj) (Json.arr.inj hnormal)

theorem lookupType_inj {name name' : String} {keys keys' : List String} (h : '/' ∉ name.toList) (h' : '/' ∉ name'.toList)
    (heq : lookupType name keys = lookupType name' keys') : name = name' ∧ keys = keys' := by
  have hslash : ("/" : String).toList = ['/'] := rfl
  have htext := congrArg String.toList heq
  simp only [lookupType, String.toList_append, hslash, List.append_assoc, List.singleton_append] at htext
  obtain ⟨hname, hkeys⟩ := append_cons_inj h h' (List.append_cancel_left htext)
  exact ⟨String.toList_inj.1 hname, writeSortedJson_texts_inj (String.toList_inj.1 hkeys)⟩

theorem describeReference_inj {recordType recordType' id id' : String}
    (h : describeReference recordType id = describeReference recordType' id') : recordType = recordType' ∧ id = id' := by
  have hvalid : ∀ recordType id : String,
      (Json.obj [("type", .str recordType), ("id", .str id), ("immutable", .bool true)]).Valid := by
    intro recordType id
    refine .obj fun field hfield => ?_
    simp only [List.mem_cons, List.not_mem_nil, or_false] at hfield
    rcases hfield with rfl | rfl | rfl
    · exact .str recordType
    · exact .str id
    · exact .bool true
  have hsame := Records.same_of_obj_normal_eq (Records.writeSortedJson_inj (hvalid _ _) (hvalid _ _) h)
  exact ⟨Except.ok.inj (hsame.readText "type"), Except.ok.inj (hsame.readText "id")⟩

/-- The lists of the index, each with the kind of input it lists. -/
def listings : List (String × Kind) :=
  [("record_readings", .reading), ("source_readings", .reading), ("related_readings", .reading), ("related_decisions", .decision),
    ("source_retirements", .decision), ("reading_occurrences", .occurrence)]

def singles : List (String × Kind × String) := [("record_revision", .reading, "reading"), ("deferred_record", .deferred, "record")]

structure Mark.Fits (kept : Retained) (mark : Mark) : Prop where
  listed : mark.once = false → (mark.name, kept.kind) ∈ listings ∧ mark.slot = kept.id
  single : mark.once = true → (mark.name, kept.kind, mark.slot) ∈ singles

def Retained.Fits (kept : Retained) : Prop := ∀ mark ∈ kept.marks, mark.Fits kept

variable {kept : Retained}

theorem Mark.Fits.listing {name key : String} (h : (name, kept.kind) ∈ listings) :
    (Mark.listing kept.id name key).Fits kept := ⟨fun _ => ⟨h, rfl⟩, fun hone => (nomatch hone)⟩

theorem readReading_fits {reading : Object} (h : readReading reading = .ok kept) : kept.Fits := by
  simp only [readReading, Except.bind_eq_ok, Except.ok.injEq] at h
  obtain ⟨id, _, subject, _, source, _, record, _, named, _, rfl⟩ := h
  intro mark hmark
  simp only [List.mem_cons, List.mem_map] at hmark
  rcases hmark with rfl | rfl | rfl | ⟨target, _, rfl⟩
  · exact .listing (by decide : ("record_readings", Kind.reading) ∈ listings)
  · exact ⟨fun hlisted => (by cases hlisted), fun _ => (by decide : ("record_revision", Kind.reading, "reading") ∈ singles)⟩
  · exact .listing (by decide : ("source_readings", Kind.reading) ∈ listings)
  · exact .listing (by decide : ("related_readings", Kind.reading) ∈ listings)

theorem readDecision_fits {decision : Object} (h : readDecision decision = .ok kept) : kept.Fits := by
  simp only [readDecision, Except.bind_eq_ok, Except.ok.injEq] at h
  obtain ⟨id, _, named, _, retired, _, rfl⟩ := h
  intro mark hmark
  rcases List.mem_append.1 hmark with hmark | hmark
  · obtain ⟨key, _, rfl⟩ := List.mem_map.1 hmark
    exact .listing (by decide : ("related_decisions", Kind.decision) ∈ listings)
  · obtain ⟨key, _, rfl⟩ := List.mem_map.1 hmark
    exact .listing (by decide : ("source_retirements", Kind.decision) ∈ listings)

theorem readIdentity_fits {identity : Object} (h : readIdentity identity = .ok kept) : kept.Fits := by
  simp only [readIdentity, Except.bind_eq_ok, Except.ok.injEq] at h
  obtain ⟨id, _, rfl⟩ := h
  exact fun mark hmark => absurd hmark List.not_mem_nil

theorem readDeferred_fits {deferred : Object} (h : readDeferred deferred = .ok kept) : kept.Fits := by
  simp only [readDeferred, Except.bind_eq_ok, Except.ok.injEq] at h
  obtain ⟨id, _, source, _, publication, _, locator, _, rfl⟩ := h
  intro mark hmark
  rw [List.mem_singleton.1 hmark]
  exact ⟨fun hlisted => (by cases hlisted), fun _ => (by decide : ("deferred_record", Kind.deferred, "record") ∈ singles)⟩

variable {digest : String → String}

theorem readOccurrence_fits {occurrence : Object}
    (h : readOccurrence digest occurrence = .ok kept) : kept.Fits := by
  simp only [readOccurrence, Except.bind_eq_ok, Except.ok.injEq] at h
  obtain ⟨assertion, _, rfl⟩ := h
  intro mark hmark
  rw [List.mem_singleton.1 hmark]
  exact .listing (by decide : ("reading_occurrences", Kind.occurrence) ∈ listings)

theorem readItem_fits {item : Item} (h : readItem digest item = .ok kept) :
    kept.Fits := by
  obtain ⟨kind, body⟩ := item
  cases kind with
  | reading => exact readReading_fits h
  | decision => exact readDecision_fits h
  | identity => exact readIdentity_fits h
  | deferred => exact readDeferred_fits h
  | occurrence => exact readOccurrence_fits h

/-- What a place in the index tells: the kind of input it leads to, and which one unless it is for one input alone. -/
theorem Mark.Fits.of_key_eq {kept kept' : Retained} {mark mark' : Mark} (h : mark.Fits kept) (h' : mark'.Fits kept')
    (hkey : mark.key = mark'.key) :
    kept.kind = kept'.kind ∧ mark.once = mark'.once ∧ (mark.once = false → kept.id = kept'.id) ∧
      mark.name = mark'.name ∧ mark.keys = mark'.keys := by
  have hslashes : (∀ entry ∈ listings, '/' ∉ entry.1.toList) ∧ ∀ entry ∈ singles, '/' ∉ entry.1.toList := by decide
  have hapart : ∀ entry ∈ listings, ∀ other ∈ singles, entry.1 ≠ other.1 := by decide
  have hlistings : ∀ entry ∈ listings, ∀ other ∈ listings, entry.1 = other.1 → entry.2 = other.2 := by decide
  have hsingles : ∀ entry ∈ singles, ∀ other ∈ singles, entry.1 = other.1 → entry.2 = other.2 := by decide
  have hslash : ∀ {kept : Retained} {mark : Mark}, mark.Fits kept → '/' ∉ mark.name.toList := by
    intro kept mark h
    cases honce : mark.once with
    | false => exact hslashes.1 _ (h.listed honce).1
    | true => exact hslashes.2 _ (h.single honce)
  obtain ⟨htype, hslot⟩ := Prod.ext_iff.1 (toLex_inj.1 hkey)
  obtain ⟨hname, hkeys⟩ := lookupType_inj (hslash h) (hslash h') htype
  cases honce : mark.once with
  | false =>
      obtain ⟨hlisted, hid⟩ := h.listed honce
      cases honce' : mark'.once with
      | false =>
          obtain ⟨hlisted', hid'⟩ := h'.listed honce'
          exact ⟨hlistings _ hlisted _ hlisted' hname, rfl, fun _ => hid.symm.trans (hslot.trans hid'), hname, hkeys⟩
      | true => exact absurd hname (hapart _ hlisted _ (h'.single honce'))
  | true =>
      cases honce' : mark'.once with
      | false => exact absurd hname.symm (hapart _ (h'.listed honce').1 _ (h.single honce))
      | true =>
          have hsame := hsingles _ (h.single honce) _ (h'.single honce') hname
          exact ⟨(Prod.ext_iff.1 hsame).1, rfl, fun hfalse => (nomatch hfalse), hname, hkeys⟩

def historyOf (keeps : List Retained) : History :=
  ⟨ofList (keeps.map Retained.evidenceEntry), ofList (keeps.flatMap Retained.indexEntries)⟩

/-- No two inputs are kept under one id, or led to by one entry that is for one of them alone. -/
structure Coherent (keeps : List Retained) : Prop where
  evidence : Consistent (keeps.map Retained.evidenceEntry)
  indexes : Consistent (keeps.flatMap Retained.indexEntries)

theorem Coherent.mono {keeps others : List Retained} (h : Coherent others) (hsub : ∀ kept ∈ keeps, kept ∈ others) :
    Coherent keeps where
  evidence := h.evidence.mono fun entry hentry => by
    obtain ⟨kept, hkept, rfl⟩ := List.mem_map.1 hentry
    exact List.mem_map_of_mem (hsub kept hkept)
  indexes := h.indexes.mono fun entry hentry => by
    obtain ⟨kept, hkept, hentry⟩ := List.mem_flatMap.1 hentry
    exact List.mem_flatMap.2 ⟨kept, hsub kept hkept, hentry⟩

theorem historyOf_congr {keeps others : List Retained} (h : Coherent keeps) (hsame : ∀ kept, kept ∈ keeps ↔ kept ∈ others) :
    historyOf keeps = historyOf others := by
  have hevidence : ofList (keeps.map Retained.evidenceEntry) = ofList (others.map Retained.evidenceEntry) :=
    Agreed.ofList_congr h.evidence fun entry => by simp only [List.mem_map, hsame]
  have hindexes : ofList (keeps.flatMap Retained.indexEntries) = ofList (others.flatMap Retained.indexEntries) :=
    Agreed.ofList_congr h.indexes fun entry => by simp only [List.mem_flatMap, hsame]
  rw [historyOf, historyOf, hevidence, hindexes]

theorem retain_historyOf {keeps : List Retained} (h : Coherent keeps) (hfits : ∀ kept ∈ keeps, kept.Fits)
    (hkept : kept.Fits) {next : History} :
    retain (historyOf keeps) kept = .ok next ↔ Coherent (keeps ++ [kept]) ∧ next = historyOf (keeps ++ [kept]) := by
  have hmarks : (kept.marks.map kept.markEntry).map Prod.snd = kept.indexEntries := by
    rw [List.map_map]
    rfl
  have hevidence : (keeps ++ [kept]).map Retained.evidenceEntry = keeps.map Retained.evidenceEntry ++ [kept.evidenceEntry] := by
    rw [List.map_append]
    rfl
  have hindexes : (keeps ++ [kept]).flatMap Retained.indexEntries = keeps.flatMap Retained.indexEntries ++ kept.indexEntries := by
    rw [List.flatMap_append, List.flatMap_singleton]
  -- An entry of a list leads to one input, and so does each other entry in its place.
  have hfree : ∀ mark ∈ kept.marks.map kept.markEntry, mark.1 = false →
      ∀ value, (mark.2.1, value) ∈ keeps.flatMap Retained.indexEntries ++ (kept.marks.map kept.markEntry).map Prod.snd →
        value = mark.2.2 := by
    intro entry hentry honce value hvalue
    obtain ⟨mark, hmark, rfl⟩ := List.mem_map.1 hentry
    rw [hmarks, ← hindexes] at hvalue
    obtain ⟨other, hother, hvalue⟩ := List.mem_flatMap.1 hvalue
    obtain ⟨mark', hmark', heq⟩ := List.mem_map.1 hvalue
    obtain ⟨hkey, rfl⟩ := Prod.ext_iff.1 heq
    have hotherFits : other.Fits := by
      rcases List.mem_append.1 hother with hother | hother
      · exact hfits other hother
      · exact List.mem_singleton.1 hother ▸ hkept
    obtain ⟨hkind, honce', hid, _⟩ := (hkept mark hmark).of_key_eq (hotherFits mark' hmark') hkey.symm
    show other.reference = kept.reference
    rw [Retained.reference, Retained.reference, hkind, hid honce]
  have hput : ∀ {evidence : Store}, Agreed.put contradictory (historyOf keeps).evidence (true, kept.evidenceEntry) = .ok evidence ↔
      Consistent (keeps.map Retained.evidenceEntry ++ [kept.evidenceEntry]) ∧
        evidence = ofList (keeps.map Retained.evidenceEntry ++ [kept.evidenceEntry]) := Agreed.retain_eq_ok h.evidence
  have hfold := @Agreed.foldlM_put _ _ _ _ _ contradictory _ h.indexes _ hfree
  rw [hmarks] at hfold
  rw [historyOf.eq_def (keeps ++ [kept]), hevidence, hindexes]
  simp only [retain, Except.bind_eq_ok, Except.ok.injEq]
  constructor
  · rintro ⟨evidence, hev, indexes, hix, rfl⟩
    obtain ⟨hfirst, rfl⟩ := hput.1 hev
    obtain ⟨hsecond, rfl⟩ := hfold.1 hix
    exact ⟨⟨hevidence ▸ hfirst, hindexes ▸ hsecond⟩, rfl⟩
  · rintro ⟨hcoherent, rfl⟩
    exact ⟨_, hput.2 ⟨hevidence ▸ hcoherent.evidence, rfl⟩, _, hfold.2 ⟨hindexes ▸ hcoherent.indexes, rfl⟩, rfl⟩

theorem coherent_nil : Coherent [] := ⟨Agreed.consistent_nil, Agreed.consistent_nil⟩

theorem retainInputs_eq_ok {input : Inputs} {history : History} :
    retainInputs digest input = .ok history ↔
      ∃ keeps, input.items.mapM (readItem digest) = .ok keeps ∧ Coherent keeps ∧ history = historyOf keeps := by
  suffices h : ∀ (items : List Item) (front : List Retained), Coherent front → (∀ kept ∈ front, kept.Fits) →
      (items.foldlM (retainItem digest) (historyOf front) = .ok history ↔
        ∃ keeps, items.mapM (readItem digest) = .ok keeps ∧ Coherent (front ++ keeps) ∧ history = historyOf (front ++ keeps)) by
    rw [retainInputs_eq]
    exact h input.items [] coherent_nil fun _ hkept => absurd hkept List.not_mem_nil
  intro items
  induction items with
  | nil =>
      intro front hfront _
      rw [Runs.foldlM_nil_eq_ok]
      constructor
      · exact fun h => ⟨[], rfl, by rwa [List.append_nil], by rw [List.append_nil, h]⟩
      · rintro ⟨_, hkeeps, _, rfl⟩
        cases hkeeps
        rw [List.reverse_nil, List.append_nil]
  | cons item rest ih =>
      intro front hfront hfits
      have hnext : ∀ kept, readItem digest item = .ok kept → ∀ other ∈ front ++ [kept], other.Fits := by
        intro kept hkept other hother
        rcases List.mem_append.1 hother with hother | hother
        · exact hfits other hother
        · exact List.mem_singleton.1 hother ▸ readItem_fits hkept
      rw [Runs.foldlM_cons_eq_ok]
      simp only [retainItem_eq_ok, Runs.mapM_eq_ok, List.forall₂_cons_left_iff]
      constructor
      · rintro ⟨mid, ⟨kept, hkept, hmid⟩, hrest⟩
        obtain ⟨hcoherent, rfl⟩ := (retain_historyOf hfront hfits (readItem_fits hkept)).1 hmid
        obtain ⟨keeps, hkeeps, hall, rfl⟩ := (ih _ hcoherent (hnext kept hkept)).1 hrest
        rw [List.append_assoc, List.singleton_append] at hall ⊢
        exact ⟨kept :: keeps, ⟨kept, keeps, hkept, Runs.mapM_eq_ok.1 hkeeps, rfl⟩, hall, rfl⟩
      · rintro ⟨_, ⟨kept, keeps, hkept, hkeeps, rfl⟩, hall, rfl⟩
        have hsplit : front ++ kept :: keeps = (front ++ [kept]) ++ keeps := by rw [List.append_assoc, List.singleton_append]
        rw [hsplit] at hall
        have hcoherent : Coherent (front ++ [kept]) := hall.mono fun _ => List.mem_append_left _
        refine ⟨_, ⟨kept, hkept, (retain_historyOf hfront hfits (readItem_fits hkept)).2 ⟨hcoherent, rfl⟩⟩, ?_⟩
        exact (ih _ hcoherent (hnext kept hkept)).2 ⟨keeps, Runs.mapM_eq_ok.2 hkeeps, hall, congrArg historyOf hsplit⟩

theorem retainInputs_congr {input other : Inputs} {history : History}
    (h : retainInputs digest input = .ok history)
    (hsub : ∀ item ∈ input.items, ∀ kept, readItem digest item = .ok kept → ∃ item' ∈ other.items, readItem digest item' = .ok kept)
    (hsup : ∀ item ∈ other.items, ∃ item' ∈ input.items, readItem digest item = readItem digest item') :
    retainInputs digest other = .ok history := by
  obtain ⟨keeps, hkeeps, hcoherent, rfl⟩ := retainInputs_eq_ok.1 h
  have hread : ∀ item ∈ other.items, ∃ kept, readItem digest item = .ok kept := by
    intro item hitem
    obtain ⟨item', hitem', hsame⟩ := hsup item hitem
    rw [hsame]
    exact Runs.mapM_ok_of_mem hkeeps item' hitem'
  obtain ⟨others, hothers⟩ := Runs.mapM_ok_of_forall hread
  have hsame : ∀ kept, kept ∈ keeps ↔ kept ∈ others := by
    intro kept
    constructor
    · intro hkept
      obtain ⟨item, hitem, hitemRead⟩ := Runs.mapM_exists_of_mem hkeeps hkept
      obtain ⟨item', hitem', hread'⟩ := hsub item hitem kept hitemRead
      obtain ⟨kept', hmem, hkept'⟩ := Runs.forall₂_exists_right (Runs.mapM_eq_ok.1 hothers) hitem'
      exact Except.ok.inj (hread'.symm.trans hkept') ▸ hmem
    · intro hkept
      obtain ⟨item, hitem, hitemRead⟩ := Runs.mapM_exists_of_mem hothers hkept
      obtain ⟨item', hitem', hsame⟩ := hsup item hitem
      obtain ⟨kept', hmem, hkept'⟩ := Runs.forall₂_exists_right (Runs.mapM_eq_ok.1 hkeeps) hitem'
      exact Except.ok.inj (hitemRead.symm.trans (hsame.trans hkept')) ▸ hmem
  exact retainInputs_eq_ok.2 ⟨others, hothers, hcoherent.mono fun kept => (hsame kept).2, historyOf_congr hcoherent hsame⟩

/-- What is kept once: an input by its type and its id, a revision of a source record, a deferred record by its natural key. -/
inductive ImmutableKey
  | object (recordType id : String)
  | version (name : String) (keys : List String)

def Retained.immutableKeys (kept : Retained) : List ImmutableKey :=
  .object kept.kind.recordType kept.id :: (kept.marks.filter Mark.once).map fun mark => .version mark.name mark.keys

/-- Two inputs share an immutable key and have different content. -/
def Contradict (digest : String → String) (item other : Item) : Prop :=
  ∃ kept kept' key, readItem digest item = .ok kept ∧ readItem digest other = .ok kept' ∧ key ∈ kept.immutableKeys ∧
    key ∈ kept'.immutableKeys ∧ writeSortedJson (Object.toJson item.2) ≠ writeSortedJson (Object.toJson other.2)

def Inputs.Valid (input : Inputs) : Prop := ∀ item ∈ input.items, Object.Valid item.2

theorem bodyJson_of_readItem {item : Item} (h : readItem digest item = .ok kept) :
    kept.kind = item.1 ∧ kept.bodyJson = writeSortedJson (Object.toJson item.2) := by
  obtain ⟨kind, body⟩ := item
  cases kind with
  | reading =>
      simp only [readItem, readReading, Except.bind_eq_ok, Except.ok.injEq] at h
      obtain ⟨_, _, _, _, _, _, _, _, _, _, rfl⟩ := h
      exact ⟨rfl, rfl⟩
  | decision =>
      simp only [readItem, readDecision, Except.bind_eq_ok, Except.ok.injEq] at h
      obtain ⟨_, _, _, _, _, _, rfl⟩ := h
      exact ⟨rfl, rfl⟩
  | identity =>
      simp only [readItem, readIdentity, Except.bind_eq_ok, Except.ok.injEq] at h
      obtain ⟨_, _, rfl⟩ := h
      exact ⟨rfl, rfl⟩
  | deferred =>
      simp only [readItem, readDeferred, Except.bind_eq_ok, Except.ok.injEq] at h
      obtain ⟨_, _, _, _, _, _, _, _, rfl⟩ := h
      exact ⟨rfl, rfl⟩
  | occurrence =>
      simp only [readItem, readOccurrence, Except.bind_eq_ok, Except.ok.injEq] at h
      obtain ⟨_, _, rfl⟩ := h
      exact ⟨rfl, rfl⟩

theorem readText_of_readItem {kind : Kind} {body other : Object} {kept kept' : Retained}
    (h : readItem digest (kind, body) = .ok kept) (h' : readItem digest (kind, other) = .ok kept')
    (hsame : Object.Same body other) : kept.id = kept'.id := by
  cases kind with
  | reading =>
      simp only [readItem, readReading, Except.bind_eq_ok, Except.ok.injEq] at h h'
      obtain ⟨_, hid, _, _, _, _, _, _, _, _, rfl⟩ := h
      obtain ⟨_, hid', _, _, _, _, _, _, _, _, rfl⟩ := h'
      exact Except.ok.inj (hid.symm.trans ((hsame.readText _).trans hid'))
  | decision =>
      simp only [readItem, readDecision, Except.bind_eq_ok, Except.ok.injEq] at h h'
      obtain ⟨_, hid, _, _, _, _, rfl⟩ := h
      obtain ⟨_, hid', _, _, _, _, rfl⟩ := h'
      exact Except.ok.inj (hid.symm.trans ((hsame.readText _).trans hid'))
  | identity =>
      simp only [readItem, readIdentity, Except.bind_eq_ok, Except.ok.injEq] at h h'
      obtain ⟨_, hid, rfl⟩ := h
      obtain ⟨_, hid', rfl⟩ := h'
      exact Except.ok.inj (hid.symm.trans ((hsame.readText _).trans hid'))
  | deferred =>
      simp only [readItem, readDeferred, Except.bind_eq_ok, Except.ok.injEq] at h h'
      obtain ⟨_, hid, _, _, _, _, _, _, rfl⟩ := h
      obtain ⟨_, hid', _, _, _, _, _, _, rfl⟩ := h'
      exact Except.ok.inj (hid.symm.trans ((hsame.readText _).trans hid'))
  | occurrence =>
      simp only [readItem, readOccurrence, Except.bind_eq_ok, Except.ok.injEq] at h h'
      obtain ⟨_, _, rfl⟩ := h
      obtain ⟨_, _, rfl⟩ := h'
      exact congrArg digest hsame.writeSortedJson

theorem recordType_inj {kind kind' : Kind} (h : kind.recordType = kind'.recordType) : kind = kind' := by
  cases kind <;> cases kind' <;> first | rfl | exact absurd h (by decide)

/-- Inputs that are read cannot be retained together exactly when two of them share an immutable key and differ. -/
theorem not_coherent_iff {items : List Item} (hvalid : ∀ item ∈ items, Object.Valid item.2)
    {keeps : List Retained} (hkeeps : items.mapM (readItem digest) = .ok keeps) :
    ¬ Coherent keeps ↔ ∃ item ∈ items, ∃ other ∈ items, Contradict digest item other := by
  constructor
  · intro hnot
    by_contra hnone
    -- Where no two inputs contradict each other, those with one type and one id have one content.
    have hevidence : ∀ kept ∈ keeps, ∀ kept' ∈ keeps, kept.kind = kept'.kind → kept.id = kept'.id → kept.bodyJson = kept'.bodyJson := by
      intro kept hkept kept' hkept' hkind hid
      obtain ⟨item, hitem, hread⟩ := Runs.mapM_exists_of_mem hkeeps hkept
      obtain ⟨other, hother, hread'⟩ := Runs.mapM_exists_of_mem hkeeps hkept'
      by_contra hne
      refine hnone ⟨item, hitem, other, hother, kept, kept', .object kept.kind.recordType kept.id, hread, hread',
        List.mem_cons_self .., ?_, ?_⟩
      · rw [Retained.immutableKeys, hkind, hid]
        exact List.mem_cons_self ..
      · rwa [← (bodyJson_of_readItem hread).2, ← (bodyJson_of_readItem hread').2]
    refine hnot ⟨?_, ?_⟩
    · rintro key value value' hvalue hvalue'
      obtain ⟨kept, hkept, heq⟩ := List.mem_map.1 hvalue
      obtain ⟨kept', hkept', heq'⟩ := List.mem_map.1 hvalue'
      obtain ⟨hkey, rfl⟩ := Prod.ext_iff.1 heq
      obtain ⟨hkey', rfl⟩ := Prod.ext_iff.1 heq'
      obtain ⟨hkind, hid⟩ := Prod.ext_iff.1 (toLex_inj.1 (hkey.trans hkey'.symm))
      exact hevidence kept hkept kept' hkept' (recordType_inj hkind) hid
    · rintro key value value' hvalue hvalue'
      obtain ⟨kept, hkept, hentry⟩ := List.mem_flatMap.1 hvalue
      obtain ⟨kept', hkept', hentry'⟩ := List.mem_flatMap.1 hvalue'
      obtain ⟨mark, hmark, heq⟩ := List.mem_map.1 hentry
      obtain ⟨mark', hmark', heq'⟩ := List.mem_map.1 hentry'
      obtain ⟨hkey, rfl⟩ := Prod.ext_iff.1 heq
      obtain ⟨hkey', rfl⟩ := Prod.ext_iff.1 heq'
      obtain ⟨⟨kind, body⟩, hitem, hread⟩ := Runs.mapM_exists_of_mem hkeeps hkept
      obtain ⟨⟨kind', other⟩, hother, hread'⟩ := Runs.mapM_exists_of_mem hkeeps hkept'
      obtain ⟨hkind, honce, hid, hname, hmarkKeys⟩ :=
        (readItem_fits hread mark hmark).of_key_eq (readItem_fits hread' mark' hmark') (hkey.trans hkey'.symm)
      have hkinds : kind = kind' := (bodyJson_of_readItem hread).1.symm.trans (hkind.trans (bodyJson_of_readItem hread').1)
      subst hkinds
      suffices hids : kept.id = kept'.id by
        show kept.reference = kept'.reference
        rw [Retained.reference, Retained.reference, hkind, hids]
      cases hcase : mark.once with
      | false => exact hid hcase
      | true =>
          have hbody : writeSortedJson (Object.toJson body) = writeSortedJson (Object.toJson other) := by
            by_contra hne
            refine hnone ⟨_, hitem, _, hother, kept, kept', .version mark.name mark.keys, hread, hread', ?_, ?_, hne⟩
            · exact List.mem_cons_of_mem _ (List.mem_map.2 ⟨mark, List.mem_filter.2 ⟨hmark, hcase⟩, rfl⟩)
            · rw [hname, hmarkKeys]
              exact List.mem_cons_of_mem _ (List.mem_map.2 ⟨mark', List.mem_filter.2 ⟨hmark', honce ▸ hcase⟩, rfl⟩)
          have hnormal := Records.writeSortedJson_inj (Records.Object.toJson_valid (hvalid _ hitem))
            (Records.Object.toJson_valid (hvalid _ hother)) hbody
          rw [← Records.toJson_normal, ← Records.toJson_normal] at hnormal
          exact readText_of_readItem hread hread'
            (Records.same_of_normal_eq (IndexMap.ext_entries (Json.obj.inj hnormal)))
  · rintro ⟨item, hitem, other, hother, kept, kept', key, hread, hread', hkey, hkey', hne⟩ hcoherent
    obtain ⟨_, hkept, heq⟩ := Runs.forall₂_exists_right (Runs.mapM_eq_ok.1 hkeeps) hitem
    obtain ⟨_, hkept', heq'⟩ := Runs.forall₂_exists_right (Runs.mapM_eq_ok.1 hkeeps) hother
    cases heq.symm.trans hread
    cases heq'.symm.trans hread'
    rw [← (bodyJson_of_readItem hread).2, ← (bodyJson_of_readItem hread').2] at hne
    -- One type and one id hold one content.
    have hapart : kept.kind = kept'.kind → kept.id ≠ kept'.id := by
      intro hkind hid
      refine hne (hcoherent.evidence kept.evidenceEntry.1 _ _ (List.mem_map_of_mem hkept) ?_)
      have hentry : (kept.evidenceEntry.1, kept'.bodyJson) = kept'.evidenceEntry := by
        rw [Retained.evidenceEntry, Retained.evidenceEntry, hkind, hid]
      rw [hentry]
      exact List.mem_map_of_mem hkept'
    rcases List.mem_cons.1 hkey with rfl | hkey
    · rcases List.mem_cons.1 hkey' with heq | hkey'
      · injection heq with htype hid
        exact hapart (recordType_inj htype) hid
      · obtain ⟨mark', _, hmark'⟩ := List.mem_map.1 hkey'
        cases hmark'
    · obtain ⟨mark, hmark, rfl⟩ := List.mem_map.1 hkey
      obtain ⟨hmark, honce⟩ := List.mem_filter.1 hmark
      rcases List.mem_cons.1 hkey' with heq | hkey'
      · cases heq
      · obtain ⟨mark', hmark', heq⟩ := List.mem_map.1 hkey'
        obtain ⟨hmark', honce'⟩ := List.mem_filter.1 hmark'
        injection heq with hname hkeys
        have hsingle := (readItem_fits hread mark hmark).single honce
        have hsingle' := (readItem_fits hread' mark' hmark').single honce'
        have hsingles : ∀ entry ∈ singles, ∀ other ∈ singles, entry.1 = other.1 → entry.2 = other.2 := by decide
        obtain ⟨hkind, hsame⟩ := Prod.ext_iff.1 (hsingles _ hsingle _ hsingle' hname.symm)
        have hslot : mark.slot = mark'.slot := hsame
        have hplace : mark'.key = mark.key := by rw [Mark.key, Mark.key, hname, hkeys, ← hslot]
        have hreference := hcoherent.indexes mark.key kept.reference kept'.reference
          (List.mem_flatMap.2 ⟨kept, hkept, List.mem_map.2 ⟨mark, hmark, rfl⟩⟩)
          (List.mem_flatMap.2 ⟨kept', hkept', List.mem_map.2 ⟨mark', hmark', by rw [hplace]⟩⟩)
        exact hapart hkind (describeReference_inj hreference).2

end EdgarPlatform.Lookups
