import EdgarPlatform.Library.SortedMap

/-!
# Maps filled without contradiction

A map may be filled entry by entry, each refused where its key has another value. A whole list is taken exactly when no key has two values in it, and the map it gives depends on which entries there are and on nothing else.
-/

namespace Agreed

variable {κ α ε : Type}

def Consistent (entries : List (κ × α)) : Prop :=
  ∀ key value other, (key, value) ∈ entries → (key, other) ∈ entries → value = other

theorem Consistent.mono {entries others : List (κ × α)} (h : Consistent others) (hsub : ∀ entry ∈ entries, entry ∈ others) :
    Consistent entries := fun key value other hvalue hother => h key value other (hsub _ hvalue) (hsub _ hother)

variable {entries : List (κ × α)}

theorem consistent_append_singleton (h : Consistent entries) {entry : κ × α} :
    Consistent (entries ++ [entry]) ↔ ∀ value, (entry.1, value) ∈ entries → value = entry.2 := by
  constructor
  · exact fun hall value hvalue => hall entry.1 value entry.2 (List.mem_append_left _ hvalue) (by simp)
  · intro hentry key value other hvalue hother
    rcases List.mem_append.1 hvalue with hone | hone
    · rcases List.mem_append.1 hother with htwo | htwo
      · exact h key value other hone htwo
      · cases List.mem_singleton.1 htwo
        exact hentry value hone
    · cases List.mem_singleton.1 hone
      rcases List.mem_append.1 hother with htwo | htwo
      · exact (hentry other htwo).symm
      · cases List.mem_singleton.1 htwo
        rfl

theorem consistent_nil : Consistent ([] : List (κ × α)) := fun _ _ _ h => absurd h List.not_mem_nil

open SortedMap (ofList)

variable [LinearOrder κ]

theorem get?_ofList (h : Consistent entries) {key : κ} {value : α} :
    (ofList entries).get? key = some value ↔ (key, value) ∈ entries := by
  rw [SortedMap.get?_ofList]
  constructor
  · exact fun hget => List.mem_reverse.1 (IndexMap.lookupEntry_eq_some hget)
  · intro hmem
    have hkey : key ∈ (ofList entries).keys := SortedMap.mem_keys_ofList.2 (List.mem_map_of_mem hmem)
    obtain ⟨other, hother⟩ := SortedMap.mem_keys_iff.1 hkey
    rw [SortedMap.get?_ofList] at hother
    rw [hother, h key other value (List.mem_reverse.1 (IndexMap.lookupEntry_eq_some hother)) hmem]

theorem ofList_congr {entries others : List (κ × α)} (h : Consistent entries) (hsame : ∀ entry, entry ∈ entries ↔ entry ∈ others) :
    ofList entries = ofList others := by
  have hothers : Consistent others := h.mono fun entry => (hsame entry).2
  refine SortedMap.ext_get? fun key => Option.ext fun value => ?_
  rw [get?_ofList h, get?_ofList hothers, hsame]

def retain [DecidableEq α] (refusal : ε) (held : SortedMap κ α) (entry : κ × α) : Except ε (SortedMap κ α) :=
  if (held.get? entry.1).any fun value => value ≠ entry.2 then .error refusal else .ok (held.insert entry.1 entry.2)

theorem ofList_append_singleton (entries : List (κ × α)) (entry : κ × α) :
    ofList (entries ++ [entry]) = (ofList entries).insert entry.1 entry.2 := by
  rw [SortedMap.ofList, SortedMap.extend_append]
  rfl

variable [DecidableEq α] {refusal : ε}

theorem retain_eq_ok (h : Consistent entries) {entry : κ × α} {next : SortedMap κ α} :
    retain refusal (ofList entries) entry = .ok next ↔ Consistent (entries ++ [entry]) ∧ next = ofList (entries ++ [entry]) := by
  rw [retain, Except.ite_error_eq_ok, consistent_append_singleton h, ofList_append_singleton]
  refine and_congr ?_ ⟨fun heq => (Except.ok.inj heq).symm, fun heq => congrArg Except.ok heq.symm⟩
  rw [Option.any_eq_true]
  constructor
  · intro hnone value hvalue
    by_contra hne
    exact hnone ⟨value, (get?_ofList h).2 hvalue, decide_eq_true hne⟩
  · intro hentry ⟨value, hvalue, hne⟩
    exact of_decide_eq_true hne (hentry value ((get?_ofList h).1 hvalue))

/-- One entry more, refused where its key has another value if it is to be checked. -/
def put (refusal : ε) (held : SortedMap κ α) (mark : Bool × κ × α) : Except ε (SortedMap κ α) :=
  if mark.1 then retain refusal held mark.2 else .ok (held.insert mark.2.1 mark.2.2)

/-- Entries that are not checked, where none of them can have another value, are as good as checked. -/
theorem foldlM_put {entries : List (κ × α)} (h : Consistent entries) {marks : List (Bool × κ × α)}
    (hfree : ∀ mark ∈ marks, mark.1 = false → ∀ value, (mark.2.1, value) ∈ entries ++ marks.map Prod.snd → value = mark.2.2)
    {next : SortedMap κ α} :
    marks.foldlM (put refusal) (ofList entries) = .ok next ↔
      Consistent (entries ++ marks.map Prod.snd) ∧ next = ofList (entries ++ marks.map Prod.snd) := by
  induction marks generalizing entries with
  | nil =>
      rw [Runs.foldlM_nil_eq_ok, List.map_nil, List.append_nil]
      exact ⟨fun heq => ⟨h, heq.symm⟩, fun heq => heq.2.symm⟩
  | cons mark rest ih =>
      have hone : put refusal (ofList entries) mark = .ok (ofList (entries ++ [mark.2])) ↔ Consistent (entries ++ [mark.2]) := by
        rw [put]
        split_ifs with hchecked
        · rw [retain_eq_ok h]
          exact and_iff_left rfl
        · rw [ofList_append_singleton]
          refine iff_of_true rfl ((consistent_append_singleton h).2 fun value hvalue => ?_)
          exact hfree mark (List.mem_cons_self ..) (by simpa using hchecked) value (List.mem_append_left _ hvalue)
      have hput : ∀ mid, put refusal (ofList entries) mark = .ok mid → mid = ofList (entries ++ [mark.2]) := by
        intro mid hmid
        rw [put] at hmid
        split_ifs at hmid with hchecked
        · exact ((retain_eq_ok h).1 hmid).2
        · rw [ofList_append_singleton]
          exact (Except.ok.inj hmid).symm
      have hsplit : entries ++ List.map Prod.snd (mark :: rest) = (entries ++ [mark.2]) ++ rest.map Prod.snd := by
        rw [List.map_cons, List.append_assoc, List.singleton_append]
      have hrest : ∀ other ∈ rest, other.1 = false →
          ∀ value, (other.2.1, value) ∈ (entries ++ [mark.2]) ++ rest.map Prod.snd → value = other.2.2 :=
        fun other hother hchecked value hvalue =>
          hfree other (List.mem_cons_of_mem _ hother) hchecked value (hsplit ▸ hvalue)
      rw [Runs.foldlM_cons_eq_ok, hsplit]
      constructor
      · rintro ⟨mid, hmid, hlast⟩
        cases hput mid hmid
        exact (ih (hone.1 hmid) hrest).1 hlast
      · intro hlast
        have hfirst : Consistent (entries ++ [mark.2]) := hlast.1.mono fun _ => List.mem_append_left _
        exact ⟨_, hone.2 hfirst, (ih hfirst hrest).2 hlast⟩

end Agreed
