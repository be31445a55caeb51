import EdgarPlatform.Identity.Undoing
import EdgarPlatform.Library.Heights

/-!
# The order does not depend on the listing

The depth search keeps what it found in a map and gives a decision met again the depth it has there, which may be one still being found. Where the dependencies of one instant have no cycle that never happens, so the search finds the height of each decision whatever order it is asked in, and the ordered decisions are the same for every listing.
-/

namespace EdgarPlatform.Identities

def atOnce (all : IndexMap String Decision) (d : Decision) (id : String) : Bool :=
  ((all.get? id).filter fun other => other.time = d.time).isSome

/-- Among the decisions by id, the decisions of the same time that the decision of an id names as dependencies. -/
def restsOn (all : IndexMap String Decision) (x : String) : List String :=
  match all.get? x with
  | none => []
  | some d => d.depends.filter (atOnce all d)

def KeyedById (all : IndexMap String Decision) : Prop := ∀ x d, all.get? x = some d → d.id = x

theorem byId_keyed (ordered : List (Nat × Decision)) : KeyedById (byId ordered) := fun _ _ h => (byId_get? h).1

variable {all : IndexMap String Decision}

theorem mem_restsOn {x y : String} :
    y ∈ restsOn all x ↔
      ∃ d other, all.get? x = some d ∧ all.get? y = some other ∧ y ∈ d.depends ∧ other.time = d.time := by
  unfold restsOn
  cases hx : all.get? x with
  | none => simp
  | some d =>
      cases hy : all.get? y with
      | none => simp [atOnce, hy]
      | some other => simp [atOnce, hy, Option.filter]

theorem restsOn_of_get? {d : Decision} (h : all.get? d.id = some d) :
    restsOn all d.id = d.depends.filter (atOnce all d) := by
  simp [restsOn, h]

def depthStep (all : IndexMap String Decision) (fuel : Nat) (d : Decision) (acc : Nat × IndexMap String Nat)
    (id : String) : Nat × IndexMap String Nat :=
  match (all.get? id).filter (fun other => other.time = d.time) with
  | none => acc
  | some other => (max acc.1 (1 + (depth all fuel other acc.2).1), (depth all fuel other acc.2).2)

theorem depth_succ (all : IndexMap String Decision) (fuel : Nat) (d : Decision) (seen : IndexMap String Nat) :
    depth all (fuel + 1) d seen =
      match seen.get? d.id with
      | some found => (found, seen)
      | none =>
          ((d.depends.foldl (depthStep all fuel d) (0, seen.insert d.id 0)).1,
            (d.depends.foldl (depthStep all fuel d) (0, seen.insert d.id 0)).2.insert d.id
              (d.depends.foldl (depthStep all fuel d) (0, seen.insert d.id 0)).1) := rfl

/-- The map of found depths is right below a height. What is above may still be in progress. -/
def RightBelow (height : String → Nat) (bound : Nat) (seen : IndexMap String Nat) : Prop :=
  ∀ x n, seen.get? x = some n → height x < bound → n = height x

def GrewRight (height : String → Nat) (seen after : IndexMap String Nat) : Prop :=
  ∀ x, after.get? x = seen.get? x ∨ after.get? x = some (height x)

variable {height : String → Nat}

theorem GrewRight.trans {a b c : IndexMap String Nat} (h : GrewRight height a b)
    (h' : GrewRight height b c) : GrewRight height a c := fun x => by
  rcases h' x with hx | hx
  · rw [hx]
    exact h x
  · exact .inr hx

theorem RightBelow.grow {bound : Nat} {seen after : IndexMap String Nat}
    (h : RightBelow height bound seen) (hgrew : GrewRight height seen after) : RightBelow height bound after := by
  intro x n hx hle
  rcases hgrew x with hsame | hright
  · exact h x n (hsame ▸ hx) hle
  · rw [hright] at hx
    exact (Option.some.inj hx).symm

section Search

variable {all : IndexMap String Decision} {height : String → Nat} {fuel : Nat}

theorem depthStep_run (hall : KeyedById all) {d : Decision} {ids : List String} (found : Nat)
    {seen : IndexMap String Nat} {bound : Nat} (hseen : RightBelow height bound seen)
    (hlow : ∀ id ∈ ids.filter (atOnce all d), height id < bound)
    (hlook : ∀ other seen, all.get? other.id = some other → height other.id < bound → RightBelow height bound seen →
      (depth all fuel other seen).1 = height other.id ∧ GrewRight height seen (depth all fuel other seen).2) :
    (ids.foldl (depthStep all fuel d) (found, seen)).1 =
        Heights.tallest height (ids.filter (atOnce all d)) found ∧
      GrewRight height seen (ids.foldl (depthStep all fuel d) (found, seen)).2 := by
  induction ids generalizing found seen with
  | nil => exact ⟨rfl, fun x => .inl rfl⟩
  | cons id rest ih =>
      rw [List.foldl_cons, depthStep]
      cases hid : (all.get? id).filter fun other => other.time = d.time with
      | none =>
          have hskip : (id :: rest).filter (atOnce all d) = rest.filter (atOnce all d) :=
            List.filter_cons_of_neg (by rw [atOnce, hid]; decide)
          rw [hskip] at hlow ⊢
          exact ih found hseen hlow
      | some other =>
          have htake : (id :: rest).filter (atOnce all d) = id :: rest.filter (atOnce all d) :=
            List.filter_cons_of_pos (by rw [atOnce, hid]; rfl)
          rw [htake] at hlow ⊢
          have hget := (Option.filter_eq_some_iff.1 hid).1
          obtain rfl := hall id other hget
          obtain ⟨hfound, hgrew⟩ := hlook other seen hget (hlow _ (by simp)) hseen
          obtain ⟨hrest, hgrew'⟩ := ih (max found (1 + height other.id)) (hseen.grow hgrew)
            fun x hx => hlow x (by simp [hx])
          simp only [hfound]
          exact ⟨hrest, hgrew.trans hgrew'⟩

/-- The search returns the height and leaves only right entries behind, when what it may meet is right. A decision still in progress is higher than all it looks into, so it is not met. -/
theorem depth_eq (hall : KeyedById all) (hheight : Heights.Of (restsOn all) height) {d : Decision}
    {seen : IndexMap String Nat} (hget : all.get? d.id = some d) (hfuel : height d.id < fuel)
    (hseen : RightBelow height (height d.id + 1) seen) :
    (depth all fuel d seen).1 = height d.id ∧ GrewRight height seen (depth all fuel d seen).2 := by
  induction fuel generalizing d seen with
  | zero => omega
  | succ fuel ih =>
      rw [depth_succ]
      cases hmet : seen.get? d.id with
      | some found => exact ⟨hseen d.id found hmet (Nat.lt_succ_self _), fun x => .inl rfl⟩
      | none =>
          have hbelow : ∀ id ∈ restsOn all d.id, height id < height d.id := fun id hid => hheight.lt hid
          rw [restsOn_of_get? hget] at hbelow
          have hinsert : RightBelow height (height d.id) (seen.insert d.id 0) := by
            intro x n hx hlt
            have hne : x ≠ d.id := by rintro rfl; omega
            rw [IndexMap.get?_insert_of_ne _ _ hne] at hx
            exact hseen x n hx (by omega)
          have hlook : ∀ other seen, all.get? other.id = some other → height other.id < height d.id →
              RightBelow height (height d.id) seen →
              (depth all fuel other seen).1 = height other.id ∧ GrewRight height seen (depth all fuel other seen).2 :=
            fun other _ hother hlt hright => ih hother (by omega) fun x n hx hlt' => hright x n hx (by omega)
          obtain ⟨hfound, hgrew⟩ := depthStep_run hall 0 hinsert hbelow hlook
          rw [← restsOn_of_get? hget, ← hheight d.id] at hfound
          refine ⟨hfound, fun x => ?_⟩
          simp only [IndexMap.get?_insert]
          split_ifs with heq
          · subst heq
            exact .inr (by rw [hfound])
          · rcases hgrew x with h | h
            · rw [IndexMap.get?_insert_of_ne _ _ heq] at h
              exact .inl h
            · exact .inr h

end Search

theorem restsOn_keys {x y : String} (h : y ∈ restsOn all x) : x ∈ all.keys := by
  obtain ⟨d, _, hd, _⟩ := mem_restsOn.1 h
  exact IndexMap.mem_keys_of_get? hd

theorem depth_top (hall : KeyedById all)
    (hheight : Heights.Of (restsOn all) height) {d : Decision} {seen : IndexMap String Nat}
    (hget : all.get? d.id = some d) (hseen : ∀ x n, seen.get? x = some n → n = height x) :
    (depth all (all.size + 1) d seen).1 = height d.id ∧
      ∀ x n, (depth all (all.size + 1) d seen).2.get? x = some n → n = height x := by
  have hfuel : height d.id < all.size + 1 := by
    have := hheight.le_length (fun x y hy => restsOn_keys hy) d.id
    rw [IndexMap.length_keys] at this
    omega
  obtain ⟨hfound, hgrew⟩ := depth_eq hall hheight hget hfuel fun x n hx _ => hseen x n hx
  refine ⟨hfound, fun x n hx => ?_⟩
  rcases hgrew x with hsame | hright
  · exact hseen x n (hsame ▸ hx)
  · rw [hright] at hx
    exact (Option.some.inj hx).symm

def rank (height : String → Nat) (d : Decision) : Nat := if d.op = .merge then height d.id else 0

def depthsStep (all : IndexMap String Decision) (acc : IndexMap String Nat × IndexMap String Nat)
    (entry : Nat × Decision) : IndexMap String Nat × IndexMap String Nat :=
  if entry.2.op = .merge then
    (acc.1.insert entry.2.id (depth all (all.size + 1) entry.2 acc.2).1,
      (depth all (all.size + 1) entry.2 acc.2).2)
  else (acc.1.insert entry.2.id 0, acc.2)

theorem depths_def (ordered : List (Nat × Decision)) :
    depths ordered = (ordered.foldl (depthsStep (byId ordered)) (IndexMap.empty, IndexMap.empty)).1 := rfl

theorem depthsStep_run (hall : KeyedById all)
    (hheight : Heights.Of (restsOn all) height) {read : List (Nat × Decision)}
    (hread : ∀ entry ∈ read, all.get? entry.2.id = some entry.2) (found seen : IndexMap String Nat)
    (hseen : ∀ x n, seen.get? x = some n → n = height x) :
    (read.foldl (depthsStep all) (found, seen)).1 =
      found.extend (read.map fun entry => (entry.2.id, rank height entry.2)) := by
  induction read generalizing found seen with
  | nil => rfl
  | cons entry rest ih =>
      have hrest := ih fun other hother => hread other (by simp [hother])
      rw [List.foldl_cons, List.map_cons, IndexMap.extend_cons, depthsStep]
      split_ifs with hop
      · obtain ⟨hfound, hright⟩ := depth_top hall hheight (hread entry (by simp)) hseen
        rw [hrest _ _ hright, hfound, rank, if_pos hop]
      · rw [hrest _ _ hseen, rank, if_neg hop]

theorem depths_get? {ordered : List (Nat × Decision)} (hids : (ordered.map (·.2.id)).Nodup)
    (hheight : Heights.Of (restsOn (byId ordered)) height) {entry : Nat × Decision} (h : entry ∈ ordered) :
    (depths ordered).get? entry.2.id = some (rank height entry.2) := by
  have hrun := depthsStep_run (byId_keyed ordered) hheight (fun other hother => byId_get?_of_mem hids hother)
    IndexMap.empty IndexMap.empty (by simp)
  have hnodup : ((ordered.map fun entry => (entry.2.id, rank height entry.2)).map Prod.fst).Nodup := by
    simpa [List.map_map, Function.comp_def] using hids
  rw [depths_def, hrun]
  exact (IndexMap.get?_ofList hnodup).2 (List.mem_map.2 ⟨entry, h, rfl⟩)

def RestsOn (decisions : List Decision) (d other : Decision) : Prop :=
  d ∈ decisions ∧ other ∈ decisions ∧ other.id ∈ d.depends ∧ other.time = d.time

/-- The dependencies among the decisions of one instant form no cycle. -/
def Acyclic (decisions : List Decision) : Prop := ∀ d, ¬ Relation.TransGen (RestsOn decisions) d d

theorem acyclic_of_lower {decisions : List Decision} (level : Decision → Nat)
    (h : ∀ d ∈ decisions, ∀ other ∈ decisions, other.id ∈ d.depends → other.time = d.time → level other < level d) :
    Acyclic decisions := by
  have hlower : ∀ d other, Relation.TransGen (RestsOn decisions) d other → level other < level d := by
    intro d other hrests
    induction hrests with
    | single hstep => exact h _ hstep.1 _ hstep.2.1 hstep.2.2.1 hstep.2.2.2
    | tail _ hstep ih => exact (h _ hstep.1 _ hstep.2.1 hstep.2.2.1 hstep.2.2.2).trans ih
  exact fun d hd => (hlower d d hd).false

theorem restsOn_lift {ordered : List (Nat × Decision)} {decisions : List Decision}
    (hmem : ∀ entry ∈ ordered, entry.2 ∈ decisions) {x y : String}
    (h : Relation.TransGen (fun y x => y ∈ restsOn (byId ordered) x) y x) :
    ∃ d other, (byId ordered).get? x = some d ∧ (byId ordered).get? y = some other ∧
      Relation.TransGen (RestsOn decisions) d other := by
  have hlisted : ∀ x d, (byId ordered).get? x = some d → d ∈ decisions := fun x d hd => by
    obtain ⟨_, index, hindex⟩ := byId_get? hd
    exact hmem _ hindex
  have hone : ∀ x y, y ∈ restsOn (byId ordered) x →
      ∃ d other, (byId ordered).get? x = some d ∧ (byId ordered).get? y = some other ∧
        RestsOn decisions d other := fun x y hy => by
    obtain ⟨d, other, hd, hother, hdepends, htime⟩ := mem_restsOn.1 hy
    obtain rfl := (byId_get? hother).1
    exact ⟨d, other, hd, hother, hlisted _ _ hd, hlisted _ _ hother, hdepends, htime⟩
  induction h with
  | single hy =>
      obtain ⟨d, other, hd, hother, hrests⟩ := hone _ _ hy
      exact ⟨d, other, hd, hother, .single hrests⟩
  | tail _ hz ih =>
      obtain ⟨d, other, hd, hother, hrests⟩ := ih
      obtain ⟨e, d', he, hd', hrests'⟩ := hone _ _ hz
      cases hd.symm.trans hd'
      exact ⟨e, other, he, hother, .head hrests' hrests⟩

variable {decisions others : List Decision} {clock : Int}

theorem inEffect_decisions (decisions : List Decision) (clock : Int) :
    (inEffect decisions clock).map Prod.snd = decisions.filter fun d => d.time ≤ clock := by
  have h : ((decisions.zipIdx.map fun entry => (entry.2, entry.1)).map Prod.snd) = decisions := by
    simp [List.map_map, Function.comp_def]
  rw [inEffect]
  conv_rhs => rw [← h, List.filter_map]
  rfl

theorem inEffect_ids (h : (decisions.map (·.id)).Nodup) : ((inEffect decisions clock).map (·.2.id)).Nodup := by
  have hmap : (inEffect decisions clock).map (·.2.id) = ((inEffect decisions clock).map Prod.snd).map (·.id) := by
    simp [List.map_map, Function.comp_def]
  rw [hmap, inEffect_decisions]
  exact h.sublist (List.filter_sublist.map _)

theorem exists_heights (hacyclic : Acyclic decisions) (clock : Int) :
    ∃ height, Heights.Of (restsOn (byId (inEffect decisions clock))) height := by
  refine Heights.exists_of_wellFounded (Heights.wellFounded_of_acyclic (fun x y hy => restsOn_keys hy) ?_)
  intro x hx
  obtain ⟨d, other, hd, hother, hrests⟩ := restsOn_lift (fun entry hentry => by
    have := (mem_inEffect.1 hentry).1
    exact List.mem_of_getElem? this) hx
  cases hd.symm.trans hother
  exact hacyclic d hrests

theorem byId_perm (hids : (decisions.map (·.id)).Nodup) (hperm : decisions.Perm others) (x : String) :
    (byId (inEffect decisions clock)).get? x = (byId (inEffect others clock)).get? x := by
  have hsome : ∀ {decisions : List Decision}, (decisions.map (·.id)).Nodup → ∀ d,
      (byId (inEffect decisions clock)).get? x = some d ↔ d.id = x ∧ InEffect decisions clock d := by
    intro decisions hids d
    constructor
    · intro h
      obtain ⟨hid, index, hindex⟩ := byId_get? h
      have := mem_inEffect.1 hindex
      exact ⟨hid, List.mem_of_getElem? this.1, this.2⟩
    · rintro ⟨rfl, hmem, htime⟩
      obtain ⟨index, hindex⟩ := List.mem_iff_getElem?.1 hmem
      have heffect : (index, d) ∈ inEffect decisions clock := mem_inEffect.2 ⟨hindex, htime⟩
      exact byId_get?_of_mem (inEffect_ids hids) heffect
  refine Option.ext fun d => ?_
  rw [hsome hids, hsome ((hperm.map _).nodup_iff.1 hids), InEffect, InEffect, hperm.mem_iff]

theorem inOrder_perm (hids : (decisions.map (·.id)).Nodup) (hacyclic : Acyclic decisions)
    (hperm : decisions.Perm others) (clock : Int) :
    (inOrder decisions clock).map Prod.snd = (inOrder others clock).map Prod.snd := by
  obtain ⟨height, hheight⟩ := exists_heights hacyclic clock
  have hsame : restsOn (byId (inEffect decisions clock)) = restsOn (byId (inEffect others clock)) := by
    funext x
    have hall : ∀ d, atOnce (byId (inEffect decisions clock)) d = atOnce (byId (inEffect others clock)) d :=
      fun d => funext fun id => by rw [atOnce, atOnce, byId_perm hids hperm]
    simp only [restsOn, byId_perm hids hperm, hall]
  have hheight' : Heights.Of (restsOn (byId (inEffect others clock))) height := hsame ▸ hheight
  have hids' : (others.map (·.id)).Nodup := (hperm.map _).nodup_iff.1 hids
  refine Sorting.sortByKey_map_eq (fun d => toLex (d.time, toLex (rank height d, d.id))) ?_ ?_ ?_ ?_
  · rw [inEffect_decisions, inEffect_decisions]
    exact hperm.filter _
  · intro entry hentry
    rw [sortKey, depths_get? (inEffect_ids hids) hheight hentry, Option.getD_some]
  · intro entry hentry
    rw [sortKey, depths_get? (inEffect_ids hids') hheight' hentry, Option.getD_some]
  · intro a ha b hb hab
    rw [inEffect_decisions] at ha hb
    have hid : a.id = b.id := by
      simp only [EmbeddingLike.apply_eq_iff_eq, Prod.mk.injEq] at hab
      exact hab.2.2
    exact List.inj_on_of_nodup_map hids (List.mem_of_mem_filter ha) (List.mem_of_mem_filter hb) hid

end EdgarPlatform.Identities
