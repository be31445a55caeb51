import Mathlib.Data.List.Nodup
import Mathlib.Order.Basic
import Mathlib.Algebra.Order.Group.Nat
import Mathlib.Data.List.Perm.Subperm
import Mathlib.Logic.Relation
import Mathlib.Logic.Function.Basic

/-!
# Parent maps and the classes they keep

A union-find without ranks is a partial function from a key to the next key on the way to its root. This module says what following it does, that following ends within as many moves as there are keys with a next one, and how linking one root under another changes the classes. The classes are compared with the equivalence closure of the pairs that were joined, so a program that links roots one pair at a time computes that closure.
-/

namespace Forest

variable {κ : Type} {next : κ → Option κ}

/-- Following the map from a key ends at a key with no next one. -/
inductive Climbs (next : κ → Option κ) : κ → κ → Prop
  | stop {x : κ} : next x = none → Climbs next x x
  | step {x y r : κ} : next x = some y → Climbs next y r → Climbs next x r

def Ends (next : κ → Option κ) : Prop := ∀ x, ∃ r, Climbs next x r

variable {x r : κ}

theorem Climbs.root_next (h : Climbs next x r) : next r = none := by
  induction h with
  | stop hx => exact hx
  | step _ _ ih => exact ih

theorem Climbs.root (h : Climbs next x r) : Climbs next r r := .stop h.root_next

theorem Climbs.eq_of_next_none (h : Climbs next x r) (hx : next x = none) : r = x := by
  cases h with
  | stop _ => rfl
  | step hy _ => rw [hx] at hy; cases hy

theorem Climbs.unique {x r s : κ} (hr : Climbs next x r) (hs : Climbs next x s) : r = s := by
  induction hr with
  | stop hx => exact (hs.eq_of_next_none hx).symm
  | step hy _ ih =>
      cases hs with
      | stop hx => rw [hx] at hy; cases hy
      | step hy' hs' =>
          rw [hy] at hy'
          cases hy'
          exact ih hs'

theorem Ends.next_ne (h : Ends next) {x y : κ} (hnext : next x = some y) : y ≠ x := by
  rintro rfl
  obtain ⟨r, hr⟩ := h y
  induction hr with
  | stop hx => rw [hx] at hnext; cases hnext
  | @step _ z _ hz _ ih =>
      cases hnext.symm.trans hz
      exact ih hnext

theorem Climbs.extend {next' : κ → Option κ} {x y r : κ} (h : Climbs next x y)
    (hmore : ∀ z w, next z = some w → next' z = some w) (hr : Climbs next' y r) : Climbs next' x r := by
  induction h with
  | stop _ => exact hr
  | step hz _ ih => exact .step (hmore _ _ hz) (ih hr)

def climb (next : κ → Option κ) : Nat → κ → Option κ
  | 0, x => if (next x).isSome then none else some x
  | fuel + 1, x =>
      match next x with
      | none => some x
      | some y => climb next fuel y

/-- The keys passed on the way to the root, each once. -/
inductive Path (next : κ → Option κ) : List κ → κ → κ → Prop
  | stop {x : κ} : next x = none → Path next [] x x
  | step {x y r : κ} {keys : List κ} : next x = some y → Path next keys y r → Path next (x :: keys) x r

theorem Climbs.path (h : Climbs next x r) : ∃ keys, Path next keys x r := by
  induction h with
  | stop hx => exact ⟨[], .stop hx⟩
  | step hy _ ih =>
      obtain ⟨keys, hkeys⟩ := ih
      exact ⟨_, .step hy hkeys⟩

theorem Path.unique {keys others : List κ} {x r s : κ} (h : Path next keys x r)
    (h' : Path next others x s) : keys = others := by
  induction h generalizing others with
  | stop hx =>
      cases h' with
      | stop _ => rfl
      | step hy _ => rw [hx] at hy; cases hy
  | step hy _ ih =>
      cases h' with
      | stop hx => rw [hx] at hy; cases hy
      | step hy' htail =>
          rw [hy] at hy'
          cases hy'
          rw [ih htail]

variable {keys : List κ}

theorem Path.suffix {x r z : κ} (h : Path next keys x r) (hz : z ∈ keys) :
    ∃ others, others.length ≤ keys.length ∧ Path next others z r := by
  induction h with
  | stop _ => simp at hz
  | @step x _ _ keys hy htail ih =>
      rcases List.mem_cons.1 hz with rfl | hz
      · exact ⟨_, Nat.le_refl _, .step hy htail⟩
      · obtain ⟨others, hlen, hothers⟩ := ih hz
        exact ⟨others, Nat.le_succ_of_le hlen, hothers⟩

theorem Path.nodup (h : Path next keys x r) : keys.Nodup := by
  induction h with
  | stop _ => exact List.nodup_nil
  | @step x _ _ keys hy htail ih =>
      refine List.nodup_cons.2 ⟨fun hx => ?_, ih⟩
      -- A key met again would have both the whole path and a shorter one.
      obtain ⟨others, hlen, hothers⟩ := htail.suffix hx
      have hsame := hothers.unique (.step hy htail)
      rw [hsame, List.length_cons] at hlen
      omega

theorem Path.next_ne_none {x r z : κ} (h : Path next keys x r) (hz : z ∈ keys) :
    next z ≠ none := by
  induction h with
  | stop _ => simp at hz
  | step hy _ ih =>
      rcases List.mem_cons.1 hz with rfl | hz
      · simp [hy]
      · exact ih hz

theorem Path.climb {keys : List κ} {x r : κ} (h : Path next keys x r) {fuel : Nat}
    (hfuel : keys.length ≤ fuel) : climb next fuel x = some r := by
  induction h generalizing fuel with
  | stop hx => cases fuel <;> simp [Forest.climb, hx]
  | step hy _ ih =>
      cases fuel with
      | zero => simp at hfuel
      | succ fuel =>
          simp only [Forest.climb, hy]
          exact ih (by simpa using hfuel)

theorem Climbs.climb_of_keys (h : Climbs next x r)
    (hkeys : ∀ z, next z ≠ none → z ∈ keys) {fuel : Nat} (hfuel : keys.length ≤ fuel) :
    climb next fuel x = some r := by
  obtain ⟨passed, hpassed⟩ := h.path
  have hsub : passed ⊆ keys := fun z hz => hkeys z (hpassed.next_ne_none hz)
  exact hpassed.climb (Nat.le_trans (hpassed.nodup.subperm hsub).length_le hfuel)

def SameRoot (next : κ → Option κ) (x y : κ) : Prop := ∃ r, Climbs next x r ∧ Climbs next y r

theorem SameRoot.symm {x y : κ} (h : SameRoot next x y) : SameRoot next y x := by
  obtain ⟨r, hx, hy⟩ := h
  exact ⟨r, hy, hx⟩

theorem SameRoot.trans {x y z : κ} (h : SameRoot next x y) (h' : SameRoot next y z) :
    SameRoot next x z := by
  obtain ⟨r, hx, hy⟩ := h
  obtain ⟨s, hy', hz⟩ := h'
  cases hy.unique hy'
  exact ⟨r, hx, hz⟩

theorem Climbs.sameRoot (h : Climbs next x r) : SameRoot next x r := ⟨r, h, h.root⟩

theorem sameRoot_iff_eq {x y r s : κ} (hx : Climbs next x r) (hy : Climbs next y s) :
    SameRoot next x y ↔ r = s := by
  constructor
  · rintro ⟨t, hx', hy'⟩
    rw [hx.unique hx', hy.unique hy']
  · rintro rfl
    exact ⟨r, hx, hy⟩

variable [DecidableEq κ]

def link (next : κ → Option κ) (child parent : κ) : κ → Option κ :=
  Function.update next child (some parent)

theorem link_self (next : κ → Option κ) (child parent : κ) : link next child parent child = some parent := by
  simp [link]

theorem link_of_ne (next : κ → Option κ) {child parent x : κ} (h : x ≠ child) :
    link next child parent x = next x := by
  simp [link, h]

theorem Climbs.link {x r child parent : κ} (h : Climbs next x r) (hchild : next child = none)
    (hparent : next parent = none) (hne : child ≠ parent) :
    Climbs (link next child parent) x (if r = child then parent else r) := by
  induction h with
  | @stop x hx =>
      split_ifs with hr
      · subst hr
        exact .step (link_self next _ _) (.stop (by rw [link_of_ne next hne.symm]; exact hparent))
      · exact .stop (by rw [link_of_ne next hr]; exact hx)
  | @step x y r hy _ ih =>
      have hx : x ≠ child := by
        rintro rfl
        rw [hchild] at hy
        cases hy
      exact .step (by rw [link_of_ne next hx]; exact hy) ih

theorem Ends.link {child parent : κ} (hends : Ends next) (hchild : next child = none)
    (hparent : next parent = none) (hne : child ≠ parent) : Ends (link next child parent) := fun x => by
  obtain ⟨r, hr⟩ := hends x
  exact ⟨_, hr.link hchild hparent hne⟩

def gather (next : κ → Option κ) (children : List κ) (parent : κ) : κ → Option κ := fun x =>
  if x ∈ children then some parent else next x

theorem Climbs.gather {x r parent : κ} {children : List κ} (h : Climbs next x r) (hchildren : ∀ c ∈ children, next c = none)
    (hparent : next parent = none) (hnot : parent ∉ children) :
    Climbs (gather next children parent) x (if r ∈ children then parent else r) := by
  have hroot : Climbs (Forest.gather next children parent) parent parent := by
    refine .stop ?_
    rw [Forest.gather, if_neg hnot, hparent]
  induction h with
  | @stop x hx =>
      split_ifs with hmem
      · refine .step ?_ hroot
        rw [Forest.gather, if_pos hmem]
      · refine .stop ?_
        rw [Forest.gather, if_neg hmem, hx]
  | @step x y r hy _ ih =>
      have hx : x ∉ children := by
        intro hmem
        rw [hchildren x hmem] at hy
        cases hy
      refine .step ?_ ih
      rw [Forest.gather, if_neg hx, hy]

theorem sameRoot_link {child parent x y : κ} (hends : Ends next) (hchild : next child = none)
    (hparent : next parent = none) (hne : child ≠ parent) :
    SameRoot (link next child parent) x y ↔
      SameRoot next x y ∨ (SameRoot next x child ∧ SameRoot next parent y) ∨
        (SameRoot next x parent ∧ SameRoot next child y) := by
  obtain ⟨r, hr⟩ := hends x
  obtain ⟨s, hs⟩ := hends y
  have hc : Climbs next child child := .stop hchild
  have hp : Climbs next parent parent := .stop hparent
  rw [sameRoot_iff_eq (hr.link hchild hparent hne) (hs.link hchild hparent hne),
    sameRoot_iff_eq hr hs, sameRoot_iff_eq hr hc, sameRoot_iff_eq hp hs, sameRoot_iff_eq hr hp,
    sameRoot_iff_eq hc hs]
  split_ifs with hrc hsc hsc <;> grind

def Linked (pairs : List (κ × κ)) : κ → κ → Prop := Relation.EqvGen fun x y => (x, y) ∈ pairs

omit [DecidableEq κ] in
theorem linked_refl (pairs : List (κ × κ)) (x : κ) : Linked pairs x x := .refl x

variable {pairs : List (κ × κ)}

omit [DecidableEq κ] in
theorem Linked.symm {x y : κ} (h : Linked pairs x y) : Linked pairs y x :=
  Relation.EqvGen.symm _ _ h

omit [DecidableEq κ] in
theorem Linked.trans {x y z : κ} (h : Linked pairs x y)
    (h' : Linked pairs y z) : Linked pairs x z :=
  Relation.EqvGen.trans _ _ _ h h'

omit [DecidableEq κ] in
theorem linked_of_mem {x y : κ} (h : (x, y) ∈ pairs) : Linked pairs x y :=
  .rel _ _ h

omit [DecidableEq κ] in
theorem Linked.mono {pairs others : List (κ × κ)} {x y : κ} (h : Linked pairs x y)
    (hsub : pairs ⊆ others) : Linked others x y :=
  Relation.EqvGen.mono (fun _ _ hmem => hsub hmem) _ _ h

omit [DecidableEq κ] in
theorem linked_congr {pairs others : List (κ × κ)} (h : ∀ pair, pair ∈ pairs ↔ pair ∈ others)
    (x y : κ) : Linked pairs x y ↔ Linked others x y :=
  ⟨fun hxy => hxy.mono fun _ => (h _).1, fun hxy => hxy.mono fun _ => (h _).2⟩

omit [DecidableEq κ] in
@[simp] theorem linked_nil {x y : κ} : Linked ([] : List (κ × κ)) x y ↔ x = y := by
  constructor
  · intro h
    induction h with
    | rel _ _ h => simp at h
    | refl _ => rfl
    | symm _ _ _ ih => exact ih.symm
    | trans _ _ _ _ _ ih ih' => exact ih.trans ih'
  · rintro rfl
    exact linked_refl _ _

omit [DecidableEq κ] in
/-- One more pair joins the classes of its two sides. -/
theorem linked_concat {left right x y : κ} :
    Linked (pairs ++ [(left, right)]) x y ↔
      Linked pairs x y ∨ (Linked pairs x left ∧ Linked pairs right y) ∨
        (Linked pairs x right ∧ Linked pairs left y) := by
  have hsub : pairs ⊆ pairs ++ [(left, right)] := List.subset_append_left _ _
  have hpair : Linked (pairs ++ [(left, right)]) left right := linked_of_mem (by simp)
  constructor
  · intro h
    induction h with
    | rel x y h =>
        rcases List.mem_append.1 h with h | h
        · exact Or.inl (linked_of_mem h)
        · obtain ⟨rfl, rfl⟩ : x = left ∧ y = right := by simpa using h
          exact Or.inr (Or.inl ⟨linked_refl _ _, linked_refl _ _⟩)
    | refl x => exact Or.inl (linked_refl _ _)
    | symm x y _ ih =>
        rcases ih with h | ⟨h, h'⟩ | ⟨h, h'⟩
        · exact Or.inl h.symm
        · exact Or.inr (Or.inr ⟨h'.symm, h.symm⟩)
        · exact Or.inr (Or.inl ⟨h'.symm, h.symm⟩)
    | trans x y z _ _ ih ih' =>
        rcases ih with h | ⟨h, h'⟩ | ⟨h, h'⟩ <;> rcases ih' with k | ⟨k, k'⟩ | ⟨k, k'⟩
        · exact Or.inl (h.trans k)
        · exact Or.inr (Or.inl ⟨h.trans k, k'⟩)
        · exact Or.inr (Or.inr ⟨h.trans k, k'⟩)
        · exact Or.inr (Or.inl ⟨h, h'.trans k⟩)
        · exact Or.inr (Or.inl ⟨h, k'⟩)
        · exact Or.inl (h.trans k')
        · exact Or.inr (Or.inr ⟨h, h'.trans k⟩)
        · exact Or.inl (h.trans k')
        · exact Or.inr (Or.inr ⟨h, k'⟩)
  · rintro (h | ⟨h, h'⟩ | ⟨h, h'⟩)
    · exact h.mono hsub
    · exact ((h.mono hsub).trans hpair).trans (h'.mono hsub)
    · exact ((h.mono hsub).trans hpair.symm).trans (h'.mono hsub)

/-- A parent map keeps the classes of the joined pairs: its climbs end, and two keys end at one root exactly when the pairs connect them. -/
structure Keeps (next : κ → Option κ) (pairs : List (κ × κ)) : Prop where
  ends : Ends next
  sameRoot_iff : ∀ x y, SameRoot next x y ↔ Linked pairs x y

omit [DecidableEq κ] in
theorem keeps_nil (hnext : ∀ x, next x = none) : Keeps next [] where
  ends := fun x => ⟨x, .stop (hnext x)⟩
  sameRoot_iff := fun x y => by
    rw [linked_nil, sameRoot_iff_eq (.stop (hnext x)) (.stop (hnext y))]

/-- Linking the roots of two keys, either under the other, keeps the classes with the pair joined. -/
theorem Keeps.link (h : Keeps next pairs) {left right leftRoot rightRoot : κ}
    (hleft : Climbs next left leftRoot) (hright : Climbs next right rightRoot)
    (hne : leftRoot ≠ rightRoot) {child parent : κ}
    (hends : child = rightRoot ∧ parent = leftRoot ∨ child = leftRoot ∧ parent = rightRoot) :
    Keeps (Forest.link next child parent) (pairs ++ [(left, right)]) := by
  have hl : ∀ x, SameRoot next x leftRoot ↔ Linked pairs x left := fun x => by
    rw [← h.sameRoot_iff]
    exact ⟨fun hx => hx.trans hleft.sameRoot.symm, fun hx => hx.trans hleft.sameRoot⟩
  have hr : ∀ x, SameRoot next x rightRoot ↔ Linked pairs x right := fun x => by
    rw [← h.sameRoot_iff]
    exact ⟨fun hx => hx.trans hright.sameRoot.symm, fun hx => hx.trans hright.sameRoot⟩
  have hl' : ∀ y, SameRoot next leftRoot y ↔ Linked pairs left y := fun y =>
    ⟨fun hy => ((hl y).1 hy.symm).symm, fun hy => ((hl y).2 hy.symm).symm⟩
  have hr' : ∀ y, SameRoot next rightRoot y ↔ Linked pairs right y := fun y =>
    ⟨fun hy => ((hr y).1 hy.symm).symm, fun hy => ((hr y).2 hy.symm).symm⟩
  rcases hends with ⟨rfl, rfl⟩ | ⟨rfl, rfl⟩
  · refine ⟨h.ends.link hright.root_next hleft.root_next hne.symm, fun x y => ?_⟩
    rw [sameRoot_link h.ends hright.root_next hleft.root_next hne.symm, linked_concat,
      h.sameRoot_iff, hl, hr, hl', hr', or_comm (a := Linked pairs x right ∧ _)]
  · refine ⟨h.ends.link hleft.root_next hright.root_next hne, fun x y => ?_⟩
    rw [sameRoot_link h.ends hleft.root_next hright.root_next hne, linked_concat,
      h.sameRoot_iff, hl, hr, hl', hr']

end Forest
