import Mathlib.Data.List.Forall2
import Mathlib.Data.List.Infix

/-!
# Patterns of file names

A pattern's star stands for any run of characters and its question mark for one. The matcher walks the pattern and the name together and goes back to the last star it passed. It looks for an equal character before it looks for a star, so a star that is reached at a star of the name stands for that one character: what it accepts is the splits in which every such star does, and it misses a name exactly when the name can be split but not so.
-/

namespace EdgarPlatform.Formats

/-- The name can be split among the characters of the pattern. -/
inductive Covers : List Char → List Char → Prop
  | done : Covers [] []
  | star {pattern rest : List Char} (run : List Char) (h : Covers pattern rest) : Covers ('*' :: pattern) (run ++ rest)
  | one {pattern rest : List Char} (d : Char) (h : Covers pattern rest) : Covers ('?' :: pattern) (d :: rest)
  | same {pattern rest : List Char} {c : Char} (hstar : c ≠ '*') (hone : c ≠ '?') (h : Covers pattern rest) :
      Covers (c :: pattern) (c :: rest)

/-- The name can be split so that a star of the pattern that begins at a star of the name covers nothing else. -/
inductive CoversStars : List Char → List Char → Prop
  | done : CoversStars [] []
  | star {pattern name rest : List Char} (hhead : name.head? ≠ some '*') (hrest : rest <:+ name) (h : CoversStars pattern rest) :
      CoversStars ('*' :: pattern) name
  | literal {pattern rest : List Char} (h : CoversStars pattern rest) : CoversStars ('*' :: pattern) ('*' :: rest)
  | one {pattern rest : List Char} (d : Char) (h : CoversStars pattern rest) : CoversStars ('?' :: pattern) (d :: rest)
  | same {pattern rest : List Char} {c : Char} (hstar : c ≠ '*') (hone : c ≠ '?') (h : CoversStars pattern rest) :
      CoversStars (c :: pattern) (c :: rest)

variable {pattern name : List Char}

theorem CoversStars.covers (h : CoversStars pattern name) : Covers pattern name := by
  induction h with
  | done => exact .done
  | star _ hrest _ ih =>
      obtain ⟨run, rfl⟩ := hrest
      exact .star run ih
  | literal _ ih => exact .star ['*'] ih
  | one d _ ih => exact .one d ih
  | same hstar hone _ ih => exact .same hstar hone ih

/-- Where the matcher stands: what is left of the pattern and of the name, what comes after the last star passed, and the part of the name that is left to try it on. -/
structure Scan where
  pattern : List Char
  name : List Char
  star : Option (List Char)
  mark : List Char
  behind : name.length ≤ mark.length

def Scan.start (pattern name : List Char) : Scan := ⟨pattern, name, none, name, le_refl _⟩

def Scan.back (s : Scan) : Option Scan := s.star.map fun after => ⟨after, s.mark.tail, some after, s.mark.tail, le_refl _⟩

def Scan.step (s : Scan) (d : Char) (name : List Char) (h : s.name = d :: name) : Option Scan :=
  match s.pattern with
  | [] => s.back
  | c :: pattern =>
      if c = '?' ∨ c = d then
        some ⟨pattern, name, s.star, s.mark, le_trans (Nat.le_succ _) (by have := s.behind; rw [h] at this; exact this)⟩
      else if c = '*' then some ⟨pattern, s.name, some pattern, s.name, le_refl _⟩
      else s.back

theorem Scan.step_decreases {s next : Scan} {d : Char} {name : List Char} {h : s.name = d :: name} (hstep : s.step d name h = some next) :
    Prod.Lex (· < ·) (· < ·) (next.mark.length, next.pattern.length) (s.mark.length, s.pattern.length) := by
  have hbehind := s.behind
  rw [h, List.length_cons] at hbehind
  have hback : s.back = some next → next.mark.length < s.mark.length := by
    intro hback
    obtain ⟨after, _, rfl⟩ := Option.map_eq_some_iff.1 hback
    show s.mark.tail.length < s.mark.length
    rw [List.length_tail]
    omega
  rw [Scan.step] at hstep
  split at hstep
  · exact .left _ _ (hback hstep)
  · rename_i c pattern hpattern
    split_ifs at hstep
    · obtain rfl := Option.some.inj hstep
      rw [hpattern]
      exact .right _ (Nat.lt_succ_self _)
    · obtain rfl := Option.some.inj hstep
      rcases Nat.lt_or_eq_of_le s.behind with hlt | heq
      · exact .left _ _ hlt
      · show Prod.Lex _ _ (s.name.length, pattern.length) _
        rw [heq, hpattern]
        exact .right _ (Nat.lt_succ_self _)
    · exact .left _ _ (hback hstep)

def Scan.run (s : Scan) : Bool :=
  match h : s.name with
  | [] => s.pattern.all (· = '*')
  | d :: name =>
      match _hstep : s.step d name h with
      | none => false
      | some next => next.run
termination_by (s.mark.length, s.pattern.length)
decreasing_by exact Scan.step_decreases _hstep

def matchesPattern (pattern name : List Char) : Bool := (Scan.start pattern name).run

theorem coversStars_nil {pattern : List Char} : CoversStars pattern [] ↔ pattern.all (· = '*') = true := by
  induction pattern with
  | nil => exact iff_of_true .done rfl
  | cons c pattern ih =>
      rw [List.all_cons, Bool.and_eq_true, decide_eq_true_eq, ← ih]
      constructor
      · intro h
        cases h with
        | star _ hrest h => exact ⟨rfl, List.suffix_nil.1 hrest ▸ h⟩
      · rintro ⟨rfl, h⟩
        exact .star (by simp) (List.suffix_refl _) h

/-- A character of the pattern is read as one character of the name, a star only as a star. -/
def ReadAs (c d : Char) : Prop := c = '?' ∨ c = d

theorem coversStars_read {c d : Char} (h : ReadAs c d) :
    CoversStars (c :: pattern) (d :: name) ↔ CoversStars pattern name := by
  constructor
  · intro hcovers
    cases hcovers with
    | star hhead _ _ =>
        rcases h with hone | rfl
        · exact absurd hone (by decide)
        · exact absurd rfl hhead
    | literal hrest => exact hrest
    | one _ hrest => exact hrest
    | same _ _ hrest => exact hrest
  · intro hrest
    by_cases hone : c = '?'
    · exact hone ▸ .one d hrest
    · obtain rfl := h.resolve_left hone
      by_cases hstar : c = '*'
      · exact hstar ▸ .literal hrest
      · exact .same hstar hone hrest

theorem coversStars_star (hhead : name.head? ≠ some '*') :
    CoversStars ('*' :: pattern) name ↔ ∃ rest, rest <:+ name ∧ CoversStars pattern rest := by
  constructor
  · intro h
    cases h with
    | star _ hsuffix hrest => exact ⟨_, hsuffix, hrest⟩
    | literal _ => exact absurd rfl hhead
    | same hstar _ _ => exact absurd rfl hstar
  · rintro ⟨rest, hsuffix, h⟩
    exact .star hhead hsuffix h

theorem not_coversStars {c d : Char} (hread : ¬ ReadAs c d) (hstar : c ≠ '*') :
    ¬ CoversStars (c :: pattern) (d :: name) := by
  intro h
  cases h with
  | star _ _ _ => exact hstar rfl
  | literal _ => exact hstar rfl
  | one _ _ => exact hread (.inl rfl)
  | same _ _ _ => exact hread (.inr rfl)

theorem covers_rest {front read : List Char} (h : List.Forall₂ ReadAs front read) :
    ∀ {part : List Char}, part <:+ read ++ name → CoversStars (front ++ pattern) part →
      ∃ rest, rest <:+ name ∧ CoversStars pattern rest := by
  induction h with
  | nil => exact fun hpart hcovers => ⟨_, hpart, hcovers⟩
  | @cons c d front read hread hrest ih =>
      intro part hpart hcovers
      rcases List.suffix_cons_iff.1 hpart with rfl | hpart
      · exact ih (List.suffix_refl _) ((coversStars_read hread).1 hcovers)
      · cases hcovers with
        | star _ hsuffix hmore => exact ih (hsuffix.trans hpart) hmore
        | @literal _ rest hmore => exact ih ((List.suffix_cons _ rest).trans hpart) hmore
        | @one _ rest _ hmore => exact ih ((List.suffix_cons _ rest).trans hpart) hmore
        | @same _ rest _ _ _ hmore => exact ih ((List.suffix_cons _ rest).trans hpart) hmore

/-- What the matcher remembers of the last star: the pattern after it was read off the name from the mark on. -/
def Scan.Remembers (s : Scan) : Prop :=
  ∀ after, s.star = some after → ∃ front read, after = front ++ s.pattern ∧ s.mark = read ++ s.name ∧ List.Forall₂ ReadAs front read

/-- The pattern after the last star covers a later part of the name. -/
def Scan.Later (s : Scan) : Prop := ∃ after, s.star = some after ∧ ∃ part, part <:+ s.mark.tail ∧ CoversStars after part

variable {s : Scan}

theorem Scan.Remembers.later_rest (h : s.Remembers) (hlater : s.Later) :
    ∃ rest, rest <:+ s.name ∧ CoversStars s.pattern rest := by
  obtain ⟨after, hafter, part, hpart, hcovers⟩ := hlater
  obtain ⟨front, read, rfl, hmark, hread⟩ := h after hafter
  refine covers_rest hread ?_ hcovers
  rw [← hmark]
  exact hpart.trans (List.tail_suffix _)

theorem Scan.run_nil (h : s.name = []) : s.run = s.pattern.all (· = '*') := by
  rw [Scan.run]
  split
  · rfl
  · rename_i hname
    rw [h] at hname
    cases hname

theorem Scan.run_cons {d : Char} {name : List Char} (h : s.name = d :: name) :
    s.run = (s.step d name h).elim false Scan.run := by
  rw [Scan.run]
  split
  · rename_i hname
    rw [h] at hname
    cases hname
  · rename_i hname
    obtain ⟨rfl, rfl⟩ := List.cons.inj (h.symm.trans hname)
    split
    · rename_i hstep
      rw [hstep]
      rfl
    · rename_i next hstep
      rw [hstep]
      rfl

theorem suffix_eq_or_tail {part whole : List Char} (h : part <:+ whole) : part = whole ∨ part <:+ whole.tail := by
  cases whole with
  | nil => exact .inl (List.suffix_nil.1 h)
  | cons c rest => exact List.suffix_cons_iff.1 h

def Scan.Accepts (s : Scan) : Prop := CoversStars s.pattern s.name ∨ s.Later

theorem Scan.back_spec (hnot : ¬ CoversStars s.pattern s.name) :
    (s.back = none → ¬ s.Accepts) ∧ ∀ next, s.back = some next → next.Remembers ∧ (next.Accepts ↔ s.Accepts) := by
  constructor
  · rintro hback (hcovers | ⟨after, hafter, _⟩)
    · exact hnot hcovers
    · rw [Option.map_eq_none_iff.1 hback] at hafter
      cases hafter
  · intro next hback
    obtain ⟨after, hafter, rfl⟩ := Option.map_eq_some_iff.1 hback
    refine ⟨fun other hother => ⟨[], [], (Option.some.inj hother).symm, rfl, .nil⟩, ?_⟩
    constructor
    · rintro (hcovers | ⟨other, hother, part, hpart, hcovers⟩)
      · exact .inr ⟨after, hafter, _, List.suffix_refl _, hcovers⟩
      · obtain rfl := Option.some.inj hother
        exact .inr ⟨after, hafter, part, hpart.trans (List.tail_suffix _), hcovers⟩
    · rintro (hcovers | ⟨other, hother, part, hpart, hcovers⟩)
      · exact absurd hcovers hnot
      · obtain rfl := Option.some.inj (hafter.symm.trans hother)
        rcases suffix_eq_or_tail hpart with rfl | hpart
        · exact .inl hcovers
        · exact .inr ⟨after, rfl, part, hpart, hcovers⟩

/-- One turn keeps what the loop is to accept, and the loop stops only where it is to accept nothing. -/
theorem Scan.step_spec {d : Char} {name : List Char} (hname : s.name = d :: name) (h : s.Remembers) :
    (s.step d name hname = none → ¬ s.Accepts) ∧
      ∀ next, s.step d name hname = some next → next.Remembers ∧ (next.Accepts ↔ s.Accepts) := by
  rw [Scan.step]
  split
  · rename_i hpattern
    refine Scan.back_spec fun hcovers => ?_
    rw [hpattern, hname] at hcovers
    cases hcovers
  · rename_i c pattern hpattern
    split_ifs with hread hstar
    · refine ⟨fun hnone => (nomatch hnone), fun next hnext => ?_⟩
      obtain rfl := Option.some.inj hnext
      refine ⟨fun after hafter => ?_, or_congr ?_ Iff.rfl⟩
      · obtain ⟨front, read, hfront, hmark, hforall⟩ := h after hafter
        refine ⟨front ++ [c], read ++ [d], ?_, ?_, List.rel_append hforall (.cons hread .nil)⟩
        · rw [hfront, hpattern, List.append_assoc]
          rfl
        · show s.mark = read ++ [d] ++ name
          rw [hmark, hname, List.append_assoc]
          rfl
      · rw [hpattern, hname]
        exact (coversStars_read hread).symm
    · refine ⟨fun hnone => (nomatch hnone), fun next hnext => ?_⟩
      obtain rfl := Option.some.inj hnext
      have hhead : s.name.head? ≠ some '*' := by
        rw [hname]
        intro heq
        exact hread (.inr (hstar.trans (Option.some.inj heq).symm))
      have hcovers : CoversStars s.pattern s.name ↔ ∃ rest, rest <:+ s.name ∧ CoversStars pattern rest := by
        rw [hpattern, hstar]
        exact coversStars_star hhead
      refine ⟨fun after hafter => ⟨[], [], (Option.some.inj hafter).symm, rfl, .nil⟩, ?_⟩
      constructor
      · rintro (hnow | ⟨after, hafter, part, hpart, hlater⟩)
        · exact .inl (hcovers.2 ⟨s.name, List.suffix_refl _, hnow⟩)
        · obtain rfl := Option.some.inj hafter
          exact .inl (hcovers.2 ⟨part, hpart.trans (List.tail_suffix _), hlater⟩)
      · intro haccepts
        have hnow : CoversStars s.pattern s.name := by
          refine haccepts.elim id fun hlater => ?_
          obtain ⟨rest, hrest, hmore⟩ := h.later_rest hlater
          rw [hpattern, hstar] at hmore ⊢
          cases hmore with
          | star _ hsuffix hmore => exact .star hhead (hsuffix.trans hrest) hmore
          | literal hmore => exact .star hhead ((List.suffix_cons _ _).trans hrest) hmore
          | same hne _ _ => exact absurd rfl hne
        obtain ⟨rest, hrest, hmore⟩ := hcovers.1 hnow
        rcases suffix_eq_or_tail hrest with rfl | hrest
        · exact .inl hmore
        · exact .inr ⟨pattern, rfl, rest, hrest, hmore⟩
    · refine Scan.back_spec ?_
      rw [hpattern, hname]
      exact not_coversStars hread hstar

theorem Scan.run_iff (h : s.Remembers) : s.run = true ↔ s.Accepts := by
  induction s using Scan.run.induct with
  | case1 s hname =>
      rw [Scan.run_nil hname, ← coversStars_nil, Scan.Accepts, hname]
      refine ⟨.inl, fun haccepts => haccepts.elim id fun hlater => ?_⟩
      obtain ⟨rest, hrest, hcovers⟩ := h.later_rest hlater
      rw [hname] at hrest
      exact List.suffix_nil.1 hrest ▸ hcovers
  | case2 s d name hname hstep =>
      rw [Scan.run_cons hname, hstep]
      exact iff_of_false (fun h => nomatch h) ((Scan.step_spec hname h).1 hstep)
  | case3 s d name hname next hstep ih =>
      obtain ⟨hremembers, haccepts⟩ := (Scan.step_spec hname h).2 next hstep
      rw [Scan.run_cons hname, hstep, Option.elim_some, ih hremembers, haccepts]

theorem matchesPattern_iff : matchesPattern pattern name = true ↔ CoversStars pattern name := by
  have hstart : (Scan.start pattern name).Remembers := fun after h => nomatch h
  rw [matchesPattern, Scan.run_iff hstart]
  constructor
  · rintro (hcovers | ⟨after, hafter, _⟩)
    · exact hcovers
    · cases hafter
  · exact fun hcovers => .inl hcovers

/-- The matcher is right about a name exactly when the pattern does not cover it or covers it so that a star that begins at a star covers nothing else. -/
theorem matchesPattern_right_iff (pattern name : List Char) : (matchesPattern pattern name = true ↔ Covers pattern name) ↔
    (Covers pattern name → CoversStars pattern name) := by
  rw [matchesPattern_iff]
  exact ⟨fun h => h.2, fun h => ⟨CoversStars.covers, h⟩⟩

/-- A star misses a name that begins with one. -/
theorem matchesPattern_misses : Covers ['*'] ['*', 'a'] ∧ matchesPattern ['*'] ['*', 'a'] = false := by
  refine ⟨.star ['*', 'a'] .done, Bool.eq_false_iff.2 fun h => ?_⟩
  cases matchesPattern_iff.1 h with
  | star hhead _ _ => exact hhead rfl
  | literal hrest => cases hrest
  | same hstar _ _ => exact hstar rfl

end EdgarPlatform.Formats
