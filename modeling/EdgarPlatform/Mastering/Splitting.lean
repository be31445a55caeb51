import EdgarPlatform.Mastering.Consistent

/-!
# Splitting a merge

A split gives a master that was merged away the records that were first bound to it. It looks only at the master it was merged into, and a record keeps the master it was first bound to through every later merge, so a split undoes a merge where the records were with the masters they were first bound to. A record that had come to the merged-away master from a third one stays behind; one that was first bound there and had come to the other master before goes with it.
-/

namespace EdgarPlatform.Mastering

open Records (Json Object)

variable {db db' : Tables}

variable {assertion entity : String}

variable {row : RecordRow}

def Spares (keep gone : String) (db : Tables) (call : Call) : Prop :=
  ∀ answer db', perform db call = .ok (answer, db') → ∀ left right,
    (movesOf call.env call.settings db call.delivery).get? left = some right → left ∉ [keep, gone] ∧ right ∉ [keep, gone]

/-- A file merges one master into another: what its decisions had merged before, and what they merge in all. -/
structure MergeAt (db : Tables) (call : Call) (db' : Tables) (keep gone : String) (before whole : Merging) : Prop where
  accepted : perform db call = .ok (.merged, db')
  nonempty : call.delivery.records ≠ []
  merges : ∃ front body back next, fileDecisions call.env call.settings db call.delivery = .ok (front ++ body :: back) ∧
    mergesOf call.env call.settings db call.delivery front = .ok before ∧
    consolidate call.env call.settings.kind (lastFile db + 1) before body = .ok next ∧
    before.moved.get? gone = none ∧ next.moved.get? gone = some keep ∧
    mergesOf call.env call.settings db call.delivery (front ++ body :: back) = .ok whole

variable {keep gone : String} {before whole : Merging}

def BoundAt (db : Tables) (assertion entity : String) : Prop := ∃ row, db.records.get? assertion = some row ∧ row.entity = some entity

/-- The records of both masters are bound as they were just before a merge of them. -/
def Restored (before db : Tables) (keep gone : String) : Prop :=
  ∀ assertion row, before.records.get? assertion = some row → ∀ entity ∈ [keep, gone], row.entity = some entity →
    BoundAt db assertion entity

def mergesAt (db : Tables) (call : Call) (keep gone : String) (n : Nat) (check : Merging → Merging → Bool) : Bool :=
  (fileDecisions call.env call.settings db call.delivery).toOption.any fun decided =>
    (decided.drop n).head?.any fun body =>
      (mergesOf call.env call.settings db call.delivery (decided.take n)).toOption.any fun before =>
        (consolidate call.env call.settings.kind (lastFile db + 1) before body).toOption.any fun next =>
          (mergesOf call.env call.settings db call.delivery decided).toOption.any fun whole =>
            before.moved.get? gone = none && next.moved.get? gone = some keep && check before whole

theorem mergeAt_of_mergesAt {call : Call} (n : Nat) (check : Merging → Merging → Bool)
    (haccepted : (perform db call).toOption.any (fun result => result.1 = .merged) = true) (hnonempty : call.delivery.records ≠ [])
    (h : mergesAt db call keep gone n check = true) :
    ∃ before whole, MergeAt db call (Machines.after perform db call) keep gone before whole ∧ check before whole = true := by
  obtain ⟨⟨answer, db'⟩, hok, hmerged⟩ := Except.exists_of_any haccepted
  obtain rfl := of_decide_eq_true hmerged
  obtain ⟨decided, hdecided, h⟩ := Except.exists_of_any h
  obtain ⟨body, hbody, h⟩ := (Option.any_eq_true _ _).1 h
  obtain ⟨before, hbefore, h⟩ := Except.exists_of_any h
  obtain ⟨next, hnext, h⟩ := Except.exists_of_any h
  obtain ⟨whole, hwhole, h⟩ := Except.exists_of_any h
  simp only [Bool.and_eq_true, decide_eq_true_eq] at h
  obtain ⟨back, hback⟩ := List.head?_eq_some_iff.1 hbody
  have hsplit : decided.take n ++ body :: back = decided := by
    rw [← hback]
    exact List.take_append_drop n decided
  refine ⟨before, whole, ⟨?_, hnonempty, decided.take n, body, back, next, ?_, hbefore, hnext, h.1.1, h.1.2, ?_⟩, h.2⟩
  · rw [Machines.after_of_ok hok]
    exact hok
  · rw [hsplit]
    exact hdecided
  · rw [hsplit]
    exact hwhole

def founding : Call :=
  companyCall (fun n => "n" ++ toString n) [gleifRecord "a0" "s0" "1" [("lei", .str "L0")], gleifRecord "a1" "s1" "1" [("lei", .str "L1")],
    gleifRecord "a2" "s2" "1" [("cik", .str "C1")]]

/-- A record that two of the companies share, and one that the kept one shares with the third. -/
def chaining : Call :=
  companyCall (fun n => "m" ++ toString n) [gleifRecord "a3" "s3" "1" [("lei", .str "L1"), ("cik", .str "C1")],
    gleifRecord "a4" "s4" "1" [("lei", .arr [.str "L0", .str "L1"])]]

theorem chaining_merges : mergesAt (Machines.run perform .empty [founding]) chaining "n0" "n1" 2
    (fun before _ => (before.db.records.get? "a2").bind RecordRow.entity = some "n1") = true := by
  decide +kernel

/-- A record that had come to the merged-away master from a third one stays with the kept master. -/
theorem split_keeps_third : ¬ ∀ calls call db' keep gone before whole later,
    MergeAt (Machines.run perform .empty calls) call db' keep gone before whole → Machines.Meets perform (Spares keep gone) db' later →
      Restored before.db (split (Machines.run perform db' later) keep gone) keep gone := by
  intro hall
  obtain ⟨before, whole, hmerge, hcheck⟩ := mergeAt_of_mergesAt 2 _ (by decide +kernel) (by decide) chaining_merges
  obtain ⟨row, hrow, hentity⟩ := Option.bind_eq_some_iff.1 (of_decide_eq_true hcheck)
  obtain ⟨last, hlast, hbound⟩ := hall [founding] chaining _ "n0" "n1" before whole [] hmerge trivial "a2" row hrow "n1" (by simp) hentity
  have hleft : ((split (Machines.after perform (Machines.run perform .empty [founding]) chaining) "n0" "n1").records.get? "a2").bind
      RecordRow.entity = some "n0" := by decide +kernel
  rw [Machines.run_nil] at hlast
  rw [hlast, Option.bind_some, hbound] at hleft
  exact absurd hleft (by decide)

end EdgarPlatform.Mastering
