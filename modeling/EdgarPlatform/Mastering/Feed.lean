import EdgarPlatform.Library.Feeds
import EdgarPlatform.Mastering.Named

/-!
# The change feed

A reader follows the masters by the files that changed them. It asks for the masters beyond its place, a page at a time, and goes on from the last one it received. A page is read by two statements, the rest of the file the reader stands in and then the later files, and files may be committed between them. Each file writes the masters it changes under a number beyond every other, so the masters are a feed and the reader follows it.
-/

namespace EdgarPlatform.Mastering

open Records (Json Object)

theorem le_lastFile {db : Tables} {row : MasterRow} (h : row ∈ db.masters.values) : row.changedFile ≤ lastFile db := by
  have hle : ∀ (numbers : List Nat) (start : Nat), start ≤ numbers.foldl max start ∧ ∀ n ∈ numbers, n ≤ numbers.foldl max start := by
    intro numbers
    induction numbers with
    | nil => exact fun start => ⟨le_refl _, fun n hn => by cases hn⟩
    | cons first rest ih =>
        intro start
        obtain ⟨hstart, hrest⟩ := ih (max start first)
        refine ⟨(le_max_left _ _).trans hstart, fun n hn => ?_⟩
        obtain rfl | hn := List.mem_cons.1 hn
        · exact (le_max_right _ _).trans hstart
        · exact hrest n hn
  exact (hle _ 0).2 _ (List.mem_map_of_mem h)

/-- Rows of masters some of which are written again under a number. -/
structure Rewritten (fileNo : Nat) (old new : IndexMap String MasterRow) : Prop where
  kept : ∀ entity ∈ old.keys, entity ∈ new.keys
  fresh : ∀ entity row, new.get? entity = some row → old.get? entity = some row ∨ row.changedFile = fileNo

variable {env : Env} {settings : Settings} {fileNo : Nat}

theorem Rewritten.refl (rows : IndexMap String MasterRow) : Rewritten fileNo rows rows :=
  ⟨fun _ hentity => hentity, fun _ _ hrow => .inl hrow⟩

theorem Rewritten.trans {old mid new : IndexMap String MasterRow} (h : Rewritten fileNo old mid) (h' : Rewritten fileNo mid new) :
    Rewritten fileNo old new := by
  refine ⟨fun entity hentity => h'.kept entity (h.kept entity hentity), fun entity row hrow => ?_⟩
  obtain hmid | hnew := h'.fresh entity row hrow
  · exact h.fresh entity row hmid
  · exact .inr hnew

theorem writtenRow_cases (now : Int) (old : Option MasterRow) (body : Object) :
    old = some (writtenRow now fileNo old body) ∨ (writtenRow now fileNo old body).changedFile = fileNo := by
  cases old with
  | none => exact .inr rfl
  | some row =>
      by_cases hbody : row.body = body
      · exact .inl (congrArg some (if_pos hbody).symm)
      · right
        rw [writtenRow, if_neg hbody]

theorem Merging.Of.rewritten {kind : String} {db : Tables} {s : Merging} (h : Merging.Of env kind fileNo db s) :
    Rewritten fileNo db.masters s.db.masters := by
  refine ⟨fun entity hentity => (h.keys entity).2 hentity, fun entity row hrow => ?_⟩
  rw [h.masters] at hrow
  cases hmoved : s.moved.get? entity with
  | none =>
      rw [hmoved] at hrow
      exact .inl hrow
  | some keep =>
      rw [hmoved] at hrow
      obtain ⟨old, hold, rfl⟩ := Option.map_eq_some_iff.1 hrow
      rw [hold]
      exact writtenRow_cases env.now (some old) _

variable (fileNo) in
theorem writeMasters_rewritten (now : Int) (db : Tables) (masters : IndexMap String Object) :
    Rewritten fileNo db.masters (writeMasters now fileNo db masters.entries).masters := by
  refine ⟨fun entity hentity => ?_, fun entity row hrow => ?_⟩
  · rw [IndexMap.mem_keys_iff, writeMasters_get?]
    cases masters.get? entity with
    | none => exact IndexMap.mem_keys_iff.1 hentity
    | some body => exact ⟨_, rfl⟩
  · rw [writeMasters_get?] at hrow
    cases hmaster : masters.get? entity with
    | none =>
        rw [hmaster] at hrow
        exact .inl hrow
    | some body =>
        rw [hmaster] at hrow
        cases hrow
        exact writtenRow_cases now _ body

theorem mergeFile_rewritten {db db' : Tables} {delivery : Delivery} {answer : Merged}
    (h : mergeFile env settings db delivery = .ok (answer, db')) : Rewritten (lastFile db + 1) db.masters db'.masters := by
  obtain ⟨key, _, hfiled⟩ := mergeFile_eq_ok h
  cases hfiled with
  | skipped _ _ => exact .refl _
  | empty _ _ => exact .refl _
  | @stored rows p masters stored _ _ _ _ hof _ hstoring hfinish =>
      obtain ⟨files, rfl⟩ := finishUnlessAgain_eq_ok hfinish
      obtain ⟨decided, merging, hmatched, _⟩ := matchIdentifiers_of hof.matched
      have hreviewed : (p.reviewed env).masters = merging.db.masters :=
        calc (p.reviewed env).masters
            = p.compared.masters := masters_of_core (reviewed_core env p)
          _ = p.matched.db.masters := rfl
          _ = merging.db.masters := masters_of_core hmatched.core
      have hmerged := (merging_of hmatched.merged).rewritten
      have hwritten := writeMasters_rewritten (lastFile db + 1) env.now
        (saveRecords (p.reviewed env) p.stage.records (p.held env)) masters
      rw [hstoring.written]
      show Rewritten _ db.masters (writeMasters _ _ _ _).masters
      refine hmerged.trans ?_
      rw [← hreviewed]
      exact hwritten

abbrev Changed := Feeds.Row String Int Object

def changedRows (db : Tables) : Feeds.Table String Int Object where
  rows := db.masters.entries.map fun entry => ⟨entry.1, entry.2.changedFile, entry.2.body⟩
  nodup := by
    rw [List.map_map]
    exact db.masters.nodup

/-- Where a reader stands in a file. Without a master it has read the file to its end. -/
def placeOf (after : String) : Option String := if after = "" then none else some after

def restOfFile (db : Tables) (since : Int) (after : String) (limit : Nat) : List Changed :=
  Feeds.sameVersion (changedRows db) since (placeOf after) limit

def laterFiles (db : Tables) (since : Int) (limit : Nat) (rows : List Changed) : List Changed :=
  Feeds.laterVersions (changedRows db) since limit rows

def changes (db : Tables) (since : Int) (after : String) (limit : Nat) : List Changed :=
  laterFiles db since limit (restOfFile db since after limit)

theorem mem_changedRows {db : Tables} {row : Changed} :
    row ∈ (changedRows db).rows ↔ ∃ stored, db.masters.get? row.key = some stored ∧ row.version = stored.changedFile ∧ row.body = stored.body := by
  obtain ⟨key, version, body⟩ := row
  simp only [changedRows, List.mem_map, IndexMap.get?_eq_some_iff, Feeds.Row.mk.injEq]
  constructor
  · rintro ⟨⟨entity, stored⟩, hentry, rfl, rfl, rfl⟩
    exact ⟨stored, hentry, rfl, rfl⟩
  · rintro ⟨stored, hentry, rfl, rfl⟩
    exact ⟨(key, stored), hentry, rfl, rfl, rfl⟩

theorem mergeFile_advance {db db' : Tables} {delivery : Delivery} {answer : Merged}
    (h : mergeFile env settings db delivery = .ok (answer, db')) : Feeds.Advance 0 (changedRows db) (changedRows db') := by
  have hrewritten := mergeFile_rewritten h
  refine ⟨fun row hrow => ?_, fun row hrow => ?_⟩
  · obtain ⟨stored, hstored, _, _⟩ := mem_changedRows.1 hrow
    obtain ⟨other, hother⟩ := IndexMap.mem_keys_iff.1 (hrewritten.kept row.key (IndexMap.mem_keys_of_get? hstored))
    exact ⟨⟨row.key, other.changedFile, other.body⟩, mem_changedRows.2 ⟨other, hother, rfl, rfl⟩, rfl⟩
  · obtain ⟨stored, hstored, hversion, hbody⟩ := mem_changedRows.1 hrow
    obtain hold | hnew := hrewritten.fresh row.key stored hstored
    · exact .inl (mem_changedRows.2 ⟨stored, hold, hversion, hbody⟩)
    · right
      rw [hversion, hnew]
      refine ⟨by omega, fun other hother => ?_⟩
      obtain ⟨otherStored, hotherStored, hotherVersion, _⟩ := mem_changedRows.1 hother
      have hle := le_lastFile (IndexMap.mem_values_of_get? hotherStored)
      rw [hotherVersion]
      omega

/-- A reader's checkpoint, and the last body it received for each master. -/
structure Reader where
  file : Int
  id : String
  copy : IndexMap String Object

def Reader.take (r : Reader) (row : Changed) : Reader := ⟨row.version, row.key, r.copy.insert row.key row.body⟩

def Reader.receive (r : Reader) (rows : List Changed) : Reader := rows.foldl Reader.take r

/-- The masters, their reader, and what the first statement of its call found where the second has not run. -/
structure Following where
  db : Tables
  reader : Reader
  asked : Option (Nat × List Changed)

def Following.start (since : Int) : Following := ⟨.empty, ⟨since, "", .empty⟩, none⟩

/-- A file is committed, or the reader runs the first or the second statement of a call. A new master's id is not empty. -/
inductive Following.Step : Following → Following → Prop
  | file {s : Following} {env : Env} {settings : Settings} {delivery : Delivery} {answer : Merged} {db : Tables} :
      (∀ n, env.newId n ≠ "") → mergeFile env settings s.db delivery = .ok (answer, db) → Step s { s with db }
  | ask {s : Following} {limit : Nat} : s.asked = none → 0 < limit →
      Step s { s with asked := some (limit, restOfFile s.db s.reader.file s.reader.id limit) }
  | answer {s : Following} {limit : Nat} {rows : List Changed} : s.asked = some (limit, rows) →
      Step s ⟨s.db, s.reader.receive (laterFiles s.db s.reader.file limit rows), none⟩

def Reader.place (r : Reader) : Feeds.Reader String Int Object := ⟨r.file, placeOf r.id, r.copy⟩

/-- What holds at every step: the masters have ids, the reader follows the feed and an open call is still good. -/
structure Following.Good (s : Following) : Prop where
  names : s.db.Names (· ≠ "")
  follows : Feeds.Follows 0 (changedRows s.db) s.reader.place
  awaits : ∀ limit rows, s.asked = some (limit, rows) → 0 < limit ∧ Feeds.Awaits (changedRows s.db) s.reader.place limit rows

theorem place_receive {rows : List Changed} (hids : ∀ row ∈ rows, row.key ≠ "") (r : Reader) :
    (r.receive rows).place = r.place.receive rows := by
  induction rows generalizing r with
  | nil => rfl
  | cons row rest ih =>
      have htake : (r.take row).place = r.place.take row := by
        show (⟨row.version, placeOf row.key, _⟩ : Feeds.Reader String Int Object) = _
        rw [placeOf, if_neg (hids row List.mem_cons_self)]
        rfl
      show ((r.take row).receive rest).place = (r.place.take row).receive rest
      rw [ih (fun other hother => hids other (List.mem_cons_of_mem _ hother)), htake]

theorem names_empty (holds : String → Prop) : Tables.empty.Names holds where
  masters := fun _ hentity => (List.not_mem_nil hentity).elim
  bound := by
    rintro _ _ ⟨_, hrow, _⟩
    cases hrow
  identifiers := fun _ hheld => (List.not_mem_nil hheld).elim

theorem Following.Good.start {since : Int} (h : since ≤ 0) : (Following.start since).Good where
  names := names_empty _
  follows := Feeds.Follows.start 0 since h
  awaits := fun _ _ hasked => by cases hasked

theorem Following.Good.step {s s' : Following} (h : s.Good) (hstep : s.Step s') : s'.Good := by
  cases hstep with
  | @file env settings delivery answer db hnew hmerged =>
      have hadvance := mergeFile_advance hmerged
      refine ⟨mergeFile_names hmerged h.names hnew, h.follows.advance hadvance, fun limit rows hasked => ?_⟩
      obtain ⟨hlimit, hawaits⟩ := h.awaits limit rows hasked
      exact ⟨hlimit, hawaits.advance h.follows hadvance⟩
  | @ask limit hasked hlimit =>
      refine ⟨h.names, h.follows, fun other rows hother => ?_⟩
      cases hother
      exact ⟨hlimit, Feeds.awaits (changedRows s.db) s.reader.place limit⟩
  | @answer limit rows hasked =>
      obtain ⟨hlimit, hawaits⟩ := h.awaits limit rows hasked
      have hids : ∀ row ∈ laterFiles s.db s.reader.file limit rows, row.key ≠ "" := by
        intro row hrow
        have hstored : ∃ other ∈ (changedRows s.db).rows, other.key = row.key :=
          (Feeds.mem_laterVersions (r := s.reader.place) hrow).elim (hawaits.stored row) fun hlater => ⟨row, hlater.1, rfl⟩
        obtain ⟨other, hother, hkey⟩ := hstored
        obtain ⟨stored, hget, _⟩ := mem_changedRows.1 hother
        exact h.names.masters row.key (hkey ▸ IndexMap.mem_keys_of_get? hget)
      refine ⟨h.names, ?_, fun _ _ hother => by cases hother⟩
      show Feeds.Follows 0 (changedRows s.db) (s.reader.receive _).place
      rw [place_receive hids]
      exact h.follows.answer hawaits

theorem Following.run_good {since : Int} {s : Following} (hsince : since ≤ 0)
    (h : Relation.ReflTransGen Following.Step (.start since) s) : s.Good := by
  induction h with
  | refl => exact .start hsince
  | tail _ hstep ih => exact ih.step hstep

/-- **A reader misses nothing.** However files and the statements of a reader's calls follow one another, a reader that is answered nothing has in its copy each master as it is stored, and no other. -/
theorem reader_misses_nothing (since : Int) (hsince : since ≤ 0) (s : Following)
    (hrun : Relation.ReflTransGen Following.Step (.start since) s) (limit : Nat) (rows : List Changed)
    (hasked : s.asked = some (limit, rows)) (hnone : laterFiles s.db s.reader.file limit rows = []) (entity : String) :
    s.reader.copy.get? entity = (s.db.masters.get? entity).map MasterRow.body := by
  have hgood := Following.run_good hsince hrun
  obtain ⟨hlimit, hawaits⟩ := hgood.awaits limit rows hasked
  refine Option.ext fun body => (hgood.follows.complete hawaits hlimit hnone entity body).trans ?_
  rw [Option.map_eq_some_iff]
  constructor
  · rintro ⟨row, hrow, rfl, rfl⟩
    obtain ⟨stored, hstored, _, hbody⟩ := mem_changedRows.1 hrow
    exact ⟨stored, hstored, hbody.symm⟩
  · rintro ⟨stored, hstored, rfl⟩
    exact ⟨⟨entity, stored.changedFile, stored.body⟩, mem_changedRows.2 ⟨stored, hstored, rfl, rfl⟩, rfl, rfl⟩

/-- One company is merged and read, and the next call is answered nothing. -/
theorem reader_misses_nothing_company :
    ∃ s, Relation.ReflTransGen Following.Step (.start 0) s ∧ s.asked = some (1, []) ∧ s.reader.copy.get? "n0" ≠ none ∧
      s.reader.copy.get? "n0" = (s.db.masters.get? "n0").map MasterRow.body := by
  have hmerged : ∃ result, mergeFile (plainEnv (fun n => "n" ++ toString n) 1) gleifSettings .empty
      (deliver [gleifRecord "a1" "s1" "1" [("lei", .str "L1")]]) = .ok result ∧
        decide ((changes result.2 0 "" 1).map (fun row => (row.key, row.version)) = [("n0", 1)] ∧
          restOfFile result.2 1 "n0" 1 = [] ∧ laterFiles result.2 1 1 [] = []) = true :=
    Except.exists_of_any (by decide +kernel)
  obtain ⟨⟨answer, db⟩, hfile, hread⟩ := hmerged
  obtain ⟨hfirst, hrest, hlater⟩ := of_decide_eq_true hread
  obtain ⟨⟨key, version, body⟩, hpage, hrow⟩ := List.map_eq_singleton_iff.1 hfirst
  obtain ⟨rfl, rfl⟩ := Prod.mk.inj hrow
  let received : Following := ⟨db, ⟨1, "n0", IndexMap.empty.insert "n0" body⟩, none⟩
  have hids : ∀ n, (plainEnv (fun n => "n" ++ toString n) 1).newId n ≠ "" := by
    intro n hempty
    have hlength := congrArg String.length (show "n" ++ toString n = "" from hempty)
    rw [String.length_append] at hlength
    simp at hlength
  have hcommitted : (Following.start 0).Step ⟨db, ⟨0, "", .empty⟩, none⟩ := .file hids hfile
  have hcalled : Following.Step ⟨db, ⟨0, "", .empty⟩, none⟩ ⟨db, ⟨0, "", .empty⟩, some (1, restOfFile db 0 "" 1)⟩ :=
    .ask rfl Nat.one_pos
  have hanswered : Following.Step ⟨db, ⟨0, "", .empty⟩, some (1, restOfFile db 0 "" 1)⟩ received := by
    have hreceived : (⟨0, "", .empty⟩ : Reader).receive (laterFiles db 0 1 (restOfFile db 0 "" 1)) = received.reader := by
      rw [show laterFiles db 0 1 (restOfFile db 0 "" 1) = _ from hpage]
      rfl
    show Following.Step _ ⟨db, received.reader, none⟩
    rw [← hreceived]
    exact .answer rfl
  have hrun := ((Relation.ReflTransGen.single hcommitted).tail hcalled).tail hanswered
  have hasked := hrun.tail (.ask rfl Nat.one_pos)
  rw [show restOfFile received.db received.reader.file received.reader.id 1 = [] from hrest] at hasked
  refine ⟨_, hasked, rfl, ?_, reader_misses_nothing 0 (le_refl 0) _ hasked 1 [] rfl hlater "n0"⟩
  show (IndexMap.empty.insert "n0" body).get? "n0" ≠ none
  rw [IndexMap.get?_insert_self]
  exact Option.some_ne_none body

end EdgarPlatform.Mastering
