import EdgarPlatform.Control.Engines

/-!
# Calls of the journal's routines at one time

A call of a routine is a transaction. It inserts its row and commits it later, or is rolled back, and other calls go on meanwhile: they read the rows that are committed, and one that comes to the key of a row not yet committed waits for what becomes of it.
-/

namespace EdgarPlatform.Control

variable (tools : Tools) (casts : Casts)

/-- An engine's event table: the rows committed, and the row of every call that has yet to commit one. -/
structure Server where
  rows : List EventRow
  pending : List (Nat × EventRow)

inductive Move where
  | record (call : Nat) (body hash : String)
  | commit (call : Nat)
  | rollback (call : Nat)

inductive Halt where
  | refused (refusal : Refusal)
  | waiting
  | idle

/-- One move of a call. What it answers is the body it acknowledges, if it acknowledges one. -/
def perform (engine : Engine) (s : Server) : Move → Except Halt (Option String × Server)
  | .record call body hash =>
      match recordEvent tools casts engine s.rows body hash with
      | .error refusal => .error (.refused refusal)
      | .ok after =>
          match after.drop s.rows.length with
          | [] => .ok (some body, s)
          | row :: _ =>
              if s.pending.any fun held => held.1 = call || held.2.key = row.key then .error .waiting
              else .ok (none, { s with pending := s.pending ++ [(call, row)] })
  | .commit call =>
      match s.pending.find? fun held => held.1 = call with
      | none => .error .idle
      | some held =>
          .ok (some held.2.canonicalBody, ⟨s.rows ++ [held.2], s.pending.filter fun held => held.1 ≠ call⟩)
  | .rollback call => .ok (none, { s with pending := s.pending.filter fun held => held.1 ≠ call })

def acknowledged (engine : Engine) (s : Server) (move : Move) : Option String :=
  match perform tools casts engine s move with
  | .ok (answer, _) => answer
  | .error _ => none

/-- A row as its body has it. -/
structure Recorded (row : EventRow) : Prop where
  producer : columnText row.canonicalBody "producer" = .ok row.producer
  eventKey : columnText row.canonicalBody "event_key" = .ok row.eventKey
  keyHash : row.keyHash = tools.digest row.eventKey
  canonicalHash : row.canonicalHash = tools.digest row.canonicalBody

variable {tools casts} {engine : Engine} {rows after : List EventRow} {body hash : String}

theorem recorded_of_rowOf {p : Body} {row stored : EventRow} (hread : readObject body = .ok p) (hrow : RowOf tools body hash p row)
    (hdigest : tools.digest body = hash) (hsame : SameEvent stored row) : Recorded tools stored := by
  obtain ⟨document, hparse, hbody⟩ := readObject_eq_ok.1 hread
  have hcolumn : ∀ key, columnText body key = text p key := by
    intro key
    rw [columnText, readDocument_eq_ok.2 hparse, Except.bind_ok, hbody, Except.bind_ok]
  refine ⟨?_, ?_, ?_, ?_⟩
  · rw [hsame.canonicalBody, hrow.canonicalBody, hcolumn, hsame.producer]
    exact hrow.producer
  · rw [hsame.canonicalBody, hrow.canonicalBody, hcolumn, hsame.eventKey]
    exact hrow.eventKey
  · rw [hsame.keyHash, hsame.eventKey]
    exact hrow.keyHash
  · rw [hsame.canonicalHash, hsame.canonicalBody, hrow.canonicalHash, hrow.canonicalBody, hdigest]

/-- The row a routine goes on with is recorded as its body has it. -/
structure RowFor (tools : Tools) (body : String) (row : EventRow) : Prop where
  recorded : Recorded tools row
  body : row.canonicalBody = body

variable {row : EventRow}

theorem postgresRow_for (h : postgresRow tools casts body hash = .ok row) : RowFor tools body row := by
  simp only [postgresRow, Except.bind_eq_ok, Except.ok.injEq, checkPrepared_eq_ok, Bool.and_eq_true, decide_eq_true_eq] at h
  obtain ⟨_, _, p, hread, row', hrow, _, ⟨⟨⟨⟨_, hdigest⟩, _⟩, _⟩, _⟩, run, _, occurred, _, rfl⟩ := h
  have hrow := (readRow_eq_ok tools).1 hrow
  exact ⟨recorded_of_rowOf hread hrow hdigest ⟨rfl, rfl, rfl, rfl, rfl⟩, hrow.canonicalBody⟩

theorem mysqlRow_for (h : mysqlRow tools body hash = .ok row) : RowFor tools body row := by
  simp only [mysqlRow, Except.bind_eq_ok, Except.ok.injEq, checkPrepared_eq_ok, Bool.and_eq_true, decide_eq_true_eq] at h
  obtain ⟨p, hread, row', hrow, _, ⟨⟨⟨⟨_, hdigest⟩, _⟩, _⟩, _⟩, _, _, rfl⟩ := h
  have hrow := (readRow_eq_ok tools).1 hrow
  exact ⟨recorded_of_rowOf hread hrow hdigest ⟨rfl, rfl, rfl, rfl, rfl⟩, hrow.canonicalBody⟩

theorem mssqlRow_for (h : mssqlRow tools body hash = .ok row) : RowFor tools body row := by
  simp only [mssqlRow, Except.bind_eq_ok, Except.ok.injEq, checkPrepared_eq_ok, Bool.and_eq_true, decide_eq_true_eq] at h
  obtain ⟨p, hread, row', hrow, _, ⟨⟨⟨_, hdigest⟩, _⟩, _⟩, _, _, rfl⟩ := h
  have hrow := (readRow_eq_ok tools).1 hrow
  exact ⟨recorded_of_rowOf hread hrow hdigest ⟨rfl, rfl, rfl, rfl, rfl⟩, hrow.canonicalBody⟩

theorem body_of_agrees {row prior : EventRow} (h : row.agrees prior = true) : prior.canonicalBody = row.canonicalBody := by
  simp only [EventRow.agrees, Bool.and_eq_true, decide_eq_true_eq] at h
  exact h.1.2

/-- What an accepted routine comes to: its row added where the key is free, or a row of its content that was there. -/
theorem recordEvent_cases (h : recordEvent tools casts engine rows body hash = .ok after) :
    (after = rows ∧ ∃ prior ∈ rows, prior.canonicalBody = body) ∨
      ∃ row, RowFor tools body row ∧ Firsts.held EventRow.key rows row.key = none ∧ after = rows ++ [row] := by
  have hkeep : ∀ row, RowFor tools body row → confirm (Firsts.keep EventRow.key rows row) row = .ok after →
      (after = rows ∧ ∃ prior ∈ rows, prior.canonicalBody = body) ∨
        ∃ row, RowFor tools body row ∧ Firsts.held EventRow.key rows row.key = none ∧ after = rows ++ [row] := by
    intro row hrow hconfirm
    rw [confirm_keep] at hconfirm
    cases hheld : Firsts.held EventRow.key rows row.key with
    | none =>
        rw [hheld] at hconfirm
        exact .inr ⟨row, hrow, hheld, (Except.ok.inj hconfirm).symm⟩
    | some prior =>
        rw [hheld] at hconfirm
        simp only at hconfirm
        split_ifs at hconfirm with hagrees
        exact .inl ⟨(Except.ok.inj hconfirm).symm, prior, (Firsts.held_mem hheld).1, (body_of_agrees hagrees).trans hrow.body⟩
  cases engine with
  | postgresql =>
      obtain ⟨row, hrow, hconfirm⟩ := Except.bind_eq_ok.1 h
      exact hkeep row (postgresRow_for hrow) hconfirm
  | mysql =>
      obtain ⟨row, hrow, hconfirm⟩ := Except.bind_eq_ok.1 h
      exact hkeep row (mysqlRow_for hrow) hconfirm
  | mssql =>
      obtain ⟨row, hrow, hfound⟩ := Except.bind_eq_ok.1 h
      have hrow := mssqlRow_for hrow
      split at hfound
      · rename_i hfree
        obtain ⟨_, _, hafter⟩ := Except.bind_eq_ok.1 hfound
        exact .inr ⟨row, hrow, hfree, (Except.ok.inj hafter).symm⟩
      · rename_i prior hheld
        obtain ⟨_, hagrees, hafter⟩ := Except.bind_eq_ok.1 hfound
        have hbody := body_of_agrees (checkPrepared_eq_ok.1 hagrees)
        exact .inl ⟨(Except.ok.inj hafter).symm, prior, (Firsts.held_mem hheld).1, hbody.trans hrow.body⟩

def Server.all (s : Server) : List EventRow := s.rows ++ s.pending.map Prod.snd

/-- No two rows have one key, pending or not, and each is recorded as its body has it. -/
structure Server.Sound (tools : Tools) (s : Server) : Prop where
  unique : (s.all.map EventRow.key).Nodup
  recorded : ∀ row ∈ s.all, Recorded tools row

/-- What a move comes to. -/
inductive Moved (tools : Tools) (s : Server) : Move → Option String → Server → Prop where
  | repeated (call : Nat) (body hash : String) (prior : EventRow) (hprior : prior ∈ s.rows) (hbody : prior.canonicalBody = body) :
      Moved tools s (.record call body hash) (some body) s
  | inserted (call : Nat) (body hash : String) (row : EventRow) (hrow : RowFor tools body row) (hfree : row.key ∉ s.all.map EventRow.key) :
      Moved tools s (.record call body hash) none { s with pending := s.pending ++ [(call, row)] }
  | committed (call : Nat) (row : EventRow) (hheld : (call, row) ∈ s.pending) :
      Moved tools s (.commit call) (some row.canonicalBody)
        ⟨s.rows ++ [row], s.pending.filter fun held => held.1 ≠ call⟩
  | rolledBack (call : Nat) : Moved tools s (.rollback call) none { s with pending := s.pending.filter fun held => held.1 ≠ call }

variable {s next : Server} {answer : Option String}

theorem moved_of_perform {move : Move}
    (h : perform tools casts engine s move = .ok (answer, next)) : Moved tools s move answer next := by
  cases move with
  | record call body hash =>
      simp only [perform] at h
      split at h
      · cases h
      · rename_i after hrecord
        obtain ⟨rfl, prior, hprior, hbody⟩ | ⟨row, hrow, hfree, rfl⟩ := recordEvent_cases hrecord
        · rw [List.drop_length] at h
          cases h
          exact .repeated call body hash prior hprior hbody
        · rw [List.drop_left] at h
          simp only at h
          split_ifs at h with hwaits
          cases h
          refine .inserted call body hash row hrow ?_
          rw [Server.all, List.map_append, List.mem_append, not_or]
          refine ⟨Firsts.held_eq_none.1 hfree, fun hmem => hwaits ?_⟩
          rw [List.map_map] at hmem
          obtain ⟨held, hheld, hkey⟩ := List.mem_map.1 hmem
          refine List.any_eq_true.2 ⟨held, hheld, ?_⟩
          have hkey : held.2.key = row.key := hkey
          rw [hkey, decide_eq_true rfl, Bool.or_true]
  | commit call =>
      simp only [perform] at h
      split at h
      · cases h
      · rename_i held hfound
        cases h
        have hcall : held.1 = call := by simpa using List.find?_some hfound
        refine .committed call held.2 ?_
        rw [← hcall]
        exact List.mem_of_find?_eq_some hfound
  | rollback call =>
      cases h
      exact .rolledBack call

theorem Moved.keeps_rows {move : Move} (h : Moved tools s move answer next) :
    s.rows <+: next.rows := by
  cases h with
  | repeated => exact List.prefix_rfl
  | inserted => exact List.prefix_rfl
  | committed call row hheld => exact List.prefix_append _ _
  | rolledBack => exact List.prefix_rfl

theorem keys_committed {s : Server} {call : Nat} (hunique : (s.all.map EventRow.key).Nodup)
    (hheld : (call, row) ∈ s.pending) :
    (((s.rows ++ [row]) ++ (s.pending.filter fun held => held.1 ≠ call).map Prod.snd).map EventRow.key).Nodup := by
  rw [Server.all, List.map_append, List.map_map, List.nodup_append'] at hunique
  obtain ⟨hrows, hpending, hapart⟩ := hunique
  rw [List.append_assoc, List.map_append, List.map_append, List.map_map, List.map_singleton, List.singleton_append]
  have hrow : row.key ∈ s.pending.map (EventRow.key ∘ Prod.snd) := List.mem_map_of_mem hheld
  refine List.Nodup.append hrows (List.nodup_cons.2 ⟨fun hmem => ?_, (List.filter_sublist.map _).nodup hpending⟩) ?_
  · obtain ⟨held, hin, hkey⟩ := List.mem_map.1 hmem
    obtain ⟨hpend, hne⟩ := List.mem_filter.1 hin
    have hsame := List.inj_on_of_nodup_map hpending hpend hheld hkey
    rw [hsame] at hne
    simp at hne
  · intro k hold hnew
    apply hapart hold
    obtain rfl | hnew := List.mem_cons.1 hnew
    · exact hrow
    · exact (List.filter_sublist.map _).subset hnew

theorem Moved.sound {move : Move} (h : Moved tools s move answer next)
    (hs : s.Sound tools) : next.Sound tools := by
  cases h with
  | repeated => exact hs
  | inserted call body hash row hrow hfree =>
      have hall : Server.all { s with pending := s.pending ++ [(call, row)] } = s.all ++ [row] := by
        rw [Server.all, Server.all, List.map_append, ← List.append_assoc]
        rfl
      refine ⟨?_, fun other hother => ?_⟩
      · rw [hall]
        exact Firsts.nodup_append_of_free hs.unique (Firsts.held_eq_none.2 hfree)
      · rw [hall] at hother
        obtain hother | hother := List.mem_append.1 hother
        · exact hs.recorded other hother
        · rw [List.mem_singleton.1 hother]
          exact hrow.recorded
  | committed call row hheld =>
      refine ⟨keys_committed hs.unique hheld, fun other hother => hs.recorded other ?_⟩
      rw [Server.all, List.mem_append]
      obtain hother | hother := List.mem_append.1 hother
      · obtain hother | hother := List.mem_append.1 hother
        · exact .inl hother
        · rw [List.mem_singleton.1 hother]
          exact .inr (List.mem_map_of_mem hheld)
      · exact .inr ((List.filter_sublist.map _).subset hother)
  | rolledBack call =>
      have hsub : (s.rows ++ (s.pending.filter fun held => held.1 ≠ call).map Prod.snd).Sublist s.all :=
        (List.Sublist.refl _).append (List.filter_sublist.map _)
      exact ⟨(hsub.map _).nodup hs.unique, fun other hother => hs.recorded other (hsub.subset hother)⟩

theorem Moved.acknowledges {move : Move} (h : Moved tools s move answer next)
    {body : String} (hanswer : answer = some body) : ∃ row ∈ next.rows, row.canonicalBody = body := by
  cases h with
  | repeated call body' hash prior hprior hbody =>
      cases hanswer
      exact ⟨prior, hprior, hbody⟩
  | inserted => cases hanswer
  | committed call row hheld =>
      cases hanswer
      exact ⟨row, List.mem_append_right _ (List.mem_singleton_self row), rfl⟩
  | rolledBack => cases hanswer

/-- The moves of any number of calls, in the order they are made. -/
def runMoves (tools : Tools) (casts : Casts) (engine : Engine) (rows : List EventRow) (moves : List Move) : Server :=
  Machines.run (perform tools casts engine) ⟨rows, []⟩ moves

def acknowledgements (tools : Tools) (casts : Casts) (engine : Engine) (rows : List EventRow) (moves : List Move) : List String :=
  Machines.log (perform tools casts engine) (acknowledged tools casts engine) ⟨rows, []⟩ moves

/-- A table a run may begin with. -/
structure Table (tools : Tools) (rows : List EventRow) : Prop where
  unique : (rows.map EventRow.key).Nodup
  recorded : ∀ row ∈ rows, Recorded tools row

theorem sound_start (h : Table tools rows) : Server.Sound tools ⟨rows, []⟩ := by
  have hall : Server.all ⟨rows, []⟩ = rows := List.append_nil rows
  refine ⟨?_, ?_⟩
  · rw [hall]
    exact h.unique
  · rw [hall]
    exact h.recorded

theorem runMoves_prefix (s : Server) (moves : List Move) : s.rows <+: (Machines.run (perform tools casts engine) s moves).rows := by
  have hrel : ∀ s call answer next, True → True → perform tools casts engine s call = .ok (answer, next) → s.rows <+: next.rows :=
    fun s call answer next _ _ hok => (moved_of_perform hok).keeps_rows
  have hrefl : ∀ s : Server, s.rows <+: s.rows := fun s => List.prefix_rfl
  have htrans : ∀ s t u : Server, s.rows <+: t.rows → t.rows <+: u.rows → s.rows <+: u.rows := fun s t u => List.IsPrefix.trans
  exact Machines.run_relates hrefl htrans (fun _ _ _ _ _ _ _ => trivial) hrel trivial (Machines.meets_true s moves)

theorem runMoves_acknowledged (h : Table tools rows) (moves : List Move) :
    (runMoves tools casts engine rows moves).Sound tools ∧
      ∀ body ∈ acknowledgements tools casts engine rows moves,
        ∃ row ∈ (runMoves tools casts engine rows moves).rows, row.canonicalBody = body := by
  have hstep : ∀ (done : List String) (s : Server) (call : Move),
      (s.Sound tools ∧ ∀ body ∈ done, ∃ row ∈ s.rows, row.canonicalBody = body) → True →
        (Machines.after (perform tools casts engine) s call).Sound tools ∧
          ∀ body ∈ done ++ (acknowledged tools casts engine s call).toList,
            ∃ row ∈ (Machines.after (perform tools casts engine) s call).rows, row.canonicalBody = body := by
    intro done s call ⟨hs, hdone⟩ _
    rw [Machines.after, acknowledged]
    cases hperform : perform tools casts engine s call with
    | error halt =>
        rw [Option.toList_none, List.append_nil]
        exact ⟨hs, hdone⟩
    | ok result =>
        obtain ⟨answer, next⟩ := result
        have hmoved := moved_of_perform hperform
        refine ⟨hmoved.sound hs, fun body hbody => ?_⟩
        obtain hbody | hbody := List.mem_append.1 hbody
        · obtain ⟨row, hrow, heq⟩ := hdone body hbody
          exact ⟨row, hmoved.keeps_rows.subset hrow, heq⟩
        · exact hmoved.acknowledges (Option.mem_toList.1 hbody)
  exact Machines.run_logs hstep ⟨sound_start h, fun body hbody => (List.not_mem_nil hbody).elim⟩ (Machines.meets_true _ moves)

/-- No producer and key ever has two rows, the rows that are committed stay as they are, and what is acknowledged is the one row of its producer and key. -/
theorem runMoves_keep_first (h : Table tools rows) (moves : List Move) :
    ((runMoves tools casts engine rows moves).rows.map fun row => (row.producer, row.eventKey)).Nodup ∧
      (∀ front back, moves = front ++ back →
        (runMoves tools casts engine rows front).rows <+: (runMoves tools casts engine rows moves).rows) ∧
      ∀ body ∈ acknowledgements tools casts engine rows moves, ∃ row ∈ (runMoves tools casts engine rows moves).rows,
        row.canonicalBody = body ∧ columnText body "producer" = .ok row.producer ∧ columnText body "event_key" = .ok row.eventKey := by
  have hboth : (runMoves tools casts engine rows moves).Sound tools ∧
      ∀ body ∈ acknowledgements tools casts engine rows moves,
        ∃ row ∈ (runMoves tools casts engine rows moves).rows, row.canonicalBody = body := runMoves_acknowledged h moves
  obtain ⟨hsound, hacknowledged⟩ := hboth
  have hrecorded : ∀ row ∈ (runMoves tools casts engine rows moves).rows, Recorded tools row :=
    fun row hrow => hsound.recorded row (List.mem_append_left _ hrow)
  refine ⟨?_, fun front back hmoves => ?_, fun body hbody => ?_⟩
  · have hkeys : ((runMoves tools casts engine rows moves).rows.map EventRow.key).Nodup := by
      have hunique := hsound.unique
      rw [Server.all, List.map_append] at hunique
      exact hunique.of_append_left
    have hdigest : (runMoves tools casts engine rows moves).rows.map EventRow.key =
        ((runMoves tools casts engine rows moves).rows.map fun row => (row.producer, row.eventKey)).map
          fun pair => (pair.1, tools.digest pair.2) := by
      rw [List.map_map]
      refine List.map_congr_left fun row hrow => ?_
      rw [EventRow.key, (hrecorded row hrow).keyHash]
      rfl
    rw [hdigest] at hkeys
    exact hkeys.of_map
  · rw [hmoves, runMoves, runMoves, Machines.run_append]
    exact runMoves_prefix _ back
  · obtain ⟨row, hrow, rfl⟩ := hacknowledged body hbody
    exact ⟨row, hrow, rfl, (hrecorded row hrow).producer, (hrecorded row hrow).eventKey⟩

/-- The engines keep one contract on an event exactly where it is portable, and each keeps the first content of a producer and key in every run. -/
theorem engines_keep_one_contract (tools : Tools) (casts : Casts) (raw written body hash producer key occurred : String)
    (hlawful : LawfulCasts tools casts) (hwritten : prepareJournalEvent tools raw = .ok written)
    (hbody : columnText written "body" = .ok body) (hhash : columnText written "canonical_hash" = .ok hash)
    (hproducer : columnText body "producer" = .ok producer) (hkey : columnText body "event_key" = .ok key)
    (hoccurred : columnText body "occurred_at" = .ok occurred) :
    ((∀ journals, OneJournal tools key journals → OneContract tools casts journals producer key body hash) ↔
        writesNull body = false ∧ (casts.castStamp occurred).isSome = true ∧ occurred.toList.length ≤ 100) ∧
      ∀ engine rows moves, Table tools rows →
        ((runMoves tools casts engine rows moves).rows.map fun row => (row.producer, row.eventKey)).Nodup ∧
        (∀ front back, moves = front ++ back →
          (runMoves tools casts engine rows front).rows <+: (runMoves tools casts engine rows moves).rows) ∧
        ∀ stored ∈ acknowledgements tools casts engine rows moves, ∃ row ∈ (runMoves tools casts engine rows moves).rows,
          row.canonicalBody = stored ∧ columnText stored "producer" = .ok row.producer ∧
            columnText stored "event_key" = .ok row.eventKey := by
  refine ⟨?_, fun engine rows moves hrows => runMoves_keep_first hrows moves⟩
  obtain ⟨p, row, hgiven⟩ := given_of_prepared tools hwritten hbody hhash
  obtain ⟨document, hparse, hp⟩ := readObject_eq_ok.1 hgiven.read
  have hcolumn : ∀ name, columnText body name = text p name := by
    intro name
    rw [columnText, readDocument_eq_ok.2 hparse, Except.bind_ok, hp, Except.bind_ok]
  cases ((hcolumn _).symm.trans hproducer).symm.trans hgiven.row.producer
  cases ((hcolumn _).symm.trans hkey).symm.trans hgiven.row.eventKey
  cases ((hcolumn _).symm.trans hoccurred).symm.trans hgiven.row.occurredAt
  constructor
  · intro hcontract
    have hempty : OneJournal tools row.eventKey fun _ => [] :=
      ⟨fun _ => ⟨List.nodup_nil, fun _ h => (List.not_mem_nil h).elim, fun _ h => (List.not_mem_nil h).elim⟩,
        fun _ _ => rfl, fun _ _ h => (List.not_mem_nil h).elim⟩
    have hportable := portable_of_oneContract hlawful hgiven (hcontract _ hempty)
    exact ⟨hportable.unicode, hportable.stamp, hportable.length⟩
  · rintro ⟨hunicode, hstamp, hlength⟩ journals hjournals
    exact oneContract_of_portable hlawful hgiven ⟨hunicode, hstamp, hlength⟩ hjournals

def eventWith (key : String) : Body :=
  SortedMap.ofList
    [("version", .plain ['1']), ("producer", textDocument "ingest"), ("event_key", textDocument key),
      ("run_id", textDocument "00000000-0000-4000-8000-000000000001"), ("source", textDocument "sec"),
      ("feed", textDocument "daily"), ("event_type", textDocument "filing.accepted"),
      ("occurred_at", textDocument "2026-01-01T00:00:00Z"), ("scope", bodyDocument sampleScope),
      ("evidence", .array [bodyDocument sampleReference])]

def filingHash : String := "abde9dd930a1dcd64c03e2ff999111ddaba5c737842fc39d22b2974b127693f6"

def nullHash : String := "2e49b72e834c364b7a2bf6cb3702c65ee6550e22c3051ecf66e5396fb433df54"

def engineTools : Tools where
  readUuid := sampleTools.readUuid
  readStamp := sampleTools.readStamp
  fromTimestamp := sampleTools.fromTimestamp
  writeStamp := sampleTools.writeStamp
  digest raw :=
    if raw = writeBody (eventWith "\x00") then nullHash
    else if raw = writeBody (eventWith "filing/1") then filingHash
    else if raw = "filing/1" then "5363d6c4e0bb7f028ef9f60c209c0736f8c1a170338aae4117257b58903d2d26"
    else "6e340b9cffb37a989ca544e6bb780a2c78901d3fb33738768511a30617afa01d"

def engineCasts : Casts where
  castUuid := sampleTools.readUuid
  castStamp raw := if raw = "2026-01-01T00:00:00Z" then some "2026-01-01 00:00:00+00" else none

theorem engineCasts_lawful : LawfulCasts engineTools engineCasts := by
  refine ⟨fun s => ?_, fun run hrun => ⟨hrun, ?_⟩⟩
  · simp only [engineTools]
    split_ifs <;> decide +kernel
  · simp only [engineTools, sampleTools] at hrun
    split_ifs at hrun with heq
    rw [heq]
    decide +kernel

theorem eventWith_valid (key : String) : ∀ name value, (eventWith key).get? name = some value → value.Valid := by
  refine valid_ofList fun entry hentry => ?_
  have hscope : (bodyDocument sampleScope).Valid := bodyDocument_valid <| valid_ofList <|
    List.forall_mem_singleton.2 (textDocument_valid _)
  have hreference : (bodyDocument sampleReference).Valid := bodyDocument_valid <| valid_ofList <|
    List.forall_mem_cons.2 ⟨textDocument_valid _, List.forall_mem_singleton.2 (textDocument_valid _)⟩
  simp only [List.mem_cons, List.not_mem_nil, or_false] at hentry
  obtain rfl | rfl | rfl | rfl | rfl | rfl | rfl | rfl | rfl | rfl := hentry
  case inl => exact .plain (by decide)
  case inr.inr.inr.inr.inr.inr.inr.inr.inl => exact hscope
  case inr.inr.inr.inr.inr.inr.inr.inr.inr => exact .array (List.forall_mem_singleton.2 hreference)
  all_goals exact textDocument_valid _

theorem prepared_of_canonical {tools : Tools} {event : Body} (hvalid : ∀ key value, event.get? key = some value → value.Valid)
    (hprepared : ∃ prepared, prepareEvent tools (bodyDocument event) = .ok prepared ∧ True)
    (hcanonical : canonical (bodyDocument event) = .ok (writeBody event)) :
    ∃ written, prepareJournalEvent tools (writeBody event) = .ok written ∧ columnText written "body" = .ok (writeBody event) ∧
      columnText written "canonical_hash" = .ok (tools.digest (writeBody event)) := by
  obtain ⟨prepared, hprepared, _⟩ := hprepared
  obtain ⟨body, key', hof⟩ := prepareEvent_preparedOf tools hprepared
  obtain rfl := Except.ok.inj (hcanonical.symm.trans hof.body)
  obtain ⟨hbody, hhash, _⟩ := hof.texts
  have hcolumn := columnText_writeBody (hof.valid tools (bodyDocument_valid hvalid))
  refine ⟨writeBody prepared, ?_, (hcolumn _).trans hbody, (hcolumn _).trans hhash⟩
  simp only [prepareJournalEvent, Except.bind_eq_ok, readDocument_eq_ok, Except.ok.injEq]
  exact ⟨_, parse_writeBody hvalid, prepared, hprepared, rfl⟩

theorem eventWith_columns (key : String) :
    columnText (writeBody (eventWith key)) "producer" = .ok "ingest" ∧ columnText (writeBody (eventWith key)) "event_key" = .ok key ∧
      columnText (writeBody (eventWith key)) "occurred_at" = .ok "2026-01-01T00:00:00Z" := by
  simp only [columnText_writeBody (eventWith_valid key)]
  exact ⟨text_of_get? (SortedMap.get?_ofList _ _), text_of_get? (SortedMap.get?_ofList _ _), text_of_get? (SortedMap.get?_ofList _ _)⟩

theorem writesNull_writeBody {body : Body} (h : ∀ key value, body.get? key = some value → value.Valid) :
    writesNull (writeBody body) = holdsNull (bodyDocument body) := by
  rw [writesNull, parse_writeBody h, Option.any_some]

theorem eventWith_canonical (key : String) : canonical (bodyDocument (eventWith key)) = .ok (writeBody (eventWith key)) := by
  refine canonical_ofList fun entry hentry => ?_
  have hscope : canonical (bodyDocument sampleScope) = .ok (writeBody sampleScope) :=
    canonical_ofList <| List.forall_mem_singleton.2 (canonical_textDocument _)
  have hreference : canonical (bodyDocument sampleReference) = .ok (writeBody sampleReference) :=
    canonical_ofList <| List.forall_mem_cons.2 ⟨canonical_textDocument _, List.forall_mem_singleton.2 (canonical_textDocument _)⟩
  simp only [List.mem_cons, List.not_mem_nil, or_false] at hentry
  obtain rfl | rfl | rfl | rfl | rfl | rfl | rfl | rfl | rfl | rfl := hentry
  case inl => exact canonical_canonical.plain _
  case inr.inr.inr.inr.inr.inr.inr.inr.inl => exact hscope
  case inr.inr.inr.inr.inr.inr.inr.inr.inr => exact canonical_array (List.forall_mem_singleton.2 hreference)
  all_goals exact canonical_textDocument _

theorem eventWith_prepared {key : String} (hcheck : checkEvent engineTools (eventWith key) = .ok ())
    (hsize : 4 * (bodyDocument (eventWith key)).render.length ≤ 1048576)
    (hkept : (keptKeys.mapM (keepField (eventWith key))).isOk = true) :
    ∃ prepared, prepareEvent engineTools (bodyDocument (eventWith key)) = .ok prepared ∧ True := by
  have hkey : text (eventWith key) "event_key" = .ok key := text_of_get? (SortedMap.get?_ofList _ _)
  have hbytes : (writeBody (eventWith key)).utf8ByteSize ≤ 1048576 := by
    refine le_trans ?_ hsize
    rw [writeBody]
    generalize (bodyDocument (eventWith key)).render = letters
    induction letters with
    | nil => decide
    | cons c rest ih =>
        have hc := c.utf8Size_le_four
        simp at ih ⊢
        omega
  cases hfields : keptKeys.mapM (keepField (eventWith key)) with
  | error e =>
      rw [hfields] at hkept
      cases hkept
  | ok kept =>
      refine ⟨preparedFields engineTools kept (writeBody (eventWith key)) key, ?_, trivial⟩
      rw [prepareEvent, readBody_bodyDocument, Except.bind_ok, hcheck, Except.bind_ok, hkey, Except.bind_ok, eventWith_canonical,
        Except.bind_ok, checkThat, if_pos (decide_eq_true hbytes), Except.bind_ok, hfields, Except.bind_ok]

theorem filing_prepared : ∃ prepared, prepareEvent engineTools (bodyDocument (eventWith "filing/1")) = .ok prepared ∧ True :=
  eventWith_prepared (by decide +kernel) (by decide +kernel) (by decide +kernel)

theorem filing_ne_null : writeBody (eventWith "filing/1") ≠ writeBody (eventWith "\x00") := by
  intro h
  have hkey := (eventWith_columns "filing/1").2.1
  rw [h, (eventWith_columns "\x00").2.1] at hkey
  exact absurd (Except.ok.inj hkey) (by decide)

theorem engines_keep_one_contract_filing : LawfulCasts engineTools engineCasts ∧
    ∀ journals, OneJournal engineTools "filing/1" journals →
      OneContract engineTools engineCasts journals "ingest" "filing/1" (writeBody (eventWith "filing/1")) filingHash := by
  obtain ⟨written, hwritten, hbody, hhash⟩ := prepared_of_canonical (eventWith_valid _) filing_prepared (eventWith_canonical _)
  have hdigest : engineTools.digest (writeBody (eventWith "filing/1")) = filingHash := by
    simp only [engineTools, if_neg filing_ne_null, if_true]
  rw [hdigest] at hhash
  obtain ⟨hproducer, hkey, hoccurred⟩ := eventWith_columns "filing/1"
  refine ⟨engineCasts_lawful, (engines_keep_one_contract engineTools engineCasts _ written _ _ _ _ _ engineCasts_lawful hwritten
    hbody hhash hproducer hkey hoccurred).1.2 ⟨?_, by decide +kernel, by decide +kernel⟩⟩
  rw [writesNull_writeBody (eventWith_valid _)]
  decide +kernel

theorem null_prepared : ∃ prepared, prepareEvent engineTools (bodyDocument (eventWith "\x00")) = .ok prepared ∧ True :=
  eventWith_prepared (by decide +kernel) (by decide +kernel) (by decide +kernel)

/-- An event whose key is the character U+0000 is prepared. PostgreSQL refuses it, and not for its content. -/
theorem null_key_divides_engines :
    LawfulCasts engineTools engineCasts ∧ OneJournal engineTools "\x00" (fun _ => []) ∧
      (∃ written, prepareJournalEvent engineTools (writeBody (eventWith "\x00")) = .ok written ∧
        columnText written "body" = .ok (writeBody (eventWith "\x00")) ∧ columnText written "canonical_hash" = .ok nullHash) ∧
      recordEvent engineTools engineCasts .postgresql [] (writeBody (eventWith "\x00")) nullHash = .error .unicode ∧
      ¬ OneContract engineTools engineCasts (fun _ => []) "ingest" "\x00" (writeBody (eventWith "\x00")) nullHash := by
  have hdigest : engineTools.digest (writeBody (eventWith "\x00")) = nullHash := by simp only [engineTools, if_true]
  have hprepared := prepared_of_canonical (eventWith_valid _) null_prepared (eventWith_canonical _)
  rw [hdigest] at hprepared
  have hpostgres : recordEvent engineTools engineCasts .postgresql [] (writeBody (eventWith "\x00")) nullHash = .error .unicode := by
    have hnull : writesNull (writeBody (eventWith "\x00")) = true := by
      rw [writesNull_writeBody (eventWith_valid _)]
      decide +kernel
    rw [recordEvent, postgresRecord, postgresRow, hnull]
    rfl
  refine ⟨engineCasts_lawful, ?_, hprepared, hpostgres, fun hcontract => ?_⟩
  · exact ⟨fun _ => ⟨List.nodup_nil, fun _ h => (List.not_mem_nil h).elim, fun _ h => (List.not_mem_nil h).elim⟩,
      fun _ _ => rfl, fun _ _ h => (List.not_mem_nil h).elim⟩
  · obtain ⟨_, hmem, _⟩ := (hcontract.refused .postgresql).1 ⟨_, hpostgres⟩
    exact List.not_mem_nil hmem

end EdgarPlatform.Control
