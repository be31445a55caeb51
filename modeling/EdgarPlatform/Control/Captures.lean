import EdgarPlatform.Control.Canonical
import EdgarPlatform.Library.Greatest
import Mathlib.Data.Int.ConditionallyCompleteOrder

/-!
# The newest capture

Runs are gathered by the content of the capture they read. The newest capture is the one whose first run started last, ties broken by the least run id of each and then by content, and the answer is the completed runs of it. The answer does not depend on the order of the runs. A rerun of a capture never makes it the newest; it can only let another capture take over that started at the very same time.
-/

namespace EdgarPlatform.Control

open JsonText
open Records (joinItems writeString)

structure CaptureRun where
  runId : String
  state : String
  capture : Option Doc
  createdAt : Int
  compactedAt : Option Int

def captureStates : List String := ["running", "waiting", "blocked", "complete"]

def captureKey (run : CaptureRun) : Except String String :=
  match run.capture with
  | none => .ok "null"
  | some value => canonical value

abbrev Groups := SortedMap String (List CaptureRun)

def addRun (groups : Groups) (run : CaptureRun) : Except String Groups :=
  if run.state ∉ captureStates then .error "Invalid capture run state"
  else (captureKey run).map fun key => groups.insert key ((groups.get? key).getD [] ++ [run])

def gatherRuns (runs : List CaptureRun) : Except String Groups := runs.foldlM addRun .empty

/-- When the first run of a capture started, and the least id of its runs. -/
def groupRank (runs : List CaptureRun) : WithBot Int ×ₗ WithBot String :=
  toLex ((runs.map CaptureRun.createdAt).min?, (runs.map CaptureRun.runId).min?)

def latestGroup (groups : Groups) : Option (String × List CaptureRun) :=
  Greatest.lastMax (fun group => groupRank group.2) groups.entries

def completedRuns (latest : List CaptureRun) : Except String String :=
  let unfinished := latest.countP fun run => run.state = "running" || run.state = "waiting"
  let compacted := latest.countP fun run => run.state = "complete" && run.compactedAt.isSome
  if unfinished ≠ 0 then .error ("The newest capture has " ++ toString unfinished ++ " runs not finished; finish them first")
  else if compacted ≠ 0 then
    .error ("The newest capture has " ++ toString compacted ++ " compacted runs; run that target again over a capture")
  else
    let selected := Sorting.sortByKey id ((latest.filter fun run => run.state = "complete").map CaptureRun.runId)
    .ok (joinItems (selected.map writeString))

def selectLatestCapture (runs : List CaptureRun) : Except String String := do
  let groups ← gatherRuns runs
  match latestGroup groups with
  | none => .ok "[]"
  | some latest => completedRuns latest.2

def newestCapture (runs : List CaptureRun) : Except String (Option String) :=
  (gatherRuns runs).map fun groups => (latestGroup groups).map Prod.fst

def Readable (run : CaptureRun) : Prop := run.state ∈ captureStates ∧ ∃ key, captureKey run = .ok key

def reads (key : String) (run : CaptureRun) : Bool :=
  match captureKey run with
  | .ok found => found = key
  | .error _ => false

def runsOf (runs : List CaptureRun) (key : String) : List CaptureRun := runs.filter (reads key)

variable {run : CaptureRun}

theorem reads_iff {key : String} : reads key run = true ↔ captureKey run = .ok key := by
  rw [reads]
  cases captureKey run with
  | ok found => exact ⟨fun h => congrArg Except.ok (of_decide_eq_true h), fun h => decide_eq_true (Except.ok.inj h)⟩
  | error e => exact iff_of_false (fun h => nomatch h) fun h => nomatch h

variable {runs : List CaptureRun}

theorem mem_runsOf {key : String} :
    run ∈ runsOf runs key ↔ run ∈ runs ∧ captureKey run = .ok key := by
  rw [runsOf, List.mem_filter, reads_iff]

def held (runs : List CaptureRun) : Option (List CaptureRun) := if runs = [] then none else some runs

theorem addRun_eq_ok {groups next : Groups} :
    addRun groups run = .ok next ↔ run.state ∈ captureStates ∧
      ∃ key, captureKey run = .ok key ∧ next = groups.insert key ((groups.get? key).getD [] ++ [run]) := by
  rw [addRun, Except.ite_error_eq_ok, not_not, Records.map_eq_ok]

theorem runsOf_append (runs : List CaptureRun) (run : CaptureRun) (key : String) :
    runsOf (runs ++ [run]) key = runsOf runs key ++ bif reads key run then [run] else [] := by
  rw [runsOf, List.filter_append, List.filter_singleton]
  rfl

theorem get?_addRun {groups next : Groups} (h : addRun groups run = .ok next)
    (hgroups : ∀ key, groups.get? key = held (runsOf runs key)) (key : String) :
    next.get? key = held (runsOf (runs ++ [run]) key) := by
  obtain ⟨_, found, hfound, rfl⟩ := addRun_eq_ok.1 h
  rw [runsOf_append]
  by_cases hkey : key = found
  · have hgroup : (groups.get? found).getD [] = runsOf runs found := by
      rw [hgroups, held]
      split_ifs with hnil
      · exact hnil.symm
      · rfl
    rw [hkey, SortedMap.get?_insert_self, hgroup, reads_iff.2 hfound, held, cond_true, if_neg (by simp)]
  · have hread : reads key run = false := by
      rw [Bool.eq_false_iff, ne_eq, reads_iff, hfound]
      exact fun h => hkey (Except.ok.inj h).symm
    rw [SortedMap.get?_insert_of_ne _ _ hkey, hgroups, hread, cond_false, List.append_nil]

theorem gathered {groups : Groups} (h : gatherRuns runs = .ok groups) :
    (∀ run ∈ runs, Readable run) ∧ ∀ key, groups.get? key = held (runsOf runs key) := by
  induction runs using List.reverseRecOn generalizing groups with
  | nil =>
      obtain rfl := Except.ok.inj h
      exact ⟨fun run hrun => absurd hrun List.not_mem_nil, fun key => rfl⟩
  | append_singleton runs run ih =>
      obtain ⟨before, hruns, hrun⟩ := Runs.foldlM_append_eq_ok.1 h
      obtain ⟨hreadable, hbefore⟩ := ih hruns
      obtain ⟨next, hadd, hnext⟩ := Runs.foldlM_cons_eq_ok.1 hrun
      obtain rfl := Except.ok.inj hnext
      refine ⟨fun other hother => ?_, get?_addRun hadd hbefore⟩
      rcases List.mem_append.1 hother with hother | hother
      · exact hreadable other hother
      · obtain ⟨hstate, found, hfound, _⟩ := addRun_eq_ok.1 hadd
        rw [List.mem_singleton.1 hother]
        exact ⟨hstate, found, hfound⟩

theorem gather_of_readable (h : ∀ run ∈ runs, Readable run) : ∃ groups, gatherRuns runs = .ok groups := by
  induction runs using List.reverseRecOn with
  | nil => exact ⟨.empty, rfl⟩
  | append_singleton runs run ih =>
      obtain ⟨groups, hgroups⟩ := ih fun other hother => h other (List.mem_append_left _ hother)
      obtain ⟨hstate, key, hkey⟩ := h run (by simp)
      have hadd := addRun_eq_ok.2 ⟨hstate, key, hkey, (rfl : _ = groups.insert key ((groups.get? key).getD [] ++ [run]))⟩
      exact ⟨_, Runs.foldlM_append_eq_ok.2 ⟨groups, hgroups, Runs.foldlM_cons_eq_ok.2 ⟨_, hadd, rfl⟩⟩⟩

theorem mem_groups {groups : Groups} (h : gatherRuns runs = .ok groups) {group : String × List CaptureRun} :
    group ∈ groups.entries ↔ runsOf runs group.1 ≠ [] ∧ group.2 = runsOf runs group.1 := by
  rw [← SortedMap.get?_eq_some_iff, (gathered h).2, held]
  split_ifs with hnil
  · exact iff_of_false (fun h => nomatch h) fun h => h.1 hnil
  · rw [Option.some_inj]
    exact ⟨fun h => ⟨hnil, h.symm⟩, fun h => h.2.symm⟩

/-- A capture's place among the captures: when its first run started, the least id of its runs, its content. -/
def capturePlace (runs : List CaptureRun) (key : String) : (WithBot Int ×ₗ WithBot String) ×ₗ String :=
  toLex (groupRank (runsOf runs key), key)

theorem newestCapture_eq_some {key : String} (h : ∀ run ∈ runs, Readable run) :
    newestCapture runs = .ok (some key) ↔
      runsOf runs key ≠ [] ∧ ∀ other, runsOf runs other ≠ [] → other ≠ key → capturePlace runs other < capturePlace runs key := by
  obtain ⟨groups, hgroups⟩ := gather_of_readable h
  have hplace : ∀ group ∈ groups.entries,
      Greatest.place (fun group : String × List CaptureRun => groupRank group.2) Prod.fst group = capturePlace runs group.1 := by
    intro group hgroup
    rw [Greatest.place, capturePlace, ((mem_groups hgroups).1 hgroup).2]
  have hentry : ∀ {key}, runsOf runs key ≠ [] → (key, runsOf runs key) ∈ groups.entries := fun hne => (mem_groups hgroups).2 ⟨hne, rfl⟩
  rw [newestCapture, hgroups]
  show Except.ok ((latestGroup groups).map Prod.fst) = _ ↔ _
  rw [Except.ok.injEq, Option.map_eq_some_iff]
  constructor
  · rintro ⟨group, hlatest, rfl⟩
    obtain ⟨hmem, hmax⟩ := (Greatest.lastMax_eq_some groups.sorted).1 hlatest
    refine ⟨((mem_groups hgroups).1 hmem).1, fun other hother hne => ?_⟩
    have hlt := hmax _ (hentry hother) fun heq => hne (congrArg Prod.fst heq)
    rwa [hplace _ (hentry hother), hplace _ hmem] at hlt
  · rintro ⟨hheld, hmax⟩
    refine ⟨_, (Greatest.lastMax_eq_some groups.sorted).2 ⟨hentry hheld, fun other hother hne => ?_⟩, rfl⟩
    rw [hplace _ hother, hplace _ (hentry hheld)]
    obtain ⟨hheld', hruns⟩ := (mem_groups hgroups).1 hother
    refine hmax _ hheld' fun heq => hne (Prod.ext heq ?_)
    rw [hruns, heq]
theorem select_of_newest {runs : List CaptureRun} {key : String} (h : newestCapture runs = .ok (some key)) :
    selectLatestCapture runs = completedRuns (runsOf runs key) := by
  obtain ⟨groups, hgroups, hlatest⟩ := Records.map_eq_ok.1 h
  obtain ⟨group, hgroup, hkey⟩ := Option.map_eq_some_iff.1 hlatest.symm
  have hmem := ((Greatest.lastMax_eq_some groups.sorted).1 hgroup).1
  rw [selectLatestCapture, hgroups]
  show (match latestGroup groups with | none => (.ok "[]" : Except String String) | some latest => completedRuns latest.2) = _
  rw [hgroup, ← hkey]
  show completedRuns group.2 = _
  rw [((mem_groups hgroups).1 hmem).2]

theorem newest_exists (h : ∀ run ∈ runs, Readable run) (hne : runs ≠ []) :
    ∃ key, newestCapture runs = .ok (some key) := by
  obtain ⟨groups, hgroups⟩ := gather_of_readable h
  obtain ⟨run, hrun⟩ := List.exists_mem_of_ne_nil runs hne
  obtain ⟨_, key, hkey⟩ := h run hrun
  have hheld : runsOf runs key ≠ [] := List.ne_nil_of_mem (mem_runsOf.2 ⟨hrun, hkey⟩)
  cases hlatest : latestGroup groups with
  | none =>
      have hentry : (key, runsOf runs key) ∈ groups.entries := (mem_groups hgroups).2 ⟨hheld, rfl⟩
      rw [Greatest.lastMax_eq_none.1 hlatest] at hentry
      exact absurd hentry List.not_mem_nil
  | some group => exact ⟨group.1, Records.map_eq_ok.2 ⟨groups, hgroups, by rw [hlatest]; rfl⟩⟩

theorem min?_congr {α : Type} [LinearOrder α] {items others : List α} (h : ∀ a, a ∈ items ↔ a ∈ others) : items.min? = others.min? := by
  refine Option.ext fun a => ?_
  rw [List.min?_eq_some_iff, List.min?_eq_some_iff]
  simp only [h]

theorem groupRank_perm {runs others : List CaptureRun} (h : runs.Perm others) : groupRank runs = groupRank others := by
  rw [groupRank, groupRank, min?_congr fun a => (h.map CaptureRun.createdAt).mem_iff, min?_congr fun a => (h.map CaptureRun.runId).mem_iff]

theorem runsOf_perm {runs others : List CaptureRun} (h : runs.Perm others) (key : String) : (runsOf runs key).Perm (runsOf others key) :=
  h.filter _

theorem completedRuns_perm {runs others : List CaptureRun} (h : runs.Perm others) : completedRuns runs = completedRuns others := by
  have hselected : Sorting.sortByKey id ((runs.filter fun run => run.state = "complete").map CaptureRun.runId) =
      Sorting.sortByKey id ((others.filter fun run => run.state = "complete").map CaptureRun.runId) := by
    have hperm : ((runs.filter fun run => run.state = "complete").map CaptureRun.runId).Perm
        ((others.filter fun run => run.state = "complete").map CaptureRun.runId) := (h.filter _).map _
    refine (((Sorting.sortByKey_perm id _).trans hperm).trans (Sorting.sortByKey_perm id _).symm).eq_of_pairwise ?_
      (Sorting.sortByKey_sorted id _) (Sorting.sortByKey_sorted id _)
    exact fun a b _ _ hab hba => le_antisymm hab hba
  rw [completedRuns, completedRuns, hselected, h.countP_eq, h.countP_eq]

theorem readable_perm {runs others : List CaptureRun} (h : runs.Perm others) :
    (∀ run ∈ runs, Readable run) ↔ ∀ run ∈ others, Readable run :=
  forall_congr' fun _ => imp_congr_left h.mem_iff

theorem newestCapture_perm {runs others : List CaptureRun} (h : runs.Perm others) (hreadable : ∀ run ∈ runs, Readable run) {key : String}
    (hnewest : newestCapture runs = .ok (some key)) : newestCapture others = .ok (some key) := by
  have hheld : ∀ key, runsOf others key ≠ [] ↔ runsOf runs key ≠ [] :=
    fun key => not_congr ⟨fun hnil => (hnil ▸ runsOf_perm h key).eq_nil, fun hnil => (hnil ▸ (runsOf_perm h key).symm).eq_nil⟩
  have hplace : ∀ key, capturePlace others key = capturePlace runs key := by
    intro key
    rw [capturePlace, capturePlace, groupRank_perm (runsOf_perm h key)]
  rw [newestCapture_eq_some hreadable] at hnewest
  rw [newestCapture_eq_some ((readable_perm h).1 hreadable)]
  simp only [hheld, hplace]
  exact hnewest

theorem selectLatestCapture_perm {runs others : List CaptureRun} (h : runs.Perm others) (hreadable : ∀ run ∈ runs, Readable run) :
    selectLatestCapture runs = selectLatestCapture others := by
  by_cases hne : runs = []
  · subst hne
    rw [h.symm.eq_nil]
  · obtain ⟨key, hkey⟩ := newest_exists hreadable hne
    rw [select_of_newest hkey, select_of_newest (newestCapture_perm h hreadable hkey), completedRuns_perm (runsOf_perm h key)]

theorem select_of_unreadable (h : ¬ ∀ run ∈ runs, Readable run) : ∃ e, selectLatestCapture runs = .error e := by
  rcases Except.eq_ok_or_error (gatherRuns runs) with ⟨groups, hgroups⟩ | ⟨e, herror⟩
  · exact absurd (gathered hgroups).1 h
  · exact ⟨e, by rw [selectLatestCapture, herror]; rfl⟩

def firstCreated (runs : List CaptureRun) (key : String) : WithBot Int := ((runsOf runs key).map CaptureRun.createdAt).min?

def firstId (runs : List CaptureRun) (key : String) : WithBot String := ((runsOf runs key).map CaptureRun.runId).min?

theorem capturePlace_eq (runs : List CaptureRun) (key : String) :
    capturePlace runs key = toLex (toLex (firstCreated runs key, firstId runs key), key) := rfl

theorem min?_append {α : Type} [LinearOrder α] {items : List α} {least : α} (h : items.min? = some least) (a : α) :
    (items ++ [a]).min? = some (min least a) := by
  obtain ⟨hmem, hle⟩ := List.min?_eq_some_iff.1 h
  refine List.min?_eq_some_iff.2 ⟨?_, fun b hb => ?_⟩
  · rcases min_choice least a with hmin | hmin
    · rw [hmin]
      exact List.mem_append_left _ hmem
    · rw [hmin]
      simp
  · rcases List.mem_append.1 hb with hb | hb
    · exact (min_le_left _ _).trans (hle b hb)
    · rw [List.mem_singleton.1 hb]
      exact min_le_right _ _

theorem min?_of_ne_nil {α β : Type} [LinearOrder β] (f : α → β) {items : List α} (h : items ≠ []) : ∃ least, (items.map f).min? = some least :=
  Option.isSome_iff_exists.1 (List.isSome_min?_of_ne_nil fun hnil => h (List.map_eq_nil_iff.1 hnil))

section Rerun

variable {runs : List CaptureRun} {run : CaptureRun} {content : String}

theorem runsOf_rerun (hread : captureKey run = .ok content) : runsOf (runs ++ [run]) content = runsOf runs content ++ [run] := by
  rw [runsOf_append, reads_iff.2 hread, cond_true]

theorem runsOf_rerun_of_ne (hread : captureKey run = .ok content) {other : String} (hne : other ≠ content) :
    runsOf (runs ++ [run]) other = runsOf runs other := by
  have hfalse : reads other run = false := by
    rw [Bool.eq_false_iff, ne_eq, reads_iff, hread]
    exact fun h => hne (Except.ok.inj h).symm
  rw [runsOf_append, hfalse, cond_false, List.append_nil]

theorem capturePlace_rerun (hread : captureKey run = .ok content) (hheld : runsOf runs content ≠ [])
    (hlater : ∀ earlier ∈ runsOf runs content, earlier.createdAt < run.createdAt) :
    capturePlace (runs ++ [run]) content =
      toLex (toLex (firstCreated runs content, min (firstId runs content) (run.runId : WithBot String)), content) := by
  obtain ⟨created, hcreated⟩ := min?_of_ne_nil CaptureRun.createdAt hheld
  obtain ⟨id, hid⟩ := min?_of_ne_nil CaptureRun.runId hheld
  have hfirst : firstCreated (runs ++ [run]) content = firstCreated runs content := by
    obtain ⟨earlier, hearlier, heq⟩ := List.mem_map.1 (List.min?_eq_some_iff.1 hcreated).1
    have hlt : created < run.createdAt := heq ▸ hlater earlier hearlier
    rw [firstCreated, firstCreated, runsOf_rerun hread, List.map_append, List.map_singleton, hcreated, min?_append hcreated,
      min_eq_left hlt.le]
  have hleast : firstId (runs ++ [run]) content = min (firstId runs content) (run.runId : WithBot String) := by
    rw [firstId, firstId, runsOf_rerun hread, List.map_append, List.map_singleton, hid, min?_append hid]
    exact WithBot.coe_min id run.runId
  rw [capturePlace_eq, hfirst, hleast]

theorem capturePlace_rerun_of_ne (hread : captureKey run = .ok content) {other : String} (hne : other ≠ content) :
    capturePlace (runs ++ [run]) other = capturePlace runs other := by
  rw [capturePlace, capturePlace, runsOf_rerun_of_ne hread hne]

theorem place_lt {c c' : WithBot Int} {i i' : WithBot String} {key key' : String} :
    toLex (toLex (c, i), key) < toLex (toLex (c', i'), key') ↔ c < c' ∨ c = c' ∧ toLex (i, key) < toLex (i', key') := by
  simp only [Prod.Lex.toLex_lt_toLex, EmbeddingLike.apply_eq_iff_eq, Prod.mk.injEq]
  tauto

theorem toLex_min (i i' : WithBot String) (key : String) : toLex (min i i', key) = min (toLex (i, key)) (toLex (i', key)) := by
  rcases le_total i i' with h | h
  · rw [min_eq_left h, min_eq_left]
    exact Prod.Lex.toLex_mono ⟨h, le_refl key⟩
  · rw [min_eq_right h, min_eq_right]
    exact Prod.Lex.toLex_mono ⟨h, le_refl key⟩

theorem readable_append (h : ∀ run ∈ runs, Readable run) (hrun : Readable run) : ∀ other ∈ runs ++ [run], Readable other := by
  intro other hother
  rcases List.mem_append.1 hother with hother | hother
  · exact h other hother
  · rw [List.mem_singleton.1 hother]
    exact hrun

variable {newest : String}

/-- A rerun of the newest capture leaves it the newest unless its id falls behind a capture that started at the same time; a rerun of another changes nothing. -/
theorem newestCapture_of_rerun (hreadable : ∀ run ∈ runs, Readable run) (hstate : run.state ∈ captureStates)
    (hread : captureKey run = .ok content) (hheld : runsOf runs content ≠ [])
    (hlater : ∀ earlier ∈ runsOf runs content, earlier.createdAt < run.createdAt)
    (hnewest : newestCapture runs = .ok (some newest)) :
    newestCapture (runs ++ [run]) = .ok (some newest) ↔
      (content = newest → ∀ other, other ≠ newest → runsOf runs other ≠ [] → firstCreated runs other = firstCreated runs newest →
        toLex (firstId runs other, other) < toLex ((run.runId : WithBot String), newest)) := by
  obtain ⟨hnewestHeld, hmax⟩ := (newestCapture_eq_some hreadable).1 hnewest
  have hheld' : ∀ key, runsOf (runs ++ [run]) key ≠ [] ↔ runsOf runs key ≠ [] := by
    intro key
    by_cases hkey : key = content
    · rw [hkey, runsOf_rerun hread]
      exact iff_of_true (by simp) hheld
    · rw [runsOf_rerun_of_ne hread hkey]
  rw [newestCapture_eq_some (readable_append hreadable ⟨hstate, content, hread⟩)]
  simp only [hheld', hnewestHeld, ne_eq, not_false_eq_true, true_and]
  by_cases hcontent : content = newest
  · subst hcontent
    rw [capturePlace_rerun hread hheld hlater]
    refine Iff.trans (forall_congr' fun other => ?_) ⟨fun h _ => h, fun h => h rfl⟩
    rw [forall_comm]
    refine forall_congr' fun hne => forall_congr' fun hother => ?_
    have hlt := hmax other hother hne
    rw [capturePlace_eq, capturePlace_eq, place_lt] at hlt
    rw [capturePlace_rerun_of_ne hread hne, capturePlace_eq, place_lt, toLex_min, lt_min_iff]
    constructor
    · rintro (hlt' | ⟨_, _, hid⟩) heq
      · exact absurd heq hlt'.ne
      · exact hid
    · intro h
      refine hlt.imp_right fun hsame => ?_
      exact ⟨hsame.1, hsame.2, h hsame.1⟩
  · refine iff_of_true (fun other hother hne => ?_) fun h => absurd h hcontent
    rw [capturePlace_rerun_of_ne hread fun h => hcontent h.symm]
    by_cases hsame : other = content
    · refine lt_of_le_of_lt ?_ (hmax other hother hne)
      rw [hsame, capturePlace_rerun hread hheld hlater, capturePlace_eq]
      exact Prod.Lex.toLex_mono ⟨Prod.Lex.toLex_mono ⟨le_refl _, min_le_left _ _⟩, le_refl _⟩
    · rw [capturePlace_rerun_of_ne hread hsame]
      exact hmax other hother hne

end Rerun

/-- The answer does not depend on the order of the runs, and a rerun of a capture changes which is the newest only if it reruns the newest and its id falls behind a capture that started at the same time. -/
theorem latest_capture_is_stable :
    (∀ runs others : List CaptureRun, runs.Perm others →
      (∀ s, selectLatestCapture runs = .ok s ↔ selectLatestCapture others = .ok s) ∧
        ((∀ run ∈ runs, Readable run) → selectLatestCapture runs = selectLatestCapture others)) ∧
    ∀ (runs others : List CaptureRun) (run : CaptureRun) (content newest : String), others.Perm (runs ++ [run]) →
      (∀ run ∈ runs, Readable run) → run.state ∈ captureStates → captureKey run = .ok content → runsOf runs content ≠ [] →
      (∀ earlier ∈ runsOf runs content, earlier.createdAt < run.createdAt) → newestCapture runs = .ok (some newest) →
      (newestCapture others = .ok (some newest) ↔
        (content = newest → ∀ other, other ≠ newest → runsOf runs other ≠ [] → firstCreated runs other = firstCreated runs newest →
          toLex (firstId runs other, other) < toLex ((run.runId : WithBot String), newest))) := by
  refine ⟨fun runs others h => ⟨fun s => ?_, selectLatestCapture_perm h⟩, ?_⟩
  · by_cases hreadable : ∀ run ∈ runs, Readable run
    · rw [selectLatestCapture_perm h hreadable]
    · obtain ⟨e, he⟩ := select_of_unreadable hreadable
      obtain ⟨e', he'⟩ := select_of_unreadable fun hothers => hreadable ((readable_perm h).2 hothers)
      rw [he, he']
      exact iff_of_false (fun hok => nomatch hok) fun hok => nomatch hok
  · intro runs others run content newest h hreadable hstate hread hheld hlater hnewest
    have hall := readable_append hreadable (⟨hstate, content, hread⟩ : Readable run)
    rw [← newestCapture_of_rerun hreadable hstate hread hheld hlater hnewest]
    exact ⟨newestCapture_perm h ((readable_perm h).2 hall), newestCapture_perm h.symm hall⟩

def firstRun : CaptureRun := ⟨"b", "complete", some (.plain ['1']), 0, none⟩

def tiedRun : CaptureRun := ⟨"c", "complete", some (.plain ['2']), 0, none⟩

def rerun : CaptureRun := ⟨"a", "complete", some (.plain ['2']), 1, none⟩

/-- A rerun of an older capture leaves the newest as it is. -/
theorem latest_capture_is_stable_of_two :
    newestCapture [firstRun, tiedRun, { rerun with capture := firstRun.capture }] = .ok (some "2") := by
  refine (latest_capture_is_stable.2 [firstRun, tiedRun] _ { rerun with capture := firstRun.capture } "1" "2" (List.Perm.refl _)
    ?_ (by decide) rfl (by decide) ?_ rfl).2 fun h => absurd h (by decide)
  · intro run hrun
    rcases List.mem_cons.1 hrun with rfl | hrun
    · exact ⟨by decide, "1", rfl⟩
    · rw [List.mem_singleton.1 hrun]
      exact ⟨by decide, "2", rfl⟩
  · intro earlier hearlier
    obtain ⟨hmem, hread⟩ := mem_runsOf.1 hearlier
    rcases List.mem_cons.1 hmem with rfl | hmem
    · decide
    · rw [List.mem_singleton.1 hmem] at hread
      exact absurd (Except.ok.inj hread) (by decide)

/-- A rerun of the newest capture with a lesser id lets a capture that started at the same time take over. -/
theorem rerun_hands_over : newestCapture [firstRun, tiedRun] = .ok (some "2") ∧
    newestCapture [firstRun, tiedRun, rerun] = .ok (some "1") := ⟨rfl, rfl⟩

end EdgarPlatform.Control
