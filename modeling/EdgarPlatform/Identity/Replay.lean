import EdgarPlatform.Library.IndexMap
import EdgarPlatform.Library.Runs
import Mathlib.Data.Finset.Basic
import Mathlib.Data.Finset.Lattice.Basic

/-!
# Identity replay

The replay of accepted identity decisions. The decisions that took effect by the clock are ordered by time, at one time by how deep they rest on decisions of that time, and then by id. Three passes read the ordered list: the reversals and revocations, the quarantine periods, and the decisions themselves, which build the parent map of the merged identities and the state the caller keeps.

Every definition carries the name its function or variable has in `identity.rs`, and each refusal its text.
-/

namespace EdgarPlatform.Identities

structure Identity where
  id : String
  kind : String
  published : Int
  deriving DecidableEq

/-- The operations a decision may name. Any other name is kept, and refused when it is read. -/
inductive Op
  | bind | merge | exclude | override | quarantine | retireSource | reverse | revoke
  | other (name : String)
  deriving DecidableEq

def Op.read : String → Op
  | "bind" => .bind
  | "merge" => .merge
  | "exclude" => .exclude
  | "override" => .override
  | "quarantine" => .quarantine
  | "retire_source" => .retireSource
  | "reverse" => .reverse
  | "revoke" => .revoke
  | name => .other name

structure Decision where
  id : String
  /-- When the decision took effect, in microseconds. -/
  time : Int
  op : Op
  target : Option String
  subject : Option String
  entity : Option String
  left : Option String
  right : Option String
  survivor : Option String
  source : Option String
  expires : Option Int
  evidence : Bool
  depends : List String
  entityPresent : Bool
  deriving DecidableEq

structure State where
  canonical : IndexMap String String
  bindings : IndexMap String String
  exclusions : List (String × String)
  /-- The override decisions in force, as positions in the list the caller gave. -/
  overrides : List Nat
  retired : Finset String
  quarantined : IndexMap String String
  deriving DecidableEq

def State.empty : State := ⟨.empty, .empty, [], [], ∅, .empty⟩

def required (value : Option String) : Except String String :=
  match value with
  | none => .error "Missing decision operand"
  | some value => .ok value

def rootLoop (parent : IndexMap String String) : Nat → String → Except String String
  | 0, _ => .error "Root not reached"
  | fuel + 1, key =>
      match parent.get? key with
      | none => .error "Unknown identity"
      | some next => if next = key then .ok key else rootLoop parent fuel next

/-- The loop passes a key at most once, so as many turns as there are keys reach the root. -/
def root (parent : IndexMap String String) (key : String) : Except String String :=
  rootLoop parent (parent.size + 1) key

/-- How deep a decision rests on decisions of its own time, with the depths found so far. A decision met again while its own depth is being found counts as resting on nothing. -/
def depth (all : IndexMap String Decision) : Nat → Decision → IndexMap String Nat → Nat × IndexMap String Nat
  | 0, _, seen => (0, seen)
  | fuel + 1, d, seen =>
      match seen.get? d.id with
      | some found => (found, seen)
      | none =>
          let (found, seen) := d.depends.foldl (fun (found, seen) id =>
            match (all.get? id).filter (fun other => other.time = d.time) with
            | none => (found, seen)
            | some other =>
                let (below, seen) := depth all fuel other seen
                (max found (1 + below), seen)) (0, seen.insert d.id 0)
          (found, seen.insert d.id found)

/-- The depth of each decision: of a merge what it rests on, of any other decision nothing. -/
def depths (ordered : List (Nat × Decision)) : IndexMap String Nat :=
  let atOnce := IndexMap.ofList (ordered.map fun entry => (entry.2.id, entry.2))
  (ordered.foldl (fun (found, seen) (entry : Nat × Decision) =>
    if entry.2.op = .merge then
      let (below, seen) := depth atOnce (atOnce.size + 1) entry.2 seen
      (found.insert entry.2.id below, seen)
    else (found.insert entry.2.id 0, seen)) (IndexMap.empty, IndexMap.empty)).1

def sortKey (depths : IndexMap String Nat) (d : Decision) : Int ×ₗ Nat ×ₗ String :=
  toLex (d.time, toLex ((depths.get? d.id).getD 0, d.id))

/-- The decisions in effect by the clock, each with its position in the caller's list. -/
def inEffect (decisions : List Decision) (clock : Int) : List (Nat × Decision) :=
  (decisions.zipIdx.map fun entry => (entry.2, entry.1)).filter fun entry => entry.2.time ≤ clock

def inOrder (decisions : List Decision) (clock : Int) : List (Nat × Decision) :=
  let effective := inEffect decisions clock
  Sorting.sortByKey (fun entry => sortKey (depths effective) entry.2) effective

structure Reversals where
  revoked : Finset String
  revokedAt : IndexMap String Int
  /-- Per record, the periods in which a bind of it that was revoked had stood, and to which entity. -/
  unbound : IndexMap String (List (Int × Int × String))

def Reversals.empty : Reversals := ⟨∅, .empty, .empty⟩

def mayTarget (op target : Op) : Bool :=
  if op = .reverse then target = .merge
  else [Op.override, .exclude, .reverse, .bind, .quarantine].contains target

def Reversals.undo (r : Reversals) (target d : Decision) : Reversals :=
  { r with revoked := insert target.id r.revoked, revokedAt := r.revokedAt.insert target.id d.time }

def readReversal (byId : IndexMap String Decision) (r : Reversals) (d : Decision) : Except String Reversals :=
  if d.op ≠ .reverse ∧ d.op ≠ .revoke then .ok r
  else
    match d.target.bind byId.get? with
    | none => .error "Reversal/revocation must reference an earlier decision"
    | some target =>
        if d.time ≤ target.time then .error "Reversal/revocation must reference an earlier decision"
        else if mayTarget d.op target.op = false then .error "Invalid reversal/revocation target"
        else if target.op = .bind then
          if target.id ∈ r.revoked then .error "This bind is already revoked"
          else if (d.subject, d.entity) ≠ (target.subject, target.entity) then
            .error "A revocation names the bind it revokes: its subject and entity"
          else do
            let subject ← required target.subject
            let entity ← required target.entity
            let window := (target.time, d.time, entity)
            let unbound := r.unbound.insert subject ((r.unbound.get? subject).getD [] ++ [window])
            .ok ({ r with unbound }.undo target d)
        else .ok (r.undo target d)

def readReversals (ordered : List (Nat × Decision)) : Except String Reversals :=
  let byId := IndexMap.ofList (ordered.map fun entry => (entry.2.id, entry.2))
  ordered.foldlM (fun r entry => readReversal byId r entry.2) .empty

abbrev Held := IndexMap String (List (Int × Option Int))

def readHeld (r : Reversals) (held : Held) (d : Decision) : Except String Held := do
  let held ← if d.op = .quarantine then do
      let subject ← required d.subject
      .ok (held.insert subject ((held.get? subject).getD [] ++ [(d.time, r.revokedAt.get? d.id)]))
    else .ok held
  if d.op = .merge ∧ d.id ∉ r.revoked ∧ d.depends.any (· ∈ r.revoked) then
    .error "Dependent merge requires review before reversal"
  else .ok held

def readHolds (r : Reversals) (ordered : List (Nat × Decision)) : Except String Held :=
  ordered.foldlM (fun held entry => readHeld r held entry.2) .empty

/-- What the last pass reads and never writes. -/
structure Reading where
  ids : IndexMap String Identity
  ordered : List (Nat × Decision)
  reversals : Reversals
  held : Held
  clock : Int

structure Progress where
  parent : IndexMap String String
  state : State
  components : IndexMap String (Finset String)

/-- A period in which a bind since revoked had stood holds the time. -/
def inWindow (time : Int) (window : Int × Int × String) : Bool :=
  window.1 ≤ time ∧ time < window.2.1

def inPeriod (time : Int) (period : Int × Option Int) : Bool :=
  period.1 ≤ time ∧ period.2.all (time < ·)

def applyBind (reading : Reading) (p : Progress) (d : Decision) : Except String Progress := do
  let subject ← required d.subject
  let entity ← required d.entity
  let _ ← root p.parent entity
  if d.id ∈ reading.reversals.revoked then .ok p
  else if ((reading.reversals.unbound.get? subject).getD []).any
        (fun window => inWindow d.time window ∧ window.2.2 ≠ entity) ∨
      (p.state.bindings.get? subject).any (· ≠ entity) then
    .error "Moving an established source binding requires a correction contract"
  else if ((reading.held.get? subject).getD []).any (inPeriod d.time) then
    .error "A quarantined record is left out of matching"
  else if d.evidence = false then .error "Binding requires source assertion evidence"
  else .ok { p with state := { p.state with bindings := p.state.bindings.insert subject entity } }

def kindOf (ids : IndexMap String Identity) (id : String) : Option String := (ids.get? id).map (·.kind)

/-- The time an identity was published and its id: the older of two is the smaller. -/
def age (ids : IndexMap String Identity) (id : String) : Int ×ₗ String :=
  toLex (((ids.get? id).map (·.published)).getD 0, id)

def survivorOf (ids : IndexMap String Identity) (d : Decision) (left right : String) : String :=
  (d.survivor.filter (· ≠ "")).getD (if age ids left ≤ age ids right then left else right)

def membersOf (ids : IndexMap String Identity) (parent : IndexMap String String) (left right : String) :
    Finset String :=
  (ids.keys.filter fun i => root parent i = .ok left ∨ root parent i = .ok right).toFinset

def applyMerge (reading : Reading) (p : Progress) (d : Decision) : Except String Progress :=
  if d.id ∈ reading.reversals.revoked then
    if reading.ordered.any (fun entry => entry.2.op = .reverse ∧ entry.2.target = some d.id ∧
        entry.2.id ∉ reading.reversals.revoked) then do
      let left ← required d.left
      let right ← required d.right
      .ok { p with state := { p.state with exclusions := p.state.exclusions ++ [(left, right)] } }
    else .ok p
  else do
    let left ← root p.parent (← required d.left)
    let right ← root p.parent (← required d.right)
    if left = right then .error "Already consolidated identities"
    else if kindOf reading.ids left ≠ kindOf reading.ids right then .error "Incompatible identity kinds"
    else
      let members := membersOf reading.ids p.parent left right
      if p.components.entries.any (fun entry => ¬ Disjoint entry.2 members ∧ entry.1 ∉ d.depends) then
        .error "Merge is missing dependency evidence"
      else
        let survivor := survivorOf reading.ids d left right
        if survivor ≠ left ∧ survivor ≠ right then .error "Survivor must be a current identity"
        else .ok { p with
          parent := p.parent.insert (if survivor = left then right else left) survivor
          components := p.components.insert d.id members }

def applyExclude (reading : Reading) (p : Progress) (d : Decision) : Except String Progress :=
  if d.id ∈ reading.reversals.revoked then .ok p
  else do
    let left ← required d.left
    let right ← required d.right
    .ok { p with state := { p.state with exclusions := p.state.exclusions ++ [(left, right)] } }

def applyOverride (reading : Reading) (p : Progress) (index : Nat) (d : Decision) : Except String Progress :=
  if d.id ∈ reading.reversals.revoked then .ok p
  else if d.evidence = false then .error "Override requires evidence"
  else if d.expires.all (reading.clock < ·) then
    .ok { p with state := { p.state with overrides := p.state.overrides ++ [index] } }
  else .ok p

def applyQuarantine (reading : Reading) (p : Progress) (d : Decision) : Except String Progress :=
  match d.subject.filter (· ≠ "") with
  | none => .error "A quarantine names its record and the Company it was linked to"
  | some subject =>
      if d.entityPresent = false then .error "A quarantine names its record and the Company it was linked to"
      else do
        let entity ← required d.entity
        let _ ← root p.parent entity
        if p.state.bindings.contains subject ∨
            ((reading.reversals.unbound.get? subject).getD []).any (inWindow d.time) then
          .error "Revoke the record's bind before quarantining it"
        else if d.id ∈ reading.reversals.revoked then .ok p
        else .ok { p with state := { p.state with quarantined := p.state.quarantined.insert subject entity } }

def applyRetirement (p : Progress) (d : Decision) : Except String Progress :=
  if d.evidence = false then .error "Retirement requires evidence"
  else do
    let source ← required d.source
    .ok { p with state := { p.state with retired := insert source p.state.retired } }

def applyDecision (reading : Reading) (p : Progress) (entry : Nat × Decision) : Except String Progress :=
  match entry.2.op with
  | .bind => applyBind reading p entry.2
  | .merge => applyMerge reading p entry.2
  | .exclude => applyExclude reading p entry.2
  | .override => applyOverride reading p entry.1 entry.2
  | .quarantine => applyQuarantine reading p entry.2
  | .retireSource => applyRetirement p entry.2
  | .reverse => .ok p
  | .revoke => .ok p
  | .other _ => .error "Unsupported decision operation"

def Progress.start (ids : IndexMap String Identity) : Progress where
  parent := IndexMap.ofList (ids.keys.map fun i => (i, i))
  state := .empty
  components := .empty

def canonicalOf (ids : IndexMap String Identity) (parent : IndexMap String String) :
    Except String (List (String × String)) :=
  ids.keys.mapM fun i => do
    let r ← root parent i
    .ok (i, r)

def checkExclusion (parent : IndexMap String String) (pair : String × String) : Except String Unit := do
  let left ← root parent pair.1
  let right ← root parent pair.2
  if left = right then .error "Match Exclusion blocks consolidation" else .ok ()

def finish (reading : Reading) (p : Progress) : Except String State := do
  let canonical ← canonicalOf reading.ids p.parent
  let _ ← p.state.exclusions.mapM (checkExclusion p.parent)
  .ok { p.state with canonical := .ofList canonical }

def replay (identities : List Identity) (decisions : List Decision) (clock : Int) : Except String State := do
  let ids := IndexMap.ofList (identities.map fun i => (i.id, i))
  let ordered := inOrder decisions clock
  let reversals ← readReversals ordered
  let held ← readHolds reversals ordered
  let reading : Reading := { ids, ordered, reversals, held, clock }
  let progress ← ordered.foldlM (applyDecision reading) (.start ids)
  finish reading progress

/-! ### What one step of the replay can do

One lemma for each step of the three passes: what it demanded when it succeeded, and the state it left. The runs are reasoned about through these, so no later proof unfolds a step.
-/

@[simp] theorem required_eq_ok {value : Option String} {x : String} : required value = .ok x ↔ value = some x := by
  cases value <;> simp [required]

def Undoes (d : Decision) (id : String) : Prop := (d.op = .reverse ∨ d.op = .revoke) ∧ d.target = some id

instance (d : Decision) (id : String) : Decidable (Undoes d id) := inferInstanceAs (Decidable (_ ∧ _))

def Reversals.addWindow (r : Reversals) (subject : String) (window : Int × Int × String) : Reversals :=
  { r with unbound := r.unbound.insert subject ((r.unbound.get? subject).getD [] ++ [window]) }

theorem readReversal_eq_ok {byId : IndexMap String Decision} {r r' : Reversals} {d : Decision} :
    readReversal byId r d = .ok r' ↔
      (¬ (d.op = .reverse ∨ d.op = .revoke) ∧ r' = r) ∨
      ∃ id target, Undoes d id ∧ byId.get? id = some target ∧ target.time < d.time ∧
        mayTarget d.op target.op = true ∧
        ((target.op ≠ .bind ∧ r' = r.undo target d) ∨
          (target.op = .bind ∧ target.id ∉ r.revoked ∧ d.subject = target.subject ∧ d.entity = target.entity ∧
            ∃ subject entity, target.subject = some subject ∧ target.entity = some entity ∧
              r' = (r.addWindow subject (target.time, d.time, entity)).undo target d)) := by
  unfold readReversal
  by_cases hop : d.op = .reverse ∨ d.op = .revoke
  · rw [if_neg (by tauto)]
    cases htarget : d.target.bind byId.get? with
    | none =>
        simp only [reduceCtorEq, hop, not_true_eq_false, false_and, false_or, false_iff, not_exists]
        rintro id target ⟨⟨_, hid⟩, hget, _⟩
        simp [hid, hget] at htarget
    | some target =>
        obtain ⟨id, hid, hget⟩ := Option.bind_eq_some_iff.1 htarget
        have hsome : ∀ id' target', Undoes d id' ∧ byId.get? id' = some target' ↔ id' = id ∧ target' = target := by
          intro id' target'
          constructor
          · rintro ⟨⟨_, hid'⟩, hget'⟩
            rw [hid] at hid'
            cases hid'
            rw [hget] at hget'
            cases hget'
            exact ⟨rfl, rfl⟩
          · rintro ⟨rfl, rfl⟩
            exact ⟨⟨hop, hid⟩, hget⟩
        simp only [← and_assoc, hsome]
        simp only [and_assoc, hop, not_true_eq_false, false_and, false_or]
        by_cases hbind : target.op = .bind
        · simp only [Except.ite_error_eq_ok, hbind, if_true, ne_eq, Except.bind_eq_ok, required_eq_ok,
            Except.ok.injEq, Reversals.addWindow, not_le, Prod.mk.injEq, not_not, Bool.not_eq_false]
          grind
        · simp only [Except.ite_error_eq_ok, hbind, if_false, ne_eq, Except.ok.injEq, not_le, Bool.not_eq_false]
          grind
  · rw [if_pos (by tauto)]
    simp only [Except.ok.injEq, hop, not_false_eq_true, true_and]
    constructor
    · exact fun h => .inl h.symm
    · rintro (h | ⟨id, target, ⟨h, _⟩, _⟩)
      · exact h.symm
      · exact absurd h hop

def addPeriod (held : Held) (subject : String) (period : Int × Option Int) : Held :=
  held.insert subject ((held.get? subject).getD [] ++ [period])

theorem readHeld_eq_ok {r : Reversals} {held held' : Held} {d : Decision} :
    readHeld r held d = .ok held' ↔
      ¬ (d.op = .merge ∧ d.id ∉ r.revoked ∧ ∃ id ∈ d.depends, id ∈ r.revoked) ∧
      ((d.op ≠ .quarantine ∧ held' = held) ∨
        (d.op = .quarantine ∧ ∃ subject, d.subject = some subject ∧
          held' = addPeriod held subject (d.time, r.revokedAt.get? d.id))) := by
  unfold readHeld
  by_cases hop : d.op = .quarantine
  · simp only [hop, if_true, Except.bind_eq_ok, required_eq_ok, Except.ok.injEq, Except.ite_error_eq_ok,
      List.any_eq_true, decide_eq_true_eq, addPeriod]
    grind
  · simp only [hop, if_false, Except.bind_eq_ok, Except.ok.injEq, Except.ite_error_eq_ok,
      List.any_eq_true, decide_eq_true_eq]
    grind

variable {reading : Reading} {p p' : Progress} {d : Decision}

/-- A bind of a record to an entity meets no period in which another entity's bind of it, since revoked, had stood. -/
def noWindow (reading : Reading) (d : Decision) (subject entity : String) : Prop :=
  ∀ window ∈ (reading.reversals.unbound.get? subject).getD [],
    inWindow d.time window = true → window.2.2 = entity

def noPeriod (reading : Reading) (d : Decision) (subject : String) : Prop :=
  ∀ period ∈ (reading.held.get? subject).getD [], inPeriod d.time period = false

def Progress.bindTo (p : Progress) (subject entity : String) : Progress :=
  { p with state := { p.state with bindings := p.state.bindings.insert subject entity } }

def Progress.exclude (p : Progress) (left right : String) : Progress :=
  { p with state := { p.state with exclusions := p.state.exclusions ++ [(left, right)] } }

theorem applyBind_eq_ok :
    applyBind reading p d = .ok p' ↔
      ∃ subject entity r, d.subject = some subject ∧ d.entity = some entity ∧ root p.parent entity = .ok r ∧
        ((d.id ∈ reading.reversals.revoked ∧ p' = p) ∨
          (d.id ∉ reading.reversals.revoked ∧ noWindow reading d subject entity ∧
            (∀ other, p.state.bindings.get? subject = some other → other = entity) ∧
            noPeriod reading d subject ∧ d.evidence = true ∧ p' = p.bindTo subject entity)) := by
  unfold applyBind
  by_cases hrevoked : d.id ∈ reading.reversals.revoked
  · simp only [Except.bind_eq_ok, required_eq_ok, hrevoked, if_true, Except.ok.injEq, true_and,
      not_true_eq_false, false_and, or_false, eq_comm (b := p')]
    grind
  · simp only [Except.bind_eq_ok, required_eq_ok, hrevoked, if_false, Except.ite_error_eq_ok, Except.ok.injEq,
      false_and, false_or, not_false_eq_true, true_and, not_or, List.any_eq_true, decide_eq_true_eq,
      Bool.not_eq_false, noWindow, noPeriod, Progress.bindTo]
    constructor
    · rintro ⟨subject, hsubject, entity, hentity, r, hr, ⟨hwindow, hbound⟩, hperiod, hevidence, rfl⟩
      refine ⟨subject, entity, r, hsubject, hentity, hr, ?_, ?_, ?_, hevidence, rfl⟩
      · grind
      · intro other hother
        simpa [hother] using hbound
      · grind
    · rintro ⟨subject, entity, r, hsubject, hentity, hr, hwindow, hbound, hperiod, hevidence, rfl⟩
      refine ⟨subject, hsubject, entity, hentity, r, hr, ⟨?_, ?_⟩, ?_, hevidence, rfl⟩
      · grind
      · cases hget : p.state.bindings.get? subject with
        | none => simp
        | some other => simp [hbound other hget]
      · grind

/-- A reversed merge keeps its pair apart while some reversal of it stands. -/
def keptApart (reading : Reading) (d : Decision) : Prop :=
  ∃ entry ∈ reading.ordered, entry.2.op = .reverse ∧ entry.2.target = some d.id ∧
    entry.2.id ∉ reading.reversals.revoked

/-- The two roots a live merge joins, when it may join them. -/
structure Joins (reading : Reading) (p : Progress) (d : Decision) (leftRoot rightRoot : String) : Prop where
  ne : leftRoot ≠ rightRoot
  kinds : kindOf reading.ids leftRoot = kindOf reading.ids rightRoot
  depends : ∀ entry ∈ p.components.entries,
    ¬ Disjoint entry.2 (membersOf reading.ids p.parent leftRoot rightRoot) → entry.1 ∈ d.depends
  survivor : survivorOf reading.ids d leftRoot rightRoot = leftRoot ∨
    survivorOf reading.ids d leftRoot rightRoot = rightRoot

def Progress.join (p : Progress) (reading : Reading) (d : Decision) (leftRoot rightRoot : String) : Progress :=
  let survivor := survivorOf reading.ids d leftRoot rightRoot
  { p with
    parent := p.parent.insert (if survivor = leftRoot then rightRoot else leftRoot) survivor
    components := p.components.insert d.id (membersOf reading.ids p.parent leftRoot rightRoot) }

theorem applyMerge_eq_ok :
    applyMerge reading p d = .ok p' ↔
      (d.id ∈ reading.reversals.revoked ∧ ¬ keptApart reading d ∧ p' = p) ∨
      (d.id ∈ reading.reversals.revoked ∧ keptApart reading d ∧
        ∃ left right, d.left = some left ∧ d.right = some right ∧ p' = p.exclude left right) ∨
      (d.id ∉ reading.reversals.revoked ∧
        ∃ left right leftRoot rightRoot, d.left = some left ∧ d.right = some right ∧
          root p.parent left = .ok leftRoot ∧ root p.parent right = .ok rightRoot ∧
          Joins reading p d leftRoot rightRoot ∧ p' = p.join reading d leftRoot rightRoot) := by
  have hkept : reading.ordered.any (fun entry => entry.2.op = .reverse ∧ entry.2.target = some d.id ∧
      entry.2.id ∉ reading.reversals.revoked) = true ↔ keptApart reading d := by
    simp [keptApart]
  unfold applyMerge
  by_cases hrevoked : d.id ∈ reading.reversals.revoked
  · rw [if_pos hrevoked]
    by_cases hapart : keptApart reading d
    · rw [if_pos (hkept.2 hapart)]
      simp only [Except.bind_eq_ok, required_eq_ok, Except.ok.injEq, hrevoked, hapart, Progress.exclude,
        not_true_eq_false, false_and, and_false, true_and, false_or, or_false, eq_comm (b := p')]
      grind
    · rw [if_neg (fun h => hapart (hkept.1 h))]
      simp [hrevoked, hapart, eq_comm]
  · rw [if_neg hrevoked]
    simp only [Except.bind_eq_ok, required_eq_ok, Except.ite_error_eq_ok, Except.ok.injEq, hrevoked,
      not_false_eq_true, false_and, true_and, false_or, List.any_eq_true, decide_eq_true_eq, not_exists,
      not_and, not_not]
    constructor
    · rintro ⟨left, hleft, leftRoot, hleftRoot, right, hright, rightRoot, hrightRoot, hne, hkind, hdepends,
        hsurvivor, rfl⟩
      exact ⟨left, right, leftRoot, rightRoot, hleft, hright, hleftRoot, hrightRoot,
        ⟨hne, hkind, fun entry hentry hmeet => hdepends entry hentry hmeet, by tauto⟩, rfl⟩
    · rintro ⟨left, right, leftRoot, rightRoot, hleft, hright, hleftRoot, hrightRoot, hjoin, rfl⟩
      exact ⟨left, hleft, leftRoot, hleftRoot, right, hright, rightRoot, hrightRoot, hjoin.ne, hjoin.kinds,
        fun entry hentry hmeet => hjoin.depends entry hentry hmeet,
        fun hl => hjoin.survivor.resolve_left hl, rfl⟩

theorem applyExclude_eq_ok :
    applyExclude reading p d = .ok p' ↔
      (d.id ∈ reading.reversals.revoked ∧ p' = p) ∨
      (d.id ∉ reading.reversals.revoked ∧
        ∃ left right, d.left = some left ∧ d.right = some right ∧ p' = p.exclude left right) := by
  unfold applyExclude
  by_cases hrevoked : d.id ∈ reading.reversals.revoked
  · simp [hrevoked, eq_comm]
  · simp only [hrevoked, if_false, Except.bind_eq_ok, required_eq_ok, Except.ok.injEq, false_and, false_or,
      not_false_eq_true, true_and, Progress.exclude, eq_comm (b := p')]
    grind

def Progress.override (p : Progress) (index : Nat) : Progress :=
  { p with state := { p.state with overrides := p.state.overrides ++ [index] } }

theorem applyOverride_eq_ok {index : Nat} (h : applyOverride reading p index d = .ok p') :
    p' = p ∨ p' = p.override index := by
  unfold applyOverride at h
  split_ifs at h
  · exact .inl (by simpa using h.symm)
  · exact .inr (by simpa [Progress.override] using h.symm)
  · exact .inl (by simpa using h.symm)

def Progress.quarantine (p : Progress) (subject entity : String) : Progress :=
  { p with state := { p.state with quarantined := p.state.quarantined.insert subject entity } }

theorem applyQuarantine_eq_ok :
    applyQuarantine reading p d = .ok p' ↔
      ∃ subject entity r, d.subject = some subject ∧ subject ≠ "" ∧ d.entityPresent = true ∧
        d.entity = some entity ∧ root p.parent entity = .ok r ∧ p.state.bindings.get? subject = none ∧
        (∀ window ∈ (reading.reversals.unbound.get? subject).getD [], inWindow d.time window = false) ∧
        ((d.id ∈ reading.reversals.revoked ∧ p' = p) ∨
          (d.id ∉ reading.reversals.revoked ∧ p' = p.quarantine subject entity)) := by
  unfold applyQuarantine
  cases hsubject : d.subject.filter (· ≠ "") with
  | none =>
      simp only [reduceCtorEq, false_iff, not_exists]
      rintro subject entity r ⟨hsome, hne, _⟩
      simp [hsome, hne] at hsubject
  | some subject =>
      obtain ⟨hsome, hne⟩ := Option.filter_eq_some_iff.1 hsubject
      have hne' : subject ≠ "" := by simpa using hne
      have hnone : p.state.bindings.contains subject = false ↔ p.state.bindings.get? subject = none := by
        simp [IndexMap.contains]
      simp only [Except.ite_error_eq_ok, Except.bind_eq_ok, required_eq_ok, hsome, Option.some.injEq,
        Bool.not_eq_false, not_or, Bool.not_eq_true, hnone, List.any_eq_false, ne_eq]
      by_cases hrevoked : d.id ∈ reading.reversals.revoked
      · simp only [hrevoked, if_true, Except.ok.injEq, true_and, not_true_eq_false, false_and, or_false,
          eq_comm (b := p')]
        grind
      · simp only [hrevoked, if_false, Except.ok.injEq, false_and, false_or, not_false_eq_true, true_and,
          Progress.quarantine, eq_comm (b := p')]
        grind

def Progress.retire (p : Progress) (source : String) : Progress :=
  { p with state := { p.state with retired := insert source p.state.retired } }

theorem applyRetirement_eq_ok (h : applyRetirement p d = .ok p') : ∃ source, p' = p.retire source := by
  simp only [applyRetirement, Except.ite_error_eq_ok, Except.bind_eq_ok, Except.ok.injEq] at h
  obtain ⟨_, source, _, rfl⟩ := h
  exact ⟨source, rfl⟩

end EdgarPlatform.Identities
