import EdgarPlatform.Library.Digits
import EdgarPlatform.Records.Values

/-!
# Reduction plans

A plan names the groups rows are reduced to, and bounds what the reduction may read, hold and return. It is read from a JSON document and checked before any row is.
-/

namespace EdgarPlatform.Reductions

open Records (Json Object)

/-- What a group keeps for each key. -/
inductive Mode
  | count
  | members
  | most
  deriving DecidableEq

structure Group where
  source : Json
  table : Json
  keys : List String
  mode : Mode
  count : String
  sample : Option String
  sampleLimit : Nat
  member : Option String
  last : Option String
  lastNull : Option String
  exclude : Option String

structure Plan where
  maxRows : Nat
  maxInputBytes : Nat
  maxStateBytes : Nat
  maxKeys : Nat
  maxMembers : Nat
  maxOutputRows : Nat
  maxOutputBytes : Nat
  groups : IndexMap String Group

/-- A column, table or source is named by an identifier of 64 bytes at most. -/
def name (text : String) : Bool :=
  text ≠ "" && decide (text.utf8ByteSize ≤ 64) && text.toList.all (fun c => c = '_' || c.isAlphanum) &&
    text.toList.head?.all (fun c => c = '_' || c.isAlpha)

def invalidPlan : String := "Invalid reduction plan"

def readField {α : Type} (body : Object) (key : String) (read : Json → Except String α) : Except String α :=
  match body.get? key with
  | some value => read value
  | none => .error invalidPlan

def readSize : Json → Except String Nat
  | .num lexeme =>
      if lexeme ≠ "" ∧ lexeme.toList.all Char.isDigit ∧ Digits.number lexeme < 2 ^ 64 then .ok (Digits.number lexeme)
      else .error invalidPlan
  | _ => .error invalidPlan

def readName : Json → Except String String
  | .str value => .ok value
  | _ => .error invalidPlan

def readNames : Json → Except String (List String)
  | .arr items => items.mapM readName
  | _ => .error invalidPlan

def readOptionalName (body : Object) (key : String) : Except String (Option String) :=
  match body.get? key with
  | none => .ok none
  | some .null => .ok none
  | some (.str value) => .ok (some value)
  | some _ => .error invalidPlan

def modeOf : String → Except String Mode
  | "count" => .ok .count
  | "members" => .ok .members
  | "most" => .ok .most
  | _ => .error invalidPlan

/-- A mode is a text, or what a variant without contents is written as besides: an object of its name and `null`. -/
def readMode : Json → Except String Mode
  | .str text => modeOf text
  | .obj fields =>
      match (IndexMap.ofList fields).entries with
      | [(text, .null)] => modeOf text
      | _ => .error invalidPlan
  | _ => .error invalidPlan

def checkKnown (body : Object) (known : List String) : Except String Unit :=
  if ∀ key ∈ body.keys, key ∈ known then .ok () else .error invalidPlan

def groupFields : List String :=
  ["source", "table", "keys", "mode", "count", "sample", "sample_limit", "member", "last", "last_null", "exclude"]

def planFields : List String :=
  ["max_rows", "max_input_bytes", "max_state_bytes", "max_keys", "max_members", "max_output_rows", "max_output_bytes",
    "groups"]

def readGroup : Json → Except String Group
  | .obj fields => do
      let body := IndexMap.ofList fields
      checkKnown body groupFields
      let source ← readField body "source" .ok
      let table ← readField body "table" .ok
      let keys ← readField body "keys" readNames
      let mode ← readField body "mode" readMode
      let count ← readField body "count" readName
      let sample ← readOptionalName body "sample"
      let sampleLimit ← readField body "sample_limit" readSize
      let member ← readOptionalName body "member"
      let last ← readOptionalName body "last"
      let lastNull ← readOptionalName body "last_null"
      let exclude ← readOptionalName body "exclude"
      .ok { source, table, keys, mode, count, sample, sampleLimit, member, last, lastNull, exclude }
  | _ => .error invalidPlan

def readNamedGroup (entry : String × Json) : Except String (String × Group) :=
  (readGroup entry.2).map fun group => (entry.1, group)

def readGroups : Json → Except String (IndexMap String Group)
  | .obj fields => ((IndexMap.ofList fields).entries.mapM readNamedGroup).map IndexMap.ofList
  | _ => .error invalidPlan

def readPlan : Json → Except String Plan
  | .obj fields => do
      let body := IndexMap.ofList fields
      checkKnown body planFields
      let maxRows ← readField body "max_rows" readSize
      let maxInputBytes ← readField body "max_input_bytes" readSize
      let maxStateBytes ← readField body "max_state_bytes" readSize
      let maxKeys ← readField body "max_keys" readSize
      let maxMembers ← readField body "max_members" readSize
      let maxOutputRows ← readField body "max_output_rows" readSize
      let maxOutputBytes ← readField body "max_output_bytes" readSize
      let groups ← readField body "groups" readGroups
      .ok { maxRows, maxInputBytes, maxStateBytes, maxKeys, maxMembers, maxOutputRows, maxOutputBytes, groups }
  | _ => .error invalidPlan

def rawGroups : Json → Except String Object
  | .obj fields =>
      match (IndexMap.ofList fields).get? "groups" with
      | some (.obj groups) => .ok (.ofList groups)
      | _ => .error "Invalid reduction groups"
  | _ => .error "Invalid reduction groups"

def isText : Json → Bool
  | .str _ => true
  | _ => false

/-- A group spells out every field it must have, a counting one no other, and none of the others but as a text. -/
def checkSpec : Json → Except String Unit
  | .obj fields =>
      let spec := IndexMap.ofList fields
      if ["source", "table", "keys", "mode", "count", "sample", "sample_limit"].any (fun key => !spec.contains key) ∨
          (spec.get? "mode" = some (.str "count") ∧ spec.size ≠ 7) ∨
          ["member", "last", "last_null", "exclude"].any (fun key => (spec.get? key).any fun value => !isText value) then
        .error "Invalid reduction group fields"
      else .ok ()
  | _ => .error "Invalid reduction group"

def bounds (plan : Plan) : List (Nat × Nat) :=
  [(plan.maxRows, 40000000), (plan.maxInputBytes, 16 * 1024 ^ 3), (plan.maxStateBytes, 16 * 1024 ^ 3),
    (plan.maxKeys, 10000000), (plan.maxMembers, 10000000), (plan.maxOutputRows, 10000000),
    (plan.maxOutputBytes, 16 * 1024 ^ 3)]

def checkBound (bound : Nat × Nat) : Except String Unit :=
  if bound.1 = 0 ∨ bound.2 < bound.1 then .error "Invalid reduction bound" else .ok ()

def checkGroupCount (plan : Plan) : Except String Unit :=
  if plan.groups.size = 0 ∨ 32 < plan.groups.size then .error "Reduction requires 1..32 named groups" else .ok ()

def listed (fail : String) : Json → Except String (List String)
  | .str value => .ok [value]
  | .arr items => items.mapM fun item =>
      match item with
      | .str value => .ok value
      | _ => .error fail
  | _ => .error fail

def FewNames (names : List String) : Prop := names ≠ [] ∧ names.length ≤ 8 ∧ (∀ text ∈ names, name text) ∧ names.Nodup

instance (names : List String) : Decidable (FewNames names) := inferInstanceAs (Decidable (_ ∧ _ ∧ _ ∧ _))

structure GroupNamed (groupName : String) (g : Group) (sources tables : List String) : Prop where
  hname : name groupName
  hsources : FewNames sources
  htables : FewNames tables
  hkeys : FewNames g.keys
  hcount : name g.count ∧ g.count ∉ g.keys
  hlimit : g.sampleLimit ≤ 1000

instance (groupName : String) (g : Group) (sources tables : List String) : Decidable (GroupNamed groupName g sources tables) :=
  decidable_of_iff (name groupName ∧ FewNames sources ∧ FewNames tables ∧ FewNames g.keys ∧
      (name g.count ∧ g.count ∉ g.keys) ∧ g.sampleLimit ≤ 1000)
    ⟨fun ⟨h, h', h'', h''', h'''', h'''''⟩ => ⟨h, h', h'', h''', h'''', h'''''⟩, fun h => ⟨h.1, h.2, h.3, h.4, h.5, h.6⟩⟩

/-- A group names what its members are read from, and a column for what is told of them. -/
def NamesMembers (g : Group) : Prop :=
  g.member.any name ∧ g.sample.any fun text => name text && decide (text ∉ g.keys) && decide (text ≠ g.count)

instance (g : Group) : Decidable (NamesMembers g) := inferInstanceAs (Decidable (_ ∧ _))

def ModeFields (g : Group) (sources tables : List String) : Prop :=
  match g.mode with
  | .count => g.sample = none ∧ g.sampleLimit = 0 ∧ g.member = none ∧ g.last = none ∧ g.lastNull = none ∧ g.exclude = none
  | .members => NamesMembers g ∧
      (g.last.all fun text => name text && decide (some text ≠ g.member) && decide (tables.length = 1) &&
        decide (sources.length = 1)) ∧ (g.lastNull = none ∨ g.last ≠ none)
  | .most => NamesMembers g ∧ g.sampleLimit = 0 ∧ g.last = none ∧ g.lastNull = none ∧ g.exclude = none

instance (g : Group) (sources tables : List String) : Decidable (ModeFields g sources tables) := by
  unfold ModeFields
  cases g.mode <;> infer_instance

/-- A group may leave out what another holds of members of the same keys, where that one leaves out nothing. -/
def checkExclude (plan : Plan) (groupName : String) (g : Group) : Except String Unit :=
  match g.exclude with
  | none => .ok ()
  | some exclude =>
      match plan.groups.get? exclude with
      | none => .error "Invalid reduction exclusion"
      | some other =>
          if exclude = groupName ∨ other.mode ≠ .members ∨ other.keys ≠ g.keys ∨ other.exclude ≠ none then
            .error "Invalid reduction exclusion"
          else .ok ()

def checkNames (groupName : String) (g : Group) (sources tables : List String) : Except String Unit :=
  if GroupNamed groupName g sources tables then .ok () else .error "Invalid reduction group"

def checkMode (g : Group) (sources tables : List String) : Except String Unit :=
  if ModeFields g sources tables then .ok () else .error "Invalid reduction mode or columns"

def checkGroup (plan : Plan) (entry : String × Group) : Except String Unit := do
  let sources ← listed "Invalid reduction source" entry.2.source
  let tables ← listed "Invalid reduction table" entry.2.table
  checkNames entry.1 entry.2 sources tables
  checkMode entry.2 sources tables
  checkExclude plan entry.1 entry.2

def checkPlan (plan : Plan) : Except String Unit := do
  (bounds plan).forM checkBound
  checkGroupCount plan
  plan.groups.entries.forM (checkGroup plan)

def planOf (raw : Json) : Except String Plan := do
  let groups ← rawGroups raw
  groups.values.forM checkSpec
  let plan ← readPlan raw
  checkPlan plan
  .ok plan

/-- What a reduction relies on in a group of its plan. -/
structure Group.Shaped (plan : Plan) (g : Group) : Prop where
  counts : g.mode = .count → g.last = none
  votes : g.mode = .most → g.last = none
  sample : g.mode ≠ .count → ∃ column, g.sample = some column
  member : g.mode ≠ .count → ∃ column, g.member = some column
  exclude : ∀ other, g.exclude = some other → ∃ spec, plan.groups.get? other = some spec ∧ spec.mode = .members

/-- The bounds and the groups of a plan are checked. -/
structure Plan.Valid (plan : Plan) : Prop where
  bounds : ∀ bound ∈ bounds plan, 0 < bound.1 ∧ bound.1 ≤ bound.2
  shaped : ∀ groupName g, plan.groups.get? groupName = some g → g.Shaped plan

theorem NamesMembers.named {g : Group} (h : NamesMembers g) :
    (∃ column, g.sample = some column) ∧ ∃ column, g.member = some column := by
  obtain ⟨column, hcolumn, _⟩ := (Option.any_eq_true ..).1 h.2
  obtain ⟨member, hmember, _⟩ := (Option.any_eq_true ..).1 h.1
  exact ⟨⟨column, hcolumn⟩, ⟨member, hmember⟩⟩

variable {plan : Plan}

theorem checkGroup_eq_ok {entry : String × Group} (h : checkGroup plan entry = .ok ()) :
    ∃ sources tables, ModeFields entry.2 sources tables ∧ checkExclude plan entry.1 entry.2 = .ok () := by
  obtain ⟨sources, _, h⟩ := Except.bind_eq_ok.1 h
  obtain ⟨tables, _, h⟩ := Except.bind_eq_ok.1 h
  obtain ⟨_, _, h⟩ := Except.bind_eq_ok.1 h
  obtain ⟨_, hmode, h⟩ := Except.bind_eq_ok.1 h
  rw [checkMode] at hmode
  split_ifs at hmode with hfields
  exact ⟨sources, tables, hfields, h⟩

theorem checkExclude_eq_ok {groupName other : String} {g : Group} (hexclude : g.exclude = some other)
    (h : checkExclude plan groupName g = .ok ()) : ∃ spec, plan.groups.get? other = some spec ∧ spec.mode = .members := by
  simp only [checkExclude, hexclude] at h
  cases hspec : plan.groups.get? other with
  | none =>
      rw [hspec] at h
      cases h
  | some spec =>
      simp only [hspec] at h
      split_ifs at h with hwrong
      refine ⟨spec, rfl, ?_⟩
      by_contra hmode
      exact hwrong (.inr (.inl hmode))

theorem shaped_of_checkGroup {groupName : String} {g : Group} (h : checkGroup plan (groupName, g) = .ok ()) :
    g.Shaped plan := by
  obtain ⟨sources, tables, hmode, hexclude⟩ := checkGroup_eq_ok h
  rw [ModeFields] at hmode
  refine ⟨fun hcount => ?_, fun hmost => ?_, fun hne => ?_, fun hne => ?_, fun other hother => checkExclude_eq_ok hother hexclude⟩
  · rw [hcount] at hmode
    exact hmode.2.2.2.1
  · rw [hmost] at hmode
    exact hmode.2.2.1
  · cases hcase : g.mode with
    | count => exact absurd hcase hne
    | members =>
        rw [hcase] at hmode
        exact hmode.1.named.1
    | most =>
        rw [hcase] at hmode
        exact hmode.1.named.1
  · cases hcase : g.mode with
    | count => exact absurd hcase hne
    | members =>
        rw [hcase] at hmode
        exact hmode.1.named.2
    | most =>
        rw [hcase] at hmode
        exact hmode.1.named.2

theorem checkPlan_valid (h : checkPlan plan = .ok ()) : plan.Valid := by
  obtain ⟨_, hbounds, h⟩ := Except.bind_eq_ok.1 h
  obtain ⟨_, _, hgroups⟩ := Except.bind_eq_ok.1 h
  refine ⟨fun bound hbound => ?_, fun groupName g hg => ?_⟩
  · have hcheck := Runs.forM_ok_of_mem hbounds bound hbound
    rw [checkBound] at hcheck
    split_ifs at hcheck with hwrong
    omega
  · exact shaped_of_checkGroup (Runs.forM_ok_of_mem hgroups _ (IndexMap.get?_eq_some_iff.1 hg))

theorem planOf_valid {raw : Json} (h : planOf raw = .ok plan) : plan.Valid := by
  obtain ⟨_, _, h⟩ := Except.bind_eq_ok.1 h
  obtain ⟨_, _, h⟩ := Except.bind_eq_ok.1 h
  obtain ⟨found, _, h⟩ := Except.bind_eq_ok.1 h
  obtain ⟨_, hcheck, h⟩ := Except.bind_eq_ok.1 h
  exact Except.ok.inj h ▸ checkPlan_valid hcheck

end EdgarPlatform.Reductions
