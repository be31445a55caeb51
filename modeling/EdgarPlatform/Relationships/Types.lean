import EdgarPlatform.Records.Values

/-!
# Relationship types

A relationship type is a code whose properties are its rules. The rules are read and checked once, before every calculation, and a property that is not known refuses the type.
-/

namespace EdgarPlatform.Relationships

open Records (Json Object readString)

/-- The ultimate-parent algorithms. -/
inductive UltimateParent
  /-- The current parent chain of each entity. -/
  | chainV1
  /-- The parent chain's whole history. -/
  | chainV2
  deriving DecidableEq

def UltimateParent.name : UltimateParent → String
  | .chainV1 => "accounting-chain-v1"
  | .chainV2 => "accounting-chain-v2"

def UltimateParent.fromName (name : String) : Option UltimateParent :=
  [UltimateParent.chainV1, .chainV2].find? fun algorithm => algorithm.name = name

/-- One type's rules, as written. -/
structure TypeRules where
  fromKinds : List String
  toKinds : List String
  fromProfile : Option String
  toProfile : Option String
  capacities : Option (List String)
  hierarchy : Option Bool
  cycles : Option String
  oneParent : Option Bool
  ultimateParent : Option String
  ultimateType : Option String
  endsParentLinks : Option Bool
  keepsStart : Option Bool
  oneTarget : Option Bool
  deriving DecidableEq

namespace TypeRules

def default : TypeRules :=
  ⟨[], [], none, none, none, none, none, none, none, none, none, none, none⟩

def isHierarchy (rules : TypeRules) : Bool := rules.hierarchy = some true

def isOneParent (rules : TypeRules) : Bool := rules.oneParent = some true

/-- A cycle sets its links aside rather than only asking for review. -/
def cyclesAreInvalid (rules : TypeRules) : Bool := rules.cycles = some "invalid"

/-- A link of this type ends the entity's parent links when it starts. -/
def isEndingParentLinks (rules : TypeRules) : Bool := rules.endsParentLinks = some true

def isKeepingStart (rules : TypeRules) : Bool := rules.keepsStart = some true

def isOneTarget (rules : TypeRules) : Bool := rules.oneTarget = some true

def ultimate (rules : TypeRules) : Option UltimateParent := rules.ultimateParent.bind UltimateParent.fromName

end TypeRules

def readProperty {α : Type} (read : Json → Except String α) (spec : Object) (key : String) :
    Except String (Option α) :=
  match spec.get? key with
  | none => .ok none
  | some .null => .ok none
  | some value => do
      let value ← read value
      .ok (some value)

def readBool : Json → Except String Bool
  | .bool value => .ok value
  | _ => .error "Invalid record value"

def readKinds (spec : Object) (key : String) : Except String (List String) :=
  match spec.get? key with
  | none => .error ("Missing record field: " ++ key)
  | some value => Records.readTexts value

def properties : List String :=
  ["from", "to", "from_profile", "to_profile", "capacities", "hierarchy", "cycles", "one_parent", "ultimate_parent",
    "ultimate_type", "ends_parent_links", "keeps_start", "one_target"]

def readProperties (spec : Object) : Except String TypeRules := do
  if spec.keys.any fun key => key ∉ properties then .error "Unknown property"
  else do
    let fromKinds ← readKinds spec "from"
    let toKinds ← readKinds spec "to"
    let fromProfile ← readProperty readString spec "from_profile"
    let toProfile ← readProperty readString spec "to_profile"
    let capacities ← readProperty Records.readTexts spec "capacities"
    let hierarchy ← readProperty readBool spec "hierarchy"
    let cycles ← readProperty readString spec "cycles"
    let oneParent ← readProperty readBool spec "one_parent"
    let ultimateParent ← readProperty readString spec "ultimate_parent"
    let ultimateType ← readProperty readString spec "ultimate_type"
    let endsParentLinks ← readProperty readBool spec "ends_parent_links"
    let keepsStart ← readProperty readBool spec "keeps_start"
    let oneTarget ← readProperty readBool spec "one_target"
    .ok
      { fromKinds, toKinds, fromProfile, toProfile, capacities, hierarchy, cycles, oneParent, ultimateParent,
        ultimateType, endsParentLinks, keepsStart, oneTarget }

def readRules (name : String) (spec : Object) : Except String TypeRules :=
  match readProperties spec with
  | .ok rules => .ok rules
  | .error _ => .error ("Relationship type " ++ name ++ " has rules it cannot run")

def parse (types : IndexMap String Object) : Except String (IndexMap String TypeRules) := do
  let rules ← types.entries.mapM fun entry => do
    let rules ← readRules entry.1 entry.2
    .ok (entry.1, rules)
  .ok (.ofList rules)

def refuseWhen (condition : Prop) [Decidable condition] (text : String) : Except String Unit :=
  if condition then .error text else .ok ()

def quoted (texts : List String) : String :=
  "[" ++ ", ".intercalate (texts.map fun text => "\"" ++ text ++ "\"") ++ "]"

def isWhitespace (c : Char) : Bool :=
  c.toNat ∈ [0x20, 0x85, 0xA0, 0x1680, 0x2028, 0x2029, 0x202F, 0x205F, 0x3000] ∨
    (0x9 ≤ c.toNat ∧ c.toNat ≤ 0xD) ∨ (0x2000 ≤ c.toNat ∧ c.toNat ≤ 0x200A)

def isBlank (text : String) : Bool := text.toList.all isWhitespace

def checkEnd (name : String) (kinds : List String) (side : String × List String) : Except String Unit := do
  refuseWhen (side.2 = [])
    ("Relationship type " ++ name ++ " names at least one kind at its " ++ side.1 ++ " end")
  let unknown := side.2.filter (· ∉ kinds)
  refuseWhen (unknown ≠ []) ("Relationship type " ++ name ++ " names an unknown kind: " ++ quoted unknown)

def checkFlag (name : String) (hierarchy : Bool) (flag : String × Option Bool) : Except String Unit :=
  refuseWhen (flag.2 ≠ none ∧ (flag.2 ≠ some true ∨ hierarchy = true))
    ("Relationship type " ++ name ++ ": " ++ flag.1 ++ " is true, on a link that is no parent")

def checkHierarchy (name : String) (rules : TypeRules) : Except String Unit :=
  if rules.isHierarchy then
    refuseWhen (rules.cycles ≠ some "invalid" ∧ rules.cycles ≠ some "review")
      ("Relationship type " ++ name ++ ": a hierarchy says what its cycles do: invalid or review")
  else
    refuseWhen (rules.cycles ≠ none ∨ rules.oneParent ≠ none ∨ rules.ultimateParent ≠ none)
      ("Relationship type " ++ name ++ ": cycles, one_parent and ultimate_parent go only on a hierarchy")

def checkType (types : IndexMap String Object) (kinds : List String) (entry : String × Object) : Except String Unit := do
  let name := entry.1
  let rules ← readRules name entry.2
  [("from", rules.fromKinds), ("to", rules.toKinds)].forM (checkEnd name kinds)
  refuseWhen ([rules.fromProfile, rules.toProfile].any fun profile => profile.any isBlank)
    ("Relationship type " ++ name ++ ": a profile is a role's name")
  refuseWhen (rules.capacities = some []) ("Relationship type " ++ name ++ ": capacities is a list of names")
  checkHierarchy name rules
  refuseWhen (rules.ultimateParent ≠ none ∧ rules.ultimate = none)
    ("Relationship type " ++ name ++ ": unknown ultimate-parent algorithm " ++ rules.ultimateParent.getD "")
  refuseWhen (¬ (rules.ultimateParent = none ∧ rules.ultimateType = none ∨
      rules.ultimateParent ≠ none ∧ rules.ultimateType.any (types.contains ·) = true))
    ("Relationship type " ++ name ++ ": an ultimate parent names its ultimate_type, a declared type")
  [("ends_parent_links", rules.endsParentLinks), ("keeps_start", rules.keepsStart),
    ("one_target", rules.oneTarget)].forM (checkFlag name rules.isHierarchy)

def check (types : IndexMap String Object) (kinds : List String) : Except String Unit := do
  refuseWhen (types.size = 0) "The relationship types declare at least one type"
  types.entries.forM (checkType types kinds)

/-- The rules a calculation runs by. A policy that declares no type runs none. -/
def readTypes (types : IndexMap String Object) (kinds : List String) : Except String (IndexMap String TypeRules) :=
  if types.size = 0 then .ok .empty
  else do
    check types kinds
    parse types

theorem refuseWhen_eq_ok {condition : Prop} [Decidable condition] {text : String} :
    refuseWhen condition text = .ok () ↔ ¬ condition := by
  unfold refuseWhen
  split_ifs with h <;> simp [h]

theorem isHierarchy_of_checked {types : IndexMap String Object} {kinds : List String}
    {rules : IndexMap String TypeRules} (h : readTypes types kinds = .ok rules) {kind : String} {ruled : TypeRules}
    (hget : rules.get? kind = some ruled) (hruled : ruled.cycles ≠ none ∨ ruled.oneParent ≠ none) :
    ruled.isHierarchy = true := by
  unfold readTypes at h
  split_ifs at h
  · cases h
    cases hget
  · obtain ⟨_, hcheck, h⟩ := Except.bind_eq_ok.1 h
    obtain ⟨parsed, hparsed, h⟩ := Except.bind_eq_ok.1 h
    cases h
    have hmem : (kind, ruled) ∈ parsed := by
      rcases IndexMap.get?_extend_cases hget with hmem | hempty
      · exact hmem
      · cases hempty
    obtain ⟨entry, hentry, hread⟩ := Runs.mapM_exists_of_mem hparsed hmem
    obtain ⟨found, hfound, hread⟩ := Except.bind_eq_ok.1 hread
    cases hread
    obtain ⟨_, _, hcheck⟩ := Except.bind_eq_ok.1 hcheck
    have htype := Runs.forM_ok_of_mem hcheck entry hentry
    obtain ⟨found', hfound', htype⟩ := Except.bind_eq_ok.1 htype
    cases hfound.symm.trans hfound'
    obtain ⟨_, _, htype⟩ := Except.bind_eq_ok.1 htype
    obtain ⟨_, _, htype⟩ := Except.bind_eq_ok.1 htype
    obtain ⟨_, _, htype⟩ := Except.bind_eq_ok.1 htype
    obtain ⟨_, hhierarchy, _⟩ := Except.bind_eq_ok.1 htype
    by_contra hflat
    rw [checkHierarchy, if_neg hflat, refuseWhen_eq_ok] at hhierarchy
    refine hhierarchy ?_
    rcases hruled with hcycles | hparent
    · exact .inl hcycles
    · exact .inr (.inl hparent)

end EdgarPlatform.Relationships
