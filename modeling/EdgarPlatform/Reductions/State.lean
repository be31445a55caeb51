import EdgarPlatform.Library.Heaps
import EdgarPlatform.Records.Stored
import EdgarPlatform.Reductions.Plan
import Mathlib.Data.List.Lex

/-!
# Reducing rows

A reduction takes rows a push at a time and holds, for each group and key, what the group's mode keeps. What it holds is counted as it grows: the keys, the members, and the bytes they take as compact JSON. A push that fails leaves the state where it stopped, and no call after it succeeds.
-/

namespace EdgarPlatform.Reductions

open Records (Json Object)

structure Row where
  key : List String
  member : Option String
  last : Option String

inductive Entry
  | count (n : Nat)
  | members (held : IndexMap String (Option String))
  /-- Each member and how many rows filed it. -/
  | most (held : IndexMap String Nat)

abbrev GroupState := IndexMap (List String) Entry

structure Reduction where
  plan : Plan
  state : IndexMap String GroupState
  rows : IndexMap String Nat
  keys : Nat
  members : Nat
  bytes : Nat
  failed : Bool
  finished : Bool

/-- What a step that fails says, and the state it leaves. -/
structure Failure where
  message : String
  left : Reduction

def bytesOf (text : String) : List UInt8 := text.toList.flatMap String.utf8EncodeChar

def byteBytes (b : UInt8) : Nat :=
  if b = 34 ∨ b = 92 ∨ b = 8 ∨ b = 9 ∨ b = 10 ∨ b = 12 ∨ b = 13 then 2 else if b ≤ 31 then 6 else 1

def textBytes (text : String) : Nat := 2 + ((bytesOf text).map byteBytes).sum

def keyBytes (key : List String) : Nat := 2 + (key.length - 1) + (key.map textBytes).sum

def lastBytes (last : Option String) : Nat := last.elim 4 textBytes

def numberBytes (n : Nat) : Nat := (toString n).utf8ByteSize

namespace Reduction

def start (plan : Plan) : Reduction where
  plan := plan
  state := .ofList (plan.groups.keys.map fun groupName => (groupName, .empty))
  rows := .empty
  keys := 0
  members := 0
  bytes := 0
  failed := false
  finished := false

def new (raw : Json) : Except String Reduction := (planOf raw).map start

def ready (r : Reduction) : Except String Unit :=
  if r.failed then .error "Reduction failed; discard its provisional state"
  else if r.finished then .error "Reduction already finished"
  else .ok ()

def spec (r : Reduction) (groupName : String) : Except String Group := do
  r.ready
  match r.plan.groups.get? groupName with
  | some g => .ok g
  | none => .error "Unknown reduction group"

def invalidate (r : Reduction) : Reduction := { r with failed := true }

def group (r : Reduction) (groupName : String) : GroupState := (r.state.get? groupName).getD .empty

def selected (r : Reduction) (groupName : String) : Nat := (r.rows.get? groupName).getD 0

def select (r : Reduction) (groupName : String) : Reduction :=
  { r with rows := r.rows.insert groupName (r.selected groupName + 1) }

end Reduction

def Misfiled (spec : Group) (row : Row) : Prop :=
  row.key.length ≠ spec.keys.length ∨ (spec.mode = .count ∧ row.member.isSome) ∨
    (spec.mode = .members ∧ row.member.isNone) ∨ (spec.last.isSome ∧ row.last.isNone) ∨
    (spec.last.isNone ∧ row.last.isSome)

instance (spec : Group) (row : Row) : Decidable (Misfiled spec row) := inferInstanceAs (Decidable (_ ∨ _ ∨ _ ∨ _ ∨ _))

/-- How a row changes the sizes held: whether its member is new, and the bytes written and those written over. -/
structure Change where
  newMember : Bool
  add : Nat
  remove : Nat

def voteChange (prior : Option Entry) (member : String) : Change :=
  match prior with
  | some (.most held) =>
      match held.get? member with
      | some n => ⟨false, numberBytes (n + 1), numberBytes n⟩
      | none => ⟨true, textBytes member + 1, 0⟩
  | _ => ⟨true, textBytes member + 1, 0⟩

def memberChange (prior : Option Entry) (member : String) (last : Option String) : Change :=
  let old := match prior with
    | some (.members held) => held.get? member
    | _ => none
  ⟨old.isNone, lastBytes last + (if old.isNone then textBytes member else 0), old.elim 0 lastBytes⟩

def changeOf (spec : Group) (prior : Option Entry) (row : Row) : Except String Change :=
  match prior, row.member with
  | some (.count n), _ => .ok ⟨false, numberBytes (n + 1), numberBytes n⟩
  | prior, member =>
      if prior.isNone ∧ spec.mode = .count then .ok ⟨false, 1, 0⟩
      else match member with
        | none => .error "Invalid reduction member"
        | some member => .ok (if spec.mode = .most then voteChange prior member else memberChange prior member row.last)

def startEntry : Mode → Entry
  | .count => .count 0
  | .members => .members .empty
  | .most => .most .empty

def countUp (n : Nat) : Except String Nat :=
  if n + 1 < 2 ^ 64 then .ok (n + 1) else .error "Reduction count overflow"

def unwrap {α : Type} : Option α → Except String α
  | some value => .ok value
  | none => .error "called Option::unwrap() on a None value"

def fileEntry (row : Row) : Entry → Except String Entry
  | .count n => (countUp n).map .count
  | .most held => do
      let member ← unwrap row.member
      let n ← countUp ((held.get? member).getD 0)
      .ok (.most (held.insert member n))
  | .members held => do
      let member ← unwrap row.member
      .ok (.members (held.insert member row.last))

namespace Reduction

def grownBytes (r : Reduction) (newKey : Bool) (key : List String) (change : Change) : Nat :=
  r.bytes + change.add + (if newKey then keyBytes key else 0) - change.remove

def grow (r : Reduction) (newKey : Bool) (key : List String) (change : Change) : Reduction :=
  { r with
    keys := r.keys + newKey.toNat
    members := r.members + change.newMember.toNat
    bytes := r.grownBytes newKey key change }

def OverBudget (r : Reduction) : Prop :=
  r.plan.maxKeys < r.keys ∨ r.plan.maxMembers < r.members ∨ r.plan.maxStateBytes < r.bytes

instance (r : Reduction) : Decidable r.OverBudget := inferInstanceAs (Decidable (_ ∨ _ ∨ _))

def hold (r : Reduction) (groupName : String) (key : List String) (entry : Entry) : Reduction :=
  { r with state := r.state.insert groupName ((r.group groupName).insert key entry) }

def fileEntryOf (r : Reduction) (groupName : String) (row : Row) (entry : Entry) : Except Failure Reduction :=
  match fileEntry row entry with
  | .ok filed => .ok (r.hold groupName row.key filed)
  | .error message => .error ⟨message, r.hold groupName row.key entry⟩

def fileChange (r : Reduction) (groupName : String) (spec : Group) (row : Row) (prior : Option Entry) (change : Change) :
    Except Failure Reduction :=
  if (r.grow prior.isNone row.key change).OverBudget then .error ⟨"Reduction exceeds declared state budget", r⟩
  else (r.grow prior.isNone row.key change).fileEntryOf groupName row (prior.getD (startEntry spec.mode))

def fileSelected (r : Reduction) (groupName : String) (spec : Group) (row : Row) : Except Failure Reduction :=
  if Misfiled spec row then .error ⟨"Invalid reduction row", r⟩
  -- A row that files no value votes for none.
  else if spec.mode = .most ∧ row.member.isNone then .ok r
  else match changeOf spec ((r.group groupName).get? row.key) row with
    | .ok change => r.fileChange groupName spec row ((r.group groupName).get? row.key) change
    | .error message => .error ⟨message, r⟩

def fileRow (groupName : String) (spec : Group) (r : Reduction) (row : Row) : Except Failure Reduction :=
  if r.plan.maxRows ≤ r.selected groupName then
    .error ⟨"Reduction exceeds selected input row budget for group", r⟩
  else (r.select groupName).fileSelected groupName spec row

def entered (r : Reduction) (groupName : String) : Reduction :=
  { r with rows := r.rows.insert groupName (r.selected groupName) }

def pushInner (r : Reduction) (groupName : String) (rows : List Row) : Except Failure Reduction :=
  match r.ready with
  | .error message => .error ⟨message, r⟩
  | .ok () =>
      match r.plan.groups.get? groupName, r.state.get? groupName with
      | some spec, some _ => rows.foldlM (fileRow groupName spec) (r.entered groupName)
      | _, _ => .error ⟨"Unknown reduction group", r⟩

def push (r : Reduction) (groupName : String) (rows : List Row) : Except String Unit × Reduction :=
  match r.pushInner groupName rows with
  | .ok next => (.ok (), next)
  | .error failure => (.error failure.message, failure.left.invalidate)

def column (texts : String × String) : String × Json := (texts.1, .str texts.2)

def voteValue (held : IndexMap String Nat) (top : Nat) : Json :=
  match held.entries.filter fun entry => entry.2 = top with
  | [(member, _)] => .str member
  | _ => .null

def isExcluded (excluded : Option Entry) (member : String) : Bool :=
  match excluded with
  | some (.members held) => held.contains member
  | _ => false

/-- A member of a sample, with the value filed last for it where the group keeps one. -/
def sampleItem (spec : Group) (held : IndexMap String (Option String)) (member : String) : Except String Json := do
  let memberColumn ← unwrap spec.member
  let item : Object := IndexMap.empty.insert memberColumn (.str member)
  match spec.last with
  | none => .ok (Object.toJson item)
  | some lastColumn =>
      match held.get? member with
      | some (some last) => .ok (Object.toJson (item.insert lastColumn (.str last)))
      | _ => (unwrap none).map fun value => .str value

def samplePush (limit : Nat) (heap : List String) (member : String) : List String :=
  if limit = 0 then heap else Heaps.keep limit heap member

def excludedEntry (r : Reduction) (spec : Group) (key : List String) : Except String (Option Entry) :=
  match spec.exclude with
  | none => .ok none
  | some other => (unwrap (r.state.get? other)).map fun held => held.get? key

/-- A row with the member the most rows file, where only one is filed so often, and how many file it. -/
def outputVotes (spec : Group) (held : IndexMap String Nat) (row : Object) (top : Nat) : Except String Object := do
  let sample ← unwrap spec.sample
  .ok ((row.insert spec.count (.num (toString top))).insert sample (voteValue held top))

/-- A row with how many members are kept, and a sample of them. -/
def outputMembers (spec : Group) (held : IndexMap String (Option String)) (row : Object) (kept : List String) :
    Except String Object := do
  let items ← (kept.foldl (samplePush spec.sampleLimit) []).mapM (sampleItem spec held)
  let sample ← unwrap spec.sample
  .ok ((row.insert spec.count (.num (toString kept.length))).insert sample (.arr items))

def outputEntry (r : Reduction) (spec : Group) (key : List String) (row : Object) : Entry → Except String Object
  | .count n => .ok (row.insert spec.count (.num (toString n)))
  | .most held => outputVotes spec held row (held.values.max?.getD 0)
  | .members held => do
      let excluded ← r.excludedEntry spec key
      outputMembers spec held row (held.keys.filter fun member => !isExcluded excluded member)

def outputRow (r : Reduction) (spec : Group) (entry : List String × Entry) : Except String Json :=
  (r.outputEntry spec entry.1 (.ofList ((spec.keys.zip entry.1).map column)) entry.2).map Object.toJson

def outputGroup (r : Reduction) (entry : String × Group) : Except String (String × Json) := do
  let held ← unwrap (r.state.get? entry.1)
  let rows ← (Sorting.sortByKey Prod.fst held.entries).mapM (r.outputRow entry.2)
  .ok (entry.1, .arr rows)

def output (r : Reduction) : Except String Json :=
  (r.plan.groups.entries.mapM r.outputGroup).map fun groups => Object.toJson (.ofList groups)

def close (r : Reduction) : Reduction := { r with finished := true }

/-- A reduction that is finished is closed, also where its output is refused. -/
def finish (r : Reduction) : Except String Json × Reduction :=
  match r.ready with
  | .error message => (.error message, r)
  | .ok () =>
      if r.plan.maxOutputRows < r.keys then (.error "Reduction exceeds output row budget", r.close.invalidate)
      else (r.close.output, r.close)

end Reduction

/-! ### The sizes of what is held

A text, a key and a number are counted with the size they have in compact JSON, without writing them out.
-/

open Records (Json Object writeJson writeString writeChar)

def jsonBytes (value : Json) : Nat := (writeJson false value).utf8ByteSize

theorem utf8ByteSize_ofList (chars : List Char) : (String.ofList chars).utf8ByteSize = (chars.map Char.utf8Size).sum := by
  induction chars with
  | nil => rfl
  | cons c rest ih =>
      rw [String.ofList_cons, String.utf8ByteSize_append, String.utf8ByteSize_singleton, ih, List.map_cons, List.sum_cons]

theorem byteBytes_of_high {n : Nat} (hlow : 128 ≤ n) (hhigh : n < 256) : byteBytes (UInt8.ofNat n) = 1 := by
  have hval : (UInt8.ofNat n).toNat = n := by
    rw [UInt8.toNat_ofNat']
    omega
  have hne : ∀ m : UInt8, m.toNat < 128 → UInt8.ofNat n ≠ m := by
    intro m hm heq
    rw [heq] at hval
    omega
  rw [byteBytes, if_neg, if_neg]
  · rw [UInt8.le_iff_toNat_le, hval]
    show ¬ n ≤ 31
    omega
  · simp only [not_or]
    exact ⟨hne _ (by decide), hne _ (by decide), hne _ (by decide), hne _ (by decide), hne _ (by decide),
      hne _ (by decide), hne _ (by decide)⟩

theorem byteBytes_of_low : ∀ n < 128,
    byteBytes (UInt8.ofNat n) = ((writeChar (Char.ofNat n)).map Char.utf8Size).sum := by
  decide +kernel

theorem sum_byteBytes (c : Char) :
    ((String.utf8EncodeChar c).map byteBytes).sum = ((writeChar c).map Char.utf8Size).sum := by
  by_cases hlow : c.toNat < 128
  · have hencode : String.utf8EncodeChar c = [UInt8.ofNat c.toNat] := by
      rw [String.utf8EncodeChar]
      exact if_pos (Nat.lt_succ_iff.1 hlow)
    rw [hencode, List.map_singleton, List.sum_singleton, byteBytes_of_low _ hlow, Char.ofNat_toNat]
  · have hwrite : writeChar c = [c] := by
      have hne : ∀ d : Char, d.toNat < 128 → c ≠ d := fun d hd heq => hlow (heq ▸ hd)
      rw [writeChar, if_neg (hne _ (by decide)), if_neg (hne _ (by decide)), if_neg (by omega), if_neg (by omega),
        if_neg (by omega), if_neg (by omega), if_neg (by omega), if_neg (by omega)]
    have hones : ∀ b ∈ String.utf8EncodeChar c, byteBytes b = 1 := by
      have hcode : 128 ≤ c.val.toNat := not_lt.1 hlow
      intro b hb
      simp only [String.utf8EncodeChar, if_neg (show ¬ c.val.toNat ≤ 0x7f by omega)] at hb
      split_ifs at hb <;> simp only [List.mem_cons, List.not_mem_nil, or_false] at hb
      · obtain rfl | rfl := hb <;> exact byteBytes_of_high (by omega) (by omega)
      · obtain rfl | rfl | rfl := hb <;> exact byteBytes_of_high (by omega) (by omega)
      · obtain rfl | rfl | rfl | rfl := hb <;> exact byteBytes_of_high (by omega) (by omega)
    rw [hwrite, List.map_singleton, List.sum_singleton, ← String.length_utf8EncodeChar, List.map_congr_left hones,
      List.map_const', List.sum_replicate_nat, Nat.mul_one]

theorem textBytes_eq (text : String) : textBytes text = jsonBytes (.str text) := by
  have hchars : ∀ chars : List Char, ((chars.flatMap String.utf8EncodeChar).map byteBytes).sum
      = ((chars.flatMap writeChar).map Char.utf8Size).sum := by
    intro chars
    induction chars with
    | nil => rfl
    | cons c rest ih =>
        rw [List.flatMap_cons, List.flatMap_cons, List.map_append, List.map_append, List.sum_append, List.sum_append,
          sum_byteBytes, ih]
  have hquote : ("\"" : String).utf8ByteSize = 1 := rfl
  have hsize : (writeString text).utf8ByteSize = 1 + ((text.toList.flatMap writeChar).map Char.utf8Size).sum + 1 := by
    rw [writeString, String.utf8ByteSize_append, String.utf8ByteSize_append, hquote, utf8ByteSize_ofList]
  rw [textBytes, bytesOf, hchars, jsonBytes, writeJson, hsize]
  omega

theorem numberBytes_eq (n : Nat) : numberBytes n = jsonBytes (.num (toString n)) := rfl

theorem lastBytes_eq (last : Option String) : lastBytes last = jsonBytes (last.elim .null .str) := by
  cases last with
  | none => rfl
  | some text => exact textBytes_eq text

theorem utf8ByteSize_intercalate (parts : List String) : (",".intercalate parts).utf8ByteSize
    = (parts.length - 1) + (parts.map String.utf8ByteSize).sum := by
  have hcomma : ("," : String).utf8ByteSize = 1 := rfl
  induction parts with
  | nil => rfl
  | cons part rest ih =>
      cases rest with
      | nil =>
          rw [String.intercalate_singleton, List.map_singleton, List.sum_singleton]
          exact (Nat.zero_add _).symm
      | cons next rest =>
          have hsum : ((part :: next :: rest).map String.utf8ByteSize).sum
              = part.utf8ByteSize + ((next :: rest).map String.utf8ByteSize).sum := rfl
          have hlength : (part :: next :: rest).length = (next :: rest).length + 1 := rfl
          have hpos : 0 < (next :: rest).length := Nat.succ_pos _
          rw [String.intercalate_cons_cons, String.utf8ByteSize_append, String.utf8ByteSize_append, ih, hcomma, hsum,
            hlength]
          omega

theorem keyBytes_eq (key : List String) : keyBytes key = jsonBytes (.arr (key.map .str)) := by
  have hparts : (((key.map Json.str).map (writeJson false)).map String.utf8ByteSize) = key.map textBytes := by
    rw [List.map_map, List.map_map]
    exact List.map_congr_left fun text _ => (textBytes_eq text).symm
  have hopen : ("[" : String).utf8ByteSize = 1 := rfl
  have hclose : ("]" : String).utf8ByteSize = 1 := rfl
  rw [keyBytes, jsonBytes, writeJson, Records.writeItems_eq, String.utf8ByteSize_append, String.utf8ByteSize_append,
    utf8ByteSize_intercalate, hparts, hopen, hclose, List.length_map, List.length_map]
  omega

end EdgarPlatform.Reductions
