import EdgarPlatform.Matching.Link
import EdgarPlatform.Matching.Rules
import EdgarPlatform.Readings.Versions

/-!
# Planning the matches of a batch

Before a batch is linked, its newest readings are tested against the binding rules a policy approves. Each rule a record passes says which of its values are matched on, and what follows where they reach no master or several. A record that is bound already, or that the batch binds itself, is not matched.
-/

namespace EdgarPlatform.Matching

open Records (Json Object readText readObject readArray readFields readString hasValue valuesMatch)
open Readings (Version readRevision orderReadings)

/-- What a plan is made from. -/
structure MatchInputs where
  policy : Object
  assertions : List Object
  decisions : List Object
  identities : List Object
  bound : List String
  /-- Each stored bound record's master. -/
  boundEntities : SortedMap String String
  /-- The values each bound record's bind withholds, by their namespaces. -/
  withheld : SortedMap String (List (String × String))
  released : List String
  normalizers : IndexMap String Bool

abbrev RecordTest := String → Object → Object → IndexMap String Bool → Except String Bool

/-- An approval of a rule: of its kind, to bind, and of its family and version. -/
def approves (kind : String) (rule : Object) : Json → Bool
  | .obj fields =>
      (readText (.ofList fields) "kind").toOption = some kind ∧
        (readText (.ofList fields) "verdict").toOption = some "bind" ∧
        ([("family", "family"), ("rule_id", "rule_id"), ("rule_version", "version")].all fun names =>
          match (IndexMap.ofList fields).get? names.1, rule.get? names.2 with
          | some left, some right => valuesMatch left right
          | _, _ => false) = true
  | _ => false

def ruleIsApprovedForMatching (policy : Object) (kind : String) (rule : Object) : Except String Bool := do
  let entries ← readArray policy "automatic_rules"
  .ok (entries.any (approves kind rule))

def readBlocks (policy : Object) : Except String (SortedMap String Object) := do
  let kinds ← readObject policy "kinds"
  let blocks ← kinds.entries.mapM fun entry => (readFields entry.2).map fun block => (entry.1, block)
  .ok (.ofList blocks)

abbrev Issuers := SortedMap String (List String)

def addIssuers (issuers : Issuers) (entry : String × Json) : Except String Issuers := do
  let contract ← readFields entry.2
  let sources ← readArray contract "sources"
  let sources ← sources.mapM readString
  .ok (issuers.insert entry.1 ((issuers.get? entry.1).getD [] ++ sources))

def blockIssuers (issuers : Issuers) (block : Object) : Except String Issuers := do
  let identifiers ← readObject block "identifiers"
  identifiers.entries.foldlM addIssuers issuers

def approvedRule (policy : Object) (kind : String) (raw : Json) : Except String (List Object) := do
  let rule ← readFields raw
  let family ← readText rule "family"
  if family = "binding" then
    let approved ← ruleIsApprovedForMatching policy kind rule
    .ok (if approved then [rule] else [])
  else .ok []

def blockRules (policy : Object) (entry : String × Object) : Except String (List Object) := do
  let raws ← readArray entry.2 "rules"
  let rules ← raws.mapM (approvedRule policy entry.1)
  .ok rules.flatten

def issues (issuers : Issuers) (idNamespace source : String) : Bool :=
  (issuers.get? idNamespace).any fun sources => sources.contains source

def bindingPrimitives : List String := ["identifier_match@1", "identifier_cardinality@1", "kind_equal@1"]

def testNamespace (raw : Json) : Except String (List String) := do
  let test ← readFields raw
  let primitive ← readText test "primitive"
  if primitive ∈ bindingPrimitives then
    let args ← readObject test "args"
    let name ← readText args "namespace"
    .ok [name]
  else .ok []

def readMatchingNamespace (rule : Object) : Except String String := do
  let tests ← readArray rule "when"
  let names ← tests.mapM testNamespace
  match Sorting.distinct names.flatten with
  | [name] => .ok name
  | _ => .error "A matching rule requires one identifier namespace"

/-- The value a rule matches on: the record's identifier, or for a rule of a source that does not issue it the
cross-reference, which only finds a master. -/
def readRuleValue (record : Object) (idNamespace : String) (filer : Bool) : Except String (Option (Json × Bool)) := do
  let identifiers ← readObject record "identifiers"
  match identifiers.get? idNamespace with
  | some raw => .ok (some (raw, false))
  | none =>
      if filer then do
        let references ← readObject record "cross_references"
        .ok ((references.get? idNamespace).map fun raw => (raw, true))
      else .ok none

/-- The text of an outcome, `review` where a rule declares none. -/
def outcomeText (rule : Object) (name : String) : Except String String :=
  if hasValue rule name then readText rule name else .ok "review"

def readOnNoMatch (text : String) : Except String OnNoMatch :=
  if text = "mint" then .ok .mint
  else if text = "wait" then .ok .wait
  else .error "A matching rule's on_no_match is mint or wait"

def readOnSeveral (text : String) : Except String OnSeveral :=
  if text = "review" then .ok .review
  else if text = "merge" then .ok .merge
  else .error "A matching rule's on_several is review or merge"

def readOnConflict (text : String) : Except String OnConflict :=
  if text = "review" then .ok .review
  else if text = "first" then .ok .first
  else .error "A matching rule's on_conflict is review or first"

def Outcomes.read (rule : Object) : Except String Outcomes := do
  let several ← outcomeText rule "on_several"
  let conflict ← outcomeText rule "on_conflict"
  let noMatch ← readText rule "on_no_match"
  let onNoMatch ← readOnNoMatch noMatch
  let onSeveral ← readOnSeveral several
  let onConflict ← readOnConflict conflict
  .ok { onNoMatch, onSeveral, onConflict }

/-- What the records of a batch are matched with. -/
structure Rulebook where
  forms : TextForms
  test : RecordTest
  contracts : Contracts
  issuers : Issuers
  rules : List Object
  normalizers : IndexMap String Bool

def ruleIsForSource (rule record : Object) : Except String Bool :=
  if hasValue rule "source" then do
    let source ← readText rule "source"
    let recordSource ← readText record "source_code"
    .ok (decide (source = recordSource))
  else .ok true

def ruleIsForRecord (rule record : Object) : Except String Bool := do
  let appliesTo ← readText rule "applies_to_verdict"
  let kind ← readText record "kind"
  if appliesTo = kind then ruleIsForSource rule record else .ok false

/-- The record passes the tests that are not of its identifiers. -/
def passesTests (book : Rulebook) (record : Object) : List Json → Except String Bool
  | [] => .ok true
  | raw :: rest => do
      let test ← readFields raw
      let name ← readText test "primitive"
      if name ∈ bindingPrimitives then passesTests book record rest
      else
        let args ← readObject test "args"
        let verdict ← book.test name args record book.normalizers
        if verdict = hasValue test "negate" then .ok false else passesTests book record rest

def keptRule (rule : Object) : Object :=
  .ofList (rule.entries.filter fun entry => entry.1 ∈ ["rule_id", "version"])

def matchOf (book : Rulebook) (rule : Object) (outcomes : Outcomes) (idNamespace : String) (issued lookupOnly : Bool)
    (raw : String) : Except String Match := do
  let value ← prepareIdentifierValue book.forms book.contracts idNamespace raw book.normalizers
  .ok { rule := keptRule rule, outcomes, idNamespace, value, raw, issued, lookupOnly }

def valueMatches (book : Rulebook) (rule : Object) (idNamespace : String) (issued : Bool) (found : Json × Bool) :
    Except String (List Match) := do
  let raws ← readIdentifierValues found.1
  if raws = [] then .ok []
  else
    let outcomes ← Outcomes.read rule
    raws.mapM (matchOf book rule outcomes idNamespace issued found.2)

def namespaceMatches (book : Rulebook) (record rule : Object) : Except String (List Match) := do
  let idNamespace ← readMatchingNamespace rule
  let source ← readText record "source_code"
  let found ← readRuleValue record idNamespace (!issues book.issuers idNamespace source && hasValue rule "source")
  match found with
  | none => .ok []
  | some found => valueMatches book rule idNamespace (issues book.issuers idNamespace source) found

def ruleMatches (book : Rulebook) (record rule : Object) : Except String (List Match) := do
  let isFor ← ruleIsForRecord rule record
  if isFor then
    let tests ← readArray rule "when"
    let passes ← passesTests book record tests
    if passes then namespaceMatches book record rule else .ok []
  else .ok []

def recordMatches (book : Rulebook) (record : Object) : Except String (List Match) := do
  let found ← book.rules.mapM (ruleMatches book record)
  .ok found.flatten

def addCaller (caller : SortedMap String String) (decision : Object) : Except String (SortedMap String String) := do
  let operation ← readText decision "operation"
  if operation = "bind" then
    let subject ← readText decision "subject"
    let entity ← readText decision "entity_id"
    .ok (caller.insert subject entity)
  else .ok caller

/-- The masters of bound records: the caller's, and those stored that are not released. -/
def callerMasters (input : MatchInputs) (decided : SortedMap String String) : SortedMap String String :=
  decided.extend (input.boundEntities.entries.filter fun entry =>
    entry.1 ∉ input.released ∧ decided.contains entry.1 = false)

/-- The subjects that are bound, by the store or by the caller. -/
def isTaken (input : MatchInputs) (decided : SortedMap String String) (subject : String) : Bool :=
  (subject ∈ input.bound ∧ subject ∉ input.released) ∨ decided.contains subject = true

def kindsById (identities : List Object) : Except String (SortedMap String String) := do
  let kinds ← identities.mapM fun record => do
    let entity ← readText record "entity_id"
    let kind ← readText record "kind"
    .ok (entity, kind)
  .ok (.ofList kinds)

/-- What gathering holders needs of the plan. -/
structure Holding where
  book : Rulebook
  kinds : SortedMap String String
  withheld : SortedMap String (List (String × String))

def holderKind (holding : Holding) (record : Object) (entity : String) : Except String String := do
  let kind ← readText record "kind"
  .ok ((holding.kinds.get? entity).getD kind)

/-- The values one identifier gives a master, each with the text it was read from. -/
def valueHolder (holding : Holding) (record : Object) (subject entity idNamespace raw : String) :
    Except String (List (String × Holder)) :=
  if ((holding.withheld.get? subject).getD []).contains (idNamespace, raw) then .ok []
  else do
    let value ← prepareIdentifierValue holding.book.forms holding.book.contracts idNamespace raw holding.book.normalizers
    let kind ← holderKind holding record entity
    .ok [(raw, { idNamespace, value, records := .ofList [(entity, kind)] })]

def identifierHolders (holding : Holding) (record : Object) (entity source : String) (entry : String × Json) :
    Except String (List (String × Holder)) :=
  if issues holding.book.issuers entry.1 source then do
    let subject ← readText record "subject"
    let raws ← readIdentifierValues entry.2
    let held ← raws.mapM (valueHolder holding record subject entity entry.1)
    .ok held.flatten
  else .ok []

def recordHolders (holding : Holding) (caller : SortedMap String String) (record : Object) :
    Except String (List (String × Holder)) := do
  let subject ← readText record "subject"
  match caller.get? subject with
  | none => .ok []
  | some entity => do
      let source ← readText record "source_code"
      let identifiers ← readObject record "identifiers"
      let held ← identifiers.entries.mapM (identifierHolders holding record entity source)
      .ok held.flatten

/-- The newest reading of each record: of the readings in order, the last. -/
def newestRecords (assertions : List Object) : Except String (SortedMap String Object) := do
  let ordered ← orderReadings assertions
  let records ← ordered.mapM fun entry => (readText entry.2 "subject").map fun subject => (subject, entry.2)
  .ok (.ofList records)

structure MatchPlan where
  records : SortedMap String Object
  applicable : SortedMap String (List Match)
  /-- The values to look up, by their namespaces. -/
  wanted : List (String ×ₗ String)
  /-- The kinds a rule may create a master of. -/
  kinds : List String
  callerHolders : List Holder

def readRulebook (forms : TextForms) (test : RecordTest) (input : MatchInputs) : Except String Rulebook := do
  let contracts ← prepareIdentifierRules input.policy
  let blocks ← readBlocks input.policy
  let issuers ← blocks.values.foldlM blockIssuers .empty
  let rules ← blocks.entries.mapM (blockRules input.policy)
  .ok { forms, test, contracts, issuers, rules := rules.flatten, normalizers := input.normalizers }

/-- The kinds of the records some match of which may create a master. -/
def mintKinds (records : SortedMap String Object) (applicable : SortedMap String (List Match)) : List String :=
  applicable.entries.flatMap fun entry =>
    if entry.2.any fun item => item.outcomes.onNoMatch = .mint then
      ((records.get? entry.1).bind fun record => (readText record "kind").toOption).toList
    else []

def wantedValues (applicable : SortedMap String (List Match)) (held : List (String × Holder)) :
    List (String ×ₗ String) :=
  (applicable.values.flatten.map fun item => toLex (item.idNamespace, item.raw)) ++
    held.map fun entry => toLex (entry.2.idNamespace, entry.1)

def matchPlan (records : SortedMap String Object) (applicable : SortedMap String (List Match))
    (held : List (String × Holder)) : MatchPlan where
  records := records
  applicable := applicable
  wanted := Sorting.distinct (wantedValues applicable held)
  kinds := Sorting.distinct (mintKinds records applicable)
  callerHolders := held.map Prod.snd

def untaken (input : MatchInputs) (decided : SortedMap String String) (records : SortedMap String Object) :
    SortedMap String Object :=
  records.filter fun entry => isTaken input decided entry.1 = false

def findMatches (book : Rulebook) (input : MatchInputs) (decided : SortedMap String String)
    (records : SortedMap String Object) : Except String (SortedMap String (List Match)) := do
  let found ← (untaken input decided records).mapValuesM fun _ record => recordMatches book record
  .ok (found.filter fun entry => entry.2 ≠ [])

def planRecordMatches (forms : TextForms) (test : RecordTest) (input : MatchInputs) : Except String MatchPlan := do
  let book ← readRulebook forms test input
  let records ← newestRecords input.assertions
  let decided ← input.decisions.foldlM addCaller .empty
  let applicable ← findMatches book input decided records
  let kinds ← kindsById input.identities
  let held ← input.assertions.mapM (recordHolders { book, kinds, withheld := input.withheld } (callerMasters input decided))
  .ok (matchPlan records applicable held.flatten)

def MatchPlan.toPlan (plan : MatchPlan) : Plan where
  records := .ofList plan.records.entries
  applicable := .ofList plan.applicable.entries
  callerHolders := plan.callerHolders

theorem newestRecords_get? {assertions : List Object} {records : SortedMap String Object}
    (h : newestRecords assertions = .ok records) {subject : String} {record : Object}
    (hget : records.get? subject = some record) :
    record ∈ assertions ∧ readText record "subject" = .ok subject ∧ ∃ version, readRevision record = .ok version ∧
      ∀ other ∈ assertions, readText other "subject" = .ok subject →
        ∃ otherVersion, readRevision other = .ok otherVersion ∧ otherVersion ≤ version := by
  obtain ⟨ordered, hordered, h⟩ := Except.bind_eq_ok.1 h
  obtain ⟨entries, hentries, h⟩ := Except.bind_eq_ok.1 h
  obtain ⟨hperm, hversions, hsorted⟩ := Readings.orderReadings_perm hordered
  have hpairs : List.Forall₂ (fun (pair : Version × Object) (entry : String × Object) =>
      readRevision entry.2 = .ok pair.1 ∧ readText entry.2 "subject" = .ok entry.1 ∧ entry.2 = pair.2) ordered entries := by
    refine Runs.forall₂_imp_of_mem (Runs.mapM_eq_ok.1 hentries) fun pair entry hpair hentry => ?_
    obtain ⟨own, hown, rfl⟩ := Records.map_eq_ok.1 hentry
    exact ⟨hversions pair hpair, hown, rfl⟩
  -- The entries stand in the order of their records' versions.
  have horder : entries.Pairwise fun a b => ∀ v w, readRevision a.2 = .ok v → readRevision b.2 = .ok w → v ≤ w := by
    refine Runs.pairwise_of_forall₂ (fun pair entry pair' entry' hpair hpair' hle v w hv hw => ?_) hpairs hsorted
    cases hpair.1.symm.trans hv
    cases hpair'.1.symm.trans hw
    exact hle
  rw [← Except.ok.inj h] at hget
  obtain ⟨front, back, rfl, hback⟩ := SortedMap.get?_ofList_split hget
  obtain ⟨pair, hpair, hversion, hsubject, hrecord⟩ :=
    Runs.forall₂_exists_left hpairs (b := (subject, record)) (by simp)
  refine ⟨hperm.mem_iff.1 (List.mem_map.2 ⟨pair, hpair, hrecord.symm⟩), hsubject, pair.1, hversion, ?_⟩
  intro other hother hotherSubject
  obtain ⟨pair', hpair', rfl⟩ := List.mem_map.1 (hperm.mem_iff.2 hother)
  obtain ⟨entry, hentry, hversion', hsubject', hrecord'⟩ := Runs.forall₂_exists_right hpairs hpair'
  have hkey : entry.1 = subject := by
    rw [hrecord'] at hsubject'
    exact Except.ok.inj (hsubject'.symm.trans hotherSubject)
  refine ⟨pair'.1, hrecord' ▸ hversion', ?_⟩
  rw [List.pairwise_append, List.pairwise_cons] at horder
  rcases List.mem_append.1 hentry with hentry | hentry
  · exact horder.2.2 entry hentry _ (List.mem_cons_self ..) _ _ hversion' hversion
  · rcases List.mem_cons.1 hentry with rfl | hentry
    · exact (Except.ok.inj (hversion'.symm.trans hversion)).le
    · exact absurd (List.mem_map.2 ⟨entry, hentry, hkey⟩) hback

theorem newestRecords_contains {assertions : List Object} {records : SortedMap String Object}
    (h : newestRecords assertions = .ok records) {reading : Object} (hreading : reading ∈ assertions) {subject : String}
    (hsubject : readText reading "subject" = .ok subject) : ∃ record, records.get? subject = some record := by
  obtain ⟨ordered, hordered, h⟩ := Except.bind_eq_ok.1 h
  obtain ⟨entries, hentries, h⟩ := Except.bind_eq_ok.1 h
  obtain ⟨hperm, _⟩ := Readings.orderReadings_perm hordered
  obtain ⟨pair, hpair, rfl⟩ := List.mem_map.1 (hperm.mem_iff.2 hreading)
  obtain ⟨entry, hentry, hmapped⟩ := Runs.forall₂_exists_right (Runs.mapM_eq_ok.1 hentries) hpair
  rw [hsubject] at hmapped
  rw [← Except.ok.inj h]
  apply SortedMap.mem_keys_iff.1
  rw [SortedMap.mem_keys_ofList]
  exact List.mem_map.2 ⟨entry, hentry, congrArg Prod.fst (Except.ok.inj hmapped).symm⟩

/-- What a plan holds of a subject: its newest record, and that record's matches unless it is taken. -/
theorem planRecordMatches_get? {forms : TextForms} {test : RecordTest} {input : MatchInputs} {plan : MatchPlan}
    (h : planRecordMatches forms test input = .ok plan) :
    newestRecords input.assertions = .ok plan.records ∧ ∃ book decided, readRulebook forms test input = .ok book ∧
      input.decisions.foldlM addCaller .empty = .ok decided ∧ ∀ subject items,
        plan.applicable.get? subject = some items ↔ items ≠ [] ∧ isTaken input decided subject = false ∧
          ∃ record, plan.records.get? subject = some record ∧ recordMatches book record = .ok items := by
  obtain ⟨book, hbook, h⟩ := Except.bind_eq_ok.1 h
  obtain ⟨records, hrecords, h⟩ := Except.bind_eq_ok.1 h
  obtain ⟨decided, hdecided, h⟩ := Except.bind_eq_ok.1 h
  obtain ⟨applicable, happlicable, h⟩ := Except.bind_eq_ok.1 h
  obtain ⟨kinds, _, h⟩ := Except.bind_eq_ok.1 h
  obtain ⟨held, _, h⟩ := Except.bind_eq_ok.1 h
  rw [← Except.ok.inj h]
  refine ⟨hrecords, book, decided, hbook, hdecided, fun subject items => ?_⟩
  obtain ⟨found, hfound, happlicable⟩ := Except.bind_eq_ok.1 happlicable
  show applicable.get? subject = some items ↔ _ ∧ _ ∧ ∃ record, records.get? subject = some record ∧ _
  rw [← Except.ok.inj happlicable, SortedMap.get?_filter, Option.filter_eq_some_iff, SortedMap.get?_mapValuesM hfound,
    untaken]
  simp only [SortedMap.get?_filter, Option.filter_eq_some_iff, decide_eq_true_eq]
  constructor
  · rintro ⟨⟨record, ⟨hrecord, hfree⟩, hitems⟩, hne⟩
    exact ⟨hne, hfree, record, hrecord, hitems⟩
  · rintro ⟨hne, hfree, record, hrecord, hitems⟩
    exact ⟨⟨record, ⟨hrecord, hfree⟩, hitems⟩, hne⟩

end EdgarPlatform.Matching
