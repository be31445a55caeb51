import EdgarPlatform.Records.Decisions
import Mathlib.Data.Prod.Lex

/-!
# Which value of a field survives

The subjects of a master each claim values for its fields. A field's rule names the sources it trusts, in order, and who of them may clear it. The claims that count are ranked by the place of their source and then the newest first, and what ties is told apart by source, record and assertion. A steward's override comes before every claim. Which value survives, and what is kept as in conflict with it, does not depend on the order of the subjects.
-/

namespace EdgarPlatform.MasterRecords

open Records (Calendar Json Object hasContent hasValue readDouble readFields readObject readOptionalValue readString readText
  readTexts roundDouble roundHalfEven valuesMatch writeSortedJson)

/-- What the ranking sees of a claim. -/
structure Candidate where
  source : String
  op : String
  /-- In seconds, as the double of the instant. -/
  effective : Option ℚ
  fresh : Bool
  recordKey : String
  assertionId : String

section Rank

variable (sources clearSources : List String) (allowUnknownEffective : Bool)

def isUnauthorized (c : Candidate) : Bool := c.source ∈ sources ∧ c.op = "clear" ∧ c.source ∉ clearSources

def isEligible (c : Candidate) : Bool :=
  c.source ∈ sources ∧ isUnauthorized sources clearSources c = false ∧
    (c.effective.isSome = true ∨ allowUnknownEffective = true) ∧ c.fresh = true

/-- The place of the source, the newest first and what has no date last, then the source, the record and the assertion. -/
abbrev Place := Nat ×ₗ (Nat ×ₗ ℚ) ×ₗ String ×ₗ String ×ₗ String

def Candidate.place (c : Candidate) : Place :=
  toLex (sources.idxOf c.source, toLex (toLex (if c.effective.isSome then 0 else 1, -(c.effective.getD 0)),
    toLex (c.source, toLex (c.recordKey, c.assertionId))))

/-- The positions of the winners, the first of them first, and those of the clears that are not authorized. -/
def rank (candidates : List Candidate) : List Nat × List Nat :=
  let eligible := candidates.zipIdx.filter fun c => isEligible sources clearSources allowUnknownEffective c.1
  let unauthorized := candidates.zipIdx.filter fun c => isUnauthorized sources clearSources c.1
  ((Sorting.sortByKey (fun c => c.1.place sources) eligible).map Prod.snd, unauthorized.map Prod.snd)

end Rank

/-- The double nearest to a number that is far from the greatest ones. -/
def nearest (q : ℚ) : ℚ :=
  match roundDouble q with
  | .finite value => value
  | .infinite _ => q

/-- The seconds of an instant and then its microseconds, as doubles are added. -/
def timestamp (time : Int) : ℚ :=
  nearest ((time / 10 ^ 9 : Int) + nearest ((time % 10 ^ 9 / 1000 : Int) / 10 ^ 6))

/-- The microseconds of a number of days, the last of them where a double is one beyond. -/
def readAge : Json → Except String Int
  | .num lexeme =>
      match readDouble lexeme with
      | .infinite _ => .error "Invalid record value"
      | .finite days =>
          match roundDouble (days * 86400000000) with
          | .infinite _ => .error "Field freshness interval is out of range"
          | .finite micros =>
              if 2 ^ 63 < (roundHalfEven micros).natAbs then .error "Field freshness interval is out of range"
              else .ok (if roundHalfEven micros = 2 ^ 63 then 2 ^ 63 - 1 else roundHalfEven micros)
  | _ => .error "Invalid record value"

/-- What the fields of a master are chosen under. -/
structure Choosing where
  calendar : Calendar
  rules : Object
  defaults : Object
  overrides : List Object
  asOf : String
  authority : String
  version : Option Json

variable (given : Choosing)

def isFresh (rule : Object) (moment : Int) : Except String Bool :=
  match rule.get? "max_age_days" with
  | none => .ok true
  | some .null => .ok true
  | some days => do
      let age ← readAge days
      let last := moment + 1000 * age
      if last < -8334601228800 * 10 ^ 9 ∨ 8210266876800 * 10 ^ 9 ≤ last then
        .error "Field freshness interval is out of range"
      else do
        let now ← given.calendar.readTime given.asOf
        .ok (now ≤ last)

def readMoment (rule claim : Object) : Except String (Option ℚ × Bool) :=
  match claim.get? "effective_at" with
  | none => .ok (none, true)
  | some .null => .ok (none, true)
  | some raw => do
      let text ← readString raw
      let moment ← given.calendar.readTime text
      let fresh ← isFresh given rule moment
      .ok (some (timestamp moment), fresh)

/-- A date is only read where the claim may win. -/
def readCandidate (rule : Object) (sources clearSources : List String) (claim : Object) : Except String Candidate := do
  let source ← readText claim "source_code"
  let op ← readText claim "op"
  let moment ← (if source ∈ sources ∧ (op ≠ "clear" ∨ source ∈ clearSources) then readMoment given rule claim
    else .ok (none, true))
  let recordKey ← readText claim "record_key"
  let assertionId ← readText claim "assertion_id"
  .ok ⟨source, op, moment.1, moment.2, recordKey, assertionId⟩

/-- The claims that count, the winner first, and the clears that are not authorized. -/
def rankClaims (rule : Object) (supplied : List Object) : Except String (List Object × List Object) := do
  let sources ← (rule.get? "sources").elim (.error "Field rule requires sources") readTexts
  let clearSources ← (rule.get? "clear_sources").elim (.ok []) readTexts
  let metadata ← supplied.mapM (readCandidate given rule sources clearSources)
  let ranked := rank sources clearSources (hasValue rule "allow_unknown_effective") metadata
  .ok (ranked.1.filterMap (supplied[·]?), ranked.2.filterMap (supplied[·]?))

def unauthorizedClear (name : String) (claim : Object) : Object :=
  .ofList [("reason", .str "unauthorized_clear"), ("field", .str name), ("assertion_id", readOptionalValue claim "assertion_id")]

def disagreement (name : String) (item : Object) : Object :=
  .ofList [("reason", .str "override_source_disagreement"), ("field", .str name), ("override", readOptionalValue item "decision_id")]

def isActive (subjects : List String) (name : String) (body : Object) : Bool :=
  ((readText body "subject").toOption.any fun subject => subject ∈ subjects) ∧ (readText body "field").toOption = some name ∧
    hasValue body "profile_id" = false

def stewardClaim (item : Object) : Object :=
  .ofList [("op", .str "value"), ("value", readOptionalValue item "value"), ("assertion_id", readOptionalValue item "decision_id"),
    ("source_code", .str "steward"), ("reason", readOptionalValue item "reason")]

/-- The claim that is chosen with the others it may conflict with, and the reviews of an override. -/
def choose (name : String) (active eligible : List Object) : Except String (Option (Object × List Object) × List Object) :=
  match active with
  | [] => .ok (eligible.head?.map fun claim => (claim, eligible.tail), [])
  | [item] =>
      let differs := eligible.any fun claim => !valuesMatch (readOptionalValue claim "value") (readOptionalValue item "value")
      .ok (some (stewardClaim item, eligible), if differs then [disagreement name item] else [])
  | _ :: _ :: _ => .error "Conflicting active steward overrides"

def writeChoice (chosen : Object) (others : List Object) : Except String Json := do
  let selected := readOptionalValue chosen "value"
  let conflicts := others.filter fun claim => writeSortedJson (readOptionalValue claim "value") ≠ writeSortedJson selected
  let op ← readText chosen "op"
  .ok (.obj ([("value", selected), ("cleared", .bool (op = "clear")), ("winner", chosen.toJson),
    ("policy_digest", .str given.authority), ("conflicts", .arr (conflicts.map Object.toJson))] ++
    ((given.version.filter hasContent).map (Prod.mk "kind_version")).toList))

/-- The claims of one record, under the fields they are for. -/
def readClaims (records : IndexMap String Object) (subject : String) : Except String (List (String × Object)) :=
  match records.get? subject with
  | none => .ok []
  | some record => do
      let fields ← readObject record "fields"
      fields.entries.mapM fun field => (readFields field.2).map (Prod.mk field.1)

def addClaim (candidates : IndexMap String (List Object)) (claim : String × Object) : IndexMap String (List Object) :=
  candidates.insert claim.1 ((candidates.get? claim.1).getD [] ++ [claim.2])

/-- The fields there are rules for, and where there are defaults those that are claimed besides. -/
def fieldNames (candidates : IndexMap String (List Object)) : List String :=
  given.rules.keys ++ if given.defaults.size = 0 then [] else Sorting.distinct (candidates.keys.filter (· ∉ given.rules.keys))

variable (subjects : List String)

def chooseField (candidates : IndexMap String (List Object)) (name : String) : Except String (Option Json × List Object) := do
  let own ← readObject given.rules name
  let ranked ← rankClaims given (given.defaults.extend own.entries) ((candidates.get? name).getD [])
  let chosen ← choose name (given.overrides.filter (isActive subjects name)) ranked.1
  let field ← chosen.1.elim (.ok none) fun choice => (writeChoice given choice.1 choice.2).map some
  .ok (field, ranked.2.map (unauthorizedClear name) ++ chosen.2)

def addField (candidates : IndexMap String (List Object)) (chosen : Object × List Object) (name : String) :
    Except String (Object × List Object) := do
  let found ← chooseField given subjects candidates name
  .ok (found.1.elim chosen.1 (chosen.1.insert name), chosen.2 ++ found.2)

/-- The fields of a master, and what is to be reviewed of them. -/
def chooseValues (records : IndexMap String Object) : Except String (Object × List Object) := do
  let claims ← subjects.mapM (readClaims records)
  let candidates := claims.flatten.foldl addClaim .empty
  (fieldNames given candidates).foldlM (addField given subjects candidates) (.empty, [])

variable {given : Choosing} {subjects : List String}

theorem getD_foldl_addClaim (claims : List (String × Object)) (m : IndexMap String (List Object)) (name : String) :
    ((claims.foldl addClaim m).get? name).getD [] =
      (m.get? name).getD [] ++ (claims.filter fun claim => claim.1 = name).map Prod.snd := by
  induction claims generalizing m with
  | nil => simp
  | cons claim rest ih =>
      rw [List.foldl_cons, ih, addClaim, IndexMap.get?_insert, List.filter_cons]
      by_cases hname : claim.1 = name
      · simp [hname]
      · simp [hname, Ne.symm hname]

theorem mem_keys_foldl_addClaim (claims : List (String × Object)) (m : IndexMap String (List Object)) (name : String) :
    name ∈ (claims.foldl addClaim m).keys ↔ name ∈ m.keys ∨ name ∈ claims.map Prod.fst := by
  induction claims generalizing m with
  | nil => simp
  | cons claim rest ih =>
      rw [List.foldl_cons, ih, addClaim, IndexMap.mem_keys_insert, List.map_cons, List.mem_cons]
      tauto

section Ranking

variable {sources clearSources : List String} {allow : Bool} {supplied others : List Object} {metadata metadata' : List Candidate}

/-- What stands at the position of a candidate, and the candidate. -/
def standing (supplied : List Object) (c : Candidate × Nat) : Option Object × Candidate := (supplied[c.2]?, c.1)

theorem map_standing (h : supplied.length = metadata.length) :
    metadata.zipIdx.map (standing supplied) = (supplied.zip metadata).map fun pair => (some pair.1, pair.2) := by
  refine List.ext_getElem (by simp [h]) fun i hi _ => ?_
  have hsupplied : i < supplied.length := by simpa [h] using hi
  simp [standing, List.getElem?_eq_getElem hsupplied]

theorem filter_standing (keep : Candidate → Bool) (h : supplied.length = metadata.length) (h' : others.length = metadata'.length)
    (hperm : (supplied.zip metadata).Perm (others.zip metadata')) :
    ((metadata.zipIdx.filter fun c => keep c.1).map (standing supplied)).Perm
      ((metadata'.zipIdx.filter fun c => keep c.1).map (standing others)) := by
  have hfilter : ∀ (others : List Object) (metadata : List Candidate),
      (metadata.zipIdx.filter fun c => keep c.1).map (standing others) =
        (metadata.zipIdx.map (standing others)).filter fun found => keep found.2 := by
    intro others metadata
    rw [List.filter_map]
    rfl
  rw [hfilter, hfilter, map_standing h, map_standing h']
  exact (hperm.map _).filter _

theorem filterMap_position (found : List (Candidate × Nat)) :
    (found.map Prod.snd).filterMap (supplied[·]?) = (found.map (standing supplied)).filterMap Prod.fst := by
  rw [List.filterMap_map, List.filterMap_map]
  rfl

/-- Candidates that are told apart by their places are ranked alike in every order. -/
theorem rank_perm (h : supplied.length = metadata.length) (h' : others.length = metadata'.length)
    (hperm : (supplied.zip metadata).Perm (others.zip metadata'))
    (hapart : ∀ a ∈ supplied.zip metadata, ∀ b ∈ supplied.zip metadata, a.2.place sources = b.2.place sources → a = b) :
    (rank sources clearSources allow metadata).1.filterMap (supplied[·]?) =
        (rank sources clearSources allow metadata').1.filterMap (others[·]?) ∧
      ((rank sources clearSources allow metadata).2.filterMap (supplied[·]?)).Perm
        ((rank sources clearSources allow metadata').2.filterMap (others[·]?)) := by
  simp only [rank, filterMap_position]
  refine ⟨congrArg (List.filterMap Prod.fst) ?_, (filter_standing _ h h' hperm).filterMap _⟩
  refine Sorting.sortByKey_map_eq (fun found => found.2.place sources) (filter_standing _ h h' hperm) (fun _ _ => rfl)
    (fun _ _ => rfl) fun a ha b hb heq => ?_
  have hsome : ∀ a ∈ (metadata.zipIdx.filter fun c => isEligible sources clearSources allow c.1).map (standing supplied),
      ∃ pair ∈ supplied.zip metadata, (some pair.1, pair.2) = a := by
    intro a ha
    rw [← List.mem_map, ← map_standing h]
    exact List.map_subset _ (List.filter_subset_self _) ha
  obtain ⟨x, hx, rfl⟩ := hsome a ha
  obtain ⟨y, hy, rfl⟩ := hsome b hb
  rw [hapart x hx y hy heq]

end Ranking

/-- Two claims come from one assertion of one record of a source. -/
def SameAssertion (claim other : Object) : Prop :=
  ∀ key ∈ ["source_code", "record_key", "assertion_id"], readText claim key = readText other key

theorem readCandidate_eq_ok {rule claim : Object} {sources clearSources : List String} {c : Candidate}
    (h : readCandidate given rule sources clearSources claim = .ok c) :
    readText claim "source_code" = .ok c.source ∧ readText claim "record_key" = .ok c.recordKey ∧
      readText claim "assertion_id" = .ok c.assertionId := by
  simp only [readCandidate, Except.bind_eq_ok] at h
  obtain ⟨source, hsource, op, _, moment, _, recordKey, hrecord, assertionId, hassertion, h⟩ := h
  cases h
  exact ⟨hsource, hrecord, hassertion⟩

theorem rankClaims_perm {rule : Object} {supplied others eligible unauthorized : List Object} (hperm : supplied.Perm others)
    (hone : ∀ claim ∈ supplied, ∀ other ∈ supplied, SameAssertion claim other → claim = other)
    (h : rankClaims given rule supplied = .ok (eligible, unauthorized)) :
    ∃ unauthorized', rankClaims given rule others = .ok (eligible, unauthorized') ∧ unauthorized.Perm unauthorized' := by
  simp only [rankClaims, Except.bind_eq_ok] at h
  obtain ⟨sources, hsources, clearSources, hclear, metadata, hmetadata, h⟩ := h
  obtain ⟨metadata', hmetadata', hzip⟩ := Runs.mapM_zip_perm hperm hmetadata
  have hmetadata := Runs.mapM_eq_ok.1 hmetadata
  have hapart : ∀ a ∈ supplied.zip metadata, ∀ b ∈ supplied.zip metadata, a.2.place sources = b.2.place sources → a = b := by
    rintro ⟨claim, c⟩ ha ⟨other, d⟩ hb hplace
    have hc := List.forall₂_zip hmetadata ha
    have hd := List.forall₂_zip hmetadata hb
    simp only [Candidate.place, toLex_inj, Prod.mk.injEq] at hplace
    obtain ⟨-, -, hsource, hrecord, hassertion⟩ := hplace
    obtain ⟨hs, hr, hi⟩ := readCandidate_eq_ok hc
    obtain ⟨hs', hr', hi'⟩ := readCandidate_eq_ok hd
    have hsame : claim = other := by
      refine hone claim (List.of_mem_zip ha).1 other (List.of_mem_zip hb).1 fun key hkey => ?_
      simp only [List.mem_cons, List.not_mem_nil, or_false] at hkey
      obtain rfl | rfl | rfl := hkey
      · rw [hs, hs', hsource]
      · rw [hr, hr', hrecord]
      · rw [hi, hi', hassertion]
    subst hsame
    cases hc.symm.trans hd
    rfl
  obtain ⟨heligible, hunauthorized⟩ := @rank_perm sources clearSources
    (hasValue rule "allow_unknown_effective") _ _ _ _ hmetadata.length_eq
    (Runs.mapM_eq_ok.1 hmetadata').length_eq hzip hapart
  cases h
  refine ⟨_, ?_, hunauthorized⟩
  simp only [rankClaims, hsources, hclear, Except.bind_ok, hmetadata', heligible]

theorem chooseField_perm {candidates candidates' : IndexMap String (List Object)} {others : List String} {name : String}
    {field : Option Json} {problems : List Object} (hsubjects : ∀ subject, subject ∈ subjects ↔ subject ∈ others)
    (hclaims : ((candidates.get? name).getD []).Perm ((candidates'.get? name).getD []))
    (hone : ∀ claim ∈ (candidates.get? name).getD [], ∀ other ∈ (candidates.get? name).getD [],
      SameAssertion claim other → claim = other)
    (h : chooseField given subjects candidates name = .ok (field, problems)) :
    ∃ problems', chooseField given others candidates' name = .ok (field, problems') ∧ problems.Perm problems' := by
  simp only [chooseField, Except.bind_eq_ok] at h
  obtain ⟨own, hown, ⟨eligible, unauthorized⟩, hranked, chosen, hchosen, written, hwritten, h⟩ := h
  cases h
  obtain ⟨unauthorized', hranked', hperm⟩ := rankClaims_perm hclaims hone hranked
  have hactive : isActive others name = isActive subjects name := by
    funext body
    simp only [isActive, hsubjects]
  refine ⟨_, ?_, (hperm.map (unauthorizedClear name)).append_right _⟩
  simp only [chooseField, hown, Except.bind_ok, hranked', hactive, hchosen, hwritten]

/-- The fields are the same and the reviews are in another order. -/
theorem chooseNames_perm {candidates candidates' : IndexMap String (List Object)} {others : List String}
    (hsubjects : ∀ subject, subject ∈ subjects ↔ subject ∈ others)
    (hclaims : ∀ name, ((candidates.get? name).getD []).Perm ((candidates'.get? name).getD []))
    (hone : ∀ name, ∀ claim ∈ (candidates.get? name).getD [], ∀ other ∈ (candidates.get? name).getD [],
      SameAssertion claim other → claim = other) (names : List String) {fields chosen : Object} {reviews reviews' problems : List Object}
    (hreviews : reviews.Perm reviews')
    (h : names.foldlM (addField given subjects candidates) (fields, reviews) = .ok (chosen, problems)) :
    ∃ problems', names.foldlM (addField given others candidates') (fields, reviews') = .ok (chosen, problems') ∧
      problems.Perm problems' := by
  induction names generalizing fields reviews reviews' with
  | nil =>
      cases h
      exact ⟨reviews', rfl, hreviews⟩
  | cons name rest ih =>
      obtain ⟨next, hstep, h⟩ := Runs.foldlM_cons_eq_ok.1 h
      obtain ⟨⟨field, found⟩, hfound, hnext⟩ := Except.bind_eq_ok.1 hstep
      cases hnext
      obtain ⟨found', hfound', hperm⟩ := chooseField_perm hsubjects (hclaims name) (hone name) hfound
      obtain ⟨problems', hrest, hproblems⟩ := ih (hreviews.append hperm) h
      refine ⟨problems', ?_, hproblems⟩
      rw [List.foldlM_cons, addField, hfound']
      exact hrest

def claimsOf (records : IndexMap String Object) (subject : String) : List (String × Object) :=
  (readClaims records subject).toOption.getD []

/-- The claims that the subjects' records give for one field come each from an assertion of its own. -/
def AssertedOnce (records : IndexMap String Object) (subjects : List String) : Prop :=
  ∀ subject ∈ subjects, ∀ other ∈ subjects, ∀ claim ∈ claimsOf records subject, ∀ second ∈ claimsOf records other,
    claim.1 = second.1 → SameAssertion claim.2 second.2 → claim.2 = second.2

/-- **Which values survive.** The fields of a master do not depend on the order of its subjects, and what is to be reviewed of them is the same but for its order. -/
theorem chooseValues_perm (given : Choosing) {subjects others : List String} {records : IndexMap String Object}
    (hperm : subjects.Perm others) (hone : AssertedOnce records subjects) {fields : Object} {reviews : List Object}
    (h : chooseValues given subjects records = .ok (fields, reviews)) :
    ∃ reviews', chooseValues given others records = .ok (fields, reviews') ∧ reviews.Perm reviews' := by
  obtain ⟨claims, hclaims, h⟩ := Except.bind_eq_ok.1 h
  obtain ⟨claims', hclaims', hsame⟩ := Runs.mapM_perm hperm hclaims
  have hfound : ∀ claims : List (List (String × Object)), ∀ name,
      ((claims.flatten.foldl addClaim .empty).get? name).getD [] = (claims.flatten.filter fun claim => claim.1 = name).map Prod.snd :=
    fun claims name => getD_foldl_addClaim claims.flatten .empty name
  have hnames : fieldNames given (claims'.flatten.foldl addClaim .empty) = fieldNames given (claims.flatten.foldl addClaim .empty) := by
    rw [fieldNames, fieldNames]
    congr 2
    refine Sorting.distinct_congr fun name => ?_
    simp only [List.mem_filter, mem_keys_foldl_addClaim, (hsame.flatten.map Prod.fst).mem_iff]
  simp only [chooseValues, hclaims', Except.bind_ok, hnames]
  refine chooseNames_perm (fun _ => hperm.mem_iff) (fun name => ?_) (fun name claim hclaim other hother => ?_) _ (.refl _) h
  · rw [hfound, hfound]
    exact (hsame.flatten.filter _).map _
  · rw [hfound, List.mem_map] at hclaim hother
    obtain ⟨claim, hclaim, rfl⟩ := hclaim
    obtain ⟨other, hother, rfl⟩ := hother
    obtain ⟨hclaim, hname⟩ := List.mem_filter.1 hclaim
    obtain ⟨hother, hname'⟩ := List.mem_filter.1 hother
    obtain ⟨subject, hsubject, part, hpart, hclaim⟩ := (Runs.mem_flatten_mapM hclaims).1 hclaim
    obtain ⟨second, hsecond, part', hpart', hother⟩ := (Runs.mem_flatten_mapM hclaims).1 hother
    refine hone subject hsubject second hsecond claim ?_ other ?_ ((of_decide_eq_true hname).trans (of_decide_eq_true hname').symm)
    · rwa [claimsOf, hpart]
    · rwa [claimsOf, hpart']

def sampleChoosing : Choosing where
  calendar := .ofTable []
  rules := .ofList [("name", .obj [("sources", .arr [.str "sec", .str "gleif"])])]
  defaults := .empty
  overrides := []
  asOf := ""
  authority := ""
  version := none

def sampleClaim (source op : String) : Json :=
  .obj [("source_code", .str source), ("op", .str op), ("record_key", .str "1"), ("assertion_id", .str source)]

def sampleRecords : IndexMap String Object :=
  .ofList [("a", .ofList [("fields", .obj [("name", sampleClaim "gleif" "clear")])]),
    ("b", .ofList [("fields", .obj [("name", sampleClaim "sec" "value")])])]

theorem chooseValues_perm_swapped : ∃ fields reviews reviews', reviews ≠ [] ∧
    chooseValues sampleChoosing ["a", "b"] sampleRecords = .ok (fields, reviews) ∧
    chooseValues sampleChoosing ["b", "a"] sampleRecords = .ok (fields, reviews') ∧ reviews.Perm reviews' := by
  obtain ⟨⟨fields, reviews⟩, h, hsome⟩ : ∃ chosen, chooseValues sampleChoosing ["a", "b"] sampleRecords = .ok chosen ∧
      chosen.2 ≠ [] := by decide +kernel
  obtain ⟨reviews', hothers, hperm⟩ := chooseValues_perm sampleChoosing (List.Perm.swap "b" "a" [])
    (by unfold AssertedOnce SameAssertion; decide +kernel) h
  exact ⟨fields, reviews, reviews', hsome, h, hothers, hperm⟩

end EdgarPlatform.MasterRecords
