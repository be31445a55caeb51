import EdgarPlatform.Records.Values
import Mathlib.Data.List.DropRight
import Mathlib.Data.List.Infix

/-!
# Words of a search

A text is cut into words, and a search into groups of terms. A name is accepted by a search when some group has every one of its terms in the name, and none of those it excludes. What counts as a letter, as a blank and as the small form of a text is Unicode's; nothing here rests on more than that both sides ask the same tables.
-/

namespace EdgarPlatform.Search

/-- The Unicode tables and the digest a search is prepared with. -/
structure Tables where
  isAlphanumeric : Char → Bool
  isWhitespace : Char → Bool
  toLowercase : String → String
  lowercase_empty : toLowercase "" = ""
  /-- The digest of a text, in hexadecimal digits. -/
  digest : String → String

section Windows

variable {α : Type}

def windows (n : Nat) : List α → List (List α)
  | [] => []
  | a :: rest => if n ≤ (a :: rest).length then (a :: rest).take n :: windows n rest else []

theorem mem_windows {n : Nat} (hn : 0 < n) {part whole : List α} :
    part ∈ windows n whole ↔ part.length = n ∧ part <:+: whole := by
  induction whole with
  | nil =>
      simp only [windows, List.not_mem_nil, List.infix_nil, false_iff, not_and]
      rintro hlength rfl
      rw [List.length_nil] at hlength
      omega
  | cons a rest ih =>
      rw [windows]
      split_ifs with hlong
      · rw [List.mem_cons, ih, List.infix_cons_iff]
        constructor
        · rintro (rfl | ⟨hlength, hinfix⟩)
          · refine ⟨?_, Or.inl (List.take_prefix _ _)⟩
            rw [List.length_take]
            omega
          · exact ⟨hlength, Or.inr hinfix⟩
        · rintro ⟨hlength, hprefix | hinfix⟩
          · left
            rw [← hlength]
            exact List.prefix_iff_eq_take.1 hprefix
          · exact Or.inr ⟨hlength, hinfix⟩
      · simp only [List.not_mem_nil, false_iff, not_and]
        intro hlength hinfix
        have := hinfix.length_le
        omega

theorem windows_subset_of_infix {part whole : List α} (h : part <:+: whole) {n : Nat} (hn : 0 < n) :
    windows n part ⊆ windows n whole := by
  intro window hwindow
  rw [mem_windows hn] at hwindow ⊢
  exact ⟨hwindow.1, hwindow.2.trans h⟩

end Windows

variable (tables : Tables)

def isWordChar (c : Char) : Bool :=
  tables.isAlphanumeric c || c = '-' || c = '.' || c = '@' || c = '/'

/-- A text without the characters at its two ends that are to be taken off. -/
def trimMatches (remove : Char → Bool) (value : List Char) : List Char := (value.dropWhile remove).rdropWhile remove

def splitParts (token : String) : List String :=
  ((token.toList.splitOnP (· = '-')).filter (· ≠ [])).map String.ofList

def containsAny (value : String) (wanted : List Char) : Bool := value.toList.any (· ∈ wanted)

/-- The words one token stands for: a dotted token is one word, a compound is a word beside its parts. -/
def tokenLexemes (token : String) : List String :=
  if token = "" then []
  else if containsAny token ['.', '@', '/'] then [token]
  else if ['-', '-'] <:+: token.toList then splitParts token
  else if '-' ∈ token.toList then token :: splitParts token
  else [token]

def lexemes (value : String) : List String :=
  (value.toList.splitOnP fun c => !isWordChar tables c).flatMap fun token =>
    tokenLexemes (tables.toLowercase (String.ofList (trimMatches (fun c => c = '-' || c = '.') token)))

/-- Tables for texts of ASCII characters, under which a text is its own digest. -/
def asciiTables : Tables where
  isAlphanumeric := Char.isAlphanum
  isWhitespace := Char.isWhitespace
  toLowercase value := String.ofList (value.toList.map Char.toLower)
  lowercase_empty := rfl
  digest := id

example : lexemes asciiTables "A The %_a.b@c/d x-y" = ["a", "the", "a.b@c/d", "x-y", "x", "y"] := by decide +kernel

/-- What the scan of a search holds: the terms read, the one being read, and whether a quotation is open. -/
structure Scan where
  terms : List String := []
  token : String := ""
  quoted : Bool := false

def Scan.close (scan : Scan) : List String := if scan.token = "" then scan.terms else scan.terms ++ [scan.token]

def Scan.read (scan : Scan) (c : Char) : Scan :=
  if c = '"' then { scan with quoted := !scan.quoted, token := scan.token.push c }
  else if tables.isWhitespace c && !scan.quoted then { scan with terms := scan.close, token := "" }
  else { scan with token := scan.token.push c }

def readTerms (words : String) : List String := (words.toList.foldl (Scan.read tables) {}).close

/-- Each term with whether a term follows it. A sign that stands alone is read with the term after it. -/
def joinSigns : List String → List (String × Bool)
  | [] => []
  | [term] => [(term, false)]
  | term :: following :: rest =>
      if term = "-" then (term ++ following, true) :: joinSigns rest
      else (term, true) :: joinSigns (following :: rest)

/-- The groups closed so far and the one being filled. -/
structure Groups where
  closed : List (List String) := []
  last : List String := []

def isOr (term : String) : Bool := String.ofList (term.toList.map Char.toLower) = "or"

def Groups.add (groups : Groups) (entry : String × Bool) : Groups :=
  if isOr entry.1 ∧ entry.2 ∧ groups.last ≠ [] then { closed := groups.closed ++ [groups.last], last := [] }
  else if lexemes tables entry.1 ≠ [] then { groups with last := groups.last ++ [entry.1] }
  else groups

def queryGroups (words : String) : List (List String) :=
  let groups := (joinSigns (readTerms tables words)).foldl (Groups.add tables) {}
  (groups.closed ++ [groups.last]).filter (· ≠ [])

def isNegative (term : String) : Bool := term.toList.head? = some '-'

def trimSigns (term : String) : String := String.ofList (term.toList.dropWhile (· = '-'))

/-- A term of several words is a phrase when it is quoted or holds none of the operators. -/
def isPhrase (term : String) (terms : List String) : Bool :=
  term.toList.head? = some '"' || (1 < terms.length && !containsAny term [':', '!', '&'])

def termMatches (tokens : List String) (term : String) : Bool :=
  let terms := lexemes tables (trimSigns term)
  if terms = [] then false
  else
    let found :=
      if isPhrase (trimSigns term) terms then decide (terms ∈ windows terms.length tokens)
      else terms.all fun word => decide (word ∈ tokens)
    found != isNegative term

def referenceQueryMatches (words label : String) : Bool :=
  (queryGroups tables words).any fun group => group.all (termMatches tables (lexemes tables label))

example : queryGroups asciiTables "the OR -\"the snow\" storm" = [["the"], ["-\"the snow\"", "storm"]] := by
  decide +kernel

theorem trimSigns_of_not_negative {term : String} (h : isNegative term = false) : trimSigns term = term := by
  have hkeep : term.toList.dropWhile (· = '-') = term.toList := by
    cases hterm : term.toList with
    | nil => rfl
    | cons c rest =>
        have hne : c ≠ '-' := by
          intro hc
          simp [isNegative, hterm, hc] at h
        simp [hne]
  rw [trimSigns, hkeep, String.ofList_toList]

theorem lexemes_subset_of_termMatches {tokens : List String} {term : String}
    (h : termMatches tables tokens term = true) (hpositive : isNegative term = false) :
    lexemes tables term ⊆ tokens := by
  simp only [termMatches, trimSigns_of_not_negative hpositive, hpositive, Bool.bne_false] at h
  split_ifs at h with hempty hphrase
  · have hpos : 0 < (lexemes tables term).length := List.length_pos_of_ne_nil hempty
    exact ((mem_windows hpos).1 (of_decide_eq_true h)).2.subset
  · intro word hword
    exact of_decide_eq_true (List.all_eq_true.1 h word hword)

/-! ### The index a search probes

A name is stored under a token for each of its words and for each of its fragments, runs of up to three characters. A search is compiled to the tokens a name must be stored under, and only the names found there are put to the tests. So a name that passes a test must be stored under what its search was compiled to.
-/

open Records (Json Object)

variable (tables : Tables)

def searchToken (term : String) : String := tables.digest term

def fragmentToken (n : Nat) (part : List Char) : String :=
  searchToken tables ("fragment/" ++ toString n ++ "/" ++ String.ofList part)

/-- The widths of the fragments of a text: the widest there is, or all up to it. -/
def fragmentWidths (width : Nat) (allWidths : Bool) : List Nat :=
  (if allWidths then List.range' 1 width else [width]).filter (0 < ·)

def fragments (value : String) (allWidths : Bool) : List String :=
  let characters := (tables.toLowercase value).toList
  Sorting.distinct ((fragmentWidths (min characters.length 3) allWidths).flatMap fun n =>
    (windows n characters).map (fragmentToken tables n))

def invalidControlValue {α : Type} : Except String α := .error "Invalid control value"

def nameOf (stored : Object) (field : String) : Except String (Option String) :=
  match stored.get? field with
  | none => .ok none
  | some (.obj cell) =>
      match (IndexMap.ofList cell).get? "value" with
      | none => .ok none
      | some .null => .ok none
      | some (.str value) => .ok (if value = "" then none else some value)
      | some _ => .error "Search name must be text"
  | some _ => invalidControlValue

/-- The first name the fields give, in the order they are asked. -/
def firstName (stored : Object) : List String → Except String (Option String)
  | [] => .ok none
  | field :: rest =>
      match nameOf stored field with
      | .error e => .error e
      | .ok (some value) => .ok (some value)
      | .ok none => firstName stored rest

def selectedName (body : Object) (fields : List String) : Except String (Option String) :=
  match body.get? "fields" with
  | none => firstName .empty fields
  | some (.obj stored) => firstName (.ofList stored) fields
  | some _ => invalidControlValue

/-- What a name is stored under. -/
structure NameIndex where
  name : Option String
  words : List String
  fragments : List String
  deriving DecidableEq

def indexName (name : Option String) : NameIndex where
  name := name
  words := Sorting.distinct (((name.map (lexemes tables)).getD []).map (searchToken tables))
  fragments := fragments tables (name.getD "") true

/-- The operation `index`, for a record and the fields its name may stand in. -/
def prepareIndex (fields : List String) (body : Object) : Except String NameIndex :=
  if fields = [] ∨ fields.any (fun name => name.toList.all tables.isWhitespace) then
    .error "Search needs configured name fields"
  else
    (selectedName body fields).map (indexName tables)

/-- What a search looks up: the tokens of each alternative and of its fragments, and whether the words leave every name to be looked at. -/
structure Query where
  alternatives : List (List String)
  scope : Bool
  fragments : List String
  deriving DecidableEq

def positiveLexemes (group : List String) : List String :=
  (group.filter fun term => !isNegative term).flatMap (lexemes tables)

def prepareQuery (words : String) : Query :=
  let alternatives := (queryGroups tables words).map fun group =>
    Sorting.distinct ((positiveLexemes tables group).map (searchToken tables))
  { alternatives
    scope := alternatives.any fun alternative => alternative = []
    fragments := fragments tables words false }

def encodeReferenceSearch (label : String) : String :=
  " ".intercalate ((lexemes tables label).map (searchToken tables))

/-- The words each alternative of a compiled reference search requires. -/
def requiredTerms (words : String) : List (List String) :=
  (queryGroups tables words).map fun group => Sorting.distinct (positiveLexemes tables group)

def writeRequired (terms : List String) : String :=
  "(" ++ " ".intercalate (terms.map fun term => "+" ++ searchToken tables term) ++ ")"

/-- The text of a reference search, empty where an alternative requires no word. -/
def compileReferenceQuery (words : String) : String :=
  if (requiredTerms tables words).any fun terms => terms = [] then ""
  else " ".intercalate ((requiredTerms tables words).map (writeRequired tables))

def containsTest (words name : String) : Bool :=
  decide ((tables.toLowercase words).toList <:+: (tables.toLowercase name).toList)

inductive MatchedBy where
  | words
  | contains
  deriving DecidableEq

/-- The test that accepts a candidate: the words are asked first. -/
def matchedBy (words : String) (name : Option String) : Option MatchedBy :=
  if referenceQueryMatches tables words (name.getD "") then some .words
  else if containsTest tables words (name.getD "") then some .contains
  else none

theorem mem_fragmentWidths {width n : Nat} {allWidths : Bool} :
    n ∈ fragmentWidths width allWidths ↔ 0 < n ∧ n ≤ width ∧ (allWidths = true ∨ n = width) := by
  cases allWidths <;> simp [fragmentWidths, List.mem_range'_1] <;> omega

theorem mem_fragments {value : String} {allWidths : Bool} {token : String} :
    token ∈ fragments tables value allWidths ↔
      ∃ n ∈ fragmentWidths (min (tables.toLowercase value).toList.length 3) allWidths,
        ∃ part ∈ windows n (tables.toLowercase value).toList, fragmentToken tables n part = token := by
  simp only [fragments, Sorting.mem_distinct, List.mem_flatMap, List.mem_map]

theorem fragments_subset_of_containsTest {words name : String} (h : containsTest tables words name = true) :
    fragments tables words false ⊆ fragments tables name true := by
  have hinfix := of_decide_eq_true h
  have hlength := hinfix.length_le
  intro token htoken
  rw [mem_fragments] at htoken ⊢
  obtain ⟨n, hn, part, hpart, rfl⟩ := htoken
  rw [mem_fragmentWidths] at hn
  refine ⟨n, mem_fragmentWidths.2 ⟨hn.1, ?_, Or.inl rfl⟩, part, windows_subset_of_infix hinfix hn.1 hpart, rfl⟩
  omega

theorem positiveLexemes_subset {tokens group : List String}
    (h : group.all (termMatches tables tokens) = true) : positiveLexemes tables group ⊆ tokens := by
  intro word hword
  simp only [positiveLexemes, List.mem_flatMap, List.mem_filter, Bool.not_eq_true'] at hword
  obtain ⟨term, ⟨hterm, hpositive⟩, hword⟩ := hword
  exact lexemes_subset_of_termMatches tables (List.all_eq_true.1 h term hterm) hpositive hword

theorem indexName_words (name : Option String) {token : String} :
    token ∈ (indexName tables name).words ↔
      ∃ word ∈ ((name.map (lexemes tables)).getD []), searchToken tables word = token := by
  simp only [indexName, Sorting.mem_distinct, List.mem_map]

theorem lexemes_empty : lexemes tables "" = [] := by
  simp [lexemes, trimMatches, tables.lowercase_empty, tokenLexemes]

theorem lexemes_getD (name : Option String) :
    (name.map (lexemes tables)).getD [] = lexemes tables (name.getD "") := by
  cases name with
  | none => exact (lexemes_empty tables).symm
  | some value => rfl

theorem tokens_subset_of_group {name : Option String} {group : List String}
    (h : group.all (termMatches tables (lexemes tables (name.getD ""))) = true) :
    Sorting.distinct ((positiveLexemes tables group).map (searchToken tables)) ⊆ (indexName tables name).words := by
  intro token htoken
  rw [Sorting.mem_distinct, List.mem_map] at htoken
  obtain ⟨word, hword, rfl⟩ := htoken
  rw [indexName_words, lexemes_getD]
  exact ⟨word, positiveLexemes_subset tables h hword, rfl⟩

theorem alternative_of_match {words : String} {name : Option String}
    (h : referenceQueryMatches tables words (name.getD "") = true) :
    (prepareQuery tables words).scope = true ∨
      ∃ alternative ∈ (prepareQuery tables words).alternatives,
        alternative ≠ [] ∧ alternative ⊆ (indexName tables name).words := by
  obtain ⟨group, hgroup, hall⟩ := List.any_eq_true.1 h
  have hmem : Sorting.distinct ((positiveLexemes tables group).map (searchToken tables)) ∈
      (prepareQuery tables words).alternatives := List.mem_map.2 ⟨group, hgroup, rfl⟩
  by_cases hnone : Sorting.distinct ((positiveLexemes tables group).map (searchToken tables)) = []
  · left
    exact List.any_eq_true.2 ⟨_, hmem, decide_eq_true hnone⟩
  · right
    exact ⟨_, hmem, hnone, tokens_subset_of_group tables hall⟩

theorem required_of_match {words label : String} (h : referenceQueryMatches tables words label = true) :
    compileReferenceQuery tables words = "" ∨
      ∃ terms ∈ requiredTerms tables words, terms ≠ [] ∧ terms ⊆ lexemes tables label := by
  obtain ⟨group, hgroup, hall⟩ := List.any_eq_true.1 h
  have hmem : Sorting.distinct (positiveLexemes tables group) ∈ requiredTerms tables words :=
    List.mem_map.2 ⟨group, hgroup, rfl⟩
  by_cases hnone : Sorting.distinct (positiveLexemes tables group) = []
  · left
    exact if_pos (List.any_eq_true.2 ⟨_, hmem, decide_eq_true hnone⟩)
  · right
    refine ⟨_, hmem, hnone, fun word hword => ?_⟩
    exact positiveLexemes_subset tables hall (Sorting.mem_distinct.1 hword)

/-- What either test accepts is among the names the probe finds. -/
theorem probe_finds_match (words : String) (name : Option String) :
    (referenceQueryMatches tables words (name.getD "") = true →
      ((prepareQuery tables words).scope = true ∨
        ∃ alternative ∈ (prepareQuery tables words).alternatives,
          alternative ≠ [] ∧ alternative ⊆ (indexName tables name).words) ∧
      (compileReferenceQuery tables words = "" ∨
        ∃ terms ∈ requiredTerms tables words, terms ≠ [] ∧ terms ⊆ lexemes tables (name.getD ""))) ∧
    (containsTest tables words (name.getD "") = true →
      (prepareQuery tables words).fragments ⊆ (indexName tables name).fragments) := by
  refine ⟨fun h => ⟨alternative_of_match tables h, required_of_match tables h⟩, fun h => ?_⟩
  exact fragments_subset_of_containsTest tables h

/-- A name the words accept, and one only its letters do. -/
theorem probe_finds_match_snow :
    (∃ alternative ∈ (prepareQuery asciiTables "the -rain OR \"a snow\"").alternatives,
      alternative ≠ [] ∧ alternative ⊆ (indexName asciiTables (some "A snow")).words) ∧
    (prepareQuery asciiTables "sno").fragments ⊆ (indexName asciiTables (some "A snow")).fragments :=
  ⟨((probe_finds_match asciiTables "the -rain OR \"a snow\"" (some "A snow")).1 (by decide +kernel)).1.resolve_left
    (by decide +kernel), (probe_finds_match asciiTables "sno" (some "A snow")).2 (by decide +kernel)⟩

end EdgarPlatform.Search
