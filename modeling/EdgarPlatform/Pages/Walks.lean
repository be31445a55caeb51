import EdgarPlatform.Formats.Trees
import EdgarPlatform.Library.Digits

/-!
# Pages as people read them

A page is a tree of elements and texts. One walk in page order cuts it into text blocks and table rows, each with its place in the page. The walk keeps the rows and cells it is in on stacks of their own, innermost first, and puts text into the innermost cell or, outside every cell, into the block it is collecting.
-/

namespace EdgarPlatform.Pages

open Formats (isBlank trimText El)

abbrev Text := List Char

inductive Node where
  | document (children : List Node)
  | element (tag : String) (attrs : List (String × String)) (children : List Node)
  | text (contents : Text)
  /-- A comment, a doctype or a processing instruction. -/
  | other

structure Rejected where
  code : String
  message : String
  deriving DecidableEq

def maxBlock : Nat := 1024 * 1024

def blockTags : List String :=
  ["address", "article", "aside", "blockquote", "body", "br", "caption", "center", "dd", "div", "dl", "dt",
    "figcaption", "figure", "footer", "form", "h1", "h2", "h3", "h4", "h5", "h6", "header", "hr", "li",
    "main", "nav", "ol", "p", "pre", "section", "ul"]

def hiddenTags : List String := ["script", "style", "noscript", "template", "svg", "math", "head"]

def words : Text → List Text
  | [] => [[]]
  | c :: rest =>
      if isBlank c then [] :: words rest
      else
        match words rest with
        | [] => [[c]]
        | word :: more => (c :: word) :: more

/-- A text with every run of blanks made one space and none at its ends. -/
def clean (text : Text) : Text := [' '].intercalate ((words text).filter fun word => word ≠ [])

def blankLineParts : Text → List Text
  | '\n' :: '\n' :: rest => [] :: blankLineParts rest
  | c :: rest =>
      match blankLineParts rest with
      | [] => [[c]]
      | part :: more => (c :: part) :: more
  | [] => [[]]

def byteLength (text : Text) : Nat := (text.map Char.utf8Size).sum

/-- A kept block or row: its place in the page, its table and its number there if it is a row, and its texts. A block has one text. -/
structure Record where
  place : Nat
  table : Option (Nat × Nat)
  texts : List Text
  deriving DecidableEq

/-- A row being read: its place, its table's number and its cells so far. -/
structure OpenRow where
  place : Nat
  table : Nat
  cells : List Text

structure Walk where
  records : List Record
  text : Text
  tables : Nat
  rows : List OpenRow
  /-- Each open table: its number and the rows kept so far. -/
  opened : List (Nat × Nat)
  cells : List Text
  places : Nat

def Walk.start : Walk := ⟨[], [], 0, [], [], [], 0⟩

def unreachable : Rejected := ⟨"panic", "a stack is empty"⟩

def keep (maxRecords : Nat) (record : Record) (s : Walk) : Except Rejected Walk :=
  if s.records.length = maxRecords then .error ⟨"limit_exceeded", s!"more than {maxRecords} records"⟩
  else .ok { s with records := s.records ++ [record] }

/-- The end of a block of text, which takes the next place unless it is blank. -/
def flush (maxRecords : Nat) (s : Walk) : Except Rejected Walk :=
  let text := clean s.text
  let size := byteLength text
  if maxBlock < size then .error ⟨"limit_exceeded", s!"a block of {size} bytes is over {maxBlock}"⟩
  else if text = [] then .ok { s with text := [] }
  else keep maxRecords ⟨s.places + 1, none, [text]⟩ { s with text := [], places := s.places + 1 }

/-- Text goes to the innermost open cell, else to the current block. -/
def push (text : Text) (s : Walk) : Walk :=
  match s.cells with
  | [] => { s with text := s.text ++ text }
  | cell :: outer => { s with cells := (cell ++ text) :: outer }

/-- A block element ends a block of text, or puts a space inside a cell. -/
def separate (maxRecords : Nat) (s : Walk) : Except Rejected Walk := if s.cells = [] then flush maxRecords s else .ok (push [' '] s)

def pushParts (maxRecords : Nat) : List Text → Walk → Except Rejected Walk
  | [], s => .ok s
  | [part], s => .ok (push part s)
  | part :: next :: rest, s => do
      let s ← separate maxRecords (push part s)
      pushParts maxRecords (next :: rest) s

def pushText (maxRecords : Nat) (plain : Bool) (contents : Text) (s : Walk) : Except Rejected Walk :=
  if plain then pushParts maxRecords (blankLineParts contents) s else .ok (push contents s)

def flushOutside (maxRecords : Nat) (s : Walk) : Except Rejected Walk := if s.cells = [] then flush maxRecords s else .ok s

def openTable (maxRecords : Nat) (s : Walk) : Except Rejected Walk := do
  let s ← flushOutside maxRecords s
  return { s with tables := s.tables + 1, opened := (s.tables + 1, 0) :: s.opened }

def closeTable (s : Walk) : Walk := { s with opened := s.opened.tail }

def openRow (s : Walk) : Walk :=
  { s with places := s.places + 1, rows := ⟨s.places + 1, (s.opened.head?.map Prod.fst).getD 0, []⟩ :: s.rows }

/-- A row is kept unless all its cells are empty. Its number is one more than that of the row kept before it in the innermost table. -/
def closeRow (maxRecords : Nat) (s : Walk) : Except Rejected Walk :=
  match s.rows with
  | [] => .error unreachable
  | row :: rows =>
      if row.cells.any fun cell => cell ≠ [] then
        match s.opened with
        | [] => .error unreachable
        | (table, count) :: opened =>
            keep maxRecords ⟨row.place, some (row.table, count + 1), row.cells⟩
              { s with rows := rows, opened := (table, count + 1) :: opened }
      else .ok { s with rows := rows }

def openCell (s : Walk) : Walk := { s with cells := [] :: s.cells }

/-- A whole number as it is read of an attribute: digits, after a plus or not, within 64 bits. -/
def readNumber (text : Text) : Option Nat :=
  let digits := if text.head? = some '+' then text.tail else text
  if digits ≠ [] ∧ digits.all Char.isDigit ∧ Digits.value digits < 2 ^ 64 then some (Digits.value digits) else none

def spanOf (attrs : List (String × String)) : Nat :=
  let read := (attrs.find? fun attr => attr.1 = "colspan").bind fun attr => readNumber (trimText attr.2.toList)
  max 1 (min (read.getD 1) 1000)

def closeCell (attrs : List (String × String)) (s : Walk) : Except Rejected Walk :=
  match s.cells, s.rows with
  | cell :: cells, row :: rows =>
      .ok { s with
        cells := cells
        rows := { row with cells := row.cells ++ clean cell :: List.replicate (spanOf attrs - 1) [] } :: rows }
  | _, _ => .error unreachable

mutual

def walk (maxRecords : Nat) (node : Node) (plain : Bool) (s : Walk) : Except Rejected Walk :=
  match node with
  | .text contents => pushText maxRecords plain contents s
  | .element tag attrs children =>
      if tag ∈ hiddenTags then .ok s
      else if tag = "table" then do
        let s ← openTable maxRecords s
        let s ← walkAll maxRecords children plain s
        return closeTable s
      else if tag = "tr" ∧ s.opened ≠ [] then do
        let s ← walkAll maxRecords children plain (openRow s)
        closeRow maxRecords s
      else if (tag = "td" ∨ tag = "th") ∧ s.rows ≠ [] then do
        let s ← walkAll maxRecords children plain (openCell s)
        closeCell attrs s
      else if tag ∈ blockTags then do
        let s ← separate maxRecords s
        let s ← walkAll maxRecords children (plain || tag = "pre") s
        separate maxRecords s
      else walkAll maxRecords children plain s
  | .document children => walkAll maxRecords children plain s
  | .other => .ok s
termination_by structural node

def walkAll (maxRecords : Nat) (nodes : List Node) (plain : Bool) (s : Walk) : Except Rejected Walk :=
  match nodes with
  | [] => .ok s
  | node :: rest => do
      let s ← walk maxRecords node plain s
      walkAll maxRecords rest plain s
termination_by structural nodes

end

def Node.hasTag (tag : String) : Node → Bool
  | .element found _ _ => found = tag
  | _ => false

mutual

def find (tag : String) (node : Node) : Option Node :=
  if node.hasTag tag then some node
  else
    match node with
    | .document children => findAll tag children
    | .element _ _ children => findAll tag children
    | _ => none
termination_by structural node

def findAll (tag : String) (nodes : List Node) : Option Node :=
  match nodes with
  | [] => none
  | node :: rest => (find tag node).or (findAll tag rest)
termination_by structural nodes

end

mutual

def textOf (node : Node) : Text :=
  match node with
  | .text contents => contents
  | .document children => textOfAll children
  | .element _ _ children => textOfAll children
  | .other => []
termination_by structural node

def textOfAll (nodes : List Node) : Text :=
  match nodes with
  | [] => []
  | node :: rest => textOf node ++ textOfAll rest
termination_by structural nodes

end

def isPlain : Node → Bool
  | .element _ _ children | .document children =>
      !children.any fun child => match child with
        | .element .. => true
        | _ => false
  | _ => true

def recordsOf (maxRecords : Nat) (dom : Node) : Except Rejected (List Record) :=
  match find "body" dom with
  | none => .ok []
  | some body => do
      let s ← walk maxRecords body (isPlain body) Walk.start
      let s ← flush maxRecords s
      return s.records

def titleOf (dom : Node) : Option Text :=
  match (find "head" dom).bind (find "title") with
  | none => none
  | some title => if clean (textOf title) = [] then none else some (clean (textOf title))

/-! ### The document of a page

The records in the order of their places, as the one tree every reader builds: a block with its text, a row with its cells and with what stands near its table.
-/

open Formats (El)

/-- A row names the text blocks just above its table, at most this many. -/
def aboveCount : Nat := 3

def maxAbove : Nat := 300

def tail (text : Text) (maximum : Nat) : Text :=
  match text with
  | [] => []
  | c :: rest => if byteLength (c :: rest) ≤ maximum then c :: rest else tail rest maximum

def plainElement (text : Option Text) : El := { text := text.map String.ofList }

def El.withAttr (el : El) (name : String) (value : String) : El := { el with attrs := el.attrs.insert ("@" ++ name) value }

def element (text : Option Text) (attrs : List (String × Nat)) : El :=
  attrs.foldl (fun el attr => El.withAttr el attr.1 (toString attr.2)) (plainElement text)

def joinCells (texts : List Text) : Text := [' ', '|', ' '].intercalate (texts.filter fun cell => cell ≠ [])

/-- The first two rows of every table, whose cells hold the column headings. -/
def headings (records : List Record) : IndexMap Nat (Text × Text) :=
  records.foldl (fun heads record =>
    match record.table with
    | some (table, 1) => heads.insert table (tail (joinCells record.texts) maxAbove, ((heads.get? table).getD ([], [])).2)
    | some (table, 2) => heads.insert table (((heads.get? table).getD ([], [])).1, tail (joinCells record.texts) maxAbove)
    | _ => heads) .empty

structure Rendering where
  /-- The blocks since the last table, oldest first. -/
  above : List Text
  /-- The last table, and the blocks above it. -/
  shown : Nat × List Text
  document : El

def addHeading (el : El) (name : String) (text : Text) : El := if text = [] then el else El.withAttr el name (String.ofList text)

def rowElement (heads : IndexMap Nat (Text × Text)) (shown : List Text) (record : Record) (table number : Nat) : El :=
  let row := element none [("at", record.place), ("table", table), ("row", number)]
  let row := (["above", "above2", "above3"].zip shown.reverse).foldl (fun row named => El.withAttr row named.1 (String.ofList named.2)) row
  let row :=
    match heads.get? table with
    | none => row
    | some (first, second) => addHeading (addHeading row "head" first) "head2" second
  let row := El.withAttr row "cells" (String.ofList (joinCells record.texts))
  record.texts.zipIdx.foldl (fun row cell => row.addChild ("c" ++ toString (cell.2 + 1)) (plainElement (some cell.1))) row

def addRecord (heads : IndexMap Nat (Text × Text)) (s : Rendering) (record : Record) : Rendering :=
  match record.table with
  | none =>
      let text := record.texts.headD []
      let above := s.above ++ [tail text maxAbove]
      { s with
        above := if aboveCount < above.length then above.tail else above
        document := s.document.addChild "block" (element (some text) [("at", record.place)]) }
  | some (table, number) =>
      let s := if s.shown.1 = table then s else { s with shown := (table, s.above), above := [] }
      { s with document := s.document.addChild "row" (rowElement heads s.shown.2 record table number) }

/-- The document of a title and of records in the order of their places. -/
def documentOf (title : Option Text) (records : List Record) : El :=
  let document : El := {}
  let document := match title with
    | none => document
    | some title => document.addChild "title" (plainElement (some title))
  (records.foldl (addRecord (headings records)) ⟨[], (0, []), document⟩).document

def sortRecords (records : List Record) : List Record := Sorting.sortByKey Record.place records

def html (maxRecords : Nat) (dom : Node) : Except Rejected El := do
  let records ← recordsOf maxRecords dom
  return documentOf (titleOf dom) (sortRecords records)

/-! ### What a walk puts where

The visible text of a page and the openings of its rows, in page order, are its tokens. An event is a token with the place it was given: a character with the block or the cell it stands in, a row with its place. The events of a walk account for all it has kept and all it still holds.
-/

open Formats (isBlank)

def visible (text : Text) : Text := text.filter fun c => !isBlank c

inductive Token where
  | char (c : Char)
  | row
  deriving DecidableEq

mutual

/-- The characters of visible text that are no blanks, and the openings of rows, in page order. -/
def tokens (node : Node) : List Token :=
  match node with
  | .text contents => (visible contents).map .char
  | .element tag _ children =>
      if tag ∈ hiddenTags then []
      else if tag = "tr" then .row :: tokensAll children
      else tokensAll children
  | .document children => tokensAll children
  | .other => []
termination_by structural node

def tokensAll (nodes : List Node) : List Token :=
  match nodes with
  | [] => []
  | node :: rest => tokens node ++ tokensAll rest
termination_by structural nodes

end

def Token.char? : Token → Option Char
  | .char c => some c
  | .row => none

def visibleText (node : Node) : Text := (tokens node).filterMap Token.char?

/-- Where a node stands: among text, in a table outside its captions and rows, or in a row outside its cells. -/
inductive Context where
  | flow
  | table
  | row
  deriving DecidableEq

/-- Where the children of an element stand. Rows stand in tables and cells in rows. -/
def Context.inside (context : Context) (tag : String) : Option Context :=
  if tag = "table" then some .table
  else if tag = "tr" then if context = .table then some .row else none
  else if tag = "td" ∨ tag = "th" then if context = .row then some .flow else none
  else if tag = "caption" then some .flow
  else some context

mutual

/-- The shape of the trees a parser builds: text under a table is in a caption or a cell, cells are in rows and rows in tables. -/
def shaped (context : Context) (node : Node) : Bool :=
  match node with
  | .text contents => decide (context = .flow ∨ visible contents = [])
  | .element tag _ children =>
      if tag ∈ hiddenTags then true
      else
        match context.inside tag with
        | none => false
        | some inner => shapedAll inner children
  | .document children => shapedAll context children
  | .other => true
termination_by structural node

def shapedAll (context : Context) (nodes : List Node) : Bool :=
  match nodes with
  | [] => true
  | node :: rest => shaped context node && shapedAll context rest
termination_by structural nodes

end

/-- A block, or a cell of a row, by places. -/
inductive Slot where
  | block (place : Nat)
  | cell (place column : Nat)
  deriving DecidableEq

inductive Event where
  | char (c : Char) (slot : Slot)
  | row (place : Nat)
  deriving DecidableEq

def Event.token : Event → Token
  | .char c _ => .char c
  | .row _ => .row

def Event.charIn (slot : Slot) : Event → Option Char
  | .char c found => if found = slot then some c else none
  | .row _ => none

/-- The place an event begins or belongs to: a character's block, or an opened row. -/
def Event.start : Event → Option Nat
  | .char _ (.block place) => some place
  | .char _ (.cell _ _) => none
  | .row place => some place

def Event.opening : Event → Option Nat
  | .char _ _ => none
  | .row place => some place

def charsIn (log : List Event) (slot : Slot) : Text := log.filterMap (Event.charIn slot)

def Record.slot (record : Record) (column : Nat) : Slot := if record.table = none then .block record.place else .cell record.place column

/-- The texts of a record have the characters given to their slots. A block has one text. -/
structure Record.Holds (record : Record) (log : List Event) : Prop where
  single : record.table = none → record.texts.length = 1
  texts : ∀ column text, record.texts[column]? = some text → visible text = charsIn log (record.slot column)

def Record.Has (record : Record) (slot : Slot) : Prop := ∃ column, column < record.texts.length ∧ slot = record.slot column

/-- The events come in the order of their places: a block's characters and a row's opening at or after those before them, and every opening after the openings before it. A cell's characters come after its row opens. -/
structure Ordered (log : List Event) : Prop where
  starts : (log.filterMap Event.start).Pairwise (· ≤ ·)
  openings : (log.filterMap Event.opening).Pairwise (· < ·)
  preceded : ∀ front c place column back, log = front ++ .char c (.cell place column) :: back → .row place ∈ front

theorem visible_append (a b : Text) : visible (a ++ b) = visible a ++ visible b := List.filter_append ..

theorem words_ne_nil (text : Text) : words text ≠ [] := by
  cases text with
  | nil => exact List.cons_ne_nil _ _
  | cons c rest =>
      rw [words]
      split_ifs
      · exact List.cons_ne_nil _ _
      · split <;> exact List.cons_ne_nil _ _

theorem flatten_words (text : Text) : (words text).flatten = visible text := by
  induction text with
  | nil => rfl
  | cons c rest ih =>
      rw [words, visible, List.filter_cons]
      by_cases hblank : isBlank c = true
      · rw [if_pos hblank, if_neg (by simp [hblank])]
        exact ih
      · rw [if_neg hblank, if_pos (by simp [hblank])]
        show _ = c :: visible rest
        rw [← ih]
        cases hwords : words rest with
        | nil => exact absurd hwords (words_ne_nil rest)
        | cons word more => rfl

theorem visible_intercalate (texts : List Text) : visible ([' '].intercalate texts) = visible texts.flatten := by
  induction texts with
  | nil => rfl
  | cons text rest ih =>
      cases rest with
      | nil => rw [List.intercalate_singleton, List.flatten_singleton]
      | cons next rest =>
          have hspace : visible [' '] = [] := rfl
          rw [List.intercalate_cons_cons, visible_append, visible_append, ih, List.flatten_cons (l := text), visible_append, hspace,
            List.append_nil]

theorem visible_visible (text : Text) : visible (visible text) = visible text := by
  rw [visible, visible, List.filter_filter]
  apply List.filter_congr
  intro c _
  rw [Bool.and_self]

theorem visible_clean (text : Text) : visible (clean text) = visible text := by
  rw [clean, visible_intercalate, List.flatten_filter_ne_nil, flatten_words, visible_visible]

theorem visible_cons (c : Char) (text : Text) : visible (c :: text) = visible [c] ++ visible text := visible_append [c] text

theorem visible_blankLineParts (text : Text) : visible (blankLineParts text).flatten = visible text := by
  fun_induction blankLineParts text with
  | case1 rest ih =>
      rw [List.flatten_cons, List.nil_append, ih]
      rfl
  | case2 c rest _ hparts ih =>
      rw [hparts] at ih
      rw [visible_cons c rest, ← ih]
      exact (List.append_nil _).symm
  | case3 c rest _ part more hparts ih =>
      rw [hparts] at ih
      rw [visible_cons c rest, ← ih, ← visible_append]
      rfl
  | case4 => rfl

def inSlot (text : Text) (slot : Slot) : List Event := (visible text).map fun c => .char c slot

theorem charsIn_append (log more : List Event) (slot : Slot) : charsIn (log ++ more) slot = charsIn log slot ++ charsIn more slot :=
  List.filterMap_append

theorem charsIn_inSlot (text : Text) (slot other : Slot) : charsIn (inSlot text slot) other = if slot = other then visible text else [] := by
  rw [charsIn, inSlot, List.filterMap_map]
  split_ifs with hslot
  · subst hslot
    have hsome : Event.charIn slot ∘ (fun c => Event.char c slot) = some := funext fun c => if_pos rfl
    rw [hsome, List.filterMap_some]
  · rw [List.filterMap_eq_nil_iff]
    exact fun c _ => if_neg hslot

theorem charsIn_row (log : List Event) (place : Nat) (slot : Slot) : charsIn (log ++ [.row place]) slot = charsIn log slot := by
  rw [charsIn_append]
  exact List.append_nil _

theorem token_inSlot (text : Text) (slot : Slot) : (inSlot text slot).map Event.token = (visible text).map .char := by
  rw [inSlot, List.map_map]
  rfl

end EdgarPlatform.Pages
