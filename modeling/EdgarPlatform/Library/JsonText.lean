import Mathlib.Data.List.Basic
import Mathlib.Data.List.TakeWhile

/-!
# JSON texts

The texts of JSON documents, over lists of characters. A document is read into the tokens it is written with: a number keeps its digits as they stand, a text the escapes it is spelled with, an object every field in the order written. Only the blanks between tokens are lost.

`Reads` is the grammar, as a relation between a text, the document at its front and what is left of it. The parser finds a document exactly where the grammar has one.
-/

namespace JsonText

/-- One piece of the text of a string: a character that stands for itself, an escaped character, or a code unit in hexadecimal digits. -/
inductive Piece where
  | plain (c : Char)
  | escape (c : Char)
  | code (a b c d : Char)
  deriving DecidableEq

def isHex (c : Char) : Bool :=
  c.isDigit || ('a'.toNat ≤ c.toNat && c.toNat ≤ 'f'.toNat) || ('A'.toNat ≤ c.toNat && c.toNat ≤ 'F'.toNat)

namespace Piece

def valid : Piece → Bool
  | .plain c => c ≠ '"' && c ≠ '\\' && 32 ≤ c.toNat
  | .escape c => c ∈ ['"', '\\', '/', 'b', 'f', 'n', 'r', 't']
  | .code a b c d => isHex a && isHex b && isHex c && isHex d

def spell : Piece → List Char
  | .plain c => [c]
  | .escape c => ['\\', c]
  | .code a b c d => ['\\', 'u', a, b, c, d]

end Piece

def keepPiece (piece : Piece) (scanned : Option (List Piece × List Char)) : Option (List Piece × List Char) :=
  if piece.valid then scanned.map fun found => (piece :: found.1, found.2) else none

/-- The pieces of a string up to the quotation mark that closes it, and what follows that. -/
def scanPieces : List Char → Option (List Piece × List Char)
  | [] => none
  | c :: rest =>
      if c = '"' then some ([], rest)
      else if c = '\\' then
        match rest with
        | [] => none
        | e :: rest =>
            if e = 'u' then
              match rest with
              | a :: b :: c :: d :: rest => keepPiece (.code a b c d) (scanPieces rest)
              | _ => none
            else keepPiece (.escape e) (scanPieces rest)
      else keepPiece (.plain c) (scanPieces rest)

def spellPieces (pieces : List Piece) : List Char := pieces.flatMap Piece.spell

theorem keepPiece_eq_some {piece : Piece} {scanned : Option (List Piece × List Char)} {found : List Piece × List Char}
    (h : keepPiece piece scanned = some found) :
    piece.valid = true ∧ ∃ pieces rest, scanned = some (pieces, rest) ∧ found = (piece :: pieces, rest) := by
  rw [keepPiece] at h
  split_ifs at h with hvalid
  obtain ⟨⟨pieces, rest⟩, hscanned, rfl⟩ := Option.map_eq_some_iff.1 h
  exact ⟨hvalid, pieces, rest, hscanned, rfl⟩

variable {s : List Char} {rest : List Char}

theorem scanPieces_sound {pieces : List Piece}
    (h : scanPieces s = some (pieces, rest)) :
    s = spellPieces pieces ++ '"' :: rest ∧ pieces.all Piece.valid = true := by
  fun_induction scanPieces s generalizing pieces rest with
  | case1 => cases h
  | case2 => cases h; simp [spellPieces]
  | case3 => cases h
  | case4 a b c d rest' hne ih =>
      obtain ⟨hvalid, pieces, rest, hscan, heq⟩ := keepPiece_eq_some h
      cases heq
      obtain ⟨rfl, hall⟩ := ih hscan
      simp [spellPieces, Piece.spell, hvalid, hall]
  | case5 => cases h
  | case6 e rest' hne hu ih =>
      obtain ⟨hvalid, pieces, rest, hscan, heq⟩ := keepPiece_eq_some h
      cases heq
      obtain ⟨rfl, hall⟩ := ih hscan
      simp [spellPieces, Piece.spell, hvalid, hall]
  | case7 c rest' hquote hslash ih =>
      obtain ⟨hvalid, pieces, rest, hscan, heq⟩ := keepPiece_eq_some h
      cases heq
      obtain ⟨rfl, hall⟩ := ih hscan
      simp [spellPieces, Piece.spell, hvalid, hall]

theorem scanPieces_quote (rest : List Char) : scanPieces ('"' :: rest) = some ([], rest) := by
  rw [scanPieces.eq_def]
  rfl

theorem scanPieces_piece {piece : Piece} (h : piece.valid = true) (s : List Char) :
    scanPieces (piece.spell ++ s) = keepPiece piece (scanPieces s) := by
  rw [scanPieces.eq_def]
  cases piece with
  | plain c =>
      simp only [Piece.valid, Bool.and_eq_true, decide_eq_true_eq] at h
      simp [Piece.spell, h.1.1, h.1.2]
  | escape c =>
      have hu : c ≠ 'u' := by
        rintro rfl
        exact absurd h (by decide)
      simp [Piece.spell, hu]
  | code a b c d => simp [Piece.spell]

theorem scanPieces_spell {pieces : List Piece} (h : pieces.all Piece.valid = true) (rest : List Char) :
    scanPieces (spellPieces pieces ++ '"' :: rest) = some (pieces, rest) := by
  induction pieces with
  | nil => exact scanPieces_quote rest
  | cons piece pieces ih =>
      rw [List.all_cons, Bool.and_eq_true] at h
      have hsplit : spellPieces (piece :: pieces) ++ '"' :: rest = piece.spell ++ (spellPieces pieces ++ '"' :: rest) := by
        rw [spellPieces, List.flatMap_cons, List.append_assoc]
        rfl
      rw [hsplit, scanPieces_piece h.1, ih h.2, keepPiece, if_pos h.1]
      rfl

def isBlank (c : Char) : Bool := c = ' ' || c = '\n' || c = '\t' || c = '\r'

def isStructural (c : Char) : Bool :=
  isBlank c || c = ',' || c = ':' || c = '[' || c = ']' || c = '\x7b' || c = '\x7d' || c = '"'

def isDigits (s : List Char) : Bool := s ≠ [] && s.all Char.isDigit

def isExponent : List Char → Bool
  | [] => true
  | e :: rest =>
      (e = 'e' || e = 'E') &&
        match rest with
        | [] => false
        | sign :: digits => if sign = '+' || sign = '-' then isDigits digits else isDigits rest

def isFraction : List Char → Bool
  | [] => true
  | dot :: rest =>
      if dot = '.' then rest.takeWhile Char.isDigit ≠ [] && isExponent (rest.dropWhile Char.isDigit)
      else isExponent (dot :: rest)

/-- The digits before the point: a zero, or digits that do not begin with one. -/
def isWhole (digits : List Char) : Bool := digits = ['0'] || (digits ≠ [] && digits.head? ≠ some '0')

def isUnsigned (s : List Char) : Bool :=
  isWhole (s.takeWhile Char.isDigit) && isFraction (s.dropWhile Char.isDigit)

def isNumber : List Char → Bool
  | [] => false
  | c :: rest => if c = '-' then isUnsigned rest else isUnsigned (c :: rest)

def isName (token : List Char) : Bool :=
  token = ['n', 'u', 'l', 'l'] || token = ['t', 'r', 'u', 'e'] || token = ['f', 'a', 'l', 's', 'e']

def isPlain (token : List Char) : Bool := isName token || isNumber token

def Ends (rest : List Char) : Prop := ∀ c tail, rest = c :: tail → isStructural c = true

theorem ends_nil : Ends [] := fun _ _ h => nomatch h

variable {c : Char}

theorem ends_cons {tail : List Char} (h : isStructural c = true) : Ends (c :: tail) := by
  intro d tail' heq
  cases heq
  exact h

theorem not_structural_of_isDigit (h : c.isDigit = true) : isStructural c = false := by
  have hne : ∀ d : Char, d.isDigit = false → c ≠ d := by
    rintro d hd rfl
    rw [h] at hd
    cases hd
  simp only [isStructural, isBlank, Bool.or_eq_false_iff, decide_eq_false_iff_not]
  refine ⟨⟨⟨⟨⟨⟨⟨⟨⟨⟨?_, ?_⟩, ?_⟩, ?_⟩, ?_⟩, ?_⟩, ?_⟩, ?_⟩, ?_⟩, ?_⟩, ?_⟩ <;> exact hne _ (by decide)

theorem not_structural_of_isDigits (h : isDigits s = true) : ∀ c ∈ s, isStructural c = false := by
  intro c hc
  rw [isDigits, Bool.and_eq_true] at h
  exact not_structural_of_isDigit (List.all_eq_true.1 h.2 c hc)

theorem not_structural_of_isExponent (h : isExponent s = true) : ∀ c ∈ s, isStructural c = false := by
  cases s with
  | nil => exact fun c hc => nomatch hc
  | cons e rest =>
      simp only [isExponent, Bool.and_eq_true, Bool.or_eq_true, decide_eq_true_eq] at h
      obtain ⟨he, hrest⟩ := h
      intro c hc
      rcases List.mem_cons.1 hc with rfl | hc
      · rcases he with rfl | rfl <;> rfl
      · cases rest with
        | nil => cases hrest
        | cons sign digits =>
            simp only at hrest
            split_ifs at hrest with hsign
            · rcases List.mem_cons.1 hc with rfl | hc
              · rcases hsign with rfl | rfl <;> rfl
              · exact not_structural_of_isDigits hrest c hc
            · exact not_structural_of_isDigits hrest c hc

theorem not_structural_of_split
    (h : ∀ c ∈ s.dropWhile Char.isDigit, isStructural c = false) : ∀ c ∈ s, isStructural c = false := by
  intro c hc
  rw [← List.takeWhile_append_dropWhile (p := Char.isDigit) (l := s), List.mem_append] at hc
  rcases hc with hc | hc
  · exact not_structural_of_isDigit (List.mem_takeWhile_imp hc)
  · exact h c hc

theorem not_structural_of_isFraction (h : isFraction s = true) : ∀ c ∈ s, isStructural c = false := by
  cases s with
  | nil => exact fun c hc => nomatch hc
  | cons dot rest =>
      rw [isFraction] at h
      split_ifs at h with hdot
      · rw [Bool.and_eq_true] at h
        intro c hc
        rcases List.mem_cons.1 hc with rfl | hc
        · rw [hdot]
          rfl
        · exact not_structural_of_split (not_structural_of_isExponent h.2) c hc
      · exact not_structural_of_isExponent h

theorem not_structural_of_isUnsigned (h : isUnsigned s = true) : ∀ c ∈ s, isStructural c = false := by
  rw [isUnsigned, Bool.and_eq_true] at h
  exact not_structural_of_split (not_structural_of_isFraction h.2)

theorem not_structural_of_isPlain {token : List Char} (h : isPlain token = true) :
    ∀ c ∈ token, isStructural c = false := by
  rw [isPlain, Bool.or_eq_true] at h
  rcases h with h | h
  · simp only [isName, Bool.or_eq_true, decide_eq_true_eq] at h
    rcases h with (rfl | rfl) | rfl <;> simp [isStructural, isBlank]
  · cases token with
    | nil => exact fun c hc => nomatch hc
    | cons c rest =>
        rw [isNumber] at h
        split_ifs at h with hsign
        · intro d hd
          rcases List.mem_cons.1 hd with rfl | hd
          · rw [hsign]
            rfl
          · exact not_structural_of_isUnsigned h d hd
        · exact not_structural_of_isUnsigned h

theorem ne_nil_of_isPlain {token : List Char} (h : isPlain token = true) : token ≠ [] := by
  rintro rfl
  exact absurd h (by decide)

theorem takeWhile_plain {token rest : List Char} (h : isPlain token = true) (hends : Ends rest) :
    (token ++ rest).takeWhile (fun c => !isStructural c) = token ∧
      (token ++ rest).dropWhile (fun c => !isStructural c) = rest := by
  have hall : ∀ c ∈ token, (!isStructural c) = true := by
    intro c hc
    rw [not_structural_of_isPlain h c hc]
    rfl
  rw [List.takeWhile_append_of_pos hall, List.dropWhile_append_of_pos hall]
  cases rest with
  | nil => simp
  | cons c tail => simp [hends c tail rfl]

/-- A document, in the tokens it is written with. -/
inductive Doc where
  | plain (token : List Char)
  | text (pieces : List Piece)
  | array (items : List Doc)
  | object (fields : List (List Piece × Doc))

def skipBlanks (s : List Char) : List Char := s.dropWhile isBlank

/-- What follows a character, if the text goes on with it after blanks. -/
def expect (c : Char) (s : List Char) : Option (List Char) :=
  match skipBlanks s with
  | [] => none
  | d :: rest => if d = c then some rest else none

def parsePlain (s : List Char) : Option (Doc × List Char) :=
  let token := s.takeWhile fun c => !isStructural c
  if isPlain token then some (.plain token, s.dropWhile fun c => !isStructural c) else none

mutual
def parseValue : Nat → List Char → Option (Doc × List Char)
  | 0, _ => none
  | fuel + 1, s =>
      match expect '"' s with
      | some rest => (scanPieces rest).map fun found => (.text found.1, found.2)
      | none =>
          match expect '[' s with
          | some rest =>
              match expect ']' rest with
              | some rest => some (.array [], rest)
              | none => (parseItems fuel rest).map fun found => (.array found.1, found.2)
          | none =>
              match expect '\x7b' s with
              | some rest =>
                  match expect '\x7d' rest with
                  | some rest => some (.object [], rest)
                  | none => (parseFields fuel rest).map fun found => (.object found.1, found.2)
              | none => parsePlain (skipBlanks s)

/-- The items of an array that is not empty, and what follows its end. -/
def parseItems : Nat → List Char → Option (List Doc × List Char)
  | 0, _ => none
  | fuel + 1, s =>
      (parseValue fuel s).bind fun item =>
        match expect ']' item.2 with
        | some rest => some ([item.1], rest)
        | none =>
            (expect ',' item.2).bind fun rest =>
              (parseItems fuel rest).map fun found => (item.1 :: found.1, found.2)

/-- The fields of an object that is not empty, and what follows its end. -/
def parseFields : Nat → List Char → Option (List (List Piece × Doc) × List Char)
  | 0, _ => none
  | fuel + 1, s =>
      (expect '"' s).bind fun rest =>
        (scanPieces rest).bind fun key =>
          (expect ':' key.2).bind fun rest =>
            (parseValue fuel rest).bind fun value =>
              match expect '\x7d' value.2 with
              | some rest => some ([(key.1, value.1)], rest)
              | none =>
                  (expect ',' value.2).bind fun rest =>
                    (parseFields fuel rest).map fun found => ((key.1, value.1) :: found.1, found.2)
end

def parse (s : List Char) : Option Doc :=
  (parseValue (2 * s.length + 1) s).bind fun found => if skipBlanks found.2 = [] then some found.1 else none

def After (c : Char) (s rest : List Char) : Prop := ∃ blanks, blanks.all isBlank = true ∧ s = blanks ++ c :: rest

mutual
inductive Reads : List Char → Doc → List Char → Prop
  | plain {blanks token rest : List Char} (hblanks : blanks.all isBlank = true) (htoken : isPlain token = true)
      (hends : Ends rest) : Reads (blanks ++ (token ++ rest)) (.plain token) rest
  | text {s : List Char} {pieces : List Piece} {rest : List Char} (hpieces : pieces.all Piece.valid = true)
      (hopen : After '"' s (spellPieces pieces ++ '"' :: rest)) : Reads s (.text pieces) rest
  | noItems {s inner rest : List Char} (hopen : After '[' s inner) (hclose : After ']' inner rest) :
      Reads s (.array []) rest
  | array {s inner : List Char} {items : List Doc} {rest : List Char} (hopen : After '[' s inner)
      (hitems : ReadsItems inner items rest) : Reads s (.array items) rest
  | noFields {s inner rest : List Char} (hopen : After '\x7b' s inner) (hclose : After '\x7d' inner rest) :
      Reads s (.object []) rest
  | object {s inner : List Char} {fields : List (List Piece × Doc)} {rest : List Char}
      (hopen : After '\x7b' s inner) (hfields : ReadsFields inner fields rest) : Reads s (.object fields) rest

inductive ReadsItems : List Char → List Doc → List Char → Prop
  | last {s after : List Char} {item : Doc} {rest : List Char} (hitem : Reads s item after)
      (hclose : After ']' after rest) : ReadsItems s [item] rest
  | more {s after next : List Char} {item : Doc} {items : List Doc} {rest : List Char} (hitem : Reads s item after)
      (hcomma : After ',' after next) (hitems : ReadsItems next items rest) : ReadsItems s (item :: items) rest

inductive ReadsFields : List Char → List (List Piece × Doc) → List Char → Prop
  | last {s colon inner after : List Char} {key : List Piece} {value : Doc} {rest : List Char}
      (hkey : key.all Piece.valid = true) (hopen : After '"' s (spellPieces key ++ '"' :: colon))
      (hcolon : After ':' colon inner) (hvalue : Reads inner value after) (hclose : After '\x7d' after rest) :
      ReadsFields s [(key, value)] rest
  | more {s colon inner after next : List Char} {key : List Piece} {value : Doc}
      {fields : List (List Piece × Doc)} {rest : List Char}
      (hkey : key.all Piece.valid = true) (hopen : After '"' s (spellPieces key ++ '"' :: colon))
      (hcolon : After ':' colon inner) (hvalue : Reads inner value after) (hcomma : After ',' after next)
      (hfields : ReadsFields next fields rest) : ReadsFields s ((key, value) :: fields) rest
end

theorem skipBlanks_append {blanks : List Char} (h : blanks.all isBlank = true) (s : List Char) :
    skipBlanks (blanks ++ s) = skipBlanks s :=
  List.dropWhile_append_of_pos fun c hc => List.all_eq_true.1 h c hc

theorem skipBlanks_cons (h : isBlank c = false) (rest : List Char) : skipBlanks (c :: rest) = c :: rest := by
  rw [skipBlanks, List.dropWhile_cons, h]
  rfl

theorem exists_blanks (s : List Char) : ∃ blanks, blanks.all isBlank = true ∧ s = blanks ++ skipBlanks s :=
  ⟨s.takeWhile isBlank, List.all_eq_true.2 fun _ hc => List.mem_takeWhile_imp hc,
    List.takeWhile_append_dropWhile.symm⟩

theorem expect_eq_some (hc : isBlank c = false) {s rest : List Char} :
    expect c s = some rest ↔ After c s rest := by
  constructor
  · intro h
    obtain ⟨blanks, hblanks, hs⟩ := exists_blanks s
    rw [expect] at h
    cases hskip : skipBlanks s with
    | nil => simp [hskip] at h
    | cons d tail =>
        rw [hskip] at h hs
        simp only at h
        split_ifs at h with hd
        cases h
        exact ⟨blanks, hblanks, hd ▸ hs⟩
  · rintro ⟨blanks, hblanks, rfl⟩
    rw [expect, skipBlanks_append hblanks, skipBlanks_cons hc]
    exact if_pos rfl

theorem expect_eq_none {c d : Char} (hd : isBlank d = false) (hne : d ≠ c) {s rest : List Char} (h : After d s rest) :
    expect c s = none := by
  obtain ⟨blanks, hblanks, rfl⟩ := h
  rw [expect, skipBlanks_append hblanks, skipBlanks_cons hd]
  exact if_neg hne

theorem After.length_lt {s rest : List Char} (h : After c s rest) : rest.length < s.length := by
  obtain ⟨blanks, _, rfl⟩ := h
  rw [List.length_append, List.length_cons]
  omega

theorem ends_dropWhile (s : List Char) : Ends (s.dropWhile fun c => !isStructural c) := by
  intro c tail h
  have hhead := List.head?_dropWhile_not (fun c => !isStructural c) s
  rw [h] at hhead
  simpa using hhead

variable {d : Doc}

theorem parsePlain_sound
    (h : parsePlain (skipBlanks s) = some (d, rest)) : Reads s d rest := by
  obtain ⟨blanks, hblanks, hs⟩ := exists_blanks s
  simp only [parsePlain] at h
  split_ifs at h with htoken
  cases h
  have hsplit : skipBlanks s = (skipBlanks s).takeWhile (fun c => !isStructural c)
      ++ (skipBlanks s).dropWhile fun c => !isStructural c := List.takeWhile_append_dropWhile.symm
  rw [hsplit] at hs
  conv => arg 1; rw [hs]
  exact .plain hblanks htoken (ends_dropWhile _)

theorem parse_sound (fuel : Nat) :
    (∀ s d rest, parseValue fuel s = some (d, rest) → Reads s d rest) ∧
    (∀ s items rest, parseItems fuel s = some (items, rest) → ReadsItems s items rest) ∧
    (∀ s fields rest, parseFields fuel s = some (fields, rest) → ReadsFields s fields rest) := by
  induction fuel with
  | zero =>
      refine ⟨fun s d rest h => ?_, fun s items rest h => ?_, fun s fields rest h => ?_⟩
      · cases h
      · cases h
      · cases h
  | succ fuel ih =>
      obtain ⟨ihvalue, ihitems, ihfields⟩ := ih
      refine ⟨fun s d rest h => ?_, fun s items rest h => ?_, fun s fields rest h => ?_⟩
      · rw [parseValue] at h
        split at h
        · rename_i inner hopen
          obtain ⟨⟨pieces, after⟩, hscan, heq⟩ := Option.map_eq_some_iff.1 h
          cases heq
          obtain ⟨rfl, hpieces⟩ := scanPieces_sound hscan
          exact .text hpieces ((expect_eq_some rfl).1 hopen)
        · split at h
          · rename_i inner hopen
            have hopen := (expect_eq_some rfl).1 hopen
            split at h
            · rename_i after hclose
              cases h
              exact .noItems hopen ((expect_eq_some rfl).1 hclose)
            · obtain ⟨⟨items, after⟩, hitems, heq⟩ := Option.map_eq_some_iff.1 h
              cases heq
              exact .array hopen (ihitems _ _ _ hitems)
          · split at h
            · rename_i inner hopen
              have hopen := (expect_eq_some rfl).1 hopen
              split at h
              · rename_i after hclose
                cases h
                exact .noFields hopen ((expect_eq_some rfl).1 hclose)
              · obtain ⟨⟨fields, after⟩, hfields, heq⟩ := Option.map_eq_some_iff.1 h
                cases heq
                exact .object hopen (ihfields _ _ _ hfields)
            · exact parsePlain_sound h
      · rw [parseItems, Option.bind_eq_some_iff] at h
        obtain ⟨⟨item, after⟩, hitem, h⟩ := h
        have hitem := ihvalue _ _ _ hitem
        split at h
        · rename_i rest' hclose
          cases h
          exact .last hitem ((expect_eq_some rfl).1 hclose)
        · obtain ⟨next, hcomma, h⟩ := Option.bind_eq_some_iff.1 h
          obtain ⟨⟨more, last⟩, hmore, heq⟩ := Option.map_eq_some_iff.1 h
          cases heq
          exact .more hitem ((expect_eq_some rfl).1 hcomma) (ihitems _ _ _ hmore)
      · rw [parseFields, Option.bind_eq_some_iff] at h
        obtain ⟨opened, hopen, h⟩ := h
        obtain ⟨⟨key, colon⟩, hscan, h⟩ := Option.bind_eq_some_iff.1 h
        obtain ⟨hspell, hkey⟩ := scanPieces_sound hscan
        have hopen := (expect_eq_some rfl).1 hopen
        rw [hspell] at hopen
        obtain ⟨inner, hcolon, h⟩ := Option.bind_eq_some_iff.1 h
        have hcolon := (expect_eq_some rfl).1 hcolon
        obtain ⟨⟨value, after⟩, hvalue, h⟩ := Option.bind_eq_some_iff.1 h
        have hvalue := ihvalue _ _ _ hvalue
        split at h
        · rename_i rest' hclose
          cases h
          exact .last hkey hopen hcolon hvalue ((expect_eq_some rfl).1 hclose)
        · obtain ⟨next, hcomma, h⟩ := Option.bind_eq_some_iff.1 h
          obtain ⟨⟨more, last⟩, hmore, heq⟩ := Option.map_eq_some_iff.1 h
          cases heq
          exact .more hkey hopen hcolon hvalue ((expect_eq_some rfl).1 hcomma) (ihfields _ _ _ hmore)

theorem Reads.begins (h : Reads s d rest) :
    ∃ c tail, After c s tail ∧ isBlank c = false ∧ c ≠ ']' := by
  cases h with
  | @plain blanks token _ hblanks htoken hends =>
      cases token with
      | nil => exact absurd rfl (ne_nil_of_isPlain htoken)
      | cons c tail =>
          have hstructural := not_structural_of_isPlain htoken c (List.mem_cons_self ..)
          simp only [isStructural, Bool.or_eq_false_iff, decide_eq_false_iff_not] at hstructural
          exact ⟨c, tail ++ rest, ⟨blanks, hblanks, rfl⟩, hstructural.1.1.1.1.1.1.1, hstructural.1.1.1.2⟩
  | text hpieces hopen => exact ⟨'"', _, hopen, rfl, by decide⟩
  | noItems hopen hclose => exact ⟨'[', _, hopen, rfl, by decide⟩
  | array hopen hitems => exact ⟨'[', _, hopen, rfl, by decide⟩
  | noFields hopen hclose => exact ⟨'\x7b', _, hopen, rfl, by decide⟩
  | object hopen hfields => exact ⟨'\x7b', _, hopen, rfl, by decide⟩

theorem ReadsItems.begins {items : List Doc} (h : ReadsItems s items rest) :
    ∃ c tail, After c s tail ∧ isBlank c = false ∧ c ≠ ']' := by
  cases h with
  | last hitem hclose => exact hitem.begins
  | more hitem hcomma hitems => exact hitem.begins

theorem ReadsFields.begins {fields : List (List Piece × Doc)}
    (h : ReadsFields s fields rest) : ∃ tail, After '"' s tail := by
  cases h with
  | last hkey hopen => exact ⟨_, hopen⟩
  | more hkey hopen => exact ⟨_, hopen⟩

theorem length_spellPieces_lt (pieces : List Piece) (rest : List Char) :
    rest.length < (spellPieces pieces ++ '"' :: rest).length := by
  rw [List.length_append, List.length_cons]
  omega

theorem parsePlain_complete {blanks token rest : List Char} (hblanks : blanks.all isBlank = true)
    (htoken : isPlain token = true) (hends : Ends rest) (fuel : Nat) :
    parseValue (fuel + 1) (blanks ++ (token ++ rest)) = some (.plain token, rest) := by
  cases hcases : token with
  | nil => exact absurd hcases (ne_nil_of_isPlain htoken)
  | cons c tail =>
      have hstructural := not_structural_of_isPlain htoken c (by rw [hcases]; exact List.mem_cons_self ..)
      have hblank : isBlank c = false := by
        simp only [isStructural, Bool.or_eq_false_iff] at hstructural
        exact hstructural.1.1.1.1.1.1.1
      have hafter : After c (blanks ++ (c :: tail ++ rest)) (tail ++ rest) := ⟨blanks, hblanks, rfl⟩
      have hnone : ∀ d, isStructural d = true → expect d (blanks ++ (c :: tail ++ rest)) = none := by
        intro d hd
        refine expect_eq_none hblank ?_ hafter
        rintro rfl
        rw [hd] at hstructural
        cases hstructural
      rw [parseValue, hnone _ (by decide), hnone _ (by decide), hnone _ (by decide), skipBlanks_append hblanks,
        List.cons_append, skipBlanks_cons hblank, ← List.cons_append, ← hcases]
      simp only [parsePlain, (takeWhile_plain htoken hends).1, (takeWhile_plain htoken hends).2, htoken, if_true]

mutual
theorem Reads.complete : ∀ {s : List Char} {d : Doc} {rest : List Char}, Reads s d rest →
    rest.length < s.length ∧ ∀ fuel, 2 * (s.length - rest.length) ≤ fuel → parseValue fuel s = some (d, rest)
  | _, _, rest, @Reads.plain blanks token _ hblanks htoken hends => by
      have hlength : 0 < token.length := List.length_pos_of_ne_nil (ne_nil_of_isPlain htoken)
      simp only [List.length_append]
      refine ⟨by omega, fun fuel hfuel => ?_⟩
      obtain ⟨n, rfl⟩ : ∃ n, fuel = n + 1 := ⟨fuel - 1, by omega⟩
      exact parsePlain_complete hblanks htoken hends n
  | _, _, rest, @Reads.text _ pieces _ hpieces hopen => by
      have hlength := hopen.length_lt
      have hspell := length_spellPieces_lt pieces rest
      refine ⟨by omega, fun fuel hfuel => ?_⟩
      obtain ⟨n, rfl⟩ : ∃ n, fuel = n + 1 := ⟨fuel - 1, by omega⟩
      rw [parseValue, (expect_eq_some rfl).2 hopen]
      simp only [scanPieces_spell hpieces, Option.map_some]
  | _, _, _, .noItems hopen hclose => by
      have hlength := hopen.length_lt
      have hlength' := hclose.length_lt
      refine ⟨by omega, fun fuel hfuel => ?_⟩
      obtain ⟨n, rfl⟩ : ∃ n, fuel = n + 1 := ⟨fuel - 1, by omega⟩
      rw [parseValue, expect_eq_none rfl (by decide) hopen, (expect_eq_some rfl).2 hopen]
      simp only [(expect_eq_some rfl).2 hclose]
  | _, _, _, .array hopen hitems => by
      have hlength := hopen.length_lt
      obtain ⟨hinner, hparse⟩ := hitems.complete
      obtain ⟨c, tail, hbegins, hblank, hne⟩ := hitems.begins
      refine ⟨by omega, fun fuel hfuel => ?_⟩
      obtain ⟨n, rfl⟩ : ∃ n, fuel = n + 1 := ⟨fuel - 1, by omega⟩
      rw [parseValue, expect_eq_none rfl (by decide) hopen, (expect_eq_some rfl).2 hopen]
      simp only [expect_eq_none hblank hne hbegins]
      rw [hparse n (by omega)]
      rfl
  | _, _, _, .noFields hopen hclose => by
      have hlength := hopen.length_lt
      have hlength' := hclose.length_lt
      refine ⟨by omega, fun fuel hfuel => ?_⟩
      obtain ⟨n, rfl⟩ : ∃ n, fuel = n + 1 := ⟨fuel - 1, by omega⟩
      rw [parseValue, expect_eq_none rfl (by decide) hopen, expect_eq_none rfl (by decide) hopen,
        (expect_eq_some rfl).2 hopen]
      simp only [(expect_eq_some rfl).2 hclose]
  | _, _, _, .object hopen hfields => by
      have hlength := hopen.length_lt
      obtain ⟨hinner, hparse⟩ := hfields.complete
      obtain ⟨tail, hbegins⟩ := hfields.begins
      refine ⟨by omega, fun fuel hfuel => ?_⟩
      obtain ⟨n, rfl⟩ : ∃ n, fuel = n + 1 := ⟨fuel - 1, by omega⟩
      rw [parseValue, expect_eq_none rfl (by decide) hopen, expect_eq_none rfl (by decide) hopen,
        (expect_eq_some rfl).2 hopen]
      simp only [expect_eq_none rfl (by decide : ('"' : Char) ≠ '\x7d') hbegins]
      rw [hparse n (by omega)]
      rfl

theorem ReadsItems.complete : ∀ {s : List Char} {items : List Doc} {rest : List Char}, ReadsItems s items rest →
    rest.length < s.length ∧
      ∀ fuel, 2 * (s.length - rest.length) ≤ fuel → parseItems fuel s = some (items, rest)
  | _, _, _, .last hitem hclose => by
      obtain ⟨hlength, hparse⟩ := hitem.complete
      have hlength' := hclose.length_lt
      refine ⟨by omega, fun fuel hfuel => ?_⟩
      obtain ⟨n, rfl⟩ : ∃ n, fuel = n + 1 := ⟨fuel - 1, by omega⟩
      rw [parseItems, hparse n (by omega), Option.bind_some]
      simp only [(expect_eq_some rfl).2 hclose]
  | _, _, _, .more hitem hcomma hitems => by
      obtain ⟨hlength, hparse⟩ := hitem.complete
      have hlength' := hcomma.length_lt
      obtain ⟨hmore, hparse'⟩ := hitems.complete
      refine ⟨by omega, fun fuel hfuel => ?_⟩
      obtain ⟨n, rfl⟩ : ∃ n, fuel = n + 1 := ⟨fuel - 1, by omega⟩
      rw [parseItems, hparse n (by omega), Option.bind_some]
      simp only [expect_eq_none rfl (by decide : (',' : Char) ≠ ']') hcomma, (expect_eq_some rfl).2 hcomma,
        Option.bind_some]
      rw [hparse' n (by omega)]
      rfl

theorem ReadsFields.complete : ∀ {s : List Char} {fields : List (List Piece × Doc)} {rest : List Char},
    ReadsFields s fields rest → rest.length < s.length ∧
      ∀ fuel, 2 * (s.length - rest.length) ≤ fuel → parseFields fuel s = some (fields, rest)
  | _, _, _, @ReadsFields.last _ colon inner after key value _ hkey hopen hcolon hvalue hclose => by
      have hopened := hopen.length_lt
      have hspell := length_spellPieces_lt key colon
      have hcolon' := hcolon.length_lt
      obtain ⟨hlength, hparse⟩ := hvalue.complete
      have hlength' := hclose.length_lt
      refine ⟨by omega, fun fuel hfuel => ?_⟩
      obtain ⟨n, rfl⟩ : ∃ n, fuel = n + 1 := ⟨fuel - 1, by omega⟩
      rw [parseFields, (expect_eq_some rfl).2 hopen, Option.bind_some, scanPieces_spell hkey, Option.bind_some,
        (expect_eq_some rfl).2 hcolon, Option.bind_some, hparse n (by omega), Option.bind_some]
      simp only [(expect_eq_some rfl).2 hclose]
  | _, _, _, @ReadsFields.more _ colon inner after next key value fields _ hkey hopen hcolon hvalue hcomma
      hfields => by
      have hopened := hopen.length_lt
      have hspell := length_spellPieces_lt key colon
      have hcolon' := hcolon.length_lt
      obtain ⟨hlength, hparse⟩ := hvalue.complete
      have hlength' := hcomma.length_lt
      obtain ⟨hmore, hparse'⟩ := hfields.complete
      refine ⟨by omega, fun fuel hfuel => ?_⟩
      obtain ⟨n, rfl⟩ : ∃ n, fuel = n + 1 := ⟨fuel - 1, by omega⟩
      rw [parseFields, (expect_eq_some rfl).2 hopen, Option.bind_some, scanPieces_spell hkey, Option.bind_some,
        (expect_eq_some rfl).2 hcolon, Option.bind_some, hparse n (by omega), Option.bind_some]
      simp only [expect_eq_none rfl (by decide : (',' : Char) ≠ '\x7d') hcomma, (expect_eq_some rfl).2 hcomma,
        Option.bind_some]
      rw [hparse' n (by omega)]
      rfl
end

theorem parse_eq_some :
    parse s = some d ↔ ∃ blanks, blanks.all isBlank = true ∧ Reads s d blanks := by
  rw [parse, Option.bind_eq_some_iff]
  constructor
  · rintro ⟨⟨found, rest⟩, hfound, hrest⟩
    simp only at hrest
    split_ifs at hrest with hblanks
    cases hrest
    refine ⟨rest, List.all_eq_true.2 fun c hc => ?_, (parse_sound _).1 _ _ _ hfound⟩
    exact List.dropWhile_eq_nil_iff.1 hblanks c hc
  · rintro ⟨blanks, hblanks, hreads⟩
    refine ⟨(d, blanks), hreads.complete.2 _ (by omega), if_pos ?_⟩
    exact List.dropWhile_eq_nil_iff.2 fun c hc => List.all_eq_true.1 hblanks c hc

@[elab_as_elim]
theorem Doc.induct {motive : Doc → Prop} (plain : ∀ token, motive (.plain token))
    (text : ∀ pieces, motive (.text pieces)) (array : ∀ items, (∀ item ∈ items, motive item) → motive (.array items))
    (object : ∀ fields, (∀ field ∈ fields, motive field.2) → motive (.object fields)) (d : Doc) : motive d :=
  @Doc.rec motive (fun items => ∀ item ∈ items, motive item) (fun fields => ∀ field ∈ fields, motive field.2) (fun field => motive field.2)
    plain text array object (fun _ h => nomatch h) (fun _ _ h hrest => List.forall_mem_cons.2 ⟨h, hrest⟩)
    (fun _ h => nomatch h) (fun _ _ h hrest => List.forall_mem_cons.2 ⟨h, hrest⟩) (fun _ _ h => h) d

mutual
def Doc.render : Doc → List Char
  | .plain token => token
  | .text pieces => '"' :: (spellPieces pieces ++ ['"'])
  | .array items => '[' :: (renderItems items ++ [']'])
  | .object fields => '\x7b' :: (renderFields fields ++ ['\x7d'])

def renderItems : List Doc → List Char
  | [] => []
  | [item] => item.render
  | item :: next :: rest => item.render ++ ',' :: renderItems (next :: rest)

def renderFields : List (List Piece × Doc) → List Char
  | [] => []
  | [(key, value)] => '"' :: (spellPieces key ++ '"' :: ':' :: value.render)
  | (key, value) :: next :: rest =>
      '"' :: (spellPieces key ++ '"' :: ':' :: (value.render ++ ',' :: renderFields (next :: rest)))
end

/-- Every token of the document is one. -/
inductive Doc.Valid : Doc → Prop
  | plain {token : List Char} (h : isPlain token = true) : Valid (.plain token)
  | text {pieces : List Piece} (h : pieces.all Piece.valid = true) : Valid (.text pieces)
  | array {items : List Doc} (h : ∀ item ∈ items, Valid item) : Valid (.array items)
  | object {fields : List (List Piece × Doc)} (hkeys : ∀ field ∈ fields, field.1.all Piece.valid = true)
      (h : ∀ field ∈ fields, Valid field.2) : Valid (.object fields)

mutual
theorem Reads.valid : ∀ {s : List Char} {d : Doc} {rest : List Char}, Reads s d rest → d.Valid
  | _, _, _, .plain _ htoken _ => .plain htoken
  | _, _, _, .text hpieces _ => .text hpieces
  | _, _, _, .noItems _ _ => .array fun _ h => nomatch h
  | _, _, _, .array _ hitems => .array hitems.valid
  | _, _, _, .noFields _ _ => .object (fun _ h => nomatch h) fun _ h => nomatch h
  | _, _, _, .object _ hfields => .object (fun field h => (hfields.valid field h).1) fun field h => (hfields.valid field h).2

theorem ReadsItems.valid : ∀ {s : List Char} {items : List Doc} {rest : List Char}, ReadsItems s items rest →
    ∀ item ∈ items, item.Valid
  | _, _, _, .last hitem _ => fun item h => by
      rw [List.mem_singleton.1 h]
      exact hitem.valid
  | _, _, _, .more hitem _ hitems => fun item h => by
      rcases List.mem_cons.1 h with heq | h
      · rw [heq]
        exact hitem.valid
      · exact hitems.valid item h

theorem ReadsFields.valid : ∀ {s : List Char} {fields : List (List Piece × Doc)} {rest : List Char},
    ReadsFields s fields rest → ∀ field ∈ fields, field.1.all Piece.valid = true ∧ field.2.Valid
  | _, _, _, .last hkey _ _ hvalue _ => fun field h => by
      rw [List.mem_singleton.1 h]
      exact ⟨hkey, hvalue.valid⟩
  | _, _, _, .more hkey _ _ hvalue _ hfields => fun field h => by
      rcases List.mem_cons.1 h with heq | h
      · rw [heq]
        exact ⟨hkey, hvalue.valid⟩
      · exact hfields.valid field h
end

theorem valid_of_parse (h : parse s = some d) : d.Valid := by
  obtain ⟨_, _, hreads⟩ := parse_eq_some.1 h
  exact hreads.valid

theorem After.here : After c (c :: rest) rest := ⟨[], rfl, rfl⟩

/-! ### Blanks between fields

A writer may put blanks after each comma and each colon. The text is read as the document it was written for, since the grammar passes over blanks before a token.
-/

mutual
/-- The text of a document with the blanks after each comma and each colon. -/
def Doc.spaced (blanks : List Char) : Doc → List Char
  | .plain token => token
  | .text pieces => '"' :: (spellPieces pieces ++ ['"'])
  | .array items => '[' :: (spacedItems blanks items ++ [']'])
  | .object fields => '\x7b' :: (spacedFields blanks fields ++ ['\x7d'])

def spacedItems (blanks : List Char) : List Doc → List Char
  | [] => []
  | [item] => item.spaced blanks
  | item :: next :: rest => item.spaced blanks ++ ',' :: (blanks ++ spacedItems blanks (next :: rest))

def spacedFields (blanks : List Char) : List (List Piece × Doc) → List Char
  | [] => []
  | [(key, value)] => '"' :: (spellPieces key ++ '"' :: ':' :: (blanks ++ value.spaced blanks))
  | (key, value) :: next :: rest =>
      '"' :: (spellPieces key ++ '"' :: ':' ::
        (blanks ++ (value.spaced blanks ++ ',' :: (blanks ++ spacedFields blanks (next :: rest)))))
end

variable {blanks : List Char}

theorem After.skip (hblanks : blanks.all isBlank = true) {c : Char} (h : After c s rest) :
    After c (blanks ++ s) rest := by
  obtain ⟨more, hmore, rfl⟩ := h
  refine ⟨blanks ++ more, ?_, by rw [List.append_assoc]⟩
  rw [List.all_append, hblanks, hmore]
  rfl

theorem Reads.skip (hblanks : blanks.all isBlank = true) {d : Doc} (h : Reads s d rest) :
    Reads (blanks ++ s) d rest := by
  cases h with
  | @plain more token _ hmore htoken hends =>
      rw [← List.append_assoc]
      refine .plain ?_ htoken hends
      rw [List.all_append, hblanks, hmore]
      rfl
  | text hpieces hopen => exact .text hpieces (hopen.skip hblanks)
  | noItems hopen hclose => exact .noItems (hopen.skip hblanks) hclose
  | array hopen hitems => exact .array (hopen.skip hblanks) hitems
  | noFields hopen hclose => exact .noFields (hopen.skip hblanks) hclose
  | object hopen hfields => exact .object (hopen.skip hblanks) hfields

theorem ReadsItems.skip (hblanks : blanks.all isBlank = true) {items : List Doc} (h : ReadsItems s items rest) :
    ReadsItems (blanks ++ s) items rest := by
  cases h with
  | last hitem hclose => exact .last (hitem.skip hblanks) hclose
  | more hitem hcomma hitems => exact .more (hitem.skip hblanks) hcomma hitems

theorem ReadsFields.skip (hblanks : blanks.all isBlank = true) {fields : List (List Piece × Doc)}
    (h : ReadsFields s fields rest) : ReadsFields (blanks ++ s) fields rest := by
  cases h with
  | last hkey hopen hcolon hvalue hclose => exact .last hkey (hopen.skip hblanks) hcolon hvalue hclose
  | more hkey hopen hcolon hvalue hcomma hfields => exact .more hkey (hopen.skip hblanks) hcolon hvalue hcomma hfields

theorem reads_spacedItems (hblanks : blanks.all isBlank = true) {items : List Doc} (hne : items ≠ [])
    (h : ∀ item ∈ items, ∀ rest, Ends rest → Reads (item.spaced blanks ++ rest) item rest) (rest : List Char) :
    ReadsItems (spacedItems blanks items ++ ']' :: rest) items rest := by
  induction items with
  | nil => exact absurd rfl hne
  | cons item more ih =>
      cases more with
      | nil => exact .last (h item (List.mem_cons_self ..) _ (ends_cons rfl)) .here
      | cons next more =>
          rw [spacedItems, List.append_assoc, List.cons_append, List.append_assoc]
          refine .more (h item (List.mem_cons_self ..) _ (ends_cons rfl)) .here ?_
          exact (ih (List.cons_ne_nil _ _) fun other hother => h other (List.mem_cons_of_mem _ hother)).skip hblanks

theorem reads_spacedFields (hblanks : blanks.all isBlank = true) {fields : List (List Piece × Doc)} (hne : fields ≠ [])
    (hkeys : ∀ field ∈ fields, field.1.all Piece.valid = true)
    (h : ∀ field ∈ fields, ∀ rest, Ends rest → Reads (field.2.spaced blanks ++ rest) field.2 rest) (rest : List Char) :
    ReadsFields (spacedFields blanks fields ++ '\x7d' :: rest) fields rest := by
  induction fields with
  | nil => exact absurd rfl hne
  | cons field more ih =>
      obtain ⟨key, value⟩ := field
      have hkey := hkeys _ (List.mem_cons_self ..)
      have hvalue := h _ (List.mem_cons_self ..)
      cases more with
      | nil =>
          rw [spacedFields, List.cons_append, List.append_assoc, List.cons_append, List.cons_append, List.append_assoc]
          exact .last hkey .here .here ((hvalue _ (ends_cons rfl)).skip hblanks) .here
      | cons next more =>
          rw [spacedFields, List.cons_append, List.append_assoc, List.cons_append, List.cons_append, List.append_assoc,
            List.append_assoc, List.cons_append, List.append_assoc]
          refine .more hkey .here .here ((hvalue _ (ends_cons rfl)).skip hblanks) .here (ReadsFields.skip hblanks ?_)
          refine ih (List.cons_ne_nil _ _) (fun other hother => hkeys other (List.mem_cons_of_mem _ hother)) ?_
          exact fun other hother => h other (List.mem_cons_of_mem _ hother)

theorem Doc.Valid.reads_spaced (hblanks : blanks.all isBlank = true) {d : Doc} (h : d.Valid) :
    ∀ rest, Ends rest → Reads (d.spaced blanks ++ rest) d rest := by
  induction h with
  | plain h =>
      intro rest hends
      rw [Doc.spaced]
      exact @Reads.plain [] _ _ rfl h hends
  | text h =>
      intro rest _
      rw [Doc.spaced, List.cons_append, List.append_assoc]
      exact .text h .here
  | @array items h ih =>
      intro rest _
      rw [Doc.spaced, List.cons_append, List.append_assoc]
      cases items with
      | nil => exact .noItems .here .here
      | cons item more => exact .array .here (reads_spacedItems hblanks (List.cons_ne_nil _ _) ih rest)
  | @object fields hkeys h ih =>
      intro rest _
      rw [Doc.spaced, List.cons_append, List.append_assoc]
      cases fields with
      | nil => exact .noFields .here .here
      | cons field more => exact .object .here (reads_spacedFields hblanks (List.cons_ne_nil _ _) hkeys ih rest)

theorem parse_spaced (hblanks : blanks.all isBlank = true) {d : Doc} (h : d.Valid) : parse (d.spaced blanks) = some d := by
  refine parse_eq_some.2 ⟨[], rfl, ?_⟩
  have hreads := h.reads_spaced hblanks [] ends_nil
  rwa [List.append_nil] at hreads

theorem renderItems_eq {items : List Doc} (h : ∀ item ∈ items, item.render = item.spaced []) : renderItems items = spacedItems [] items := by
  induction items with
  | nil => rfl
  | cons item rest ih =>
      rw [List.forall_mem_cons] at h
      cases rest with
      | nil => exact h.1
      | cons next more =>
          rw [renderItems, spacedItems, h.1, ih h.2]
          rfl

theorem renderFields_eq {fields : List (List Piece × Doc)} (h : ∀ field ∈ fields, field.2.render = field.2.spaced []) :
    renderFields fields = spacedFields [] fields := by
  induction fields with
  | nil => rfl
  | cons field rest ih =>
      rw [List.forall_mem_cons] at h
      cases rest with
      | nil => rw [renderFields, spacedFields, h.1, List.nil_append]
      | cons next more =>
          rw [renderFields, spacedFields, h.1, ih h.2]
          rfl

/-- A document without blanks is one with none between its fields. -/
theorem render_eq_spaced (d : Doc) : d.render = d.spaced [] := by
  induction d using Doc.induct with
  | plain token => rfl
  | text pieces => rfl
  | array items ih => rw [Doc.render, Doc.spaced, renderItems_eq ih]
  | object fields ih => rw [Doc.render, Doc.spaced, renderFields_eq ih]

theorem parse_render (h : d.Valid) : parse d.render = some d := by
  rw [render_eq_spaced]
  exact parse_spaced rfl h

theorem render_injective {d e : Doc} (hd : d.Valid) (he : e.Valid) (h : d.render = e.render) : d = e := by
  have hparse := parse_render hd
  rw [h, parse_render he] at hparse
  exact (Option.some.inj hparse).symm

end JsonText
