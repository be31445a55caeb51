import EdgarPlatform.Library.JsonText
import EdgarPlatform.Library.SortedMap
import EdgarPlatform.Records.Values

/-!
# Documents as they are transported

A document is handed on as the text it came in. A string is decoded only where it is read, and of a key written twice only the value written last is looked at.
-/

namespace EdgarPlatform.Records

open JsonText

def hexDigit (c : Char) : Nat :=
  if c.toNat ≤ '9'.toNat then c.toNat - '0'.toNat
  else if c.toNat ≤ 'F'.toNat then c.toNat - 'A'.toNat + 10
  else c.toNat - 'a'.toNat + 10

def codeUnit (a b c d : Char) : Nat := ((hexDigit a * 16 + hexDigit b) * 16 + hexDigit c) * 16 + hexDigit d

def unescape (c : Char) : Char :=
  if c = 'b' then Char.ofNat 8
  else if c = 'f' then Char.ofNat 12
  else if c = 'n' then '\n'
  else if c = 'r' then '\r'
  else if c = 't' then '\t'
  else c

def isLeading (unit : Nat) : Bool := 0xD800 ≤ unit && unit ≤ 0xDBFF

def isTrailing (unit : Nat) : Bool := 0xDC00 ≤ unit && unit ≤ 0xDFFF

/-- The characters a string's pieces stand for. A leading code unit must have its trailing one after it. -/
def readPieces : List Piece → Option (List Char)
  | [] => some []
  | .plain c :: rest => (readPieces rest).map (c :: ·)
  | .escape c :: rest => (readPieces rest).map (unescape c :: ·)
  | .code a b c d :: rest =>
      if isTrailing (codeUnit a b c d) then none
      else if isLeading (codeUnit a b c d) then
        match rest with
        | .code a' b' c' d' :: rest =>
            if isTrailing (codeUnit a' b' c' d') then
              (readPieces rest).map
                (Char.ofNat (0x10000 + (codeUnit a b c d - 0xD800) * 0x400 + (codeUnit a' b' c' d' - 0xDC00)) :: ·)
            else none
        | _ => none
      else (readPieces rest).map (Char.ofNat (codeUnit a b c d) :: ·)

def readString? (pieces : List Piece) : Option String := (readPieces pieces).map String.ofList

def pieceOf (c : Char) : Piece :=
  if c = '"' then .escape '"'
  else if c = '\\' then .escape '\\'
  else if c.toNat = 8 then .escape 'b'
  else if c.toNat = 9 then .escape 't'
  else if c.toNat = 10 then .escape 'n'
  else if c.toNat = 12 then .escape 'f'
  else if c.toNat = 13 then .escape 'r'
  else if c.toNat < 32 then .code '0' '0' (Nat.digitChar (c.toNat / 16)) (Nat.digitChar (c.toNat % 16))
  else .plain c

def piecesOf (value : String) : List Piece := value.toList.map pieceOf

theorem spell_pieceOf (c : Char) : (pieceOf c).spell = writeChar c := by
  unfold pieceOf writeChar
  split_ifs <;> rfl

theorem toList_writeString (value : String) :
    (writeString value).toList = '"' :: (spellPieces (piecesOf value) ++ ['"']) := by
  have hspell : spellPieces (piecesOf value) = value.toList.flatMap writeChar := by
    rw [spellPieces, piecesOf, List.flatMap_map]
    exact List.flatMap_congr fun c _ => spell_pieceOf c
  simp [writeString, hspell]

theorem hexDigit_digitChar : ∀ n < 16, hexDigit (Nat.digitChar n) = n ∧ isHex (Nat.digitChar n) = true := by
  decide

theorem pieceOf_valid (c : Char) : (pieceOf c).valid = true := by
  unfold pieceOf
  split_ifs with hquote hslash _ _ _ _ _ hcontrol
  any_goals rfl
  · have hhigh := (hexDigit_digitChar (c.toNat / 16) (by omega)).2
    have hlow := (hexDigit_digitChar (c.toNat % 16) (by omega)).2
    simp only [Piece.valid, hhigh, hlow]
    rfl
  · have hprintable : 32 ≤ c.toNat := by omega
    simp [Piece.valid, hquote, hslash, hprintable]

theorem eq_of_toNat {c : Char} {n : Nat} (h : c.toNat = n) : c = Char.ofNat n := by
  rw [← h, Char.ofNat_toNat]

theorem readPieces_pieceOf (c : Char) (rest : List Piece) :
    readPieces (pieceOf c :: rest) = (readPieces rest).map (c :: ·) := by
  unfold pieceOf
  split_ifs with hquote hslash hback htab hline hfeed hreturn hcontrol
  · rw [hquote]
    rfl
  · rw [hslash]
    rfl
  · rw [eq_of_toNat hback]
    rfl
  · rw [eq_of_toNat htab]
    rfl
  · rw [eq_of_toNat hline]
    rfl
  · rw [eq_of_toNat hfeed]
    rfl
  · rw [eq_of_toNat hreturn]
    rfl
  · have hhigh := (hexDigit_digitChar (c.toNat / 16) (by omega)).1
    have hlow := (hexDigit_digitChar (c.toNat % 16) (by omega)).1
    have hzero : hexDigit '0' = 0 := rfl
    have hunit : codeUnit '0' '0' (Nat.digitChar (c.toNat / 16)) (Nat.digitChar (c.toNat % 16)) = c.toNat := by
      rw [codeUnit, hhigh, hlow, hzero]
      omega
    have htrailing : isTrailing c.toNat = false := by
      simp only [isTrailing, Bool.and_eq_false_iff, decide_eq_false_iff_not]
      omega
    have hleading : isLeading c.toNat = false := by
      simp only [isLeading, Bool.and_eq_false_iff, decide_eq_false_iff_not]
      omega
    rw [readPieces.eq_def]
    simp only [hunit, htrailing, hleading, Char.ofNat_toNat]
    rfl
  · rfl

theorem readString_piecesOf (value : String) : readString? (piecesOf value) = some value := by
  have hread : ∀ chars : List Char, readPieces (chars.map pieceOf) = some chars := by
    intro chars
    induction chars with
    | nil => rfl
    | cons c rest ih => rw [List.map_cons, readPieces_pieceOf, ih, Option.map_some]
  rw [readString?, piecesOf, hread, Option.map_some, String.ofList_toList]

theorem piecesOf_valid (value : String) : (piecesOf value).all Piece.valid = true := by
  rw [piecesOf, List.all_map]
  exact List.all_eq_true.2 fun c _ => pieceOf_valid c

/-! ### The canonical text of a document

A content hash is over the canonical text of a document: no blanks, each string spelled in one way, each object's keys in order with the value written last. Numbers keep their digits.

What a writer must do to write that text is `CanonicalWriter`. Any two writers that do so write the same text, and it is one text for two documents exactly when they are `Alike`.
-/

open JsonText

def readPlainText (fail : String) (pieces : List Piece) : Except String String :=
  match readString? pieces with
  | none => .error fail
  | some value => .ok value

def readKeys {α : Type} (fail : String) (fields : List (List Piece × α)) : Except String (List (String × α)) :=
  fields.mapM fun field => (readPlainText fail field.1).map fun key => (key, field.2)

def ReadsAs {α : Type} (fields : List (List Piece × α)) (body : List (String × α)) : Prop :=
  List.Forall₂ (fun field entry => readString? field.1 = some entry.1 ∧ field.2 = entry.2) fields body

theorem readPlainText_eq_ok {fail : String} {pieces : List Piece} {value : String} :
    readPlainText fail pieces = .ok value ↔ readString? pieces = some value := by
  rw [readPlainText]
  cases readString? pieces <;> simp

variable {α : Type}

theorem readKeys_eq_ok {fail : String} {fields : List (List Piece × α)} {body : List (String × α)} :
    readKeys fail fields = .ok body ↔ ReadsAs fields body := by
  rw [readKeys, Runs.mapM_eq_ok, ReadsAs]
  have heq : (fun (field : List Piece × α) (entry : String × α) =>
      (readPlainText fail field.1).map (fun key => (key, field.2)) = .ok entry)
        = fun field entry => readString? field.1 = some entry.1 ∧ field.2 = entry.2 := by
    funext field entry
    refine propext ?_
    rw [← @readPlainText_eq_ok fail]
    cases readPlainText fail field.1 with
    | error e => simp [Except.map]
    | ok key => simp [Except.map, Prod.ext_iff]
  rw [heq]

theorem ReadsAs.unique {fields : List (List Piece × α)} {body body' : List (String × α)}
    (h : ReadsAs fields body) (h' : ReadsAs fields body') : body = body' := by
  have hread : readKeys "" fields = .ok body := readKeys_eq_ok.2 h
  have hread' : readKeys "" fields = .ok body' := readKeys_eq_ok.2 h'
  exact Except.ok.inj (hread.symm.trans hread')

theorem ReadsAs.mem {fields : List (List Piece × α)} {body : List (String × α)} (h : ReadsAs fields body)
    {entry : String × α} (hentry : entry ∈ body) : ∃ field ∈ fields, field.2 = entry.2 := by
  obtain ⟨field, hfield, hread⟩ := Runs.forall₂_exists_left h hentry
  exact ⟨field, hfield, hread.2⟩

theorem ReadsAs.map_iff {α β : Type} (f : α → β) {fields : List (List Piece × α)} {body : List (String × β)} :
    ReadsAs (fields.map fun field => (field.1, f field.2)) body ↔
      ∃ read, ReadsAs fields read ∧ body = read.map fun entry => (entry.1, f entry.2) := by
  induction fields generalizing body with
  | nil => simp [ReadsAs]
  | cons field rest ih =>
      simp only [ReadsAs, List.map_cons, List.forall₂_cons_left_iff] at ih ⊢
      constructor
      · rintro ⟨⟨key, value⟩, tail, ⟨hkey, hvalue⟩, htail, rfl⟩
        obtain ⟨read, hread, rfl⟩ := ih.1 htail
        exact ⟨(key, field.2) :: read, ⟨_, _, ⟨hkey, rfl⟩, hread, rfl⟩, by rw [List.map_cons, hvalue]⟩
      · rintro ⟨_, ⟨⟨key, value⟩, tail, ⟨hkey, rfl⟩, htail, rfl⟩, rfl⟩
        exact ⟨_, _, ⟨hkey, rfl⟩, ih.2 ⟨tail, htail, rfl⟩, rfl⟩

def joinItems (parts : List String) : String := "[" ++ ",".intercalate parts ++ "]"

def joinFields (parts : List (String × String)) : String :=
  "\x7b" ++ ",".intercalate (parts.map fun part => writeString part.1 ++ ":" ++ part.2) ++ "\x7d"

/-- The parts of an object: each key in order, with the text of the value written last. -/
def PartsOf (write : Doc → Except String String) (body : List (String × Doc)) (parts : List (String × String)) : Prop :=
  List.Forall₂ (fun entry part => entry.1 = part.1 ∧ write entry.2 = .ok part.2) (SortedMap.ofList body).entries parts

structure CanonicalWriter (write : Doc → Except String String) : Prop where
  plain (token : List Char) : write (.plain token) = .ok (String.ofList token)
  text {pieces : List Piece} {s : String} :
    write (.text pieces) = .ok s ↔ ∃ value, readString? pieces = some value ∧ s = writeString value
  array {items : List Doc} {s : String} :
    write (.array items) = .ok s ↔
      ∃ parts, List.Forall₂ (fun item part => write item = .ok part) items parts ∧ s = joinItems parts
  object {fields : List (List Piece × Doc)} {s : String} :
    write (.object fields) = .ok s ↔
      ∃ body, ReadsAs fields body ∧ ∃ parts, PartsOf write body parts ∧ s = joinFields parts

theorem forall₂_congr_of_mem {α β : Type} {rel rel' : α → β → Prop} {items : List α} {others : List β}
    (h : ∀ a ∈ items, ∀ b, rel a b ↔ rel' a b) : List.Forall₂ rel items others ↔ List.Forall₂ rel' items others :=
  ⟨fun hrel => Runs.forall₂_imp_of_mem hrel fun a b ha => (h a ha b).1,
    fun hrel => Runs.forall₂_imp_of_mem hrel fun a b ha => (h a ha b).2⟩

theorem mem_of_mem_sorted {body : List (String × α)} {entry : String × α}
    (h : entry ∈ (SortedMap.ofList body).entries) : entry ∈ body := by
  have hget : (SortedMap.ofList body).get? entry.1 = some entry.2 := SortedMap.get?_eq_some_iff.2 h
  rw [SortedMap.get?_ofList] at hget
  exact List.mem_reverse.1 (IndexMap.lookupEntry_eq_some hget)

theorem CanonicalWriter.agree {write write' : Doc → Except String String} (hw : CanonicalWriter write)
    (hw' : CanonicalWriter write') (d : Doc) : ∀ s, write d = .ok s ↔ write' d = .ok s := by
  induction d using Doc.induct with
  | plain token => intro s; rw [hw.plain, hw'.plain]
  | text pieces => intro s; rw [hw.text, hw'.text]
  | array items ih =>
      intro s
      rw [hw.array, hw'.array]
      exact exists_congr fun parts => and_congr_left fun _ => forall₂_congr_of_mem ih
  | object fields ih =>
      intro s
      rw [hw.object, hw'.object]
      refine exists_congr fun body => and_congr_right fun hbody => exists_congr fun parts => and_congr_left fun _ => ?_
      refine forall₂_congr_of_mem fun entry hentry part => and_congr_right fun _ => ?_
      obtain ⟨field, hfield, heq⟩ := hbody.mem (mem_of_mem_sorted hentry)
      rw [← heq]
      exact ih field hfield part.2

def lastValue {α : Type} (key : String) (body : List (String × α)) : Option α := IndexMap.lookupEntry key body.reverse

theorem get?_ofList_eq_lastValue (key : String) (body : List (String × α)) :
    (SortedMap.ofList body).get? key = lastValue key body := SortedMap.get?_ofList body key

/-- Documents that differ at most in blanks, in the order of their keys, in values written over and in the spelling of their strings. -/
inductive Alike : Doc → Doc → Prop
  | plain (token : List Char) : Alike (.plain token) (.plain token)
  | text {pieces others : List Piece} {value : String} (hpieces : readString? pieces = some value)
      (hothers : readString? others = some value) : Alike (.text pieces) (.text others)
  | array {items others : List Doc} (hlength : items.length = others.length)
      (hitems : ∀ (i : Nat) (a b : Doc), items[i]? = some a → others[i]? = some b → Alike a b) : Alike (.array items) (.array others)
  | object {fields others : List (List Piece × Doc)} {body body' : List (String × Doc)} (hbody : ReadsAs fields body)
      (hbody' : ReadsAs others body') (hkeys : ∀ key, (lastValue key body).isSome = (lastValue key body').isSome)
      (hvalues : ∀ key a b, lastValue key body = some a → lastValue key body' = some b → Alike a b) :
      Alike (.object fields) (.object others)

theorem Alike.symm {d e : Doc} (h : Alike d e) : Alike e d := by
  induction h with
  | plain token => exact .plain token
  | text hpieces hothers => exact .text hothers hpieces
  | array hlength _ ih => exact .array hlength.symm fun i a b ha hb => ih i b a hb ha
  | object hbody hbody' hkeys _ ih =>
      exact .object hbody' hbody (fun key => (hkeys key).symm) fun key a b ha hb => ih key b a hb ha

theorem Alike.trans {d e f : Doc} (h : Alike d e) (h' : Alike e f) : Alike d f := by
  induction h generalizing f with
  | plain token => exact h'
  | text hpieces hothers =>
      cases h' with
      | text hpieces' hothers' =>
          cases hothers.symm.trans hpieces'
          exact .text hpieces hothers'
  | @array items others hlength _ ih =>
      cases h' with
      | @array _ last hlength' hitems' =>
          refine .array (hlength.trans hlength') fun i a c ha hc => ?_
          have hi : i < others.length := by
            rw [← hlength]
            exact (List.getElem?_eq_some_iff.1 ha).1
          have hb := List.getElem?_eq_getElem hi
          exact ih i a _ ha hb (hitems' i _ c hb hc)
  | @object fields others body body' hbody hbody' hkeys _ ih =>
      cases h' with
      | object hmid hlast hkeys' hvalues' =>
          cases hbody'.unique hmid
          refine .object hbody hlast (fun key => (hkeys key).trans (hkeys' key)) fun key a c ha hc => ?_
          have hsome : (lastValue key body').isSome = true := by rw [← hkeys, ha, Option.isSome_some]
          obtain ⟨b, hb⟩ := Option.isSome_iff_exists.1 hsome
          exact ih key a b ha hb (hvalues' key b c hb hc)

theorem forall₂_of_getElem? {α β : Type} {rel : α → β → Prop} {items : List α} {others : List β}
    (hlength : items.length = others.length)
    (h : ∀ (i : Nat) (a : α) (b : β), items[i]? = some a → others[i]? = some b → rel a b) : List.Forall₂ rel items others := by
  induction items generalizing others with
  | nil =>
      rw [List.length_eq_zero_iff.1 hlength.symm]
      exact .nil
  | cons a rest ih =>
      cases others with
      | nil => cases hlength
      | cons b rest' =>
          refine .cons (h 0 a b rfl rfl) (ih (by simpa using hlength) fun i a' b' ha hb => ?_)
          exact h (i + 1) a' b' (by simpa using ha) (by simpa using hb)

theorem getElem?_of_forall₂ {α β : Type} {rel : α → β → Prop} {items : List α} {others : List β}
    (h : List.Forall₂ rel items others) (i : Nat) (a : α) (b : β) (ha : items[i]? = some a)
    (hb : others[i]? = some b) : rel a b := by
  induction h generalizing i with
  | nil => simp at ha
  | cons hhead _ ih =>
      cases i with
      | zero =>
          cases ha
          cases hb
          exact hhead
      | succ i => exact ih i (by simpa using ha) (by simpa using hb)

def writeValues (write : Doc → Except String String) (body : List (String × Doc)) :
    SortedMap String (Except String String) := (SortedMap.ofList body).mapValues fun _ value => write value

variable {write : Doc → Except String String}

variable {body : List (String × Doc)}

theorem partsOf_iff {parts : List (String × String)} :
    PartsOf write body parts ↔
      List.Forall₂ (fun entry part => entry.1 = part.1 ∧ entry.2 = Except.ok part.2) (writeValues write body).entries parts := by
  rw [PartsOf, writeValues, SortedMap.mapValues, List.forall₂_map_left_iff]

theorem ofList_map_values (write : Doc → Except String String) (body : List (String × Doc)) :
    SortedMap.ofList (body.map fun entry => (entry.1, write entry.2)) = writeValues write body :=
  (SortedMap.mapValues_ofList write body).symm

theorem get?_writeValues {key : String} :
    (writeValues write body).get? key = (lastValue key body).map write := by
  rw [writeValues, SortedMap.get?_mapValues, get?_ofList_eq_lastValue]

theorem forall₂_exists {α β : Type} {rel : α → β → Prop} {items : List α} (h : ∀ a ∈ items, ∃ b, rel a b) :
    ∃ others, List.Forall₂ rel items others := by
  induction items with
  | nil => exact ⟨[], .nil⟩
  | cons a rest ih =>
      obtain ⟨b, hb⟩ := h a (List.mem_cons_self ..)
      obtain ⟨others, hothers⟩ := ih fun c hc => h c (List.mem_cons_of_mem _ hc)
      exact ⟨b :: others, .cons hb hothers⟩

theorem CanonicalWriter.of_alike (hw : CanonicalWriter write) {d e : Doc}
    (h : Alike d e) : ∃ s, write d = .ok s ∧ write e = .ok s := by
  induction h with
  | plain token => exact ⟨_, hw.plain token, hw.plain token⟩
  | text hpieces hothers => exact ⟨_, hw.text.2 ⟨_, hpieces, rfl⟩, hw.text.2 ⟨_, hothers, rfl⟩⟩
  | @array items others hlength _ ih =>
      have hpaired : List.Forall₂ (fun a b => ∃ s, write a = .ok s ∧ write b = .ok s) items others :=
        forall₂_of_getElem? hlength ih
      obtain ⟨parts, hparts⟩ : ∃ parts, List.Forall₂ (fun a s => write a = Except.ok s) items parts := by
        refine forall₂_exists fun a ha => ?_
        obtain ⟨b, _, s, hs, _⟩ := Runs.forall₂_exists_right hpaired ha
        exact ⟨s, hs⟩
      have hparts' : List.Forall₂ (fun b s => write b = Except.ok s) others parts := by
        refine Runs.forall₂_comp ?_ hpaired.flip hparts
        rintro b a t ⟨s, ha, hb⟩ ht
        rw [hb, ← ha, ht]
      exact ⟨_, hw.array.2 ⟨parts, hparts, rfl⟩, hw.array.2 ⟨parts, hparts', rfl⟩⟩
  | @object fields others body body' hbody hbody' hkeys _ ih =>
      have hsame : writeValues write body = writeValues write body' := by
        refine SortedMap.ext_get? fun key => ?_
        rw [get?_writeValues, get?_writeValues]
        have hkey := hkeys key
        cases ha : lastValue key body with
        | none =>
            rw [ha] at hkey
            rw [Option.isSome_eq_false_iff.1 hkey.symm |> Option.isNone_iff_eq_none.1]
        | some a =>
            rw [ha] at hkey
            obtain ⟨b, hb⟩ := Option.isSome_iff_exists.1 hkey.symm
            obtain ⟨s, hs, hs'⟩ := ih key a b ha hb
            rw [hb, Option.map_some, Option.map_some, hs, hs']
      obtain ⟨parts, hparts⟩ : ∃ parts, PartsOf write body parts := by
        refine forall₂_exists fun entry hentry => ?_
        have ha : lastValue entry.1 body = some entry.2 := by
          rw [← get?_ofList_eq_lastValue]
          exact SortedMap.get?_eq_some_iff.2 hentry
        have hkey := hkeys entry.1
        rw [ha] at hkey
        obtain ⟨b, hb⟩ := Option.isSome_iff_exists.1 hkey.symm
        obtain ⟨s, hs, _⟩ := ih entry.1 entry.2 b ha hb
        exact ⟨(entry.1, s), rfl, hs⟩
      have hparts' : PartsOf write body' parts := by
        rw [partsOf_iff, ← hsame, ← partsOf_iff]
        exact hparts
      exact ⟨_, hw.object.2 ⟨body, hbody, parts, hparts, rfl⟩, hw.object.2 ⟨body', hbody', parts, hparts', rfl⟩⟩

theorem toList_joinItems {parts : List String} {items : List Doc}
    (h : List.Forall₂ (fun part item => Doc.render item = part.toList) parts items) :
    (joinItems parts).toList = (Doc.array items).render := by
  have hinner : (",".intercalate parts).toList = renderItems items := by
    induction h with
    | nil => rfl
    | @cons part item _ _ hhead htail ih =>
        cases htail with
        | nil => rw [String.intercalate_singleton, renderItems, hhead]
        | cons hnext hmore =>
            rw [String.intercalate_cons_cons, renderItems, hhead, ← ih]
            simp
  rw [joinItems, Doc.render, ← hinner]
  simp

theorem toList_joinFields {parts : List (String × String)} {fields : List (List Piece × Doc)}
    (h : List.Forall₂ (fun part field => field.1 = piecesOf part.1 ∧ Doc.render field.2 = part.2.toList) parts fields) :
    (joinFields parts).toList = (Doc.object fields).render := by
  have hinner : (",".intercalate (parts.map fun part => writeString part.1 ++ ":" ++ part.2)).toList
      = renderFields fields := by
    induction h with
    | nil => rfl
    | @cons part field _ _ hhead htail ih =>
        obtain ⟨key, value⟩ := field
        obtain ⟨rfl, hvalue⟩ := hhead
        cases htail with
        | nil =>
            rw [List.map_cons, List.map_nil, String.intercalate_singleton, renderFields, hvalue]
            simp [toList_writeString]
        | cons hnext hmore =>
            rw [List.map_cons, List.map_cons, String.intercalate_cons_cons, renderFields, hvalue, ← ih, List.map_cons]
            simp [toList_writeString]
  rw [joinFields, Doc.render, ← hinner]
  simp

theorem lookupEntry_of_forall₂ {α β : Type} {rel : α → β → Prop} {body : List (String × α)} {body' : List (String × β)}
    (h : List.Forall₂ (fun entry entry' => entry.1 = entry'.1 ∧ rel entry.2 entry'.2) body body') (key : String) :
    (IndexMap.lookupEntry key body).isSome = (IndexMap.lookupEntry key body').isSome ∧
      ∀ a b, IndexMap.lookupEntry key body = some a → IndexMap.lookupEntry key body' = some b → rel a b := by
  induction h with
  | nil => exact ⟨rfl, fun a b ha => nomatch ha⟩
  | cons hhead _ ih =>
      simp only [IndexMap.lookupEntry, hhead.1]
      split_ifs with hkey
      · refine ⟨rfl, fun a b ha hb => ?_⟩
        cases ha
        cases hb
        exact hhead.2
      · exact ih

theorem lastValue_entries (m : SortedMap String α) (key : String) : lastValue key m.entries = m.get? key := by
  rw [← get?_ofList_eq_lastValue, SortedMap.ofList_entries]

theorem alike_sorted {fields others : List (List Piece × Doc)} (hbody : ReadsAs fields body)
    (h : List.Forall₂ (fun entry field => field.1 = piecesOf entry.1 ∧ Alike entry.2 field.2)
      (SortedMap.ofList body).entries others) : Alike (.object fields) (.object others) := by
  have hlast : ∀ key, lastValue key body = lastValue key (SortedMap.ofList body).entries := by
    intro key
    rw [lastValue_entries, get?_ofList_eq_lastValue]
  generalize (SortedMap.ofList body).entries = entries at h hlast
  have hread : ReadsAs others (List.zipWith (fun entry field => (entry.1, field.2)) entries others) := by
    rw [ReadsAs]
    clear hlast
    induction h with
    | nil => exact .nil
    | @cons entry field _ _ hhead _ ih => exact .cons ⟨by rw [hhead.1, readString_piecesOf], rfl⟩ ih
  have hpaired : List.Forall₂ (fun entry entry' => entry.1 = entry'.1 ∧ Alike entry.2 entry'.2) entries
      (List.zipWith (fun entry field => (entry.1, field.2)) entries others) := by
    clear hlast hread
    induction h with
    | nil => exact .nil
    | cons hhead _ ih => exact .cons ⟨rfl, hhead.2⟩ ih
  have hlookup := fun key => lookupEntry_of_forall₂ (List.forall₂_reverse_iff.2 hpaired) key
  refine .object hbody hread (fun key => ?_) fun key a b ha hb => ?_
  · rw [hlast]
    exact (hlookup key).1
  · rw [hlast] at ha
    exact (hlookup key).2 a b ha hb

theorem CanonicalWriter.normal (hw : CanonicalWriter write) {d : Doc} :
    ∀ {s : String}, d.Valid → write d = .ok s → ∃ n : Doc, n.Valid ∧ n.render = s.toList ∧ Alike d n := by
  induction d using Doc.induct with
  | plain token =>
      intro s hvalid h
      rw [hw.plain] at h
      cases h
      exact ⟨.plain token, hvalid, String.toList_ofList.symm, .plain token⟩
  | text pieces =>
      intro s hvalid h
      obtain ⟨value, hread, rfl⟩ := hw.text.1 h
      exact ⟨.text (piecesOf value), .text (piecesOf_valid value), (toList_writeString value).symm,
        .text hread (readString_piecesOf value)⟩
  | array items ih =>
      intro s hvalid h
      obtain ⟨parts, hparts, rfl⟩ := hw.array.1 h
      have hitems : ∀ item ∈ items, Doc.Valid item := by
        cases hvalid with
        | array hitems => exact hitems
      obtain ⟨normals, hnormals⟩ : ∃ normals, List.Forall₂
          (fun item (n : Doc) => n.Valid ∧ Alike item n ∧ ∀ s, write item = .ok s → n.render = s.toList) items normals := by
        refine forall₂_exists fun item hitem => ?_
        obtain ⟨part, _, hpart⟩ := Runs.forall₂_exists_right hparts hitem
        obtain ⟨n, hn, hrender, halike⟩ := ih item hitem (hitems item hitem) hpart
        refine ⟨n, hn, halike, fun s hs => ?_⟩
        cases hpart.symm.trans hs
        exact hrender
      refine ⟨.array normals, .array fun n hn => ?_, ?_, .array hnormals.length_eq fun i a b ha hb => ?_⟩
      · obtain ⟨item, _, hitem⟩ := Runs.forall₂_exists_left hnormals hn
        exact hitem.1
      · refine (toList_joinItems (Runs.forall₂_comp ?_ hparts.flip hnormals)).symm
        exact fun part item n hpart hn => hn.2.2 part hpart
      · exact (getElem?_of_forall₂ hnormals i a b ha hb).2.1
  | object fields ih =>
      intro s hvalid h
      obtain ⟨body, hbody, parts, hparts, rfl⟩ := hw.object.1 h
      have hfields : ∀ field ∈ fields, Doc.Valid field.2 := by
        cases hvalid with
        | object _ hfields => exact hfields
      obtain ⟨normals, hnormals⟩ : ∃ normals, List.Forall₂
          (fun entry (n : List Piece × Doc) => n.1 = piecesOf entry.1 ∧ n.2.Valid ∧ Alike entry.2 n.2 ∧
            ∀ s, write entry.2 = .ok s → n.2.render = s.toList) (SortedMap.ofList body).entries normals := by
        refine forall₂_exists fun entry hentry => ?_
        obtain ⟨part, _, _, hpart⟩ := Runs.forall₂_exists_right hparts hentry
        obtain ⟨field, hfield, heq⟩ := hbody.mem (mem_of_mem_sorted hentry)
        obtain ⟨n, hn, hrender, halike⟩ := ih field hfield (hfields field hfield) (heq ▸ hpart)
        refine ⟨(piecesOf entry.1, n), rfl, hn, heq ▸ halike, fun s hs => ?_⟩
        cases hpart.symm.trans hs
        exact hrender
      refine ⟨.object normals, .object (fun n hn => ?_) (fun n hn => ?_), ?_, ?_⟩
      · obtain ⟨entry, _, hentry⟩ := Runs.forall₂_exists_left hnormals hn
        rw [hentry.1]
        exact piecesOf_valid entry.1
      · obtain ⟨entry, _, hentry⟩ := Runs.forall₂_exists_left hnormals hn
        exact hentry.2.1
      · refine (toList_joinFields (Runs.forall₂_comp ?_ hparts.flip hnormals)).symm
        exact fun part entry n hpart hn => ⟨hpart.1 ▸ hn.1, hn.2.2.2 part.2 hpart.2⟩
      · exact alike_sorted hbody (hnormals.imp fun entry n hn => ⟨hn.1, hn.2.2.1⟩)

theorem CanonicalWriter.same_iff (hw : CanonicalWriter write) {d e : Doc}
    (hd : d.Valid) (he : e.Valid) {s t : String} (hs : write d = .ok s) (ht : write e = .ok t) :
    s = t ↔ Alike d e := by
  constructor
  · rintro rfl
    obtain ⟨n, hn, hrender, halike⟩ := hw.normal hd hs
    obtain ⟨m, hm, hrender', halike'⟩ := hw.normal he ht
    cases render_injective hn hm (hrender.trans hrender'.symm)
    exact halike.trans halike'.symm
  · intro h
    obtain ⟨u, hu, hu'⟩ := hw.of_alike h
    rw [hs] at hu
    rw [ht] at hu'
    exact (Except.ok.inj hu).trans (Except.ok.inj hu').symm

def takeWritten (entry : String × Except String String) : Except String (String × String) :=
  entry.2.map fun written => (entry.1, written)

def invalidRecordValue : String := "Invalid record value"

mutual
/-- The canonical text of a record's document. Its fields are read into a map and sorted from there. -/
def writeSortedDocument : Doc → Except String String
  | .plain token => .ok (String.ofList token)
  | .text pieces => (readPlainText invalidRecordValue pieces).map writeString
  | .array items => ((writeSortedItems items).mapM id).map joinItems
  | .object fields =>
      (readKeys invalidRecordValue (writeSortedFields fields)).bind fun values =>
        ((SortedMap.ofList (IndexMap.ofList values).entries).entries.mapM takeWritten).map joinFields

def writeSortedItems : List Doc → List (Except String String)
  | [] => []
  | item :: rest => writeSortedDocument item :: writeSortedItems rest

def writeSortedFields : List (List Piece × Doc) → List (List Piece × Except String String)
  | [] => []
  | (key, value) :: rest => (key, writeSortedDocument value) :: writeSortedFields rest
end

theorem map_eq_ok {ε α β : Type} {x : Except ε α} {f : α → β} {b : β} :
    x.map f = .ok b ↔ ∃ a, x = .ok a ∧ b = f a := by
  cases x with
  | error e => simp [Except.map]
  | ok a => simp [Except.map, eq_comm]

theorem bind_eq_ok' {ε α β : Type} {x : Except ε α} {f : α → Except ε β} {b : β} :
    x.bind f = .ok b ↔ ∃ a, x = .ok a ∧ f a = .ok b := Except.bind_eq_ok

theorem writeSortedItems_eq (items : List Doc) : writeSortedItems items = items.map writeSortedDocument := by
  induction items with
  | nil => rfl
  | cons item rest ih => rw [writeSortedItems, ih, List.map_cons]

theorem writeSortedFields_eq (fields : List (List Piece × Doc)) :
    writeSortedFields fields = fields.map fun field => (field.1, writeSortedDocument field.2) := by
  induction fields with
  | nil => rfl
  | cons field rest ih => rw [writeSortedFields, ih, List.map_cons]

theorem text_writer {fail : String} {pieces : List Piece} {s : String} :
    (readPlainText fail pieces).map writeString = .ok s ↔ ∃ value, readString? pieces = some value ∧ s = writeString value := by
  simp only [map_eq_ok, readPlainText_eq_ok]

theorem items_writer {items : List Doc} {s : String} :
    ((items.map write).mapM id).map joinItems = .ok s ↔
      ∃ parts, List.Forall₂ (fun item part => write item = .ok part) items parts ∧ s = joinItems parts := by
  simp only [map_eq_ok, Runs.mapM_eq_ok, List.forall₂_map_left_iff, id_eq]

theorem takeWritten_eq_ok {entry : String × Except String String} {part : String × String} :
    takeWritten entry = .ok part ↔ entry.1 = part.1 ∧ entry.2 = .ok part.2 := by
  rw [takeWritten, map_eq_ok]
  constructor
  · rintro ⟨written, hwritten, rfl⟩
    exact ⟨rfl, hwritten⟩
  · rintro ⟨hkey, hwritten⟩
    exact ⟨part.2, hwritten, Prod.ext hkey.symm rfl⟩

theorem fields_writer {fail : String} {fields : List (List Piece × Doc)} {s : String}
    {collect : List (String × Except String String) → SortedMap String (Except String String)}
    (hcollect : ∀ values, collect values = SortedMap.ofList values) :
    ((readKeys fail (fields.map fun field => (field.1, write field.2))).bind fun values =>
      ((collect values).entries.mapM takeWritten).map joinFields) = .ok s ↔
      ∃ body, ReadsAs fields body ∧ ∃ parts, PartsOf write body parts ∧ s = joinFields parts := by
  simp only [bind_eq_ok', readKeys_eq_ok, hcollect, map_eq_ok, Runs.mapM_eq_ok, takeWritten_eq_ok, ReadsAs.map_iff]
  constructor
  · rintro ⟨_, ⟨body, hbody, rfl⟩, parts, hparts, rfl⟩
    refine ⟨body, hbody, parts, ?_, rfl⟩
    rw [partsOf_iff, ← ofList_map_values]
    exact hparts
  · rintro ⟨body, hbody, parts, hparts, rfl⟩
    refine ⟨_, ⟨body, hbody, rfl⟩, parts, ?_, rfl⟩
    rw [partsOf_iff, ← ofList_map_values] at hparts
    exact hparts

theorem writeSortedDocument_canonical : CanonicalWriter writeSortedDocument where
  plain token := by rw [writeSortedDocument]
  text := by
    intro pieces s
    rw [writeSortedDocument, text_writer]
  array := by
    intro items s
    rw [writeSortedDocument, writeSortedItems_eq, items_writer]
  object := by
    intro fields s
    rw [writeSortedDocument, writeSortedFields_eq]
    exact fields_writer SortedMap.ofList_indexMap

end EdgarPlatform.Records
