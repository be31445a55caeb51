import EdgarPlatform.Control.Canonical
import EdgarPlatform.Library.Numerals
import EdgarPlatform.Records.Meanings

/-!
# Structural equality of delivered values

Delivered values are compared as JSON documents with exact numbers. Their text is canonical: a number is its digits without zeros at either end and the power of ten they count, so that two texts are equal exactly when the documents mean the same, each number the rational it is.
-/

namespace EdgarPlatform.Silver

open JsonText Decimals
open Records (readPlainText readKeys takeWritten joinItems joinFields writeString Meaning mean Layout)

def invalidExponent : String := "Invalid Silver numeric exponent"

def checked (n : Int) : Except String Int := if -2 ^ 63 ≤ n ∧ n < 2 ^ 63 then .ok n else .error invalidExponent

def parseExponent (e : List Char) : Except String Int := (readExponent e).elim (.error invalidExponent) checked

/-- A number by its digits and the power of ten they count. No zeros are written out for an exponent. -/
def number (token : List Char) : Except String (List Char) := do
  let mantissa := (splitOnce isExponentMark (unsigned token)).1
  let exponent ← (splitOnce isExponentMark (unsigned token)).2.elim (.ok 0) parseExponent
  let fractional := (splitOnce isPoint mantissa).2.elim 0 List.length
  let digits := (mantissa.filter fun c => !isPoint c).dropWhile isZero
  if digits = [] then .ok ['0']
  else do
    let kept := digits.rdropWhile isZero
    let power ← checked (exponent - fractional)
    let power ← checked (power + (digits.length - kept.length : Nat))
    let text := (if token.head? = some '-' then ['-'] else []) ++ kept
    .ok (if power = 0 then text else text ++ 'e' :: PythonJson.intText power)

def beginsNumber (token : List Char) : Bool := token.head?.any fun c => c = '-' || c.isDigit

def plainText (token : List Char) : Except String (List Char) := if beginsNumber token then number token else .ok token

mutual
def canonical : Doc → Except String String
  | .plain token => (plainText token).map String.ofList
  | .text pieces => (readPlainText "Invalid Silver text" pieces).map writeString
  | .array items => ((canonicalItems items).mapM id).map joinItems
  | .object fields =>
      (readKeys "Invalid Silver object" (canonicalFields fields)).bind fun object =>
        ((SortedMap.ofList object).entries.mapM takeWritten).map joinFields

def canonicalItems : List Doc → List (Except String String)
  | [] => []
  | item :: rest => canonical item :: canonicalItems rest

def canonicalFields : List (List Piece × Doc) → List (List Piece × Except String String)
  | [] => []
  | (key, value) :: rest => (key, canonical value) :: canonicalFields rest
end

def canonicalizeNumericJson (raw : String) : Except String String := do
  let value ← Control.readDocument "Invalid Silver JSON" raw
  canonical value

theorem filter_splitOnce {s : List Char} (h : ∀ c ∈ (splitOnce isPoint s).2.getD [], isPoint c = false) :
    s.filter (fun c => !isPoint c) = (splitOnce isPoint s).1 ++ (splitOnce isPoint s).2.getD [] := by
  have hsplit := List.takeWhile_append_dropWhile (p := fun c => !isPoint c) (l := s)
  have htake : (s.takeWhile fun c => !isPoint c).filter (fun c => !isPoint c) = s.takeWhile fun c => !isPoint c :=
    List.filter_eq_self.2 fun c hc => List.mem_takeWhile_imp (p := fun c => !isPoint c) hc
  conv_lhs => rw [← hsplit]
  rw [List.filter_append, htake]
  refine congrArg _ ?_
  cases hrest : s.dropWhile fun c => !isPoint c with
  | nil => rw [splitOnce, hrest]; rfl
  | cons c tail =>
      have hhead := List.head?_dropWhile_not (fun c => !isPoint c) s
      rw [hrest] at hhead
      have hpoint : (!isPoint c) = false := by simpa using hhead
      have htail : (splitOnce isPoint s).2.getD [] = tail := by rw [splitOnce, hrest]; rfl
      rw [htail] at h ⊢
      rw [List.filter_cons_of_neg (by rw [hpoint]; decide)]
      exact List.filter_eq_self.2 fun d hd => by rw [h d hd]; rfl

variable {token : List Char}

theorem number_parts (h : isNumber token = true) :
    ((splitOnce isExponentMark (unsigned token)).1.filter fun c => !isPoint c) = (split token).digits ∧
      (splitOnce isPoint (splitOnce isExponentMark (unsigned token)).1).2.elim 0 List.length = (split token).fraction.length ∧
      (splitOnce isExponentMark (unsigned token)).2.elim (.ok 0) parseExponent =
        (if (split token).exponent = none then .ok 0 else checked (split token).power) := by
  have hsound := split_sound h
  have hfraction : (split token).fraction = (splitOnce isPoint (splitOnce isExponentMark (unsigned token)).1).2.getD [] := rfl
  refine ⟨filter_splitOnce fun c hc => ?_, ?_, ?_⟩
  · exact (not_mark_of_isDigit (hsound.fraction c (hfraction ▸ hc))).1
  · rw [hfraction]
    cases (splitOnce isPoint (splitOnce isExponentMark (unsigned token)).1).2 <;> rfl
  · have hexponent : (split token).exponent = (splitOnce isExponentMark (unsigned token)).2 := rfl
    rw [Parts.power, ← hexponent]
    cases he : (split token).exponent with
    | none => rfl
    | some e =>
        obtain ⟨n, hn⟩ := hsound.exponent e he
        rw [Option.elim_some, parseExponent, hn, if_neg (by simp), Option.bind_some, hn]
        rfl

theorem checked_eq_ok {n m : Int} : checked n = .ok m ↔ (-2 ^ 63 ≤ n ∧ n < 2 ^ 63) ∧ m = n := by
  rw [checked]
  split_ifs with h
  · exact ⟨fun heq => ⟨h, (Except.ok.inj heq).symm⟩, fun heq => congrArg Except.ok heq.2.symm⟩
  · exact ⟨fun heq => (nomatch heq), fun heq => absurd heq.1 h⟩

theorem number_spec (h : isNumber token = true) {t : List Char} (hok : number token = .ok t) :
    t = ['0'] ∧ rational token = 0 ∨
      ∃ n : Numeral, t = n.parts.spell ∧ (-2 ^ 63 ≤ n.power ∧ n.power < 2 ^ 63) ∧ rational token = n.rational := by
  obtain ⟨hdigits, hfraction, hexponent⟩ := number_parts h
  have hsound := split_sound h
  have hall : ∀ c ∈ (split token).digits, c.isDigit = true := by
    intro c hc
    rcases List.mem_append.1 hc with hc | hc
    · exact hsound.whole c hc
    · exact hsound.fraction c hc
  simp only [number, Except.bind_eq_ok] at hok
  obtain ⟨exponent, hread, hok⟩ := hok
  have hpower : exponent = (split token).power := by
    rw [hexponent] at hread
    split_ifs at hread with hnone
    · rw [← Except.ok.inj hread, Parts.power, hnone]
      rfl
    · exact (checked_eq_ok.1 hread).2
  subst hpower
  rw [hdigits, hfraction] at hok
  by_cases hzero : (split token).digits.dropWhile isZero = []
  · rw [if_pos hzero] at hok
    refine .inl ⟨(Except.ok.inj hok).symm, ?_⟩
    have hvalue : Digits.value (split token).digits = 0 := by rw [← value_dropZeros, hzero]; rfl
    rw [rational, Parts.rational, hvalue]
    simp
  · rw [if_neg hzero] at hok
    obtain ⟨power, hfirst, hok⟩ := Except.bind_eq_ok.1 hok
    obtain ⟨power', hsecond, hok⟩ := Except.bind_eq_ok.1 hok
    obtain ⟨_, rfl⟩ := checked_eq_ok.1 hfirst
    obtain ⟨hrange, rfl⟩ := checked_eq_ok.1 hsecond
    generalize hrest : (split token).digits.dropWhile isZero = digits at hok hzero hrange
    have hmem : ∀ c ∈ digits, c.isDigit = true := fun c hc => hall c ((List.dropWhile_sublist _).subset (hrest ▸ hc))
    obtain ⟨c, rest, hcons⟩ := List.exists_cons_of_ne_nil hzero
    have hc : isZero c = false := by
      have hhead := List.head?_dropWhile_not isZero (split token).digits
      rw [hrest, hcons] at hhead
      simpa using hhead
    have hkept : digits.rdropWhile isZero ≠ [] := by
      intro hnil
      rw [List.rdropWhile_eq_nil_iff] at hnil
      have hone := hnil c (hcons ▸ List.mem_cons_self ..)
      rw [hc] at hone
      cases hone
    have hfirst : ∃ c rest, digits.rdropWhile isZero = c :: rest ∧ c ≠ '0' := by
      obtain ⟨back, hback⟩ : digits.rdropWhile isZero <+: digits := List.rdropWhile_prefix isZero digits
      obtain ⟨d, rest', hd⟩ := List.exists_cons_of_ne_nil hkept
      rw [hd, hcons, List.cons_append] at hback
      refine ⟨d, rest', hd, ?_⟩
      rw [List.head_eq_of_cons_eq hback]
      exact of_decide_eq_false hc
    have hlast : ∃ front c, digits.rdropWhile isZero = front ++ [c] ∧ c ≠ '0' := by
      refine ⟨_, _, (List.dropLast_append_getLast hkept).symm, fun heq => ?_⟩
      exact List.rdropWhile_last_not isZero digits hkept (decide_eq_true heq)
    let n : Numeral :=
      { negative := token.head? = some '-'
        digits := digits.rdropWhile isZero
        power := (split token).power - (split token).fraction.length + (digits.length - (digits.rdropWhile isZero).length : Nat)
        digit := fun c hc => hmem c ((List.rdropWhile_prefix isZero digits).subset hc)
        first := hfirst
        last := hlast }
    refine .inr ⟨n, ?_, hrange, ?_⟩
    · have hnegative : (if n.negative then ['-'] else []) = if token.head? = some '-' then ['-'] else [] := by
        simp only [n, decide_eq_true_eq]
      rw [← Except.ok.inj hok, n.spell_parts, hnegative]
      show (if n.power = 0 then _ ++ n.digits else (_ ++ n.digits) ++ _) = _
      by_cases hpower : n.power = 0
      · rw [if_pos hpower, if_pos hpower]
      · rw [if_neg hpower, if_neg hpower, List.append_assoc]
    · have hvalue : Digits.value (split token).digits =
          Digits.value n.digits * 10 ^ (digits.length - (digits.rdropWhile isZero).length) := by
        rw [← value_dropZeros, hrest]
        exact value_rdropZeros digits
      have hsign : (split token).negative = n.negative := rfl
      rw [rational, Parts.rational, hvalue, hsign, Numeral.rational]
      show _ = _ * (10 : ℚ) ^ ((split token).power - (split token).fraction.length +
        ((digits.length - (digits.rdropWhile isZero).length : Nat) : Int))
      rw [zpow_add₀ (by decide : (10 : ℚ) ≠ 0), zpow_natCast]
      push_cast
      ring

theorem number_text (n : Numeral) (hrange : -2 ^ 63 ≤ n.power ∧ n.power < 2 ^ 63) : number n.parts.spell = .ok n.parts.spell := by
  obtain ⟨hdigits, hfraction, hexponent⟩ := number_parts n.isNumber_text
  rw [n.split_text] at hdigits hfraction hexponent
  have hread : (splitOnce isExponentMark (unsigned n.parts.spell)).2.elim (.ok 0) parseExponent = .ok n.power := by
    rw [hexponent, n.power_parts]
    split_ifs with hnone
    · rw [Numeral.parts] at hnone
      split_ifs at hnone with hzero
      rw [hzero]
    · exact checked_eq_ok.2 ⟨hrange, rfl⟩
  obtain ⟨c, rest, hfirst, hc⟩ := n.first
  obtain ⟨front, d, hlast, hd⟩ := n.last
  have hwhole : n.parts.digits = n.digits := List.append_nil n.digits
  have hdrop : n.digits.dropWhile isZero = n.digits := by
    rw [hfirst]
    exact List.dropWhile_cons_of_neg (by simpa [isZero] using hc)
  have hrdrop : n.digits.rdropWhile isZero = n.digits := by
    rw [hlast]
    exact List.rdropWhile_concat_neg isZero front d (by simpa [isZero] using hd)
  have hne : n.digits ≠ [] := by rw [hfirst]; exact List.cons_ne_nil _ _
  have hhead : (if n.parts.spell.head? = some '-' then ['-'] else []) = if n.negative then ['-'] else [] := by
    have hsplit := congrArg Parts.negative n.split_text
    have hdecide : decide (n.parts.spell.head? = some '-') = n.negative := hsplit
    rw [← hdecide]
    simp only [decide_eq_true_eq]
  have hzero : n.parts.fraction.length = 0 := rfl
  rw [number, hread, Except.bind_ok]
  simp only [hdigits, hfraction, hwhole, hdrop, hrdrop, hhead, hzero, if_neg hne, Nat.sub_self, Nat.cast_zero, sub_zero, add_zero]
  rw [checked_eq_ok.2 ⟨hrange, rfl⟩, Except.bind_ok, checked_eq_ok.2 ⟨hrange, rfl⟩, Except.bind_ok]
  refine congrArg Except.ok ?_
  rw [n.spell_parts]
  by_cases hpower : n.power = 0
  · rw [if_pos hpower, if_pos hpower]
  · rw [if_neg hpower, if_neg hpower, List.append_assoc]

theorem beginsNumber_of_isNumber (h : isNumber token = true) : beginsNumber token = true := by
  cases token with
  | nil => cases h
  | cons c rest =>
      rw [isNumber] at h
      rw [beginsNumber, List.head?_cons, Option.any_some, Bool.or_eq_true, decide_eq_true_eq]
      split_ifs at h with hsign
      · exact .inl hsign
      · refine .inr ?_
        by_contra hdigit
        rw [isUnsigned, List.takeWhile_cons_of_neg hdigit] at h
        cases h

theorem plainText_of_isNumber (h : isNumber token = true) : plainText token = number token := by
  rw [plainText, if_pos (beginsNumber_of_isNumber h)]

theorem isName_or_isNumber (h : isPlain token = true) :
    isNumber token = true ∨ beginsNumber token = false := by
  rw [isPlain, Bool.or_eq_true] at h
  rcases h with h | h
  · refine .inr ?_
    simp only [isName, Bool.or_eq_true, decide_eq_true_eq] at h
    rcases h with (rfl | rfl) | rfl <;> decide
  · exact .inl h

/-- What a token is: a name, or the rational it is the text of. -/
def exactToken (token : List Char) : List Char ⊕ ℚ := if beginsNumber token then .inr (rational token) else .inl token

theorem plainText_spec {token t : List Char} (h : isPlain token = true) (hok : plainText token = .ok t) :
    (isPlain t = true ∧ plainText t = .ok t) ∧ exactToken token = exactToken t := by
  rcases isName_or_isNumber h with hnumber | hname
  · rw [plainText_of_isNumber hnumber] at hok
    have hexact : exactToken token = .inr (rational token) := if_pos (beginsNumber_of_isNumber hnumber)
    rcases number_spec hnumber hok with ⟨rfl, hzero⟩ | ⟨n, rfl, hrange, hrational⟩
    · have hvalue : rational ['0'] = 0 := by decide +kernel
      refine ⟨⟨by decide, by decide +kernel⟩, ?_⟩
      rw [hexact, hzero, exactToken, if_pos (by decide), hvalue]
    · refine ⟨⟨?_, ?_⟩, ?_⟩
      · rw [isPlain, n.isNumber_text, Bool.or_true]
      · rw [plainText_of_isNumber n.isNumber_text]
        exact number_text n hrange
      · rw [hexact, exactToken, if_pos (beginsNumber_of_isNumber n.isNumber_text), n.rational_text, hrational]
  · rw [plainText, hname] at hok
    cases hok
    refine ⟨⟨h, ?_⟩, rfl⟩
    rw [plainText, hname]
    rfl

theorem exactToken_inj {t u : List Char} (ht : isPlain t = true ∧ plainText t = .ok t) (hu : isPlain u = true ∧ plainText u = .ok u)
    (h : exactToken t = exactToken u) : t = u := by
  rcases isName_or_isNumber ht.1 with hnumber | hname
  · have hexact : exactToken t = .inr (rational t) := if_pos (beginsNumber_of_isNumber hnumber)
    rcases isName_or_isNumber hu.1 with hnumber' | hname'
    · have hexact' : exactToken u = .inr (rational u) := if_pos (beginsNumber_of_isNumber hnumber')
      have hsame : rational t = rational u := Sum.inr.inj (hexact.symm.trans (h.trans hexact'))
      have hok := (plainText_of_isNumber hnumber).symm.trans ht.2
      have hok' := (plainText_of_isNumber hnumber').symm.trans hu.2
      have hnonzero : ∀ n : Numeral, n.rational ≠ 0 := by
        intro n
        rw [Numeral.rational]
        refine mul_ne_zero (mul_ne_zero (by split_ifs <;> decide) ?_) (zpow_ne_zero _ (by decide))
        exact_mod_cast n.value_pos.ne'
      rcases number_spec hnumber hok with ⟨rfl, hzero⟩ | ⟨n, htext, _, hrational⟩
      · rcases number_spec hnumber' hok' with ⟨rfl, _⟩ | ⟨m, _, _, hrational'⟩
        · rfl
        · exact absurd (hrational'.symm.trans (hsame.symm.trans hzero)) (hnonzero m)
      · rcases number_spec hnumber' hok' with ⟨rfl, hzero'⟩ | ⟨m, htext', _, hrational'⟩
        · exact absurd (hrational.symm.trans (hsame.trans hzero')) (hnonzero n)
        · obtain ⟨hnegative, hdigits, hpower⟩ := Numeral.rational_inj (hrational.symm.trans (hsame.trans hrational'))
          rw [htext, htext', n.spell_parts, m.spell_parts, hnegative, hdigits, hpower]
    · rw [hexact, exactToken, hname'] at h
      cases h
  · have hexact : exactToken t = .inl t := by rw [exactToken, hname]; rfl
    rw [hexact, exactToken] at h
    split_ifs at h
    exact Sum.inl.inj h

def layout : Layout (List Char) String := .compact id

theorem layout_lawful : layout.Lawful plainText fun t => isPlain t = true ∧ plainText t = .ok t where
  blanks := rfl
  token _ ht := ht
  regular _ _ h hok := (plainText_spec h hok).1

theorem canonicalItems_eq (items : List Doc) : canonicalItems items = items.map canonical := by
  induction items with
  | nil => rfl
  | cons item rest ih => rw [canonicalItems, ih, List.map_cons]

theorem canonicalFields_eq (fields : List (List Piece × Doc)) :
    canonicalFields fields = fields.map fun field => (field.1, canonical field.2) := by
  induction fields with
  | nil => rfl
  | cons field rest ih => rw [canonicalFields, ih, List.map_cons]

theorem canonical_eq_ok {d : Doc} {s : String} : canonical d = .ok s ↔ ∃ v, mean plainText d = .ok v ∧ s = v.spell layout := by
  refine Records.compact_writer (fun t s => ?_) (fun pieces s => ?_) (fun items s => ?_) (fun fields s => ?_) d s
  · rw [canonical, Records.map_eq_ok]
    rfl
  · rw [canonical, Records.text_writer]
  · rw [canonical, canonicalItems_eq, Records.items_writer]
  · rw [canonical, canonicalFields_eq]
    exact Records.fields_writer fun _ => rfl

/-- Two texts are of documents that mean the same, each number the rational it is. -/
def SameValue (raw other : String) : Prop :=
  ∃ d e v, parse raw.toList = some d ∧ parse other.toList = some e ∧
    mean (fun token => .ok (exactToken token)) d = .ok v ∧ mean (fun token => .ok (exactToken token)) e = .ok v

theorem canonicalizeNumericJson_eq_ok {raw s : String} :
    canonicalizeNumericJson raw = .ok s ↔
      ∃ d v, parse raw.toList = some d ∧ mean plainText d = .ok v ∧ s = v.spell layout := by
  simp only [canonicalizeNumericJson, Except.bind_eq_ok, Control.readDocument_eq_ok, canonical_eq_ok]
  constructor
  · rintro ⟨d, hd, v, hv, rfl⟩
    exact ⟨d, v, hd, hv, rfl⟩
  · rintro ⟨d, v, hd, hv, rfl⟩
    exact ⟨d, hd, v, hv, rfl⟩

/-- Two documents are written as one text exactly when they are structurally equal with exact numbers, and a text so written is written as it stands. -/
theorem canonicalizeNumericJson_is_exact {raw other s t : String} (hs : canonicalizeNumericJson raw = .ok s)
    (ht : canonicalizeNumericJson other = .ok t) : (s = t ↔ SameValue raw other) ∧ canonicalizeNumericJson s = .ok s := by
  obtain ⟨d, v, hd, hv, rfl⟩ := canonicalizeNumericJson_eq_ok.1 hs
  obtain ⟨e, w, he, hw, rfl⟩ := canonicalizeNumericJson_eq_ok.1 ht
  have hvalid := valid_of_parse hd
  have hvalid' := valid_of_parse he
  have hexact : ∀ {d : Doc} {v : Meaning (List Char)}, d.Valid → mean plainText d = .ok v →
      mean (fun token => .ok (exactToken token)) d = .ok (v.map exactToken) := fun hvalid hv =>
    Records.mean_map (fun token t htoken hok => congrArg Except.ok (plainText_spec htoken hok).2) hvalid hv
  have hregular : ∀ {d : Doc} {v : Meaning (List Char)}, d.Valid → mean plainText d = .ok v → v.Regular _ :=
    fun hvalid hv => Records.mean_regular layout_lawful.regular hvalid hv
  refine ⟨?_, ?_⟩
  · rw [layout_lawful.spell_inj hvalid hvalid' hv hw]
    constructor
    · rintro rfl
      exact ⟨d, e, _, hd, he, hexact hvalid hv, hexact hvalid' hw⟩
    · rintro ⟨d', e', u, hd', he', hu, hu'⟩
      cases hd.symm.trans hd'
      cases he.symm.trans he'
      have hsame : v.map exactToken = w.map exactToken :=
        Except.ok.inj ((hexact hvalid hv).symm.trans (hu.trans (hu'.symm.trans (hexact hvalid' hw))))
      exact (hregular hvalid hv).map_inj (fun _ _ => exactToken_inj) (hregular hvalid' hw) hsame
  · obtain ⟨hparse, hmean⟩ := layout_lawful.read_spell hvalid hv
    exact canonicalizeNumericJson_eq_ok.2 ⟨_, _, hparse, hmean, rfl⟩

/-- A zero with a sign, zeros after the point and an exponent, and another order of keys. -/
theorem canonicalizeNumericJson_is_exact_spelled :
    SameValue "\x7b\"z\": -0.0, \"x\": [1.2500, 1e60]\x7d" "\x7b\"x\":[125E-2,10.0e+59],\"z\":0\x7d" :=
  have hs : canonicalizeNumericJson "\x7b\"z\": -0.0, \"x\": [1.2500, 1e60]\x7d" =
      .ok "\x7b\"x\":[125e-2,1e60],\"z\":0\x7d" := by decide +kernel
  have ht : canonicalizeNumericJson "\x7b\"x\":[125E-2,10.0e+59],\"z\":0\x7d" =
      .ok "\x7b\"x\":[125e-2,1e60],\"z\":0\x7d" := by decide +kernel
  (canonicalizeNumericJson_is_exact hs ht).1.1 rfl

end EdgarPlatform.Silver
