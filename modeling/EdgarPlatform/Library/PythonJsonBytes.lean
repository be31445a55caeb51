import EdgarPlatform.Library.PythonJson

/-!
# JSON in bytes

The values of an interpreter written with every character as itself but those a document must escape, and encoded in UTF-8. A surrogate has no encoding, so a value with one in a text is not written.
-/

namespace PythonJson

open JsonText

variable {F : Type} {floats : Floats F}

def isScalar (n : Nat) : Bool := n < 0xD800 || (0xDFFF < n && n < 0x110000)

/-- The piece a code point is written as where nothing is escaped that need not be. -/
def plainPiece (n : Nat) : Piece :=
  match escapeOf n with
  | some c => .escape c
  | none =>
      if n < 32 then .code (hex (n / 4096)) (hex (n / 256)) (hex (n / 16)) (hex n)
      else .plain (Char.ofNat n)

def spellPlain (t : Text) : List Piece := t.map plainPiece

theorem isScalar_iff {n : Nat} : isScalar n = true ↔ n < 0xD800 ∨ 0xDFFF < n ∧ n < 0x110000 := by
  simp only [isScalar, Bool.or_eq_true, Bool.and_eq_true, decide_eq_true_eq]

theorem toNat_of_scalar {n : Nat} (h : isScalar n = true) : (Char.ofNat n).toNat = n := by
  have hvalid : n.isValidChar := isScalar_iff.1 h
  rw [Char.ofNat, dif_pos hvalid]
  rfl

theorem plainPiece_spec {n : Nat} (h : isScalar n = true) : unitOf (plainPiece n) = n ∧ (plainPiece n).valid = true := by
  rw [plainPiece]
  cases hescape : escapeOf n with
  | some c => exact escapeOf_eq_some hescape
  | none =>
      obtain ⟨hquote, hslash⟩ := escapeOf_eq_none hescape
      simp only
      split_ifs with hsmall
      · refine ⟨?_, ?_⟩
        · simp only [unitOf, (hexValue_hex _).1]
          omega
        · simp only [Piece.valid, (hexValue_hex _).2, Bool.and_self]
      · have hnat := toNat_of_scalar h
        refine ⟨hnat, ?_⟩
        have hne : ∀ d : Char, d.toNat ≠ n → Char.ofNat n ≠ d := by
          intro d hd heq
          rw [← heq] at hd
          exact hd hnat
        simp only [Piece.valid, hnat, Bool.and_eq_true, decide_eq_true_eq]
        exact ⟨⟨hne _ hquote.symm, hne _ hslash.symm⟩, Nat.le_of_not_lt hsmall⟩

theorem join_of_scalar {t : Text} (h : ∀ n ∈ t, isScalar n = true) : join t = t := by
  induction t with
  | nil => rfl
  | cons n rest ih =>
      have hrest := ih fun m hm => h m (List.mem_cons_of_mem _ hm)
      cases rest with
      | nil => rfl
      | cons m more =>
          have hn := isScalar_iff.1 (h n (List.mem_cons_self ..))
          have hleading : isLeading n = false := by
            rw [isLeading, Bool.and_eq_false_iff, decide_eq_false_iff_not, decide_eq_false_iff_not]
            omega
          rw [join, hleading, Bool.false_and, if_neg Bool.false_ne_true, hrest]

theorem spells_spellPlain {t : Text} (h : t.all isScalar = true) : Spells spellPlain t := by
  have hscalar := List.all_eq_true.1 h
  refine ⟨List.all_eq_true.2 fun piece hpiece => ?_, ?_⟩
  · obtain ⟨n, hn, rfl⟩ := List.mem_map.1 hpiece
    exact (plainPiece_spec (hscalar n hn)).2
  · have hunits : (spellPlain t).map unitOf = t := by
      rw [spellPlain, List.map_map]
      exact (List.map_congr_left fun n hn => (plainPiece_spec (hscalar n hn)).1).trans (List.map_id t)
    rw [readText, hunits, join_of_scalar hscalar]

def utf8 (s : List Char) : List UInt8 := s.flatMap String.utf8EncodeChar

def decodeUtf8 (bytes : List UInt8) : Option (List Char) := bytes.toByteArray.utf8Decode?.map Array.toList

theorem decodeUtf8_utf8 (s : List Char) : decodeUtf8 (utf8 s) = some s := by
  have hdecode : (utf8 s).toByteArray.utf8Decode? = some s.toArray := List.utf8Decode?_utf8Encode
  rw [decodeUtf8, hdecode]
  rfl

theorem length_utf8 (s : List Char) : (utf8 s).length = weigh Char.utf8Size s := by
  rw [utf8, List.length_flatMap, weigh]
  exact congrArg List.sum (List.map_congr_left fun c _ => String.length_utf8EncodeChar c)

theorem marks_utf8 : Marks Char.utf8Size := ⟨rfl, rfl, rfl, ⟨rfl, rfl⟩, ⟨rfl, rfl⟩⟩

def encode (floats : Floats F) (v : Value F) : Except String (List UInt8) :=
  if v.finite floats then
    if v.texts.all fun t => t.all isScalar then .ok (utf8 (v.spelled spellPlain floats).render)
    else .error "surrogates not allowed"
  else .error "Out of range float values are not JSON compliant"

def jsonValue (floats : Floats F) (bytes : List UInt8) : Except String (Value F) :=
  match decodeUtf8 bytes with
  | some text => loads floats text
  | none => .error "Invalid UTF-8"

def Value.byteSize (floats : Floats F) (v : Value F) : Nat := v.weight Char.utf8Size spellPlain floats

theorem encode_eq_ok {v : Value F} {data : List UInt8} (h : encode floats v = .ok data) :
    v.finite floats = true ∧ (∀ t ∈ v.texts, Spells spellPlain t) ∧ data = utf8 (v.spelled spellPlain floats).render := by
  rw [encode] at h
  split_ifs at h with hfinite hscalar
  exact ⟨hfinite, fun t ht => spells_spellPlain (List.all_eq_true.1 hscalar t ht), (Except.ok.inj h).symm⟩

theorem length_of_encode {v : Value F} {data : List UInt8} (h : encode floats v = .ok data) : data.length = v.byteSize floats := by
  rw [(encode_eq_ok h).2.2, length_utf8]
  rfl

theorem jsonValue_encode {v : Value F} {data : List UInt8} (h : v.Valid) (hdata : encode floats v = .ok data) :
    jsonValue floats data = .ok v.normal := by
  obtain ⟨hfinite, hspell, rfl⟩ := encode_eq_ok hdata
  rw [jsonValue, decodeUtf8_utf8]
  exact loads_spelled h hfinite hspell

end PythonJson
