import EdgarPlatform.Library.Decimals
import EdgarPlatform.Records.Stored
import Mathlib.Data.List.Perm.Subperm

/-!
# What it is for values to match

Two values match where they have one shape and matching numbers: lists item by item, objects key by key whatever the order of their keys. So matching is an equivalence as far as the comparison of numbers is one. Numbers are compared by their texts, which stands for a comparison of what Python reads the texts as.
-/

namespace EdgarPlatform.Records

open JsonText (isNumber)

/-- Two values of one shape whose numbers are alike. -/
inductive Matched (alike : String → String → Prop) : Json → Json → Prop
  | null : Matched alike .null .null
  | number {a b : Json} {x y : String} (ha : readNumberText a = some x) (hb : readNumberText b = some y) (h : alike x y) :
      Matched alike a b
  | str (value : String) : Matched alike (.str value) (.str value)
  | arr {items others : List Json} (hlength : items.length = others.length)
      (hitems : ∀ (i : Nat) a b, items[i]? = some a → others[i]? = some b → Matched alike a b) : Matched alike (.arr items) (.arr others)
  | obj {fields others : List (String × Json)}
      (hkeys : ∀ key, ((IndexMap.ofList fields).get? key).isSome = ((IndexMap.ofList others).get? key).isSome)
      (hvalues : ∀ key a b, (IndexMap.ofList fields).get? key = some a → (IndexMap.ofList others).get? key = some b →
        Matched alike a b) : Matched alike (.obj fields) (.obj others)

variable {alike alike' : String → String → Prop}

theorem Matched.refl (hrefl : ∀ x, alike x x) (a : Json) : Matched alike a a := by
  induction a using Json.induct with
  | null => exact .null
  | bool value => cases value <;> exact .number rfl rfl (hrefl _)
  | num lexeme => exact .number rfl rfl (hrefl _)
  | str value => exact .str value
  | arr items ih =>
      refine .arr rfl fun i a b ha hb => ?_
      cases ha.symm.trans hb
      exact ih a (List.mem_of_getElem? ha)
  | obj fields ih =>
      refine .obj (fun _ => rfl) fun key a b ha hb => ?_
      cases ha.symm.trans hb
      obtain hmem | hold := IndexMap.get?_extend_cases ha
      · exact ih (key, a) hmem
      · cases hold

theorem Matched.symm (hsymm : ∀ x y, alike x y → alike y x) {a b : Json} (h : Matched alike a b) : Matched alike b a := by
  induction h with
  | null => exact .null
  | number ha hb h => exact .number hb ha (hsymm _ _ h)
  | str value => exact .str value
  | arr hlength _ ih => exact .arr hlength.symm fun i a b ha hb => ih i b a hb ha
  | obj hkeys _ ih => exact .obj (fun key => (hkeys key).symm) fun key a b ha hb => ih key b a hb ha

theorem Matched.trans (htrans : ∀ x y z, alike x y → alike y z → alike x z) {a b c : Json} (h : Matched alike a b)
    (h' : Matched alike b c) : Matched alike a c := by
  induction h generalizing c with
  | null => exact h'
  | number ha hb h =>
      cases h' with
      | number hb' hc h' =>
          cases hb.symm.trans hb'
          exact .number ha hc (htrans _ _ _ h h')
      | null => cases hb
      | str value => cases hb
      | arr hlength hitems => cases hb
      | obj hkeys hvalues => cases hb
  | str value => exact h'
  | @arr items others hlength hitems ih =>
      cases h' with
      | number hb hc h => cases hb
      | @arr _ lasts hlength' hitems' =>
          refine .arr (hlength.trans hlength') fun i a c ha hc => ?_
          obtain ⟨hi, _⟩ := List.getElem?_eq_some_iff.1 ha
          have hb : others[i]? = some others[i] := List.getElem?_eq_getElem (hlength ▸ hi)
          exact ih i a _ ha hb (hitems' i _ c hb hc)
  | @obj fields others hkeys hvalues ih =>
      cases h' with
      | number hb hc h => cases hb
      | @obj _ lasts hkeys' hvalues' =>
          refine .obj (fun key => (hkeys key).trans (hkeys' key)) fun key a c ha hc => ?_
          have hsome : ((IndexMap.ofList others).get? key).isSome = true := by
            rw [← hkeys key, ha]
            rfl
          obtain ⟨b, hb⟩ := Option.isSome_iff_exists.1 hsome
          exact ih key a b ha hb (hvalues' key b c hb hc)

theorem itemsMatch_iff {items others : List Json} (ih : ∀ item ∈ items, ∀ other, valuesMatch item other = true ↔ Matched alike item other) :
    itemsMatch items others = true ↔
      items.length = others.length ∧ ∀ (i : Nat) a b, items[i]? = some a → others[i]? = some b → Matched alike a b := by
  induction items generalizing others with
  | nil =>
      cases others with
      | nil => simp [itemsMatch]
      | cons other rest => simp [itemsMatch]
  | cons item rest hrec =>
      cases others with
      | nil => simp [itemsMatch]
      | cons other rest' =>
          rw [itemsMatch, Bool.and_eq_true, ih item (List.mem_cons_self ..) other,
            hrec fun member hmember => ih member (List.mem_cons_of_mem _ hmember), List.length_cons, List.length_cons]
          constructor
          · intro ⟨hhead, hlength, hrest⟩
            refine ⟨congrArg (· + 1) hlength, fun i a b ha hb => ?_⟩
            cases i with
            | zero =>
                cases ha
                cases hb
                exact hhead
            | succ i => exact hrest i a b ha hb
          · intro ⟨hlength, hall⟩
            exact ⟨hall 0 item other rfl rfl, Nat.succ.inj hlength, fun i a b ha hb => hall (i + 1) a b ha hb⟩

/-- The fields of a list have their matches in an object where each field that is the last of its name has one. -/
theorem fieldsMatch_iff {fields : List (String × Json)} {other : Object} :
    fieldsMatch fields other = true ↔
      ∀ key a, (IndexMap.ofList fields).get? key = some a → ∃ b, other.get? key = some b ∧ valuesMatch a b = true := by
  have hget : ∀ (fields : List (String × Json)) key, (IndexMap.ofList fields).get? key = IndexMap.lookupEntry key fields.reverse := by
    intro fields key
    rw [IndexMap.ofList, IndexMap.get?_extend, IndexMap.get?_empty, Option.or_none]
  induction fields with
  | nil =>
      refine ⟨fun _ key a h => ?_, fun _ => rfl⟩
      rw [hget] at h
      cases h
  | cons field rest ih =>
      obtain ⟨key, value⟩ := field
      have hcons : ∀ k, (IndexMap.ofList ((key, value) :: rest)).get? k =
          ((IndexMap.ofList rest).get? k).or (if key = k then some value else none) := by
        intro k
        rw [hget, hget, List.reverse_cons, IndexMap.lookupEntry_append]
        rfl
      have hmem : key ∈ rest.map Prod.fst ↔ ((IndexMap.ofList rest).get? key).isSome = true := by
        rw [← IndexMap.mem_keys_ofList, IndexMap.mem_keys_iff, Option.isSome_iff_exists]
      rw [fieldsMatch, Bool.and_eq_true]
      refine (and_congr Iff.rfl ih).trans ?_
      constructor
      · rintro ⟨hhead, hrest⟩ k a ha
        rw [hcons] at ha
        cases hold : (IndexMap.ofList rest).get? k with
        | some found =>
            rw [hold, Option.some_or] at ha
            cases ha
            exact hrest k a hold
        | none =>
            rw [hold, Option.none_or] at ha
            split_ifs at ha with heq
            cases ha
            subst heq
            rw [if_neg (by rw [hmem, hold]; decide)] at hhead
            split at hhead
            · cases hhead
            · rename_i found hfound
              exact ⟨found, hfound, hhead⟩
      · intro hall
        refine ⟨?_, fun k a ha => hall k a (by rw [hcons, ha]; rfl)⟩
        split_ifs with hlater
        · rfl
        · have hnone : (IndexMap.ofList rest).get? key = none := by
            rw [hmem] at hlater
            exact Option.isNone_iff_eq_none.1 (by rw [← Option.not_isSome, Bool.eq_false_iff.2 hlater]; rfl)
          obtain ⟨b, hb, hmatch⟩ := hall key value (by rw [hcons, hnone, if_pos rfl]; rfl)
          rw [hb]
          exact hmatch

theorem keys_eq_of_size {m n : Object} (hsize : m.size = n.size) (h : ∀ key ∈ m.keys, key ∈ n.keys) (key : String) :
    (m.get? key).isSome = (n.get? key).isSome := by
  have hsubperm : m.keys.Subperm n.keys := List.Nodup.subperm m.keys_nodup h
  have hperm : m.keys.Perm n.keys := hsubperm.perm_of_length_le (by rw [IndexMap.length_keys, IndexMap.length_keys, hsize])
  have hmem := hperm.mem_iff (a := key)
  rw [IndexMap.mem_keys_iff, IndexMap.mem_keys_iff, ← Option.isSome_iff_exists, ← Option.isSome_iff_exists] at hmem
  exact Bool.eq_iff_iff.2 hmem

theorem size_eq_of_keys {m n : Object} (h : ∀ key, (m.get? key).isSome = (n.get? key).isSome) : m.size = n.size := by
  have hmem : ∀ key, key ∈ m.keys ↔ key ∈ n.keys := by
    intro key
    rw [IndexMap.mem_keys_iff, IndexMap.mem_keys_iff, ← Option.isSome_iff_exists, ← Option.isSome_iff_exists, h key]
  have hperm : m.keys.Perm n.keys := (List.perm_ext_iff_of_nodup m.keys_nodup n.keys_nodup).2 hmem
  rw [← IndexMap.length_keys, ← IndexMap.length_keys]
  exact hperm.length_eq

theorem valuesMatch_obj {fields others : List (String × Json)}
    (ih : ∀ field ∈ fields, ∀ other, valuesMatch field.2 other = true ↔ Matched (fun x y => numbersMatch x y = true) field.2 other) :
    valuesMatch (.obj fields) (.obj others) = true ↔ Matched (fun x y => numbersMatch x y = true) (.obj fields) (.obj others) := by
  rw [valuesMatch, Bool.decide_and, Bool.and_eq_true, decide_eq_true_eq, decide_eq_true_eq, fieldsMatch_iff]
  have hvalue : ∀ key a, (IndexMap.ofList fields).get? key = some a → ∀ other,
      valuesMatch a other = true ↔ Matched (fun x y => numbersMatch x y = true) a other := by
    intro key a ha
    obtain hmem | hold := IndexMap.get?_extend_cases ha
    · exact ih (key, a) hmem
    · cases hold
  constructor
  · intro ⟨hsize, hmatch⟩
    have hkeys : ∀ key ∈ (IndexMap.ofList fields).keys, key ∈ (IndexMap.ofList others).keys := by
      intro key hkey
      obtain ⟨a, ha⟩ := IndexMap.mem_keys_iff.1 hkey
      obtain ⟨b, hb, _⟩ := hmatch key a ha
      exact IndexMap.mem_keys_iff.2 ⟨b, hb⟩
    refine .obj (keys_eq_of_size hsize hkeys) fun key a b ha hb => (hvalue key a ha b).1 ?_
    obtain ⟨b', hb', h⟩ := hmatch key a ha
    cases hb.symm.trans hb'
    exact h
  · intro h
    cases h with
    | number ha hb h => cases ha
    | obj hkeys hvalues =>
        refine ⟨size_eq_of_keys hkeys, fun key a ha => ?_⟩
        have hsome : ((IndexMap.ofList others).get? key).isSome = true := by
          rw [← hkeys key, ha]
          rfl
        obtain ⟨b, hb⟩ := Option.isSome_iff_exists.1 hsome
        exact ⟨b, hb, (hvalue key a ha b).2 (hvalues key a b ha hb)⟩

theorem matched_number_iff {a b : Json} {x : String} (ha : readNumberText a = some x) :
    Matched alike a b ↔ ∃ y, readNumberText b = some y ∧ alike x y := by
  constructor
  · intro h
    cases h with
    | number ha' hb h =>
        cases ha.symm.trans ha'
        exact ⟨_, hb, h⟩
    | null => cases ha
    | str value => cases ha
    | arr hlength hitems => cases ha
    | obj hkeys hvalues => cases ha
  · intro ⟨y, hb, h⟩
    exact .number ha hb h

theorem valuesMatch_number {a b : Json} {x : String} (ha : readNumberText a = some x) :
    valuesMatch a b = true ↔ ∃ y, readNumberText b = some y ∧ numbersMatch x y = true := by
  have hboth : valuesMatch a b = (readNumberText b).any (numbersMatch x) := by
    cases a with
    | bool value =>
        cases value <;> cases ha <;> cases b with
        | bool other => cases other <;> rfl
        | _ => rfl
    | num lexeme =>
        cases ha
        cases b with
        | bool other => cases other <;> rfl
        | _ => rfl
    | _ => cases ha
  rw [hboth, Option.any_eq_true]

theorem valuesMatch_iff (a b : Json) : valuesMatch a b = true ↔ Matched (fun x y => numbersMatch x y = true) a b := by
  induction a using Json.induct generalizing b with
  | null =>
      constructor
      · intro h
        cases b with
        | null => exact .null
        | _ => simp [valuesMatch, readNumberText] at h
      · intro h
        cases h with
        | null => rfl
        | number ha hb h => cases ha
  | bool value => cases value <;> rw [valuesMatch_number rfl, matched_number_iff rfl]
  | num lexeme => rw [valuesMatch_number rfl, matched_number_iff rfl]
  | str value =>
      constructor
      · intro h
        cases b with
        | str other =>
            rw [valuesMatch, decide_eq_true_eq] at h
            exact h ▸ .str value
        | _ => simp [valuesMatch, readNumberText] at h
      · intro h
        cases h with
        | str => simp [valuesMatch]
        | number ha hb h => cases ha
  | arr items ih =>
      constructor
      · intro h
        cases b with
        | arr others =>
            rw [valuesMatch, itemsMatch_iff ih] at h
            exact .arr h.1 h.2
        | _ => simp [valuesMatch, readNumberText] at h
      · intro h
        cases h with
        | arr hlength hitems =>
            rw [valuesMatch, itemsMatch_iff ih]
            exact ⟨hlength, hitems⟩
        | number ha hb h => cases ha
  | obj fields ih =>
      cases b with
      | obj others => exact valuesMatch_obj ih
      | _ =>
        constructor
        · intro h
          simp [valuesMatch, readNumberText] at h
        · intro h
          cases h with
          | number ha hb h => cases ha

/-- What Python reads a number's text as: an integer exactly, any other number the double nearest to it. -/
def readNumber (lexeme : String) : Double :=
  if isInteger lexeme then .finite (Decimals.integer lexeme.toList) else readDouble lexeme

def comparedAs (lexeme : String) : String ⊕ Double :=
  if isInteger lexeme then .inl lexeme
  else match readDouble lexeme with
    | .finite value => if value.den = 1 then .inl (toString value.num) else .inr (.finite value)
    | .infinite negative => .inr (.infinite negative)

theorem integerMatches_iff {integer : String} {d : Double} :
    integerMatches integer d = true ↔ ∃ n : Int, d = .finite n ∧ integer = toString n := by
  cases d with
  | infinite negative => simp [integerMatches]
  | finite value =>
      rw [integerMatches, decide_eq_true_eq]
      constructor
      · intro ⟨hden, htext⟩
        exact ⟨value.num, by rw [Rat.coe_int_num_of_den_eq_one hden], htext⟩
      · intro ⟨n, hvalue, htext⟩
        cases hvalue
        exact ⟨Rat.den_intCast n, by rw [Rat.num_intCast]; exact htext⟩

theorem toString_injective {m n : Int} (h : toString m = toString n) : m = n := by
  have hlist := congrArg (fun s : String => Decimals.integer s.toList) h
  simp only [Decimals.toList_toString, (Decimals.integer_intText _).1] at hlist
  exact hlist

variable {lexeme : String}

theorem comparedAs_double (h : isInteger lexeme = false) :
    (∃ n : Int, readDouble lexeme = .finite n ∧ comparedAs lexeme = .inl (toString n)) ∨
      (∀ n : Int, readDouble lexeme ≠ .finite n) ∧ comparedAs lexeme = .inr (readDouble lexeme) := by
  rw [comparedAs, if_neg (by rw [h]; decide)]
  cases readDouble lexeme with
  | infinite negative => exact .inr ⟨fun n heq => (nomatch heq), rfl⟩
  | finite value =>
      by_cases hden : value.den = 1
      · exact .inl ⟨value.num, by rw [Rat.coe_int_num_of_den_eq_one hden], if_pos hden⟩
      · refine .inr ⟨fun n heq => hden ?_, if_neg hden⟩
        cases heq
        exact Rat.den_intCast n

theorem numbersMatch_iff {a b : String} : numbersMatch a b = true ↔ comparedAs a = comparedAs b := by
  have hinteger : ∀ {lexeme : String}, isInteger lexeme = true → comparedAs lexeme = .inl lexeme := fun h => if_pos h
  have hmixed : ∀ {a b : String}, isInteger b = false → (integerMatches a (readDouble b) = true ↔ Sum.inl a = comparedAs b) := by
    intro a b hb
    rw [integerMatches_iff]
    obtain ⟨n, hdouble, hcompared⟩ | ⟨hnone, hcompared⟩ := comparedAs_double hb
    · rw [hcompared, Sum.inl.injEq]
      constructor
      · intro ⟨m, hm, htext⟩
        rw [hdouble] at hm
        rw [htext, Int.cast_inj.1 (Double.finite.inj hm)]
      · intro htext
        exact ⟨n, hdouble, htext⟩
    · rw [hcompared]
      constructor
      · intro ⟨m, hm, _⟩
        exact absurd hm (hnone m)
      · intro heq
        cases heq
  rw [numbersMatch]
  cases ha : isInteger a with
  | true =>
      rw [hinteger ha, if_pos rfl]
      cases hb : isInteger b with
      | true => rw [hinteger hb, if_pos rfl, decide_eq_true_eq, Sum.inl.injEq]
      | false => rw [if_neg Bool.false_ne_true, hmixed hb]
  | false =>
      rw [if_neg Bool.false_ne_true]
      cases hb : isInteger b with
      | true =>
          rw [hinteger hb, if_pos rfl, hmixed ha]
          exact eq_comm
      | false =>
          rw [if_neg Bool.false_ne_true, decide_eq_true_eq]
          obtain ⟨n, hdouble, hcompared⟩ | ⟨hnone, hcompared⟩ := comparedAs_double ha <;>
            obtain ⟨m, hdouble', hcompared'⟩ | ⟨hnone', hcompared'⟩ := comparedAs_double hb <;> rw [hcompared, hcompared']
          · rw [hdouble, hdouble', Sum.inl.injEq, Double.finite.injEq, Int.cast_inj]
            exact ⟨fun h => by rw [h], toString_injective⟩
          · rw [hdouble]
            exact ⟨fun h => absurd h.symm (hnone' n), fun h => nomatch h⟩
          · rw [hdouble']
            exact ⟨fun h => absurd h (hnone m), fun h => nomatch h⟩
          · rw [Sum.inr.injEq]

/-- The text of a JSON number that is not a zero written as an integer with a sign. -/
structure Spelled (lexeme : String) : Prop where
  number : isNumber lexeme.toList = true
  unsigned : lexeme ≠ "-0"

theorem marks_of_isInteger (h : isInteger lexeme = true) :
    ∀ c ∈ lexeme.toList, Decimals.isPoint c = false ∧ Decimals.isExponentMark c = false := by
  intro c hc
  have hc := List.all_eq_true.1 h c hc
  rw [decide_eq_true_eq] at hc
  simp [Decimals.isPoint, Decimals.isExponentMark, hc.1, hc.2.1, hc.2.2]

theorem eq_toString_iff (h : Spelled lexeme) (hinteger : isInteger lexeme = true) (n : Int) :
    lexeme = toString n ↔ Decimals.integer lexeme.toList = n := by
  obtain ⟨hvalue, hsigned, hmarks⟩ := Decimals.integer_intText n
  constructor
  · intro heq
    rw [heq, Decimals.toList_toString, hvalue]
  · intro heq
    apply String.toList_injective
    rw [Decimals.toList_toString]
    refine Decimals.integer_inj h.number (PythonJson.isNumber_intText n) (marks_of_isInteger hinteger) hmarks (fun hlist => h.unsigned ?_)
      hsigned (heq.trans hvalue.symm)
    exact String.toList_injective hlist

theorem readNumber_eq_finite_iff (h : isInteger lexeme = true) (n : Int) :
    readNumber lexeme = .finite n ↔ Decimals.integer lexeme.toList = n := by
  rw [readNumber, if_pos h, Double.finite.injEq, Int.cast_inj]

theorem comparedAs_eq_iff {a b : String} (ha : Spelled a) (hb : Spelled b) :
    comparedAs a = comparedAs b ↔ readNumber a = readNumber b := by
  have hinteger : ∀ {lexeme : String}, Spelled lexeme → isInteger lexeme = true →
      comparedAs lexeme = .inl (toString (Decimals.integer lexeme.toList)) := by
    intro lexeme hspelled h
    rw [comparedAs, if_pos h, Sum.inl.injEq, eq_toString_iff hspelled h]
  have hdouble : ∀ {lexeme : String}, isInteger lexeme = false → readNumber lexeme = readDouble lexeme := by
    intro lexeme h
    rw [readNumber, if_neg (by rw [h]; decide)]
  have hvalue : ∀ {lexeme : String}, Spelled lexeme →
      (∃ n : Int, readNumber lexeme = .finite n ∧ comparedAs lexeme = .inl (toString n)) ∨
        (∀ n : Int, readNumber lexeme ≠ .finite n) ∧ comparedAs lexeme = .inr (readNumber lexeme) := by
    intro lexeme hspelled
    cases h : isInteger lexeme with
    | true => exact .inl ⟨_, (readNumber_eq_finite_iff h _).2 rfl, hinteger hspelled h⟩
    | false =>
        rw [hdouble h]
        exact comparedAs_double h
  obtain ⟨n, hread, hcompared⟩ | ⟨hnone, hcompared⟩ := hvalue ha <;>
    obtain ⟨m, hread', hcompared'⟩ | ⟨hnone', hcompared'⟩ := hvalue hb <;> rw [hcompared, hcompared']
  · rw [hread, hread', Sum.inl.injEq, Double.finite.injEq, Int.cast_inj]
    exact ⟨toString_injective, fun h => by rw [h]⟩
  · rw [hread]
    exact ⟨fun h => (nomatch h), fun h => absurd h.symm (hnone' n)⟩
  · rw [hread']
    exact ⟨fun h => (nomatch h), fun h => absurd h (hnone m)⟩
  · rw [Sum.inr.injEq]

/-- Two values are equal as Python values: numbers by what they are read as, with true and false the numbers 1 and 0. -/
def PythonEqual : Json → Json → Prop := Matched fun x y => readNumber x = readNumber y

/-- Every number of the value is spelled as it is read. -/
inductive Json.Spelled : Json → Prop
  | null : Spelled .null
  | bool (value : Bool) : Spelled (.bool value)
  | num {lexeme : String} (h : Records.Spelled lexeme) : Spelled (.num lexeme)
  | str (value : String) : Spelled (.str value)
  | arr {items : List Json} (h : ∀ item ∈ items, Spelled item) : Spelled (.arr items)
  | obj {fields : List (String × Json)} (h : ∀ field ∈ fields, Spelled field.2) : Spelled (.obj fields)

theorem spelled_of_readNumberText {a : Json} {x : String} (h : a.Spelled) (hx : readNumberText a = some x) : Spelled x := by
  cases h with
  | bool value =>
      cases value <;>
        · cases hx
          exact ⟨by decide +kernel, by decide⟩
  | num h =>
      cases hx
      exact h
  | null => cases hx
  | str value => cases hx
  | arr h => cases hx
  | obj h => cases hx

theorem Json.Spelled.field {fields : List (String × Json)} (h : Json.Spelled (.obj fields)) {key : String} {a : Json}
    (ha : (IndexMap.ofList fields).get? key = some a) : a.Spelled := by
  cases h with
  | obj h =>
      obtain hmem | hold := IndexMap.get?_extend_cases ha
      · exact h (key, a) hmem
      · cases hold

theorem Matched.imp (himp : ∀ x y, Spelled x → Spelled y → alike x y → alike' x y) {a b : Json} (h : Matched alike a b)
    (ha : a.Spelled) (hb : b.Spelled) : Matched alike' a b := by
  induction h with
  | null => exact .null
  | number hx hy h =>
      exact .number hx hy (himp _ _ (spelled_of_readNumberText ha hx) (spelled_of_readNumberText hb hy) h)
  | str value => exact .str value
  | arr hlength _ ih =>
      cases ha with
      | arr ha =>
          cases hb with
          | arr hb =>
              exact .arr hlength fun i a b hi hi' =>
                ih i a b hi hi' (ha a (List.mem_of_getElem? hi)) (hb b (List.mem_of_getElem? hi'))
  | obj hkeys _ ih =>
      exact .obj hkeys fun key a b hget hget' => ih key a b hget hget' (ha.field hget) (hb.field hget')

/-- Matching is an equivalence, and for values whose integers are spelled without a signed zero it is equality as Python values. -/
theorem valuesMatch_is_python_equality :
    (∀ a, valuesMatch a a = true) ∧ (∀ a b, valuesMatch a b = true → valuesMatch b a = true) ∧
      (∀ a b c, valuesMatch a b = true → valuesMatch b c = true → valuesMatch a c = true) ∧
      ∀ a b : Json, a.Spelled → b.Spelled → (valuesMatch a b = true ↔ PythonEqual a b) := by
  refine ⟨fun a => ?_, fun a b h => ?_, fun a b c h h' => ?_, fun a b ha hb => ?_⟩
  · rw [valuesMatch_iff]
    exact .refl (fun x => numbersMatch_iff.2 rfl) a
  · rw [valuesMatch_iff] at h ⊢
    exact h.symm fun x y hxy => numbersMatch_iff.2 (numbersMatch_iff.1 hxy).symm
  · rw [valuesMatch_iff] at h h' ⊢
    have htrans : ∀ x y z, numbersMatch x y = true → numbersMatch y z = true → numbersMatch x z = true :=
      fun x y z hxy hyz => numbersMatch_iff.2 ((numbersMatch_iff.1 hxy).trans (numbersMatch_iff.1 hyz))
    exact Matched.trans htrans h h'
  · rw [valuesMatch_iff]
    constructor
    · intro h
      exact h.imp (fun x y hx hy hxy => (comparedAs_eq_iff hx hy).1 (numbersMatch_iff.1 hxy)) ha hb
    · intro h
      exact Matched.imp (fun x y hx hy hxy => numbersMatch_iff.2 ((comparedAs_eq_iff hx hy).2 hxy)) h ha hb

/-- A signed and an unsigned zero that match, and a list and an object that do. -/
theorem valuesMatch_is_python_equality_mixed :
    PythonEqual (.arr [.num "-0.0", .obj [("x", .bool true), ("y", .num "10")]]) (.arr [.bool false, .obj [("y", .num "10.0"), ("x", .num "1")]]) := by
  refine (valuesMatch_is_python_equality.2.2.2 _ _ ?_ ?_).1 (by decide +kernel)
  · refine .arr fun item hitem => ?_
    simp only [List.mem_cons, List.not_mem_nil, or_false] at hitem
    obtain rfl | rfl := hitem
    · exact .num ⟨by decide +kernel, by decide⟩
    · refine .obj fun field hfield => ?_
      simp only [List.mem_cons, List.not_mem_nil, or_false] at hfield
      obtain rfl | rfl := hfield
      · exact .bool true
      · exact .num ⟨by decide +kernel, by decide⟩
  · refine .arr fun item hitem => ?_
    simp only [List.mem_cons, List.not_mem_nil, or_false] at hitem
    obtain rfl | rfl := hitem
    · exact .bool false
    · refine .obj fun field hfield => ?_
      simp only [List.mem_cons, List.not_mem_nil, or_false] at hfield
      obtain rfl | rfl := hfield
      · exact .num ⟨by decide +kernel, by decide⟩
      · exact .num ⟨by decide +kernel, by decide⟩

/-- Two numbers of different value with one double match, and an integer zero does not match the zero with a sign. -/
theorem numbers_not_matched_by_value :
    valuesMatch (.num "0.1") (.num "0.1000000000000000055") = true ∧
      Decimals.rational "0.1".toList ≠ Decimals.rational "0.1000000000000000055".toList ∧
      valuesMatch (.num "-0") (.num "0") = false ∧ Decimals.rational "-0".toList = Decimals.rational "0".toList := by
  decide +kernel

end EdgarPlatform.Records
