import EdgarPlatform.Library.SortedMap
import EdgarPlatform.Records.Values

/-!
# Identifier rules

A policy declares, for each namespace of each kind, how its values are normalized before they are compared. The normal form is named by the policy, through aliases of its own, and is one of the published ones or a declared one.
-/

namespace EdgarPlatform.Matching

open Records (Json Object readText readObject readFields)

/-- The texts the normal forms are made of, under the pinned Unicode tables. -/
structure TextForms where
  /-- A text without the blanks around it, in upper case if so declared. -/
  identifier : String → Bool → String
  conformedName : String → String
  name : String → Bool → String
  uppercase : String → String
  isDecimal : Char → Bool

variable (forms : TextForms)

def displayText : Json → String
  | .null => ""
  | .bool true => "True"
  | .bool false => "False"
  | .str value => value
  | other => Records.writeJson false other

def decimals (text : String) : String := String.ofList (text.toList.filter forms.isDecimal)

def trimZeros (text : String) : String := String.ofList (text.toList.dropWhile (· = '0'))

def publishedForm (name resolved text : String) : Except String String :=
  if resolved = "normalize_text@edgar-conformed-v1" then .ok (forms.conformedName text)
  else if resolved = "normalize_text@legal-form-kept-v1" then .ok (forms.name text false)
  else if resolved = "normalize_text@sec-legal-form-kept-v1" then .ok (forms.name text true)
  else if resolved = "normalize_identifier@sec-cik-v1" then .ok (trimZeros (decimals forms text))
  else if resolved = "normalize_identifier@sec-cik-v2" ∨ resolved = "normalize_identifier@crd-v1" then
    .ok (decimals forms text)
  else if resolved = "normalize_identifier@lei-v1" then
    .ok (String.ofList ((forms.uppercase text).toList.filter fun c => c.isAlphanum))
  else .error ("Policy names an unknown normalizer: " ++ name)

def resolveAlias (aliases : Object) (name : String) : Except String String :=
  (aliases.get? name).elim (.ok name) Records.readString

def normalizeValue (name : String) (raw : Json) (doc : Object) (declared : IndexMap String Bool) : Except String String := do
  let aliases ← readObject doc "normalizers"
  let resolved ← resolveAlias aliases name
  match declared.get? resolved with
  | some upper => .ok (forms.identifier (displayText raw) upper)
  | none => publishedForm forms name resolved (displayText raw)

/-- How the values of each namespace are normalized: the name of a form, and the aliases it is read with. -/
abbrev Contracts := SortedMap String (String × Object)

def prepareIdentifierValue (contracts : Contracts) (idNamespace raw : String) (normalizers : IndexMap String Bool) :
    Except String String :=
  match contracts.get? idNamespace with
  | some (name, aliases) => normalizeValue forms name (.str raw) aliases normalizers
  | none => .ok raw

/-- A namespace's contract, unless another kind has declared it. -/
def addContract (aliases : Object) (contracts : Contracts) (entry : String × Json) : Except String Contracts := do
  let contract ← readFields entry.2
  let normalizer ← readText contract "normalizer"
  .ok (if contracts.contains entry.1 then contracts else contracts.insert entry.1 (normalizer, aliases))

def addKind (contracts : Contracts) (raw : Json) : Except String Contracts := do
  let block ← readFields raw
  let normalizers ← readObject block "normalizers"
  let identifiers ← readObject block "identifiers"
  identifiers.entries.foldlM (addContract (.ofList [("normalizers", Object.toJson normalizers)])) contracts

def prepareIdentifierRules (policy : Object) : Except String Contracts := do
  let kinds ← readObject policy "kinds"
  (kinds.entries.map Prod.snd).foldlM addKind .empty

/-- The values one identifier holds: a text, or a list of them with one at least. -/
def readIdentifierValues : Json → Except String (List String)
  | .null => .ok []
  | .str value => .ok [value]
  | value =>
      match Records.readTexts value with
      | .ok (first :: rest) => .ok (first :: rest)
      | _ => .error "An identifier holds a text value or a nonempty list of them"

def writeIdentifierValues (values : List String) (like : Json) : Json :=
  match values, like with
  | [one], .str _ => .str one
  | values, _ => .arr (values.map .str)

end EdgarPlatform.Matching
