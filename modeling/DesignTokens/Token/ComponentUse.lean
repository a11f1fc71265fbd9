import DesignTokens.Token.Usage

/-!
# Tokens by component

Which tokens the components, mixins and utilities of a code base use. The path of a file, and for
mixins the text around the reference, say what an occurrence belongs to; each occurrence counts
once, and the token is listed under its tier.
-/

namespace DesignTokens

open Pattern

/-- The tokens that a component, a mixin or the utilities use. -/
structure ComponentUse where
  name : String
  /-- What it is: a component, a mixin or a utility. -/
  kind : String
  count : Nat
  /-- The tokens used, by tier. -/
  tokensUsed : List (String × List String)
  deriving DecidableEq, Repr, Inhabited

namespace ComponentUse

/-- An included mixin: its name is the group. -/
def includedMixin : Pattern :=
  all [lit "@include", many1 Text.isBlank, group 1 (many1 fun c => !Text.isBlank c && c != '(')]

/-- What an occurrence in a file belongs to: its name and kind. -/
def owner? (path context : String) : Option (String × String) :=
  let p := slashed (some path)
  match componentName (some (String.ofList p)) with
  | some name => if name = "" then inner p else some (name, "component")
  | none => inner p
where
  /-- The mixin or the utilities that a path outside the components belongs to. -/
  inner (p : List Char) : Option (String × String) :=
    let mixin :=
      if mentions p "_themeMixins.scss" || mentions p "mixins/" then
        includedMixin.search context.toList
      else none
    match mixin with
    | some m => some (String.ofList (m.capture 1), "mixin")
    | none =>
      if mentions p "_utils.scss" || mentions p "utilities/" then some ("Utilities", "utility")
      else none

/-- Lists a token under a tier, once. A tier without a list is no key. -/
def listToken (token : String) (tier : Value) (u : ComponentUse) : Except Failure ComponentUse :=
  if !tier.isKey then .error .wrongKind
  else match u.tokensUsed.find? fun t => tier.isText t.1 with
    | none => .error (.noKey tier)
    | some _ =>
      .ok { u with tokensUsed := u.tokensUsed.map fun t =>
              if tier.isText t.1 && !t.2.contains token then (t.1, t.2 ++ [token]) else t }

/-- Nothing used yet. -/
def none (name kind : String) : ComponentUse :=
  ⟨name, kind, 0, tierNames.map fun tier => (tier, [])⟩

/-- Counts one occurrence of a token for an owner; the first occurrence decides its kind. -/
def record (token : String) (tier : Value) (name kind : String) :
    List ComponentUse → Except Failure (List ComponentUse)
  | [] => do
    let u ← listToken token tier { none name kind with count := 1 }
    .ok [u]
  | u :: rest =>
    if u.name = name then do
      let u ← listToken token tier { u with count := u.count + 1 }
      .ok (u :: rest)
    else (record token tier name kind rest).map (u :: ·)

/-- Counts the occurrences of a usage. -/
def recordUsage (c : Categorizer) (found : List ComponentUse) (u : Usage) :
    Except Failure (List ComponentUse) :=
  u.occurrences.foldlM
    (fun found o =>
      match owner? o.filePath o.context with
      | some (name, kind) => do
        let category ← c.categorize u.tokenName (some o.filePath)
        record u.tokenName category.tier name kind found
      | .none => .ok found)
    found

/-- The uses of tokens by component, the one with the most occurrences first. -/
def analyze (c : Categorizer) (usages : List Usage) : Except Failure (List ComponentUse) := do
  let found ← usages.foldlM (recordUsage c) []
  .ok (sortByCount (fun u => (u.count : Int)) found)

/-- The fields of a use as an object. -/
def toValue (u : ComponentUse) : Value :=
  .object
    [ ("pattern_name", .text u.name), ("type", .text u.kind), ("count", .int u.count),
      ("tokens_used", .object (u.tokensUsed.map fun t => (t.1, .texts t.2))) ]

end ComponentUse

end DesignTokens
