import Mathlib.Data.List.Sort
import Soong.Lib.GoMap
import Soong.Lib.GoPath
import Soong.Android.DepSet

/-!
# Visibility rules

`android/visibility.go`.  A module's `visibility` property is a list of rule
strings `//<package>:<scope>`, `//<package>` or `:<scope>`; `checkRules` checks
the list before defaults are expanded, `parseRules` turns the expanded list
into a `compositeRule`, which a dependency must match.  `//visibility:override`
is positional: it discards every rule before it.

`visibilityRuleSet.Widen` merges extra rule strings into a rule set at the
level of strings: it concatenates, removes duplicates and *sorts*, after which
an `//visibility:override` no longer stands where its author put it.

Errors are `propertyError`s, the property and the message as `PropertyErrorf`
formats them.  A rule with an unknown scope makes `parseRules` append Go's nil
rule after reporting the error; it is `none` in a `compositeRule`, and a
`matches` or `String` call that reaches it panics, which is `none` again.

## Main definitions

* `splitRule` — the regular expression and the short hands of a rule string.
* `checkRules`, `parseRules` — the two passes over a property.
* `compositeRule.matches`, `compositeRule.Strings`.
* `EffectiveVisibilityRules` — the rule set of a dependency, from its rule.
* `visibilityRuleSet.Widen`.

## Main results

* `Widen_override_narrows` — widening the rule set of a private module with a
  checked list that starts with `//visibility:override` leaves a rule set that
  parses to a nil rule: no module is matched any more.
-/

namespace Soong

/-! ### Rules -/

/-- A module named by its package directory and its name. -/
structure qualifiedModuleName where
  pkg : String
  name : String
  deriving DecidableEq, Repr

/-- An error reported against a property. -/
structure propertyError where
  property : String
  message : String
  deriving DecidableEq, Repr

/-- The atomic visibility rules. -/
inductive visibilityRule
  | packageRule (pkg : String)
  | subpackagesRule (pkgPrefix : String)
  | publicRule
  | privateRule
  deriving DecidableEq, Repr

/-- `isAncestor p1 p2`: `p2` is `p1` or below it. -/
def isAncestor (p1 p2 : String) : Bool :=
  (p1 ++ "/").toList.isPrefixOf (p2 ++ "/").toList

/-- Whether the rule lets `m` depend on its module. -/
def visibilityRule.matches : visibilityRule → qualifiedModuleName → Bool
  | .packageRule pkg, m => m.pkg == pkg
  | .subpackagesRule pkgPrefix, m => isAncestor pkgPrefix m.pkg
  | .publicRule, _ => true
  | .privateRule, _ => false

/-- The rule's string; `:__pkg__` is the default scope and is left out. -/
def visibilityRule.String : visibilityRule → String
  | .packageRule pkg => "//" ++ pkg
  | .subpackagesRule pkgPrefix => "//" ++ pkgPrefix ++ ":__subpackages__"
  | .publicRule => "//visibility:public"
  | .privateRule => "//visibility:private"

/-- A `compositeRule`: a slice of rules, `none` being the nil rule that
`parseRules` appends for an invalid scope. -/
abbrev compositeRule := Slice (Option visibilityRule)

/-- A `compositeRule` matches if one of its rules does, scanning from the
left; reaching a nil rule panics. -/
def compositeRule.matches (c : compositeRule) (m : qualifiedModuleName) : Option Bool :=
  go (Slice.toList c)
where
  go : List (Option visibilityRule) → Option Bool
    | [] => some false
    | none :: _ => none
    | some r :: rs => if r.matches m then some true else go rs

/-- The strings of the rules; a nil rule panics. -/
def compositeRule.Strings (c : compositeRule) : Option (List String) :=
  (Slice.toList c).mapM fun r => r.map visibilityRule.String

/-! ### Splitting a rule string -/

/-- A character of a package segment or of a scope: `[^/:]`. -/
def isRuleChar (c : Char) : Bool := c != '/' && c != ':'

/-- The rest of a rule after its package: nothing, or `:([^/:]+)`, giving the
name submatch. -/
def matchName : List Char → Option String
  | [] => some ""
  | ':' :: name => if name ≠ [] ∧ name.all isRuleChar then some (String.ofList name) else none
  | _ => none

/-- `[^/:]+(?:/[^/:]+)*` for a package that holds no `:`: non-empty segments
separated by single slashes. -/
def isPackagePath (pkg : List Char) : Bool :=
  (pkg.splitOn '/').all fun seg => seg ≠ []

/-- `visibilityRuleRegexp.FindStringSubmatch`: the package and name submatches
of `^(?://([^/:]+(?:/[^/:]+)*))?(?::([^/:]+))?$`, `""` for a group that does not
take part.  The package of a match is everything up to the first `:`, so the
submatches are determined by the string. -/
def FindStringSubmatch (s : List Char) : Option (String × String) :=
  match s with
  | '/' :: '/' :: rest =>
    let pkg := rest.takeWhile (· != ':')
    if isPackagePath pkg then
      (matchName (rest.dropWhile (· != ':'))).map fun name => (String.ofList pkg, name)
    else none
  | _ => (matchName s).map fun name => ("", name)

/-- The scope grammar every invalid-pattern message ends with. -/
def patternHelp : String :=
  " //<package>:<scope>, //<package> or :<scope> where <scope> is one of \"__pkg__\", " ++
    "\"__subpackages__\""

/-- `splitRule`: the package and the scope of a rule, the current package and
`__pkg__` standing in for a missing one. -/
def splitRule (ruleExpression currentPkg property : String) :
    Except propertyError (String × String) :=
  let invalid : propertyError :=
    ⟨property, "invalid visibility pattern " ++ strconv.Quote ruleExpression ++ " must match" ++ patternHelp⟩
  if ruleExpression = "" then .error invalid
  else
    match FindStringSubmatch ruleExpression.toList with
    | none => .error invalid
    | some (pkg, name) => .ok (if pkg = "" then currentPkg else pkg, if name = "" then "__pkg__" else name)

/-! ### Checking a property -/

/-- `isAllowedFromOutsideVendor`: outside `//vendor` a rule may name
`//vendor:__subpackages__` and nothing else below `//vendor`. -/
def isAllowedFromOutsideVendor (pkg name : String) : Bool :=
  if pkg = "vendor" then name = "__subpackages__" else !isAncestor "vendor" pkg

/-- The `//visibility:` keyword checks of `checkRules` for rule `v` at index `i`:
the new rule count, the errors, and whether the loop goes on to the vendor
check (a `continue` skips it). -/
def checkKeyword (property v name : String) (i : ℕ) (ruleCount : ℤ) :
    ℤ × List propertyError × Bool :=
  if name = "private" ∨ name = "public" then
    if ruleCount ≠ 1 then
      (ruleCount, [⟨property, "cannot mix " ++ strconv.Quote v ++ " with any other visibility rules"⟩], false)
    else (ruleCount, [], true)
  else if name = "legacy_public" then
    (ruleCount, [⟨property, "//visibility:legacy_public must not be used"⟩], false)
  else if name = "override" then
    -- the keyword creates no rule, so it does not count
    (ruleCount - 1,
      if i ≠ 0 then [⟨property, "\"" ++ v ++ "\" may only be used at the start of the visibility rules"⟩]
      else [],
      true)
  else (ruleCount, [⟨property, "unrecognized visibility rule " ++ strconv.Quote v⟩], false)

/-- One iteration of `checkRules`' loop, over the rule and its index. -/
def checkRule (currentPkg property : String) (st : ℤ × List propertyError) (vi : String × ℕ) :
    ℤ × List propertyError :=
  match splitRule vi.1 currentPkg property with
  | .error e => (st.1, st.2 ++ [e])
  | .ok (pkg, name) =>
    let (ruleCount, errs, vendorCheck) :=
      if pkg = "visibility" then checkKeyword property vi.1 name vi.2 st.1 else (st.1, [], true)
    if vendorCheck && !isAncestor "vendor" currentPkg && !isAllowedFromOutsideVendor pkg name then
      (ruleCount, st.2 ++ errs ++ [⟨property, strconv.Quote vi.1 ++ " is not allowed. Packages outside " ++
        "//vendor cannot make themselves visible to specific targets within //vendor, they can " ++
        "only use //vendor:__subpackages__."⟩])
    else (ruleCount, st.2 ++ errs)

/-- `checkRules`: the errors of a property's rules, in the order reported.  The
rule count starts at the number of rules. -/
def checkRules (currentPkg property : String) (visibility : List String) : List propertyError :=
  if visibility = [] then [⟨property, "must contain at least one visibility rule"⟩]
  else (visibility.zipIdx.foldl (checkRule currentPkg property) (visibility.length, [])).2

/-! ### Parsing a property -/

/-- The state of `parseRules`' loop. -/
structure parseState where
  rules : compositeRule
  hasPrivateRule : Bool
  hasPublicRule : Bool
  hasNonPrivateRule : Bool
  deriving DecidableEq, Repr

/-- One iteration of `parseRules`' loop. -/
def parseRule (currentPkg property : String) (st : parseState × List propertyError) (v : String) :
    parseState × List propertyError :=
  match splitRule v currentPkg property with
  | .error e => (st.1, st.2 ++ [e])
  | .ok (pkg, name) =>
    if pkg = "visibility" ∧ name = "override" then
      -- discard all preceding rules and any state based on them
      (⟨none, false, false, false⟩, st.2)
    else
      let (r, errs) : Option visibilityRule × List propertyError :=
        if pkg = "visibility" then
          (if name = "private" then some .privateRule
            else if name = "public" then some .publicRule else none, [])
        else if name = "__pkg__" then (some (.packageRule pkg), [])
        else if name = "__subpackages__" then (some (.subpackagesRule pkg), [])
        else (none, [⟨property, "invalid visibility pattern " ++ strconv.Quote v ++ ". Must match " ++
          patternHelp⟩])
      let isPrivateRule := decide (pkg = "visibility" ∧ name = "private")
      (⟨Slice.append st.1.rules [r], st.1.hasPrivateRule || isPrivateRule,
          st.1.hasPublicRule || decide (pkg = "visibility" ∧ name = "public"),
          st.1.hasNonPrivateRule || !isPrivateRule⟩,
        st.2 ++ errs)

/-- `parseRules`: the rule of a property, and the errors reported.  Private
mixed with other rules is reported against `visibility`, whatever the
property. -/
def parseRules (currentPkg property : String) (visibility : List String) :
    compositeRule × List propertyError :=
  let (st, errs) := visibility.foldl (parseRule currentPkg property) (⟨some [], false, false, false⟩, [])
  if st.hasPrivateRule && st.hasNonPrivateRule then
    (some [some .privateRule],
      errs ++ [⟨"visibility", "cannot mix \"//visibility:private\" with any other visibility rules"⟩])
  else if st.hasPublicRule then (some [some .publicRule], errs)
  else (st.rules, errs)

/-! ### Rule sets -/

/-- A rule set, as strings. -/
structure visibilityRuleSet where
  rules : List String
  deriving DecidableEq, Repr

/-- `EffectiveVisibilityRules`, from the rule `effectiveVisibilityRules` finds for
the module `qualified`: a module is visible in its own package, so a rule that
does not match the module gets its package added, a lone private rule being
dropped first. -/
def EffectiveVisibilityRules (rule : compositeRule) (qualified : qualifiedModuleName) :
    Option visibilityRuleSet := do
  let matched ← compositeRule.matches rule qualified
  let rule : compositeRule :=
    if matched then rule
    else Slice.append (if Slice.toList rule = [some .privateRule] then none else rule)
      [some (.packageRule qualified.pkg)]
  let rules ← compositeRule.Strings rule
  pure ⟨rules⟩

/-- `FirstUniqueStrings`, the map-based scan above 128 strings. -/
def FirstUniqueStrings (list : List String) : List String := firstUniqueAbove 128 list

/-- `sort.Strings`.  Go compares bytes, and UTF-8 orders strings as their
characters. -/
def sortStrings (list : List String) : List String := list.insertionSort (· ≤ ·)

/-- `Widen`: a lone public extra rule replaces the set, a lone private one is an
error; a public set stays, a private set is emptied; then the strings are merged,
deduplicated and sorted. -/
def visibilityRuleSet.Widen (v : visibilityRuleSet) (extra : List String) :
    Except String visibilityRuleSet :=
  if extra = ["//visibility:public"] then .ok ⟨extra⟩
  else if extra = ["//visibility:private"] then
    .error (strconv.Quote "//visibility:private" ++ " does not widen the visibility")
  else if v.rules = ["//visibility:public"] then .ok v
  else
    let rules := if v.rules = ["//visibility:private"] then [] else v.rules
    .ok ⟨sortStrings (FirstUniqueStrings (rules ++ extra))⟩

/-- **Widening can narrow.**  A private module of package `a` has the rule set
`//a`.  The extra list `//visibility:override`, `//b` passes `checkRules`, and
`//a` and it each match a module; `Widen` sorts the override behind both package
rules, so the widened set parses to a nil rule that matches nothing. -/
theorem Widen_override_narrows :
    EffectiveVisibilityRules (parseRules "a" "visibility" ["//visibility:private"]).1
        ⟨"a", "m"⟩ = some ⟨["//a"]⟩ ∧
      checkRules "c" "visibility" ["//visibility:override", "//b"] = [] ∧
      compositeRule.matches (parseRules "c" "visibility" ["//a"]).1 ⟨"a", "x"⟩ = some true ∧
      compositeRule.matches (parseRules "c" "visibility" ["//visibility:override", "//b"]).1
        ⟨"b", "x"⟩ = some true ∧
      visibilityRuleSet.Widen ⟨["//a"]⟩ ["//visibility:override", "//b"] =
        .ok ⟨["//a", "//b", "//visibility:override"]⟩ ∧
      parseRules "c" "visibility" ["//a", "//b", "//visibility:override"] = (none, []) := by
  decide

end Soong
