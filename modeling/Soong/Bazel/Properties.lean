import Soong.Lib.GoMap

/-!
# Configurable label lists

`bazel/properties.go` and `bazel/configurability.go`.  A `LabelListAttribute`
is a base `LabelList` plus, for each configuration axis, a map from a config to
a `LabelList`; a `LabelList` has `Includes` and `Excludes`.  Bazel reads such an
attribute as a `select` per axis: a build with one config per axis uses the base
value and the entry of its config on every axis (the axis's
`conditions_default` entry when its config has none).

`ResolveExcludes` rewrites the attribute so that no entry needs `Excludes`: a
base label excluded by a config of an axis is moved out of the base, into the
axis's other configs and its default.  The axes are processed in Go's map
iteration order, which is unspecified; the model iterates the entry list, and
the order is the list's.

## Main definitions

* `Label`, `LabelList`, `ConfigurationAxis`, `LabelListAttribute`.
* `SubtractBazelLabels`, `FirstUniqueBazelLabels`, `LabelList.Append` — the list
  operations `ResolveExcludes` uses, with their `nil` results.
* `LabelListAttribute.ResolveExcludes`, one axis at a time by `resolveAxis`.
* `LabelListAttribute.effectiveBefore`, `LabelListAttribute.effectiveAfter` — the
  labels a build with a given config per axis uses, with and without excludes.
-/

namespace Soong

namespace Bazel

set_option linter.dupNamespace false in
/-- A Bazel label and the Soong module it was derived from. -/
structure Label where
  Label : String
  OriginalModuleName : String
  deriving DecidableEq, Repr

/-- A list of labels to include and a list to exclude. -/
structure LabelList where
  Includes : Slice Label
  Excludes : Slice Label
  deriving DecidableEq, Repr

/-- The zero `LabelList`, both slices `nil`. -/
def LabelList.zero : LabelList := ⟨none, none⟩

/-- `SubtractBazelLabels`: the labels of `haystack` not in `needle`, appended one
by one to a `nil` slice. -/
def SubtractBazelLabels (haystack needle : Slice Label) : Slice Label :=
  haystack.toList.foldl
    (fun labels label => if label ∈ needle.toList then labels else labels.append [label]) none

/-- `FirstUniqueBazelLabels`: the first occurrence of every label, appended one
by one to a `nil` slice. -/
def FirstUniqueBazelLabels (originalLabels : Slice Label) : Slice Label :=
  (originalLabels.toList.foldl
    (fun (st : Slice Label × List Label) l =>
      if l ∈ st.2 then st else (st.1.append [l], l :: st.2)) (none, [])).1

namespace LabelList

/-- `deepCopy` re-slices both lists, which keeps them as they are. -/
def deepCopy (ll : LabelList) : LabelList := ⟨ll.Includes, ll.Excludes⟩

/-- `Append`.  As in the source, the new `Excludes` are `other`'s twice: the
receiver's own `Excludes` are dropped. -/
def Append (ll other : LabelList) : LabelList where
  Includes :=
    if ll.Includes.toList.length > 0 || other.Includes.toList.length > 0 then
      ll.Includes.append other.Includes.toList
    else ll.Includes
  Excludes :=
    if ll.Excludes.toList.length > 0 || other.Excludes.toList.length > 0 then
      other.Excludes.append other.Excludes.toList
    else ll.Excludes

/-- `IsNil`: both slices are `nil`. -/
def IsNil (ll : LabelList) : Bool := ll.Includes.isNil && ll.Excludes.isNil

@[simp] theorem Append_Includes (ll other : LabelList) :
    (ll.Append other).Includes.toList = ll.Includes.toList ++ other.Includes.toList := by
  unfold Append
  split
  · simp
  · -- neither list has includes
    next h => simp_all

/-- The excludes after `Append` are `other`'s twice, whenever either list has some. -/
theorem Append_Excludes (ll other : LabelList) :
    (ll.Append other).Excludes.toList =
      if ll.Excludes.toList = [] ∧ other.Excludes.toList = [] then []
      else other.Excludes.toList ++ other.Excludes.toList := by
  by_cases h : ll.Excludes.toList = [] ∧ other.Excludes.toList = []
  · -- neither list has excludes, and the receiver's are kept
    simp [Append, h]
  · rw [if_neg h]
    have hlen : 0 < ll.Excludes.toList.length ∨ 0 < other.Excludes.toList.length := by
      simpa [List.length_pos_iff, ← not_and_or] using h
    simp [Append, hlen]

end LabelList

/-- `SubtractBazelLabelList`: subtract the includes; the excludes of `haystack`
are kept on purpose. -/
def SubtractBazelLabelList (haystack needle : LabelList) : LabelList :=
  ⟨SubtractBazelLabels haystack.Includes needle.Includes, haystack.Excludes⟩

def FirstUniqueBazelLabelList (originalLabelList : LabelList) : LabelList :=
  ⟨FirstUniqueBazelLabels originalLabelList.Includes,
    FirstUniqueBazelLabels originalLabelList.Excludes⟩

/-- The basic configuration types. -/
inductive configurationType
  | noConfig
  | arch
  | os
  | osArch
  | productVariables
  deriving DecidableEq, Repr

/-- An independent axis of configuration; `subType` names a product variable. -/
structure ConfigurationAxis where
  configurationType : configurationType
  subType : String
  deriving DecidableEq, Repr

def ArchConfigurationAxis : ConfigurationAxis := ⟨.arch, ""⟩

def OsConfigurationAxis : ConfigurationAxis := ⟨.os, ""⟩

def OsArchConfigurationAxis : ConfigurationAxis := ⟨.osArch, ""⟩

def ProductVariableConfigurationAxis (productVariable : String) : ConfigurationAxis :=
  ⟨.productVariables, productVariable⟩

def ConditionsDefaultConfigKey : String := "conditions_default"

/-- Config-specific label lists of one axis, in map iteration order. -/
abbrev labelListSelectValues := List (String × LabelList)

/-- `HasConfigurableValues`: some config has non-`nil` includes. -/
def labelListSelectValues.HasConfigurableValues (ll : labelListSelectValues) : Bool :=
  ll.any fun e => !e.2.Includes.isNil

/-- `appendSelects`: append `other`'s list of every config to this map's, a
missing one being the zero list; with `forceSpecifyEmptyList`, a `nil` list
that receives a non-`nil` one gets empty includes first. -/
def labelListSelectValues.appendSelects (ll other : labelListSelectValues)
    (forceSpecifyEmptyList : Bool) : labelListSelectValues :=
  other.foldl
    (fun ll (e : String × LabelList) =>
      let l := GoMap.getD ll e.1 LabelList.zero
      let l := if forceSpecifyEmptyList && l.IsNil && !e.2.IsNil then { l with Includes := some [] }
        else l
      GoMap.set ll e.1 (l.Append e.2))
    ll

/-- The axes of an attribute, in map iteration order. -/
abbrev configurableLabelLists := List (ConfigurationAxis × labelListSelectValues)

/-- `configurableLabelLists.Append`: `appendSelects` on every axis of `other`,
from an empty map for an axis this one lacks. -/
def configurableLabelLists.Append (cll other : configurableLabelLists)
    (forceSpecifyEmptyList : Bool) : configurableLabelLists :=
  other.foldl
    (fun cll (e : ConfigurationAxis × labelListSelectValues) =>
      let selects := GoMap.getD cll e.1 []
      GoMap.set cll e.1 (labelListSelectValues.appendSelects selects e.2 forceSpecifyEmptyList))
    cll

/-- What a Go map of configurable values is: distinct axes, and distinct configs
on every axis. -/
def configurableLabelLists.IsMap (cll : configurableLabelLists) : Prop :=
  (GoMap.keys cll).Nodup ∧ ∀ e ∈ cll, (GoMap.keys e.2).Nodup

/-- A label list attribute: the base value and the configured values. -/
structure LabelListAttribute where
  Value : LabelList
  ConfigurableValues : configurableLabelLists
  ForceSpecifyEmptyList : Bool
  EmitEmptyList : Bool
  deriving Repr

namespace LabelListAttribute

/-- The body of `ResolveExcludes`'s loop for one axis.  The first inner loop
removes every config's excludes from the base value (cumulatively) and gives
each config the old base plus its own includes, less its excludes; the second
removes what stayed in the base from every config; the base labels this axis
removed go to its `conditions_default`; an axis left with no includes at all
is deleted. -/
def resolveAxis (lla : LabelListAttribute) (axis : ConfigurationAxis) : LabelListAttribute :=
  let configToLabels := GoMap.getD lla.ConfigurableValues axis []
  let baseLabels := lla.Value.deepCopy
  let (value, configs) := configToLabels.foldl
    (fun (st : LabelList × labelListSelectValues) (e : String × LabelList) =>
      let value := SubtractBazelLabelList st.1 ⟨e.2.Excludes, none⟩
      let allLabels := baseLabels.deepCopy.Append e.2
      (value, GoMap.set st.2 e.1 (SubtractBazelLabelList allLabels ⟨e.2.Excludes, none⟩)))
    (lla.Value, configToLabels)
  let configs := configs.foldl
    (fun (m : labelListSelectValues) (e : String × LabelList) =>
      GoMap.set m e.1 (SubtractBazelLabelList e.2 value)) configs
  let difference := SubtractBazelLabelList baseLabels value
  let existingDefaults :=
    (GoMap.getD configs ConditionsDefaultConfigKey LabelList.zero).Append difference
  let configs := GoMap.set configs ConditionsDefaultConfigKey
    (FirstUniqueBazelLabelList existingDefaults)
  let cv := GoMap.set lla.ConfigurableValues axis configs
  { lla with
    Value := value
    ConfigurableValues :=
      if labelListSelectValues.HasConfigurableValues configs then cv else GoMap.delete cv axis }

/-- `ResolveExcludes`: `resolveAxis` for every axis, in map iteration order. -/
def ResolveExcludes (lla : LabelListAttribute) : LabelListAttribute :=
  (GoMap.keys lla.ConfigurableValues).foldl resolveAxis lla

/-! ### What a build reads -/

/-- The entry a `select` over one axis picks for `config`: its own, else the
axis's `conditions_default`, else nothing. -/
def selectEntry (m : labelListSelectValues) (config : String) : LabelList :=
  match GoMap.get? m config with
  | some v => v
  | none => GoMap.getD m ConditionsDefaultConfigKey LabelList.zero

/-- Whether a build choosing `sel axis` on every axis uses `l`, reading excludes:
the base includes and the selected includes, less the selected excludes. -/
def effectiveBefore (lla : LabelListAttribute) (sel : ConfigurationAxis → String)
    (l : Label) : Bool :=
  (decide (l ∈ lla.Value.Includes.toList) ||
      lla.ConfigurableValues.any fun e => decide (l ∈ (selectEntry e.2 (sel e.1)).Includes.toList)) &&
    !lla.ConfigurableValues.any fun e => decide (l ∈ (selectEntry e.2 (sel e.1)).Excludes.toList)

/-- Whether a build choosing `sel axis` on every axis uses `l`, once excludes are
resolved: the base includes and the selected includes. -/
def effectiveAfter (lla : LabelListAttribute) (sel : ConfigurationAxis → String)
    (l : Label) : Bool :=
  decide (l ∈ lla.Value.Includes.toList) ||
    lla.ConfigurableValues.any fun e => decide (l ∈ (selectEntry e.2 (sel e.1)).Includes.toList)

/-! ### One base label excluded on two axes -/

/-- The base label `all_include`, excluded by `arm` on the arch axis and by
`android` on the os axis, with the axes in the map order arch, os (`osFirst`
lists os first). -/
def crossAxisExcludes (osFirst : Bool) : LabelListAttribute :=
  let arch : ConfigurationAxis × labelListSelectValues :=
    (ArchConfigurationAxis,
      [("arm", ⟨none, some [⟨"all_include", ""⟩]⟩), ("x86", ⟨some [⟨"x86_include", ""⟩], none⟩)])
  let os : ConfigurationAxis × labelListSelectValues :=
    (OsConfigurationAxis, [("android", ⟨none, some [⟨"all_include", ""⟩]⟩)])
  { Value := ⟨some [⟨"all_include", ""⟩], none⟩
    ConfigurableValues := if osFirst then [os, arch] else [arch, os]
    ForceSpecifyEmptyList := false
    EmitEmptyList := false }

/-- The build for x86 and android. -/
def x86Android (axis : ConfigurationAxis) : String :=
  if axis = OsConfigurationAxis then "android" else "x86"

/-- **`ResolveExcludes` depends on the map order.**  An android x86 build does
not use `all_include`, which android excludes; after `ResolveExcludes` with the
arch axis first it does (the label moved from the base into `x86`, and the os
axis, left with nothing to exclude from the base, was deleted), and with the os
axis first it still does not. -/
theorem ResolveExcludes_cross_axis :
    effectiveBefore (crossAxisExcludes false) x86Android ⟨"all_include", ""⟩ = false ∧
      effectiveAfter (ResolveExcludes (crossAxisExcludes false)) x86Android
        ⟨"all_include", ""⟩ = true ∧
      effectiveAfter (ResolveExcludes (crossAxisExcludes true)) x86Android
        ⟨"all_include", ""⟩ = false := by
  decide

/-! ### Appending attributes -/

/-- `Append`: the attribute after `lla.Append(other)`; its flags are kept. -/
def Append (lla other : LabelListAttribute) : LabelListAttribute :=
  let forceSpecifyEmptyList := lla.ForceSpecifyEmptyList || other.ForceSpecifyEmptyList
  let value :=
    if forceSpecifyEmptyList && lla.Value.IsNil && !other.Value.IsNil then
      { lla.Value with Includes := some [] }
    else lla.Value
  { lla with
    Value := value.Append other.Value
    ConfigurableValues :=
      configurableLabelLists.Append lla.ConfigurableValues other.ConfigurableValues
        forceSpecifyEmptyList }

/-- `Clone`: an attribute with only the flag `ForceSpecifyEmptyList`, with `lla`
appended. -/
def Clone (lla : LabelListAttribute) : LabelListAttribute :=
  Append { Value := LabelList.zero, ConfigurableValues := []
           ForceSpecifyEmptyList := lla.ForceSpecifyEmptyList, EmitEmptyList := false } lla

/-- The list of `config` on `axis`, the zero list when there is none. -/
def configValue (lla : LabelListAttribute) (axis : ConfigurationAxis) (config : String) :
    LabelList :=
  GoMap.getD (GoMap.getD lla.ConfigurableValues axis []) config LabelList.zero

/-- The list `Append` starts from: empty includes instead of `nil` when the flag
asks for them and only `other`'s list is set. -/
def forceEmpty (force : Bool) (l other : LabelList) : LabelList :=
  if force && l.IsNil && !other.IsNil then { l with Includes := some [] } else l

theorem forceEmpty_Includes (force : Bool) (l other : LabelList) :
    (forceEmpty force l other).Includes.toList = l.Includes.toList := by
  unfold forceEmpty
  split
  · next h =>
    -- only a `nil` list is given empty includes
    simp only [Bool.and_eq_true, LabelList.IsNil] at h
    obtain ⟨⟨-, hnil⟩, -⟩ := h
    cases hinc : l.Includes <;> simp_all [Slice.isNil]
  · rfl

@[simp] theorem forceEmpty_Excludes (force : Bool) (l other : LabelList) :
    (forceEmpty force l other).Excludes = l.Excludes := by
  unfold forceEmpty
  split <;> rfl

/-- `appendSelects` config by config: every config of `other` is appended once. -/
theorem appendSelects_getD {other : labelListSelectValues} (hother : (GoMap.keys other).Nodup)
    (ll : labelListSelectValues) (force : Bool) (config : String) :
    GoMap.getD (labelListSelectValues.appendSelects ll other force) config LabelList.zero =
      (GoMap.get? other config).elim (GoMap.getD ll config LabelList.zero)
        fun v => (forceEmpty force (GoMap.getD ll config LabelList.zero) v).Append v :=
  GoMap.getD_foldl_update (fun _ l v => (forceEmpty force l v).Append v) LabelList.zero hother
    ll config

/-- `configurableLabelLists.Append` axis by axis. -/
theorem configurableAppend_getD {other : configurableLabelLists}
    (hother : (GoMap.keys other).Nodup) (cll : configurableLabelLists) (force : Bool)
    (axis : ConfigurationAxis) :
    GoMap.getD (configurableLabelLists.Append cll other force) axis [] =
      (GoMap.get? other axis).elim (GoMap.getD cll axis [])
        fun sel => labelListSelectValues.appendSelects (GoMap.getD cll axis []) sel force :=
  GoMap.getD_foldl_update
    (fun _ selects sel => labelListSelectValues.appendSelects selects sel force) [] hother cll axis

/-- **The list of a config after `Append`**: `other`'s list appended to the
receiver's when `other` has one, the receiver's otherwise. -/
theorem configValue_Append {lla other : LabelListAttribute}
    (hother : configurableLabelLists.IsMap other.ConfigurableValues)
    (axis : ConfigurationAxis) (config : String) :
    configValue (lla.Append other) axis config =
      (GoMap.get? (GoMap.getD other.ConfigurableValues axis []) config).elim
        (configValue lla axis config) fun v =>
          (forceEmpty (lla.ForceSpecifyEmptyList || other.ForceSpecifyEmptyList)
            (configValue lla axis config) v).Append v := by
  unfold configValue
  simp only [Append]
  rw [configurableAppend_getD hother.1]
  cases hsel : GoMap.get? other.ConfigurableValues axis with
  | none =>
    -- an axis `other` lacks is left as it is
    simp [GoMap.getD, hsel, GoMap.get?]
  | some sel =>
    have hnodup : (GoMap.keys sel).Nodup := hother.2 _ (GoMap.mem_of_get?_eq_some hsel)
    simp only [GoMap.getD, hsel, Option.getD_some]
    exact appendSelects_getD hnodup _ _ config

/-- The base value after `Append`, as `configValue_Append` for a config. -/
theorem Value_Append (lla other : LabelListAttribute) :
    (lla.Append other).Value =
      (forceEmpty (lla.ForceSpecifyEmptyList || other.ForceSpecifyEmptyList) lla.Value
        other.Value).Append other.Value := rfl

/-- The list `other` has for a config: its own, or the zero list. -/
theorem configValue_of_get? (other : LabelListAttribute) (axis : ConfigurationAxis)
    (config : String) :
    configValue other axis config =
      (GoMap.get? (GoMap.getD other.ConfigurableValues axis []) config).getD LabelList.zero :=
  rfl

/-- **`Append` appends the includes**, of the base value and of every config,
an absent list counting as empty. -/
theorem Append_Includes (lla other : LabelListAttribute)
    (hother : configurableLabelLists.IsMap other.ConfigurableValues) :
    (lla.Append other).Value.Includes.toList =
        lla.Value.Includes.toList ++ other.Value.Includes.toList ∧
      ∀ axis config, (configValue (lla.Append other) axis config).Includes.toList =
        (configValue lla axis config).Includes.toList ++
          (configValue other axis config).Includes.toList := by
  refine ⟨by simp [Value_Append, forceEmpty_Includes], fun axis config => ?_⟩
  rw [configValue_Append hother, configValue_of_get? other axis config]
  cases GoMap.get? (GoMap.getD other.ConfigurableValues axis []) config with
  | none => simp [LabelList.zero]
  | some v => simp [forceEmpty_Includes]

/-- The attribute `Clone` appends to. -/
theorem Clone_eq (lla : LabelListAttribute) :
    lla.Clone = Append
      { Value := LabelList.zero, ConfigurableValues := [],
        ForceSpecifyEmptyList := lla.ForceSpecifyEmptyList, EmitEmptyList := false } lla := rfl

/-- **`Clone` doubles the excludes** of the base value and of every config. -/
theorem Clone_Excludes (lla : LabelListAttribute)
    (h : configurableLabelLists.IsMap lla.ConfigurableValues) :
    lla.Clone.Value.Excludes.toList = lla.Value.Excludes.toList ++ lla.Value.Excludes.toList ∧
      ∀ axis config, (configValue lla.Clone axis config).Excludes.toList =
        (configValue lla axis config).Excludes.toList ++
          (configValue lla axis config).Excludes.toList := by
  refine ⟨?_, fun axis config => ?_⟩
  · rw [Clone_eq, Value_Append, LabelList.Append_Excludes]
    split_ifs with hnil <;> simp_all [LabelList.zero]
  · rw [Clone_eq, configValue_Append h, configValue_of_get? lla axis config]
    cases GoMap.get? (GoMap.getD lla.ConfigurableValues axis []) config with
    | none => simp [configValue, GoMap.getD, GoMap.get?, LabelList.zero]
    | some v =>
      simp only [Option.elim_some, Option.getD_some]
      rw [LabelList.Append_Excludes]
      split_ifs with hnil <;> simp_all

/-- `Clone` keeps the includes of the base value and of every config. -/
theorem Clone_Includes (lla : LabelListAttribute)
    (h : configurableLabelLists.IsMap lla.ConfigurableValues) :
    lla.Clone.Value.Includes.toList = lla.Value.Includes.toList ∧
      ∀ axis config, (configValue lla.Clone axis config).Includes.toList =
        (configValue lla axis config).Includes.toList := by
  obtain ⟨hvalue, hconfig⟩ := Append_Includes
    { Value := LabelList.zero, ConfigurableValues := [],
      ForceSpecifyEmptyList := lla.ForceSpecifyEmptyList, EmitEmptyList := false } lla h
  refine ⟨by simpa [Clone_eq, LabelList.zero] using hvalue, fun axis config => ?_⟩
  rw [Clone_eq, hconfig]
  simp [configValue, GoMap.getD, GoMap.get?, LabelList.zero]

/-- **`Clone` keeps the includes and doubles the excludes**, of the base value
and of every config: it appends the attribute to an empty one, and `Append`
appends the excludes of the attribute appended to themselves. -/
theorem Clone_includes_excludes (lla : LabelListAttribute)
    (h : configurableLabelLists.IsMap lla.ConfigurableValues) :
    (lla.Clone.Value.Includes.toList = lla.Value.Includes.toList ∧
      ∀ axis config, (configValue lla.Clone axis config).Includes.toList =
        (configValue lla axis config).Includes.toList) ∧
    (lla.Clone.Value.Excludes.toList = lla.Value.Excludes.toList ++ lla.Value.Excludes.toList ∧
      ∀ axis config, (configValue lla.Clone axis config).Excludes.toList =
        (configValue lla axis config).Excludes.toList ++
          (configValue lla axis config).Excludes.toList) :=
  ⟨Clone_Includes lla h, Clone_Excludes lla h⟩

/-- An attribute including `a` and excluding `b` on `arm`: its clone includes
`a` and excludes `b` twice there. -/
theorem Clone_includes_excludes_arm :
    configurableLabelLists.IsMap [(ArchConfigurationAxis, [("arm", ⟨some [⟨"a", ""⟩], some [⟨"b", ""⟩]⟩)])] ∧
      (configValue (Clone ⟨LabelList.zero,
          [(ArchConfigurationAxis, [("arm", ⟨some [⟨"a", ""⟩], some [⟨"b", ""⟩]⟩)])], false, false⟩)
          ArchConfigurationAxis "arm").Excludes.toList = [⟨"b", ""⟩, ⟨"b", ""⟩] := by
  have h : configurableLabelLists.IsMap
      [(ArchConfigurationAxis, [("arm", ⟨some [⟨"a", ""⟩], some [⟨"b", ""⟩]⟩)])] := by
    unfold configurableLabelLists.IsMap
    decide
  exact ⟨h, (Clone_includes_excludes _ h).2.2 ArchConfigurationAxis "arm"⟩

/-- **`Append` loses the receiver's excludes.**  An attribute that excludes `x`,
with an empty attribute appended, excludes nothing; its `Clone` excludes `x`
twice. -/
theorem Append_drops_Excludes :
    let a : LabelListAttribute :=
      { Value := ⟨none, some [⟨"x", ""⟩]⟩, ConfigurableValues := [],
        ForceSpecifyEmptyList := false, EmitEmptyList := false }
    let b : LabelListAttribute :=
      { Value := LabelList.zero, ConfigurableValues := [],
        ForceSpecifyEmptyList := false, EmitEmptyList := false }
    (a.Append b).Value.Excludes = none ∧ a.Clone.Value.Excludes = some [⟨"x", ""⟩, ⟨"x", ""⟩] := by
  decide

end LabelListAttribute

end Bazel

end Soong
