import Soong.Bazel.Properties
import Soong.Lib.Interleave

/-!
# Collapsing the os and arch axes of an attribute

`bazel/properties.go` and `bazel/configurability.go`.  A `BoolAttribute` or a
`LabelAttribute` holds a base value and, for each configuration axis, a map from
a config to a value.  Bazel writes an attribute of a single value as one
`select`, so `Collapse` turns an attribute with values on both the os and the
arch axis into one with values on the os_arch axis alone: for every os and
every arch it supports (`osToArchMap`), an os_arch value already there is kept,
and otherwise the arch value, else the os value, is copied to the os_arch
config; then the os and arch axes are deleted.

A target `(os, arch)` reads its os_arch value, else its arch value, else its os
value, else the base value (`effectiveValue`).  Collapsing keeps that value for
every target of `osToArchMap` (`Collapse_effective`), and leaves values on one
of the three axes at most.

`BoolAttribute.Collapse` then checks that no more than one axis is left, and
panics otherwise.  It counts the keys of the map of axes, where `axisTypes`
counts the axes that hold a value; and `SetSelectValue` with a `nil` value
makes the map of its axis before it deletes the config from it.  So an axis
whose values were all set to `nil` is counted by the one and not by the other,
and an empty product-variable axis next to os and arch values makes `Collapse`
panic (`Collapse_panics_on_empty_product_variable_axis`).  Where every
product-variable axis holds a value, as in every attribute built by setting
values that are not `nil`, `Collapse` returns (`build_Collapse_isSome`).

The two `Collapse` functions differ in their messages and in that check; the
loop over `osToArchMap` and the lookups are shared by both and are written once,
over the values of any type.  Go iterates over `osToArchMap` in an unspecified
order; the model takes the order of the source, and the loop writes one
os_arch config per pair, so no result about a lookup depends on it.

## Main definitions

* `BoolAttribute`, `LabelAttribute`, their `SelectValue`, `SetSelectValue`,
  `axisTypes` and `Collapse`.
* `collapseLoop` — the loop over `osToArchMap`, one `collapsePair` per pair.
* `effectiveValue` — the value a target reads.

## Main results

* `collapseLoop_eq`, `lookup_foldl_fillOsArch_self` — the loop is one
  `fillOsArch` per pair, after which the os_arch value of each pair is its
  value on the os_arch, arch and os axes before.
* `Collapse_effective`, `LabelAttribute.Collapse_effective` — collapsing keeps
  the value every target reads.
* `Collapse_axes` — at most one of the os, arch and os_arch axes is left.
* `Collapse_isSome`, `build_Collapse_isSome` — with every product-variable axis
  holding a value, as after setting values that are not `nil`, `Collapse` does
  not panic; `LabelAttribute.Collapse_isSome` — the label one never does.
* `Collapse_panics_on_empty_product_variable_axis` — an empty product-variable
  axis makes it panic.
-/

namespace Soong

namespace Bazel

/-! ### Configs -/

def NoConfigAxis : ConfigurationAxis := ⟨.noConfig, ""⟩

/-- The configs of `platformArchMap`; the Bazel labels it maps them to are read
by `SelectKey` only. -/
def platformArchMap : List String := ["arm", "arm64", "x86", "x86_64", ConditionsDefaultConfigKey]

/-- The configs of `platformOsMap`. -/
def platformOsMap : List String :=
  ["android", "darwin", "linux_glibc", "linux_musl", "linux_bionic", "windows",
    ConditionsDefaultConfigKey]

/-- The configs of `platformOsArchMap`. -/
def platformOsArchMap : List String :=
  ["android_arm", "android_arm64", "android_x86", "android_x86_64", "darwin_arm64",
    "darwin_x86_64", "linux_glibc_x86", "linux_glibc_x86_64", "linux_musl_x86",
    "linux_musl_x86_64", "linux_bionic_arm64", "linux_bionic_x86_64", "windows_x86",
    "windows_x86_64", ConditionsDefaultConfigKey]

/-- `osToArchMap`: each os and the archs it supports, in the order of the
source. -/
def osToArchMap : List (String × List String) :=
  [("android", ["arm", "arm64", "x86", "x86_64"]),
    ("linux_glibc", ["x86", "x86_64"]),
    ("linux_musl", ["x86", "x86_64"]),
    ("darwin", ["arm64", "x86_64"]),
    ("linux_bionic", ["arm64", "x86_64"]),
    ("windows", ["x86", "x86_64"])]

/-- `osArchString`: `fmt.Sprintf("%s_%s", os, arch)`. -/
def osArchString (os arch : String) : String := os ++ "_" ++ arch

/-- `validateConfig`: whether `config` is a config of the axis type; Go panics
when it is not. -/
def configurationType.validateConfig : configurationType → String → Bool
  | .noConfig, config => config == ""
  | .arch, config => platformArchMap.contains config
  | .os, config => platformOsMap.contains config
  | .osArch, config => platformOsArchMap.contains config
  | .productVariables, _ => true

/-- The axes a caller outside the package can name: those of the constants and
of `ProductVariableConfigurationAxis`. -/
def ConfigurationAxis.Public (axis : ConfigurationAxis) : Prop :=
  axis.configurationType = .productVariables ∨ axis.subType = ""

instance (axis : ConfigurationAxis) : Decidable axis.Public :=
  inferInstanceAs (Decidable (_ ∨ _))

/-! ### Configured values of any type -/

/-- The configured values of an attribute: for each axis, a map from a config
to a value, both in map iteration order. -/
abbrev configurable (α : Type) := List (ConfigurationAxis × List (String × α))

section Configurable

variable {α : Type}

/-- `cv[axis][config]`, `nil` when either is missing. -/
def configurable.lookup (cv : configurable α) (axis : ConfigurationAxis) (config : String) :
    Option α :=
  GoMap.get? (GoMap.getD cv axis []) config

/-- `cv.setValueForAxis(axis, config, &value)`: the map of `axis` is made when
missing, and `config` set in it. -/
def configurable.setValueForAxis (cv : configurable α) (axis : ConfigurationAxis)
    (config : String) (value : α) : configurable α :=
  GoMap.set cv axis (GoMap.set (GoMap.getD cv axis []) config value)

/-- `axisTypes`: whether some axis of type `t` holds a value. -/
def axisTypes (cv : configurable α) (t : configurationType) : Bool :=
  cv.any fun e => e.1.configurationType == t && !e.2.isEmpty

/-- `SelectValue` of an attribute with base value `Value`; `none` is the panic
of `validateConfig`. -/
def selectValue (Value : Option α) (cv : configurable α) (axis : ConfigurationAxis)
    (config : String) : Option (Option α) :=
  if axis.configurationType.validateConfig config then
    match axis.configurationType with
    | .noConfig => some Value
    | _ => some (cv.lookup axis config)
  else none

/-- `SetSelectValue` of a value on a configurable axis; `none` is the panic of
`validateConfig`. -/
def setSelectValue (cv : configurable α) (axis : ConfigurationAxis) (config : String)
    (value : α) : Option (configurable α) :=
  if axis.configurationType.validateConfig config then some (cv.setValueForAxis axis config value)
  else none

/-- One pass of the inner loop of `Collapse`, for `osType` and one arch it
supports: an os_arch value already there is kept; otherwise the arch value, else
the os value, is set on the os_arch config.  `SelectValue` and `SetSelectValue`
on these three axes read and write the configured values only. -/
def collapsePair (Value : Option α) (cv : configurable α) (osType supportedArch : String) :
    Option (configurable α) := do
  let osArch := osArchString osType supportedArch
  match ← selectValue Value cv OsArchConfigurationAxis osArch with
  | some _ => pure cv
  | none =>
    let archVal ← selectValue Value cv ArchConfigurationAxis supportedArch
    let osVal ← selectValue Value cv OsConfigurationAxis osType
    match osVal, archVal with
    -- arch takes precedence, as the arch mutator runs after the os mutator
    | some _, some a => setSelectValue cv OsArchConfigurationAxis osArch a
    | some o, none => setSelectValue cv OsArchConfigurationAxis osArch o
    | none, some a => setSelectValue cv OsArchConfigurationAxis osArch a
    | none, none => pure cv

/-- The two loops of `Collapse` over `osToArchMap`. -/
def collapseLoop (Value : Option α) (osToArch : List (String × List String))
    (cv : configurable α) : Option (configurable α) :=
  osToArch.foldlM
    (fun cv (e : String × List String) =>
      e.2.foldlM (fun cv supportedArch => collapsePair Value cv e.1 supportedArch) cv)
    cv

/-- The value a target `(osType, arch)` reads: its os_arch value, else its arch
value, else its os value, else the base value. -/
def effectiveValue (Value : Option α) (cv : configurable α) (osType arch : String) : Option α :=
  (cv.lookup OsArchConfigurationAxis (osArchString osType arch)).or
    ((cv.lookup ArchConfigurationAxis arch).or ((cv.lookup OsConfigurationAxis osType).or Value))

/-- Whether the configs a pass for `osType` and `arch` reads and writes are
valid. -/
def validPair (osType arch : String) : Bool :=
  configurationType.osArch.validateConfig (osArchString osType arch) &&
    configurationType.arch.validateConfig arch && configurationType.os.validateConfig osType

/-- The pairs `(os, arch)` of a map from an os to its archs, in loop order. -/
def osArchPairs (osToArch : List (String × List String)) : List (String × String) :=
  osToArch.flatMap fun e => e.2.map (e.1, ·)

/-- What one pass of the loop does once its configs are valid: the os_arch
config of the pair gets the arch value, else the os value, unless it has a
value already. -/
def configurable.fillOsArch (cv : configurable α) (osType arch : String) : configurable α :=
  match cv.lookup OsArchConfigurationAxis (osArchString osType arch) with
  | some _ => cv
  | none =>
    match (cv.lookup ArchConfigurationAxis arch).or (cv.lookup OsConfigurationAxis osType) with
    | some v => cv.setValueForAxis OsArchConfigurationAxis (osArchString osType arch) v
    | none => cv

/-- The configured values after the loop over `osToArchMap` with valid configs
and the deletion of the arch and os axes. -/
def configurable.collapsed (cv : configurable α) : configurable α :=
  GoMap.delete
    (GoMap.delete
      ((osArchPairs osToArchMap).foldl (fun (cv : configurable α) p => cv.fillOsArch p.1 p.2) cv)
      ArchConfigurationAxis)
    OsConfigurationAxis

/-- What `SetSelectValue` calls leave in the configured values: distinct axes,
each one a caller can name, and none of them the no-config axis. -/
structure configurable.WellFormed (cv : configurable α) : Prop where
  nodup : (GoMap.keys cv).Nodup
  nameable : ∀ axis ∈ GoMap.keys cv, axis.Public ∧ axis.configurationType ≠ .noConfig

end Configurable

/-! ### Lookups through the loop -/

theorem osArch_ne_arch : OsArchConfigurationAxis ≠ ArchConfigurationAxis := by decide

theorem osArch_ne_os : OsArchConfigurationAxis ≠ OsConfigurationAxis := by decide

theorem arch_ne_os : ArchConfigurationAxis ≠ OsConfigurationAxis := by decide

section Loop

variable {α : Type}

@[simp] theorem lookup_setValueForAxis_self (cv : configurable α) (axis : ConfigurationAxis)
    (config : String) (v : α) :
    (cv.setValueForAxis axis config v).lookup axis config = some v := by
  simp [configurable.lookup, configurable.setValueForAxis, GoMap.get?_set_self]

theorem lookup_setValueForAxis_of_ne (cv : configurable α) {axis axis' : ConfigurationAxis}
    {config config' : String} (v : α) (h : axis' ≠ axis ∨ config' ≠ config) :
    (cv.setValueForAxis axis config v).lookup axis' config' = cv.lookup axis' config' := by
  unfold configurable.lookup configurable.setValueForAxis
  by_cases hax : axis' = axis
  · -- the same axis: another config of its map
    subst hax
    rw [GoMap.getD_set_self, GoMap.get?_set_of_ne _ _ (h.resolve_left (not_not.mpr rfl))]
  · rw [GoMap.getD_set_of_ne _ _ _ hax]

@[simp] theorem lookup_delete_self (cv : configurable α) (axis : ConfigurationAxis)
    (config : String) : configurable.lookup (GoMap.delete cv axis) axis config = none := by
  simp [configurable.lookup, GoMap.getD, GoMap.get?_delete_self, GoMap.get?]

theorem lookup_delete_of_ne (cv : configurable α) {axis axis' : ConfigurationAxis}
    (config : String) (h : axis' ≠ axis) :
    configurable.lookup (GoMap.delete cv axis) axis' config = cv.lookup axis' config := by
  simp [configurable.lookup, GoMap.getD, GoMap.get?_delete_of_ne _ h]

theorem selectValue_of_valid (Value : Option α) (cv : configurable α)
    (axis : ConfigurationAxis) {config : String} (hax : axis.configurationType ≠ .noConfig)
    (h : axis.configurationType.validateConfig config = true) :
    selectValue Value cv axis config = some (cv.lookup axis config) := by
  unfold selectValue
  rw [if_pos h]
  split
  · contradiction
  · rfl

theorem setSelectValue_of_valid (cv : configurable α) (axis : ConfigurationAxis)
    {config : String} (v : α) (h : axis.configurationType.validateConfig config = true) :
    setSelectValue cv axis config v = some (cv.setValueForAxis axis config v) := by
  rw [setSelectValue, if_pos h]

/-- A pass with valid configs is `fillOsArch`. -/
theorem collapsePair_eq (Value : Option α) (cv : configurable α) {osType arch : String}
    (h : validPair osType arch = true) :
    collapsePair Value cv osType arch = some (cv.fillOsArch osType arch) := by
  simp only [validPair, Bool.and_eq_true] at h
  obtain ⟨⟨hoa, ha⟩, ho⟩ := h
  simp only [collapsePair, configurable.fillOsArch,
    selectValue_of_valid Value cv OsArchConfigurationAxis (by decide) hoa,
    selectValue_of_valid Value cv ArchConfigurationAxis (by decide) ha,
    selectValue_of_valid Value cv OsConfigurationAxis (by decide) ho,
    setSelectValue_of_valid cv OsArchConfigurationAxis _ hoa]
  -- the three lookups decide every branch of both sides
  cases cv.lookup OsArchConfigurationAxis (osArchString osType arch) <;>
    cases cv.lookup ArchConfigurationAxis arch <;>
    cases cv.lookup OsConfigurationAxis osType <;> rfl

theorem foldlM_collapsePair (Value : Option α) (osType : String) {archs : List String}
    (h : ∀ a ∈ archs, validPair osType a = true) (cv : configurable α) :
    archs.foldlM (fun cv supportedArch => collapsePair Value cv osType supportedArch) cv =
      some (archs.foldl (fun cv a => cv.fillOsArch osType a) cv) := by
  induction archs generalizing cv with
  | nil => rfl
  | cons a archs ih =>
    rw [List.foldlM_cons, collapsePair_eq Value cv (h a List.mem_cons_self), Option.bind_eq_bind,
      Option.bind_some, ih (fun b hb => h b (List.mem_cons_of_mem a hb)), List.foldl_cons]

/-- **The loop with valid configs** is one `fillOsArch` per pair, in loop
order. -/
theorem collapseLoop_eq (Value : Option α) {osToArch : List (String × List String)}
    (h : ∀ p ∈ osArchPairs osToArch, validPair p.1 p.2 = true) (cv : configurable α) :
    collapseLoop Value osToArch cv =
      some ((osArchPairs osToArch).foldl (fun cv p => cv.fillOsArch p.1 p.2) cv) := by
  induction osToArch generalizing cv with
  | nil => rfl
  | cons e osToArch ih =>
    have harchs : ∀ a ∈ e.2, validPair e.1 a = true := fun a ha =>
      h (e.1, a) (by simp [osArchPairs, ha])
    have hrest : ∀ p ∈ osArchPairs osToArch, validPair p.1 p.2 = true := fun p hp =>
      h p (by simp only [osArchPairs, List.flatMap_cons, List.mem_append]; exact .inr hp)
    rw [collapseLoop, List.foldlM_cons, foldlM_collapsePair Value e.1 harchs, Option.bind_eq_bind,
      Option.bind_some, ← collapseLoop, ih hrest]
    simp [osArchPairs, List.foldl_flatMap, List.foldl_map]

theorem lookup_fillOsArch_of_ne (cv : configurable α) {osType arch : String}
    {axis : ConfigurationAxis} {config : String}
    (h : axis ≠ OsArchConfigurationAxis ∨ config ≠ osArchString osType arch) :
    (cv.fillOsArch osType arch).lookup axis config = cv.lookup axis config := by
  unfold configurable.fillOsArch
  split
  · rfl
  · split
    · exact lookup_setValueForAxis_of_ne cv _ h
    · rfl

theorem lookup_fillOsArch_self (cv : configurable α) (osType arch : String) :
    (cv.fillOsArch osType arch).lookup OsArchConfigurationAxis (osArchString osType arch) =
      (cv.lookup OsArchConfigurationAxis (osArchString osType arch)).or
        ((cv.lookup ArchConfigurationAxis arch).or (cv.lookup OsConfigurationAxis osType)) := by
  unfold configurable.fillOsArch
  split
  · next v hv => rw [hv, Option.some_or]
  · next hnone =>
    split
    · next v hv => rw [lookup_setValueForAxis_self, hnone, Option.none_or, hv]
    · next hv => rw [hnone, Option.none_or, hv]

theorem lookup_foldl_fillOsArch_of_ne {ps : List (String × String)} (cv : configurable α)
    {axis : ConfigurationAxis} {config : String}
    (h : ∀ p ∈ ps, axis ≠ OsArchConfigurationAxis ∨ config ≠ osArchString p.1 p.2) :
    (ps.foldl (fun cv p => cv.fillOsArch p.1 p.2) cv).lookup axis config =
      cv.lookup axis config := by
  induction ps generalizing cv with
  | nil => rfl
  | cons q ps ih =>
    rw [List.foldl_cons, ih _ fun p hp => h p (List.mem_cons_of_mem q hp),
      lookup_fillOsArch_of_ne _ (h q List.mem_cons_self)]

/-- **After the loop**, the os_arch config of every pair holds the pair's value
on the os_arch, arch and os axes of the attribute before the loop.  The
induction is on the pairs; each pass writes its own os_arch config only, so no
other pass reads or writes what it wrote. -/
theorem lookup_foldl_fillOsArch_self {ps : List (String × String)}
    (hps : (ps.map fun p => osArchString p.1 p.2).Nodup) (cv : configurable α)
    {p : String × String}
    (hp : p ∈ ps) :
    (ps.foldl (fun cv p => cv.fillOsArch p.1 p.2) cv).lookup OsArchConfigurationAxis
        (osArchString p.1 p.2) =
      (cv.lookup OsArchConfigurationAxis (osArchString p.1 p.2)).or
        ((cv.lookup ArchConfigurationAxis p.2).or (cv.lookup OsConfigurationAxis p.1)) := by
  induction ps generalizing cv with
  | nil => simp at hp
  | cons q ps ih =>
    rw [List.map_cons, List.nodup_cons] at hps
    rw [List.foldl_cons]
    rcases List.mem_cons.mp hp with rfl | hp'
    · -- the pair's own pass writes its config, and no later pass does
      have hlater : ∀ r ∈ ps, OsArchConfigurationAxis ≠ OsArchConfigurationAxis ∨
          osArchString p.1 p.2 ≠ osArchString r.1 r.2 := fun r hr =>
        .inr fun heq => hps.1 (heq ▸ List.mem_map_of_mem hr)
      rw [lookup_foldl_fillOsArch_of_ne _ hlater, lookup_fillOsArch_self]
    · -- an earlier pass writes another os_arch config, and no arch or os one
      have hne : osArchString p.1 p.2 ≠ osArchString q.1 q.2 := fun heq =>
        hps.1 (heq ▸ List.mem_map_of_mem hp')
      rw [ih hps.2 _ hp', lookup_fillOsArch_of_ne _ (.inr hne),
        lookup_fillOsArch_of_ne _ (.inl osArch_ne_arch.symm),
        lookup_fillOsArch_of_ne _ (.inl osArch_ne_os.symm)]

/-- Deleting the arch and os axes leaves a target its os_arch value, else the
base value. -/
theorem effectiveValue_delete (Value : Option α) (cv : configurable α) (osType arch : String) :
    effectiveValue Value (GoMap.delete (GoMap.delete cv ArchConfigurationAxis) OsConfigurationAxis)
        osType arch =
      (cv.lookup OsArchConfigurationAxis (osArchString osType arch)).or Value := by
  rw [effectiveValue, lookup_delete_of_ne _ _ osArch_ne_os, lookup_delete_of_ne _ _ osArch_ne_arch,
    lookup_delete_of_ne _ _ arch_ne_os, lookup_delete_self, lookup_delete_self, Option.none_or,
    Option.none_or]

/-- **Collapsing keeps the value of every target of the loop**, when the os_arch
configs of its pairs are distinct. -/
theorem effectiveValue_collapsed (Value : Option α) {ps : List (String × String)}
    (hps : (ps.map fun p => osArchString p.1 p.2).Nodup) (cv : configurable α)
    {p : String × String}
    (hp : p ∈ ps) :
    effectiveValue Value
        (GoMap.delete
          (GoMap.delete (ps.foldl (fun (cv : configurable α) p => cv.fillOsArch p.1 p.2) cv)
            ArchConfigurationAxis) OsConfigurationAxis) p.1 p.2 =
      effectiveValue Value cv p.1 p.2 := by
  rw [effectiveValue_delete, lookup_foldl_fillOsArch_self hps cv hp, effectiveValue,
    Option.or_assoc, Option.or_assoc]

theorem mem_keys_fillOsArch {cv : configurable α} {osType arch : String} {x : ConfigurationAxis}
    (hx : x ∈ GoMap.keys (cv.fillOsArch osType arch)) :
    x ∈ GoMap.keys cv ∨ x = OsArchConfigurationAxis := by
  unfold configurable.fillOsArch at hx
  split at hx
  · exact .inl hx
  · split at hx
    · exact GoMap.mem_keys_set hx
    · exact .inl hx

theorem nodup_keys_fillOsArch {cv : configurable α} (h : (GoMap.keys cv).Nodup)
    (osType arch : String) : (GoMap.keys (cv.fillOsArch osType arch)).Nodup := by
  unfold configurable.fillOsArch
  split
  · exact h
  · split
    · exact GoMap.nodup_keys_set h _ _
    · exact h

/-- The loop adds the os_arch axis, if anything. -/
theorem mem_keys_foldl_fillOsArch {ps : List (String × String)} {cv : configurable α}
    {x : ConfigurationAxis}
    (hx : x ∈ GoMap.keys (ps.foldl (fun (cv : configurable α) p => cv.fillOsArch p.1 p.2) cv)) :
    x ∈ GoMap.keys cv ∨ x = OsArchConfigurationAxis := by
  induction ps generalizing cv with
  | nil => exact .inl hx
  | cons q ps ih =>
    rcases ih hx with h | h
    · exact mem_keys_fillOsArch h
    · exact .inr h

theorem nodup_keys_foldl_fillOsArch {ps : List (String × String)} {cv : configurable α}
    (h : (GoMap.keys cv).Nodup) :
    (GoMap.keys (ps.foldl (fun (cv : configurable α) p => cv.fillOsArch p.1 p.2) cv)).Nodup := by
  induction ps generalizing cv with
  | nil => exact h
  | cons q ps ih => exact ih (nodup_keys_fillOsArch h q.1 q.2)

/-- The axes left after collapsing: those of the attribute other than the arch
and os axes, and the os_arch axis. -/
theorem mem_keys_collapsed {cv : configurable α} {x : ConfigurationAxis}
    (hx : x ∈ GoMap.keys cv.collapsed) :
    x ≠ ArchConfigurationAxis ∧ x ≠ OsConfigurationAxis ∧
      (x ∈ GoMap.keys cv ∨ x = OsArchConfigurationAxis) := by
  obtain ⟨hx₁, hxos⟩ := GoMap.mem_keys_delete hx
  obtain ⟨hx₂, hxarch⟩ := GoMap.mem_keys_delete hx₁
  exact ⟨hxarch, hxos, mem_keys_foldl_fillOsArch hx₂⟩

/-- **No more than one axis is left** when every axis of the attribute is the
os, arch or os_arch axis. -/
theorem length_collapsed_le_one {cv : configurable α} (hnodup : (GoMap.keys cv).Nodup)
    (hkeys : ∀ x ∈ GoMap.keys cv,
      x = ArchConfigurationAxis ∨ x = OsConfigurationAxis ∨ x = OsArchConfigurationAxis) :
    cv.collapsed.length ≤ 1 := by
  have hsub : GoMap.keys cv.collapsed ⊆ [OsArchConfigurationAxis] := by
    intro x hx
    obtain ⟨hxarch, hxos, hcv | rfl⟩ := mem_keys_collapsed hx
    · rcases hkeys x hcv with rfl | rfl | rfl
      · exact absurd rfl hxarch
      · exact absurd rfl hxos
      · exact List.mem_singleton_self _
    · exact List.mem_singleton_self _
  have hnd : (GoMap.keys cv.collapsed).Nodup :=
    ((GoMap.keys_delete_sublist _ _).trans (GoMap.keys_delete_sublist _ _)).nodup
      (nodup_keys_foldl_fillOsArch hnodup)
  simpa [GoMap.keys] using hnd.length_le_of_subset hsub

theorem axisTypes_of_mem {cv : configurable α} {e : ConfigurationAxis × List (String × α)}
    (he : e ∈ cv) (hne : e.2 ≠ []) : axisTypes cv e.1.configurationType = true := by
  rw [axisTypes, List.any_eq_true]
  exact ⟨e, he, by simpa [List.isEmpty_iff] using hne⟩

/-- With no product-variable axis holding a value, and every one of them
holding a value, the axes of a well-formed attribute are the os, arch and
os_arch axes. -/
theorem keys_of_no_productVariables {cv : configurable α} (hwf : cv.WellFormed)
    (hheld : ∀ e ∈ cv, e.1.configurationType = .productVariables → e.2 ≠ [])
    (hpv : axisTypes cv .productVariables = false) :
    ∀ x ∈ GoMap.keys cv,
      x = ArchConfigurationAxis ∨ x = OsConfigurationAxis ∨ x = OsArchConfigurationAxis := by
  intro x hx
  obtain ⟨hpub, hnc⟩ := hwf.nameable x hx
  obtain ⟨e, he, rfl⟩ := List.mem_map.mp hx
  by_cases ht : e.1.configurationType = .productVariables
  · -- a product-variable axis is in the map only with a value
    have := axisTypes_of_mem he (hheld e he ht)
    rw [ht, hpv] at this
    cases this
  · obtain ⟨⟨t, sub⟩, vs⟩ := e
    have hsub : sub = "" := hpub.resolve_left ht
    subst hsub
    cases t with
    | noConfig => exact absurd rfl hnc
    | arch => exact .inl rfl
    | os => exact .inr (.inl rfl)
    | osArch => exact .inr (.inr rfl)
    | productVariables => exact absurd rfl ht

/-- After collapsing a well-formed attribute, no axis of type arch or os is
left. -/
theorem axisTypes_collapsed {cv : configurable α} (hwf : cv.WellFormed) {t : configurationType}
    (ht : t = .arch ∨ t = .os) : axisTypes cv.collapsed t = false := by
  rw [axisTypes, List.any_eq_false]
  rintro ⟨x, vs⟩ he hte
  have hx : x ∈ GoMap.keys cv.collapsed := List.mem_map_of_mem he
  have htx : x.configurationType = t := by simp at hte; exact hte.1
  obtain ⟨hxarch, hxos, hcv | rfl⟩ := mem_keys_collapsed hx
  · -- an axis of the attribute: of type arch or os, it is the arch or os axis
    obtain ⟨hpub, -⟩ := hwf.nameable x hcv
    obtain ⟨t', sub⟩ := x
    simp only at htx
    subst htx
    have hsub : sub = "" := hpub.resolve_left (by rcases ht with rfl | rfl <;> simp)
    subst hsub
    rcases ht with rfl | rfl
    · exact hxarch rfl
    · exact hxos rfl
  · rcases ht with rfl | rfl <;> simp [OsArchConfigurationAxis] at htx

end Loop

/-- Every config the loop over `osToArchMap` reads or writes is valid. -/
theorem osToArchMap_valid : ∀ p ∈ osArchPairs osToArchMap, validPair p.1 p.2 = true := by
  decide +kernel

/-- The pairs of `osToArchMap` have distinct os_arch configs. -/
theorem osToArchMap_nodup :
    ((osArchPairs osToArchMap).map fun p => osArchString p.1 p.2).Nodup := by
  decide +kernel

/-- **Collapsing keeps the value every target of `osToArchMap` reads.** -/
theorem effectiveValue_configurable_collapsed {α : Type} (Value : Option α) (cv : configurable α)
    {p : String × String} (hp : p ∈ osArchPairs osToArchMap) :
    effectiveValue Value cv.collapsed p.1 p.2 = effectiveValue Value cv p.1 p.2 := by
  rw [configurable.collapsed]
  exact effectiveValue_collapsed Value osToArchMap_nodup cv hp

/-- Past the error of `Collapse`, in its collapsing branch, no product-variable
axis holds a value. -/
theorem no_productVariables_of_collapsing {pv os arch osArch : Bool}
    (hpv : ¬(pv && (os || arch || osArch)) = true)
    (hcol : (os && arch || osArch && (os || arch)) = true) : pv = false := by
  cases pv <;> cases os <;> cases arch <;> cases osArch <;> simp_all

/-! ### Bool attributes -/

/-- The configs of one axis of a bool attribute. -/
abbrev configToBools := List (String × Bool)

/-- `configToBools.setValue`: a `nil` value deletes the config. -/
def configToBools.setValue (ctb : configToBools) (config : String) (value : Option Bool) :
    configToBools :=
  match value with
  | none => GoMap.delete ctb config
  | some v => GoMap.set ctb config v

abbrev configurableBools := configurable Bool

/-- `configurableBools.setValueForAxis`: the map of `axis` is made when missing,
also for a `nil` value, and then set. -/
def configurableBools.setValueForAxis (cb : configurableBools) (axis : ConfigurationAxis)
    (config : String) (value : Option Bool) : configurableBools :=
  GoMap.set cb axis (configToBools.setValue (GoMap.getD cb axis []) config value)

/-- An attribute whose value is a single bool that may be configured. -/
structure BoolAttribute where
  Value : Option Bool
  ConfigurableValues : configurableBools
  deriving DecidableEq, Repr

namespace BoolAttribute

/-- The attribute with nothing set. -/
def zero : BoolAttribute := ⟨none, []⟩

def SetSelectValue (ba : BoolAttribute) (axis : ConfigurationAxis) (config : String)
    (value : Option Bool) : Option BoolAttribute :=
  if axis.configurationType.validateConfig config then
    match axis.configurationType with
    | .noConfig => some { ba with Value := value }
    | _ => some { ba with
        ConfigurableValues :=
          configurableBools.setValueForAxis ba.ConfigurableValues axis config value }
  else none

def SelectValue (ba : BoolAttribute) (axis : ConfigurationAxis) (config : String) :
    Option (Option Bool) :=
  selectValue ba.Value ba.ConfigurableValues axis config

def axisTypes (ba : BoolAttribute) (t : configurationType) : Bool :=
  Bazel.axisTypes ba.ConfigurableValues t

/-- `(*BoolAttribute).Collapse`: `none` is a panic, `.error` the error it
returns. -/
def Collapse (ba : BoolAttribute) : Option (Except String BoolAttribute) :=
  let containsOs := ba.axisTypes .os
  let containsArch := ba.axisTypes .arch
  let containsOsArch := ba.axisTypes .osArch
  let containsProductVariables := ba.axisTypes .productVariables
  if containsProductVariables && (containsOs || containsArch || containsOsArch) then
    some (.error "boolean attribute could not be collapsed as it has two or more unrelated axes")
  else if (containsOs && containsArch) || (containsOsArch && (containsOs || containsArch)) then do
    let cv ← collapseLoop ba.Value osToArchMap ba.ConfigurableValues
    let cv := GoMap.delete (GoMap.delete cv ArchConfigurationAxis) OsConfigurationAxis
    -- the post-condition, on the number of keys of the map of axes
    if 1 < cv.length then none
    else some (.ok { ba with ConfigurableValues := cv })
  else some (.ok ba)

/-- The attribute after the `SetSelectValue` calls `calls` in turn; `none` when
one of them panics. -/
def build (calls : List (ConfigurationAxis × String × Option Bool)) : Option BoolAttribute :=
  calls.foldlM (fun ba c => ba.SetSelectValue c.1 c.2.1 c.2.2) zero

/-! #### What `Collapse` does -/

/-- **What `Collapse` can return**: the attribute as it is, when it has no
values on two of the os, arch and os_arch axes, or the attribute with its
configured values collapsed, when it has and no product-variable axis holds a
value. -/
theorem Collapse_cases {ba ba' : BoolAttribute} (h : ba.Collapse = some (.ok ba')) :
    (ba' = ba ∧ ((ba.axisTypes .os && ba.axisTypes .arch) ||
        (ba.axisTypes .osArch && (ba.axisTypes .os || ba.axisTypes .arch))) = false) ∨
      (ba.axisTypes .productVariables = false ∧
        ba' = { ba with ConfigurableValues := ba.ConfigurableValues.collapsed }) := by
  unfold Collapse at h
  rw [collapseLoop_eq _ osToArchMap_valid] at h
  dsimp only at h
  split_ifs at h with hpv hcol
  · cases h
  · -- the collapsing branch, past the check on the axes left
    simp only [Option.bind_eq_bind, Option.bind_some] at h
    split_ifs at h
    cases h
    exact .inr ⟨no_productVariables_of_collapsing hpv hcol, rfl⟩
  · cases h
    exact .inl ⟨rfl, by simpa using hcol⟩

/-- **Collapsing keeps the value every target reads**: for each os and each arch
it supports, the os_arch value, else the arch value, else the os value, else the
base value. -/
theorem Collapse_effective {ba ba' : BoolAttribute} (h : ba.Collapse = some (.ok ba'))
    {p : String × String} (hp : p ∈ osArchPairs osToArchMap) :
    effectiveValue ba'.Value ba'.ConfigurableValues p.1 p.2 =
      effectiveValue ba.Value ba.ConfigurableValues p.1 p.2 := by
  rcases Collapse_cases h with ⟨rfl, -⟩ | ⟨-, rfl⟩
  · rfl
  · -- the projections of the new attribute, before the lemma about its values
    dsimp only
    exact effectiveValue_configurable_collapsed ba.Value ba.ConfigurableValues hp

/-- **At most one of the os, arch and os_arch axes holds a value** after
`Collapse` of a well-formed attribute. -/
theorem Collapse_axes {ba ba' : BoolAttribute} (hwf : ba.ConfigurableValues.WellFormed)
    (h : ba.Collapse = some (.ok ba')) :
    [ba'.axisTypes .os, ba'.axisTypes .arch, ba'.axisTypes .osArch].count true ≤ 1 := by
  rcases Collapse_cases h with ⟨rfl, hcol⟩ | ⟨-, rfl⟩
  · revert hcol
    cases ba'.axisTypes .os <;> cases ba'.axisTypes .arch <;> cases ba'.axisTypes .osArch <;> simp
  · have hos := axisTypes_collapsed hwf (t := .os) (.inr rfl)
    have harch := axisTypes_collapsed hwf (t := .arch) (.inl rfl)
    simp only [axisTypes, hos, harch]
    cases Bazel.axisTypes ba.ConfigurableValues.collapsed .osArch <;> simp

/-- **`Collapse` does not panic** on a well-formed attribute whose
product-variable axes all hold a value: it returns its error or an attribute. -/
theorem Collapse_isSome {ba : BoolAttribute} (hwf : ba.ConfigurableValues.WellFormed)
    (hheld : ∀ e ∈ ba.ConfigurableValues,
      e.1.configurationType = .productVariables → e.2 ≠ []) :
    ba.Collapse.isSome := by
  unfold Collapse
  rw [collapseLoop_eq _ osToArchMap_valid]
  dsimp only
  split_ifs with hpv hcol
  · rfl
  · -- past the error, no product-variable axis holds a value
    have hnopv := no_productVariables_of_collapsing hpv hcol
    have hlen := length_collapsed_le_one hwf.nodup (keys_of_no_productVariables hwf hheld hnopv)
    simp only [Option.bind_eq_bind, Option.bind_some]
    split_ifs with hgt
    · exact absurd hgt (not_lt.mpr hlen)
    · rfl
  · rfl

/-! #### Attributes built by `SetSelectValue` -/

/-- One `SetSelectValue` call on an axis a caller can name keeps the configured
values well formed. -/
theorem SetSelectValue_wellFormed {ba ba' : BoolAttribute} {axis : ConfigurationAxis}
    {config : String} {value : Option Bool} (hax : axis.Public)
    (hwf : ba.ConfigurableValues.WellFormed) (h : ba.SetSelectValue axis config value = some ba') :
    ba'.ConfigurableValues.WellFormed := by
  unfold SetSelectValue at h
  split_ifs at h
  split at h
  · cases h
    exact hwf
  · next hnc =>
    cases h
    refine ⟨GoMap.nodup_keys_set hwf.nodup _ _, fun x hx => ?_⟩
    rcases GoMap.mem_keys_set hx with hold | rfl
    · exact hwf.nameable x hold
    · exact ⟨hax, hnc⟩

/-- A `SetSelectValue` call with a value that is not `nil` leaves every axis
holding a value if every axis did. -/
theorem SetSelectValue_held {ba ba' : BoolAttribute} {axis : ConfigurationAxis}
    {config : String} {v : Bool} (hheld : ∀ e ∈ ba.ConfigurableValues, e.2 ≠ [])
    (h : ba.SetSelectValue axis config (some v) = some ba') :
    ∀ e ∈ ba'.ConfigurableValues, e.2 ≠ [] := by
  unfold SetSelectValue at h
  split_ifs at h
  split at h
  · cases h
    exact hheld
  · cases h
    intro e he
    rcases GoMap.mem_set he with hold | rfl
    · exact hheld e hold
    · exact GoMap.set_ne_nil _ _ _

/-- **Every attribute built by `SetSelectValue` calls** on axes a caller can name
has well-formed configured values. -/
theorem build_wellFormed {calls : List (ConfigurationAxis × String × Option Bool)}
    {ba : BoolAttribute} (hcalls : ∀ c ∈ calls, c.1.Public) (h : build calls = some ba) :
    ba.ConfigurableValues.WellFormed :=
  Interleave.foldlM_invariant
    (P := fun ba : BoolAttribute => ba.ConfigurableValues.WellFormed)
    (fun _ c _ hc hwf hstep => SetSelectValue_wellFormed (hcalls c hc) hwf hstep)
    (show zero.ConfigurableValues.WellFormed from
      ⟨List.nodup_nil, fun _ hx => by simp [zero, GoMap.keys] at hx⟩) h

/-- **Every attribute built by setting values that are not `nil`** has a value
on every axis it has. -/
theorem build_held {calls : List (ConfigurationAxis × String × Option Bool)}
    {ba : BoolAttribute} (hcalls : ∀ c ∈ calls, c.2.2.isSome) (h : build calls = some ba) :
    ∀ e ∈ ba.ConfigurableValues, e.2 ≠ [] :=
  Interleave.foldlM_invariant
    (P := fun ba : BoolAttribute => ∀ e ∈ ba.ConfigurableValues, e.2 ≠ [])
    (fun _ c _ hc hheld hstep => by
      obtain ⟨v, hv⟩ := Option.isSome_iff_exists.mp (hcalls c hc)
      rw [hv] at hstep
      exact SetSelectValue_held hheld hstep)
    (fun _ he => by simp [zero] at he) h

/-- **An attribute built by setting values that are not `nil` collapses
without panicking**, on axes a caller can name. -/
theorem build_Collapse_isSome {calls : List (ConfigurationAxis × String × Option Bool)}
    {ba : BoolAttribute} (hcalls : ∀ c ∈ calls, c.1.Public ∧ c.2.2.isSome)
    (h : build calls = some ba) : ba.Collapse.isSome :=
  Collapse_isSome (build_wellFormed (fun c hc => (hcalls c hc).1) h)
    fun e he _ => build_held (fun c hc => (hcalls c hc).2) h e he

/-- **An attribute built by setting values that are not `nil` collapses**, on
axes a caller can name: `Collapse` does not panic, and an attribute it returns
gives every target the value it read before, with values left on one of the
os, arch and os_arch axes at most. -/
theorem Collapse_of_build {calls : List (ConfigurationAxis × String × Option Bool)}
    {ba : BoolAttribute} (hcalls : ∀ c ∈ calls, c.1.Public ∧ c.2.2.isSome)
    (h : build calls = some ba) :
    ba.Collapse.isSome ∧ ∀ ba', ba.Collapse = some (.ok ba') →
      (∀ p ∈ osArchPairs osToArchMap,
        effectiveValue ba'.Value ba'.ConfigurableValues p.1 p.2 =
          effectiveValue ba.Value ba.ConfigurableValues p.1 p.2) ∧
      [ba'.axisTypes .os, ba'.axisTypes .arch, ba'.axisTypes .osArch].count true ≤ 1 :=
  ⟨build_Collapse_isSome hcalls h, fun _ hc =>
    ⟨fun _ hp => Collapse_effective hc hp,
      Collapse_axes (build_wellFormed (fun c hc => (hcalls c hc).1) h) hc⟩⟩

/-- An os value and an arch value: the attribute collapses, and on `android`
and `arm` it reads the arch value before and after. -/
theorem Collapse_of_build_android_arm :
    ∃ ba, build [(OsConfigurationAxis, "android", some true),
        (ArchConfigurationAxis, "arm", some false)] = some ba ∧
      ba.Collapse.isSome ∧ ∀ ba', ba.Collapse = some (.ok ba') →
        effectiveValue ba'.Value ba'.ConfigurableValues "android" "arm" = some false ∧
        [ba'.axisTypes .os, ba'.axisTypes .arch, ba'.axisTypes .osArch].count true ≤ 1 := by
  have hcalls : ∀ c ∈ [(OsConfigurationAxis, "android", some true),
      (ArchConfigurationAxis, "arm", some false)], c.1.Public ∧ c.2.2.isSome := by decide
  obtain ⟨hsome, hok⟩ := Collapse_of_build hcalls (h := rfl)
  refine ⟨_, rfl, hsome, fun ba' hc => ?_⟩
  obtain ⟨heff, haxes⟩ := hok ba' hc
  have hpair : ("android", "arm") ∈ osArchPairs osToArchMap := by decide
  refine ⟨?_, haxes⟩
  rw [heff _ hpair]
  decide

/-- The calls of the failing run: a product variable set to `nil`, then an os
value and an arch value. -/
def emptyProductVariableCalls : List (ConfigurationAxis × String × Option Bool) :=
  [(ProductVariableConfigurationAxis "v", "c", none), (OsConfigurationAxis, "android", some true),
    (ArchConfigurationAxis, "arm", some false)]

/-- **An empty product-variable axis makes `Collapse` panic.**  Setting a product
variable to `nil` leaves its axis in the map with no config; no product-variable
axis holds a value and the os and arch axes hold no `conditions_default`, but
after the os and arch axes are collapsed the empty axis and the os_arch axis are
left, and the check on the number of axes panics. -/
theorem Collapse_panics_on_empty_product_variable_axis :
    ∃ ba, build emptyProductVariableCalls = some ba ∧
      ba.axisTypes .productVariables = false ∧
      (∀ e ∈ ba.ConfigurableValues, GoMap.get? e.2 ConditionsDefaultConfigKey = none) ∧
      ba.Collapse = none :=
  ⟨⟨none, [(ProductVariableConfigurationAxis "v", []),
      (OsConfigurationAxis, [("android", true)]), (ArchConfigurationAxis, [("arm", false)])]⟩,
    by decide +kernel, by decide +kernel, by decide +kernel, by decide +kernel⟩

end BoolAttribute

/-! ### Label attributes -/

/-- The configs of one axis of a label attribute. -/
abbrev labelSelectValues := List (String × Label)

abbrev configurableLabels := configurable Label

def configurableLabels.setValueForAxis (cl : configurableLabels) (axis : ConfigurationAxis)
    (config : String) (value : Label) : configurableLabels :=
  configurable.setValueForAxis cl axis config value

/-- An attribute whose value is a single label that may be configured. -/
structure LabelAttribute where
  Value : Option Label
  ConfigurableValues : configurableLabels
  deriving DecidableEq, Repr

namespace LabelAttribute

def SetSelectValue (la : LabelAttribute) (axis : ConfigurationAxis) (config : String)
    (value : Label) : Option LabelAttribute :=
  if axis.configurationType.validateConfig config then
    match axis.configurationType with
    | .noConfig => some { la with Value := some value }
    | _ => some { la with
        ConfigurableValues :=
          configurableLabels.setValueForAxis la.ConfigurableValues axis config value }
  else none

def SelectValue (la : LabelAttribute) (axis : ConfigurationAxis) (config : String) :
    Option (Option Label) :=
  selectValue la.Value la.ConfigurableValues axis config

def axisTypes (la : LabelAttribute) (t : configurationType) : Bool :=
  Bazel.axisTypes la.ConfigurableValues t

/-- `(*LabelAttribute).Collapse`: as `BoolAttribute.Collapse`, without the check
on the axes left. -/
def Collapse (la : LabelAttribute) : Option (Except String LabelAttribute) :=
  let containsOs := la.axisTypes .os
  let containsArch := la.axisTypes .arch
  let containsOsArch := la.axisTypes .osArch
  let containsProductVariables := la.axisTypes .productVariables
  if containsProductVariables && (containsOs || containsArch || containsOsArch) then
    some (.error "label attribute could not be collapsed as it has two or more unrelated axes")
  else if (containsOs && containsArch) || (containsOsArch && (containsOs || containsArch)) then do
    let cv ← collapseLoop la.Value osToArchMap la.ConfigurableValues
    let cv := GoMap.delete (GoMap.delete cv ArchConfigurationAxis) OsConfigurationAxis
    some (.ok { la with ConfigurableValues := cv })
  else some (.ok la)

/-- What `Collapse` can return: the attribute as it is, or with its configured
values collapsed. -/
theorem Collapse_cases {la la' : LabelAttribute} (h : la.Collapse = some (.ok la')) :
    la' = la ∨ la' = { la with ConfigurableValues := la.ConfigurableValues.collapsed } := by
  unfold Collapse at h
  rw [collapseLoop_eq _ osToArchMap_valid] at h
  dsimp only at h
  split_ifs at h
  · cases h
  · cases h
    exact .inr rfl
  · cases h
    exact .inl rfl

/-- **Collapsing keeps the value every target reads**, as for bool attributes. -/
theorem Collapse_effective {la la' : LabelAttribute} (h : la.Collapse = some (.ok la'))
    {p : String × String} (hp : p ∈ osArchPairs osToArchMap) :
    effectiveValue la'.Value la'.ConfigurableValues p.1 p.2 =
      effectiveValue la.Value la.ConfigurableValues p.1 p.2 := by
  rcases Collapse_cases h with rfl | rfl
  · rfl
  · dsimp only
    exact effectiveValue_configurable_collapsed la.Value la.ConfigurableValues hp

/-- **`Collapse` of a label attribute never panics**: without the check on the
axes left, an empty axis next to the os_arch one is written as it is. -/
theorem Collapse_isSome (la : LabelAttribute) : la.Collapse.isSome := by
  unfold Collapse
  rw [collapseLoop_eq _ osToArchMap_valid]
  dsimp only
  split_ifs <;> rfl

/-- **`Collapse` of a label attribute never panics, and keeps the value every
target reads.** -/
theorem Collapse_keeps_effectiveValue (la : LabelAttribute) :
    la.Collapse.isSome ∧ ∀ la', la.Collapse = some (.ok la') →
      ∀ p ∈ osArchPairs osToArchMap,
        effectiveValue la'.Value la'.ConfigurableValues p.1 p.2 =
          effectiveValue la.Value la.ConfigurableValues p.1 p.2 :=
  ⟨Collapse_isSome la, fun _ hc _ hp => Collapse_effective hc hp⟩

end LabelAttribute

end Bazel

end Soong
