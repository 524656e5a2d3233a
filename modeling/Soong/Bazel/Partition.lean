import Soong.Bazel.Collapse
import Soong.Lib.GoPath

/-!
# Partitioning a label list attribute

`PartitionLabelListAttribute` of `bazel/properties.go` splits the labels of a
`LabelListAttribute` into named partitions: the srcs of a module into its C,
C++ and assembly files, say.  Each partition takes the labels that end with one
of its extensions (or that its `LabelMapper` renames); a partition marked
`Keep_remainder` takes the labels no partition took.  This is done for the
base value and for every config of every axis, and each partition becomes a
`LabelListAttribute` of its own.

Four Go maps are walked: the partitions (once to find the remainder, and again
for every label), the labels collected per partition, and the configured values
of the attribute.  The model walks each in the order of its entry list.  With
no label mapper and no label matching two partitions, each label has one
`destination`, whatever the order, and `PartitionLabelListAttribute_partitions`
says that every partition receives, at every config, the labels of that config
whose destination it is, in their order.

`SelectValue` panics on a config its axis does not know, so the result needs
the attribute's configs to be valid (`ValidConfigs`), as `SetSelectValue`, the
way configs are set, keeps them (`SetSelectValue_validConfigs`).  The attributes
the partitioning makes are set that way, so they are valid whatever the input
(`PartitionLabelListAttribute_validConfigs`).

## Main definitions

* `LabelListAttribute.SelectValue`, `LabelListAttribute.SetSelectValue`.
* `LabelPartition.filter`, `PartitionLabelListAttribute`.
* `destination` — the partition a label belongs to.
-/

namespace Soong

namespace Bazel

/-! ### Reading and writing one config -/

/-- `configurableLabelLists.setValueForAxis`: a `nil` list deletes the config's
entry (leaving the axis's map, even empty); any other list is stored. -/
def configurableLabelLists.setValueForAxis (cll : configurableLabelLists)
    (axis : ConfigurationAxis) (config : String) (list : LabelList) : configurableLabelLists :=
  if list.IsNil then
    if (configurable.lookup cll axis config).isSome then
      GoMap.set cll axis (GoMap.delete (GoMap.getD cll axis []) config)
    else cll
  else configurable.setValueForAxis cll axis config list

namespace LabelListAttribute

/-- The attribute of a partition not yet in the result map. -/
def zero : LabelListAttribute := ⟨LabelList.zero, [], false, false⟩

/-- `SelectValue`: the base value on the no-config axis, else the config's list
(the zero list when there is none); `none` is the panic of `validateConfig`. -/
def SelectValue (lla : LabelListAttribute) (axis : ConfigurationAxis) (config : String) :
    Option LabelList :=
  (selectValue (some lla.Value) lla.ConfigurableValues axis config).map
    fun v => v.getD LabelList.zero

/-- `SetSelectValue`; `none` is the panic of `validateConfig`. -/
def SetSelectValue (lla : LabelListAttribute) (axis : ConfigurationAxis) (config : String)
    (list : LabelList) : Option LabelListAttribute :=
  if axis.configurationType.validateConfig config then
    match axis.configurationType with
    | .noConfig => some { lla with Value := list }
    | _ => some { lla with
        ConfigurableValues := lla.ConfigurableValues.setValueForAxis axis config list }
  else none

/-- The list a build with `config` on `axis` reads, once the config is valid:
the base value on the no-config axis, else the config's list. -/
def selectTotal (lla : LabelListAttribute) (axis : ConfigurationAxis) (config : String) :
    LabelList :=
  if axis.configurationType = .noConfig then lla.Value else configValue lla axis config

/-- The configured values sit on configurable axes, under configs their axis
accepts. -/
def ValidConfigs (lla : LabelListAttribute) : Prop :=
  ∀ e ∈ lla.ConfigurableValues, e.1.configurationType ≠ .noConfig ∧
    ∀ c ∈ e.2, e.1.configurationType.validateConfig c.1 = true

instance (lla : LabelListAttribute) : Decidable lla.ValidConfigs :=
  inferInstanceAs (Decidable (∀ e ∈ lla.ConfigurableValues, _))

/-- Every label the attribute includes, in its base value or in a config. -/
def labels (lla : LabelListAttribute) : List Label :=
  lla.Value.Includes.toList ++
    lla.ConfigurableValues.flatMap fun e => e.2.flatMap fun c => c.2.Includes.toList

/-- Whether a read of `config` on `axis'` sees the list a write of `config` on
`axis` sets: every config of the no-config axis reads the base value. -/
def sameSlot (axis : ConfigurationAxis) (config : String) (axis' : ConfigurationAxis)
    (config' : String) : Prop :=
  (axis.configurationType = .noConfig ∧ axis'.configurationType = .noConfig) ∨
    (axis.configurationType ≠ .noConfig ∧ axis' = axis ∧ config' = config)

instance (axis : ConfigurationAxis) (config : String) (axis' : ConfigurationAxis)
    (config' : String) : Decidable (sameSlot axis config axis' config') :=
  inferInstanceAs (Decidable (_ ∨ _))

theorem selectTotal_of_sameSlot (lla : LabelListAttribute) {axis axis' : ConfigurationAxis}
    {config config' : String} (h : sameSlot axis config axis' config') :
    lla.selectTotal axis' config' = lla.selectTotal axis config := by
  unfold selectTotal
  rcases h with ⟨h, h'⟩ | ⟨_, rfl, rfl⟩
  · rw [if_pos h, if_pos h']
  · rfl

theorem SelectValue_eq (lla : LabelListAttribute) {axis : ConfigurationAxis} {config : String}
    (hv : axis.configurationType.validateConfig config = true) :
    lla.SelectValue axis config = some (lla.selectTotal axis config) := by
  unfold SelectValue selectValue selectTotal configValue configurable.lookup GoMap.getD
  rw [if_pos hv]
  cases axis.configurationType <;> simp

/-- A write of a list reads back at its own config and nowhere else; a `nil`
list, which deletes the config's entry, reads back as no includes. -/
theorem includes_setValueForAxis (cll : configurableLabelLists) (axis : ConfigurationAxis)
    (config : String) (list : LabelList) (axis' : ConfigurationAxis) (config' : String) :
    (GoMap.getD (GoMap.getD (cll.setValueForAxis axis config list) axis' []) config'
        LabelList.zero).Includes.toList =
      if axis' = axis ∧ config' = config then list.Includes.toList
      else (GoMap.getD (GoMap.getD cll axis' []) config' LabelList.zero).Includes.toList := by
  unfold configurableLabelLists.setValueForAxis
  by_cases hnil : list.IsNil
  · -- the write deletes: what is read at the config is nothing
    have hinc : list.Includes.toList = [] := by
      simp only [LabelList.IsNil, Bool.and_eq_true] at hnil
      cases h : list.Includes <;> simp_all [Slice.isNil]
    rw [if_pos hnil, hinc]
    split_ifs with hsome hsame hsame
    · obtain ⟨rfl, rfl⟩ := hsame
      rw [GoMap.getD_set_self, GoMap.getD, GoMap.get?_delete_self]
      rfl
    · by_cases haxis : axis' = axis
      · subst haxis
        have hconfig : config' ≠ config := fun h => hsame ⟨rfl, h⟩
        rw [GoMap.getD_set_self, GoMap.getD, GoMap.get?_delete_of_ne _ hconfig]
        rfl
      · rw [GoMap.getD_set_of_ne _ _ _ haxis]
    · obtain ⟨rfl, rfl⟩ := hsame
      have hnone : GoMap.get? (GoMap.getD cll axis' []) config' = none := by
        simpa [configurable.lookup] using hsome
      show ((GoMap.get? (GoMap.getD cll axis' []) config').getD LabelList.zero).Includes.toList = []
      rw [hnone]
      rfl
    · rfl
  · rw [if_neg hnil]
    unfold configurable.setValueForAxis
    split_ifs with hsame
    · obtain ⟨rfl, rfl⟩ := hsame
      simp
    · by_cases haxis : axis' = axis
      · subst haxis
        have hconfig : config' ≠ config := fun h => hsame ⟨rfl, h⟩
        rw [GoMap.getD_set_self, GoMap.getD_set_of_ne _ _ _ hconfig]
      · rw [GoMap.getD_set_of_ne _ _ _ haxis]

/-- **`SetSelectValue` at a valid config**: it succeeds, and afterwards the
includes read at the config are the list's, and those read anywhere else are
as before. -/
theorem selectTotal_SetSelectValue (r : LabelListAttribute) {axis : ConfigurationAxis}
    {config : String} (hv : axis.configurationType.validateConfig config = true)
    (list : LabelList) :
    ∃ r', r.SetSelectValue axis config list = some r' ∧
      ∀ axis' config', (r'.selectTotal axis' config').Includes.toList =
        if sameSlot axis config axis' config' then list.Includes.toList
        else (r.selectTotal axis' config').Includes.toList := by
  unfold SetSelectValue
  rw [if_pos hv]
  by_cases hnone : axis.configurationType = .noConfig
  · -- the base value is replaced
    refine ⟨{ r with Value := list }, by rw [hnone], fun axis' config' => ?_⟩
    by_cases hs : sameSlot axis config axis' config'
    · have h' : axis'.configurationType = .noConfig := by simpa [sameSlot, hnone] using hs
      rw [if_pos hs]
      simp [selectTotal, h']
    · have h' : axis'.configurationType ≠ .noConfig := fun h => hs (Or.inl ⟨hnone, h⟩)
      rw [if_neg hs]
      simp [selectTotal, configValue, h']
  · -- the config's entry is written
    refine ⟨{ r with ConfigurableValues := r.ConfigurableValues.setValueForAxis axis config list },
      by split <;> simp_all, fun axis' config' => ?_⟩
    by_cases hs : sameSlot axis config axis' config'
    · obtain ⟨rfl, rfl⟩ : axis' = axis ∧ config' = config := by simpa [sameSlot, hnone] using hs
      rw [if_pos hs]
      simp only [selectTotal, configValue, if_neg hnone]
      exact (includes_setValueForAxis _ _ _ _ _ _).trans (if_pos ⟨rfl, rfl⟩)
    · rw [if_neg hs]
      simp only [selectTotal, configValue]
      split_ifs with h'
      · rfl
      · exact (includes_setValueForAxis _ _ _ _ _ _).trans
          (if_neg fun h => hs (Or.inr ⟨hnone, h⟩))

/-- The configs of an axis of a valid attribute are valid for it. -/
theorem validateConfig_of_mem_getD {lla : LabelListAttribute} (h : lla.ValidConfigs)
    {axis : ConfigurationAxis} {c : String × LabelList}
    (hc : c ∈ GoMap.getD lla.ConfigurableValues axis []) :
    axis.configurationType.validateConfig c.1 = true := by
  unfold GoMap.getD at hc
  cases hm : GoMap.get? lla.ConfigurableValues axis with
  | none => simp [hm] at hc
  | some m =>
    rw [hm, Option.getD_some] at hc
    exact (h _ (GoMap.mem_of_get?_eq_some hm)).2 c hc

/-- **`SetSelectValue` keeps the configs valid**, so every attribute whose
configs are set by it has `ValidConfigs`. -/
theorem SetSelectValue_validConfigs {lla lla' : LabelListAttribute} (h : lla.ValidConfigs)
    {axis : ConfigurationAxis} {config : String} {list : LabelList}
    (hset : lla.SetSelectValue axis config list = some lla') : lla'.ValidConfigs := by
  unfold SetSelectValue at hset
  split_ifs at hset with hv
  split at hset
  · -- the base value: the configured values are untouched
    cases hset
    exact h
  · next hct =>
    cases hset
    intro e he
    unfold configurableLabelLists.setValueForAxis at he
    split_ifs at he
    · -- a deleted config: the axis keeps its other configs
      rcases GoMap.mem_set he with he | rfl
      · exact h e he
      · exact ⟨hct, fun c hc => validateConfig_of_mem_getD h (List.mem_of_mem_filter hc)⟩
    · exact h e he
    · -- a stored config: the new one is valid
      rcases GoMap.mem_set he with he | rfl
      · exact h e he
      · refine ⟨hct, fun c hc => ?_⟩
        rcases GoMap.mem_set hc with hc | rfl
        · exact validateConfig_of_mem_getD h hc
        · exact hv

end LabelListAttribute

/-! ### Partitions -/

/-- `LabelMapper`, with the module context it is called with fixed: the new
label's name and whether the label was changed. -/
abbrev LabelMapper := Label → String × Bool

/-- `LabelPartition`. -/
structure LabelPartition where
  Extensions : List String
  LabelMapper : Option LabelMapper
  Keep_remainder : Bool

/-- `LabelPartitions`, in map iteration order. -/
abbrev LabelPartitions := List (String × LabelPartition)

namespace LabelPartition

/-- Whether the label's name ends with one of the partition's extensions. -/
def endsWithExtension (lf : LabelPartition) (label : Label) : Bool :=
  lf.Extensions.any fun ext => strings.HasSuffix label.Label ext

/-- `filter`: the label the mapper changed it to, else the label itself when its
name ends with an extension, else `nil`. -/
def filter (lf : LabelPartition) (label : Label) : Option Label :=
  let byExtension := if lf.endsWithExtension label then some label else none
  match lf.LabelMapper with
  | some mapper =>
    if (mapper label).2 then some ⟨(mapper label).1, label.OriginalModuleName⟩ else byExtension
  | none => byExtension

end LabelPartition

/-- `PartitionToLabelListAttribute`, in map iteration order. -/
abbrev PartitionToLabelListAttribute := List (String × LabelListAttribute)

/-- `partitionToLabelList`, in map iteration order. -/
abbrev partitionToLabelList := List (String × LabelList)

namespace partitionToLabelList

/-- `appendIncludes`: the partition's list is made when missing. -/
def appendIncludes (p : partitionToLabelList) (partition : String) (label : Label) :
    partitionToLabelList :=
  let l := GoMap.getD p partition LabelList.zero
  GoMap.set p partition { l with Includes := Slice.append l.Includes [label] }

/-- `excludes`: the partition's list is made when missing. -/
def excludes (p : partitionToLabelList) (partition : String) (excludes : Slice Label) :
    partitionToLabelList :=
  GoMap.set p partition { GoMap.getD p partition LabelList.zero with Excludes := excludes }

end partitionToLabelList

/-- One turn of the loop over the partitions that collects their names and finds
the remainder partition; `none` is the panic on a second one. -/
def collectPartitions.step (st : List String × Option String) (e : String × LabelPartition) :
    Option (List String × Option String) :=
  let partitionNames := st.1 ++ [e.1]
  if e.2.Keep_remainder then
    match st.2 with
    | some _ => none
    | none => some (partitionNames, some e.1)
  else some (partitionNames, st.2)

/-- The loop over the partitions before the labels are read. -/
def collectPartitions (partitions : LabelPartitions) : Option (List String × Option String) :=
  partitions.foldlM collectPartitions.step ([], none)

/-- The locals of the loop over the partitions for one label. -/
structure itemScan where
  partitionToLabels : partitionToLabelList
  wasFiltered : Bool
  inPartition : Option String
  errors : List String

/-- The error for a label two partitions take unchanged. -/
def multiplePartitionsError (item : Label) (first second : String) : String :=
  strconv.Quote item.Label ++ " was found in multiple partitions: " ++ strconv.Quote first ++
    ", " ++ strconv.Quote second

/-- One partition's turn for `item`. -/
def itemScan.step (item : Label) (st : itemScan) (e : String × LabelPartition) : itemScan :=
  match e.2.filter item with
  | none => st
  | some filtered =>
    let partitionToLabels := st.partitionToLabels.appendIncludes e.1 filtered
    if filtered = item then
      { partitionToLabels, wasFiltered := true, inPartition := some e.1
        errors := match st.inPartition with
          | some first => st.errors ++ [multiplePartitionsError item first e.1]
          | none => st.errors }
    else { st with partitionToLabels, wasFiltered := true }

/-- The body of the loop over a config's includes: the partitions' turns, then
the remainder partition if none took the label. -/
def partitionItem (partitions : LabelPartitions) (remainderPartition : Option String)
    (st : partitionToLabelList × List String) (item : Label) :
    partitionToLabelList × List String :=
  let scan := partitions.foldl (itemScan.step item) ⟨st.1, false, none, st.2⟩
  match !scan.wasFiltered, remainderPartition with
  | true, some remainder => (scan.partitionToLabels.appendIncludes remainder item, scan.errors)
  | _, _ => (scan.partitionToLabels, scan.errors)

/-- The last loop of `partitionLabelList(axis, config)`: a partition's list is
stored at the config of its attribute, a new attribute for a new partition. -/
def writePartition (axis : ConfigurationAxis) (config : String)
    (ret : PartitionToLabelListAttribute) (e : String × LabelList) :
    Option PartitionToLabelListAttribute := do
  let val ← (GoMap.getD ret e.1 LabelListAttribute.zero).SetSelectValue axis config e.2
  pure (GoMap.set ret e.1 val)

/-- The closure `partitionLabelList(axis, config)`, on the result map and the
errors reported so far; `none` is a panic of `SelectValue` or `SetSelectValue`. -/
def partitionLabelList (lla : LabelListAttribute) (partitions : LabelPartitions)
    (partitionNames : List String) (remainderPartition : Option String)
    (st : PartitionToLabelListAttribute × List String) (axis : ConfigurationAxis)
    (config : String) : Option (PartitionToLabelListAttribute × List String) := do
  let value ← lla.SelectValue axis config
  let (partitionToLabels, errors) :=
    value.Includes.toList.foldl (partitionItem partitions remainderPartition) ([], st.2)
  -- ensure empty lists are maintained
  let partitionToLabels :=
    if value.Excludes.isNil then partitionToLabels
    else partitionNames.foldl (fun p partition => p.excludes partition value.Excludes)
      partitionToLabels
  let ret ← partitionToLabels.foldlM (writePartition axis config) st.1
  pure (ret, errors)

/-- `PartitionLabelListAttribute`: the result and the errors it reports through
the module context; `none` is a panic. -/
def PartitionLabelListAttribute (lla : LabelListAttribute) (partitions : LabelPartitions) :
    Option (PartitionToLabelListAttribute × List String) := do
  let (partitionNames, remainderPartition) ← collectPartitions partitions
  let st ← partitionLabelList lla partitions partitionNames remainderPartition ([], [])
    NoConfigAxis ""
  lla.ConfigurableValues.foldlM
    (fun st (e : ConfigurationAxis × labelListSelectValues) =>
      e.2.foldlM
        (fun st (c : String × LabelList) =>
          partitionLabelList lla partitions partitionNames remainderPartition st e.1 c.1)
        st)
    st

/-! ### Where a label goes -/

/-- The partition marked `Keep_remainder` (the first in map order). -/
def remainderPartition (partitions : LabelPartitions) : Option String :=
  (partitions.find? fun e => e.2.Keep_remainder).map (·.1)

/-- Where a label goes when no partition maps labels: the partition one of
whose extensions ends its name, else the remainder partition, else nowhere. -/
def destination (partitions : LabelPartitions) (label : Label) : Option String :=
  match partitions.find? fun e => e.2.endsWithExtension label with
  | some e => some e.1
  | none => remainderPartition partitions

/-- No two partitions take `label` by its extension. -/
def unambiguous (partitions : LabelPartitions) (label : Label) : Prop :=
  ∀ e₁ ∈ partitions, ∀ e₂ ∈ partitions, e₁.2.endsWithExtension label = true →
    e₂.2.endsWithExtension label = true → e₁.1 = e₂.1

instance (partitions : LabelPartitions) (label : Label) :
    Decidable (unambiguous partitions label) :=
  inferInstanceAs (Decidable (∀ e₁ ∈ partitions, _))

theorem LabelPartition.filter_of_isNone {lf : LabelPartition} (h : lf.LabelMapper.isNone = true)
    (label : Label) :
    lf.filter label = if lf.endsWithExtension label then some label else none := by
  cases hm : lf.LabelMapper with
  | none => simp [LabelPartition.filter, hm]
  | some _ => simp [hm] at h

theorem destination_mem {partitions : LabelPartitions} {label : Label} {p : String}
    (h : destination partitions label = some p) : p ∈ GoMap.keys partitions := by
  unfold destination remainderPartition at h
  split at h
  · next e he =>
    cases h
    exact List.mem_map_of_mem (List.mem_of_find?_eq_some he)
  · obtain ⟨e, he, rfl⟩ := Option.map_eq_some_iff.mp h
    exact List.mem_map_of_mem (List.mem_of_find?_eq_some he)

section OneLabel

variable {item : Label}

/-- A partition that does not take the label leaves the loop's locals alone. -/
theorem itemScan.step_of_not_endsWith {e : String × LabelPartition}
    (hm : e.2.LabelMapper.isNone = true) (he : e.2.endsWithExtension item = false)
    (st : itemScan) : itemScan.step item st e = st := by
  simp [itemScan.step, LabelPartition.filter_of_isNone hm, he]

/-- The first partition to take the label unchanged records it. -/
theorem itemScan.step_of_endsWith {e : String × LabelPartition}
    (hm : e.2.LabelMapper.isNone = true) (he : e.2.endsWithExtension item = true)
    {st : itemScan} (hst : st.inPartition = none) :
    itemScan.step item st e =
      ⟨st.partitionToLabels.appendIncludes e.1 item, true, some e.1, st.errors⟩ := by
  simp [itemScan.step, LabelPartition.filter_of_isNone hm, he, hst]

theorem foldl_step_of_not_endsWith {l : LabelPartitions}
    (hm : ∀ e ∈ l, e.2.LabelMapper.isNone = true)
    (he : ∀ e ∈ l, e.2.endsWithExtension item = false) (st : itemScan) :
    l.foldl (itemScan.step item) st = st := by
  induction l with
  | nil => rfl
  | cons e l ih =>
    rw [List.foldl_cons,
      itemScan.step_of_not_endsWith (hm e List.mem_cons_self) (he e List.mem_cons_self),
      ih (fun e' h => hm e' (List.mem_cons_of_mem e h)) (fun e' h => he e' (List.mem_cons_of_mem e h))]

/-- **The loop over the partitions for one label**: with no mapper and at most
one partition taking the label, that partition gets it and no error is
reported. -/
theorem foldl_step_eq {l : LabelPartitions} (hm : ∀ e ∈ l, e.2.LabelMapper.isNone = true)
    (hkeys : (GoMap.keys l).Nodup) (hu : unambiguous l item) {st : itemScan}
    (hst : st.inPartition = none) :
    l.foldl (itemScan.step item) st =
      match l.find? fun e => e.2.endsWithExtension item with
      | some e => ⟨st.partitionToLabels.appendIncludes e.1 item, true, some e.1, st.errors⟩
      | none => st := by
  induction l generalizing st with
  | nil => rfl
  | cons e l ih =>
    have hm' : ∀ e' ∈ l, e'.2.LabelMapper.isNone = true :=
      fun e' h => hm e' (List.mem_cons_of_mem e h)
    simp only [GoMap.keys, List.map_cons, List.nodup_cons] at hkeys
    rw [List.foldl_cons, List.find?_cons]
    cases he : e.2.endsWithExtension item
    · -- `e` passes over the label
      rw [itemScan.step_of_not_endsWith (hm e List.mem_cons_self) he]
      exact ih hm' hkeys.2
        (fun e₁ h₁ e₂ h₂ => hu e₁ (List.mem_cons_of_mem e h₁) e₂ (List.mem_cons_of_mem e h₂)) hst
    · -- `e` takes it, and no later partition does: their names differ from `e`'s
      rw [itemScan.step_of_endsWith (hm e List.mem_cons_self) he hst]
      refine foldl_step_of_not_endsWith hm' (fun e' h' => ?_) _
      by_contra hne
      have hname := hu e List.mem_cons_self e' (List.mem_cons_of_mem e h') he
        (by simpa using hne)
      exact hkeys.1 (hname ▸ List.mem_map_of_mem h')

/-- The step of the loop over a config's includes, once the destination of each
label is known: the label is appended to its destination's list. -/
def distributeItem (partitions : LabelPartitions) (ptl : partitionToLabelList) (item : Label) :
    partitionToLabelList :=
  match destination partitions item with
  | some p => ptl.appendIncludes p item
  | none => ptl

theorem partitionItem_eq {partitions : LabelPartitions}
    (hm : ∀ e ∈ partitions, e.2.LabelMapper.isNone = true)
    (hkeys : (GoMap.keys partitions).Nodup) (hu : unambiguous partitions item)
    (st : partitionToLabelList × List String) :
    partitionItem partitions (remainderPartition partitions) st item =
      (distributeItem partitions st.1 item, st.2) := by
  unfold partitionItem distributeItem destination
  rw [foldl_step_eq hm hkeys hu rfl]
  cases partitions.find? fun e => e.2.endsWithExtension item with
  | some e => rfl
  | none => cases remainderPartition partitions <;> rfl

end OneLabel

/-! ### One config -/

section OneConfig

theorem includes_appendIncludes (ptl : partitionToLabelList) (q : String) (label : Label)
    (p : String) :
    (GoMap.getD (ptl.appendIncludes q label) p LabelList.zero).Includes.toList =
      (GoMap.getD ptl p LabelList.zero).Includes.toList ++ if q = p then [label] else [] := by
  unfold partitionToLabelList.appendIncludes
  by_cases hq : q = p
  · subst hq
    simp
  · rw [GoMap.getD_set_of_ne _ _ _ (Ne.symm hq), if_neg hq, List.append_nil]

theorem keys_appendIncludes {ptl : partitionToLabelList} {q : String} {label : Label} {p : String}
    (hp : p ∈ GoMap.keys (ptl.appendIncludes q label)) : p ∈ GoMap.keys ptl ∨ p = q :=
  GoMap.mem_keys_set hp

theorem nodup_keys_appendIncludes {ptl : partitionToLabelList} (h : (GoMap.keys ptl).Nodup)
    (q : String) (label : Label) : (GoMap.keys (ptl.appendIncludes q label)).Nodup :=
  GoMap.nodup_keys_set h _ _

variable {partitions : LabelPartitions}

/-- **Each partition's bucket.**  Handing out a config's includes appends to a
partition's list exactly the labels whose destination it is, in order. -/
theorem includes_foldl_distributeItem (items : List Label) :
    ∀ (ptl : partitionToLabelList) (p : String),
      (GoMap.getD (items.foldl (distributeItem partitions) ptl) p LabelList.zero).Includes.toList =
        (GoMap.getD ptl p LabelList.zero).Includes.toList ++
          items.filter fun l => destination partitions l = some p := by
  induction items with
  | nil => simp
  | cons item items ih =>
    intro ptl p
    rw [List.foldl_cons, ih, List.filter_cons]
    unfold distributeItem
    cases hd : destination partitions item with
    | none => simp
    | some q =>
      rw [includes_appendIncludes]
      by_cases hq : q = p <;> simp [hq]

theorem keys_foldl_distributeItem (items : List Label) :
    ∀ (ptl : partitionToLabelList) (p : String),
      p ∈ GoMap.keys (items.foldl (distributeItem partitions) ptl) →
        p ∈ GoMap.keys ptl ∨ p ∈ GoMap.keys partitions := by
  induction items with
  | nil => exact fun _ _ hp => .inl hp
  | cons item items ih =>
    intro ptl p hp
    rcases ih _ p hp with h | h
    · unfold distributeItem at h
      split at h
      · next q hd =>
        rcases keys_appendIncludes h with h | rfl
        · exact .inl h
        · exact .inr (destination_mem hd)
      · exact .inl h
    · exact .inr h

theorem nodup_keys_foldl_distributeItem (items : List Label) :
    ∀ (ptl : partitionToLabelList), (GoMap.keys ptl).Nodup →
      (GoMap.keys (items.foldl (distributeItem partitions) ptl)).Nodup := by
  induction items with
  | nil => exact fun _ h => h
  | cons item items ih =>
    intro ptl h
    refine ih _ ?_
    unfold distributeItem
    split
    · exact nodup_keys_appendIncludes h _ _
    · exact h

/-- Copying the excludes to every partition leaves the includes alone. -/
theorem includes_foldl_excludes (names : List String) (ex : Slice Label) :
    ∀ (ptl : partitionToLabelList) (p : String),
      (GoMap.getD (names.foldl (fun (ptl : partitionToLabelList) partition => ptl.excludes partition ex) ptl) p
        LabelList.zero).Includes = (GoMap.getD ptl p LabelList.zero).Includes := by
  induction names with
  | nil => exact fun _ _ => rfl
  | cons n names ih =>
    intro ptl p
    rw [List.foldl_cons, ih]
    unfold partitionToLabelList.excludes
    by_cases hn : n = p
    · subst hn
      simp
    · rw [GoMap.getD_set_of_ne _ _ _ (Ne.symm hn)]

theorem keys_foldl_excludes (names : List String) (ex : Slice Label) :
    ∀ (ptl : partitionToLabelList) (p : String),
      p ∈ GoMap.keys (names.foldl (fun (ptl : partitionToLabelList) partition => ptl.excludes partition ex) ptl) →
        p ∈ GoMap.keys ptl ∨ p ∈ names := by
  induction names with
  | nil => exact fun _ _ hp => .inl hp
  | cons n names ih =>
    intro ptl p hp
    rcases ih _ p hp with h | h
    · rcases GoMap.mem_keys_set h with h | rfl
      · exact .inl h
      · exact .inr List.mem_cons_self
    · exact .inr (List.mem_cons_of_mem n h)

theorem nodup_keys_foldl_excludes (names : List String) (ex : Slice Label) :
    ∀ (ptl : partitionToLabelList), (GoMap.keys ptl).Nodup →
      (GoMap.keys (names.foldl (fun (ptl : partitionToLabelList) partition => ptl.excludes partition ex) ptl)).Nodup := by
  induction names with
  | nil => exact fun _ h => h
  | cons n names ih => exact fun ptl h => ih _ (GoMap.nodup_keys_set h _ _)

/-- **Storing the lists.**  At a valid config every store succeeds; afterwards a
partition of the list reads its list at the config, and everything else reads
as before. -/
theorem foldlM_writePartition {axis : ConfigurationAxis} {config : String}
    (hv : axis.configurationType.validateConfig config = true) :
    ∀ (ptl : partitionToLabelList) (ret : PartitionToLabelListAttribute),
      (GoMap.keys ptl).Nodup →
      ∃ ret', ptl.foldlM (writePartition axis config) ret = some ret' ∧
        (∀ p ∈ GoMap.keys ret', p ∈ GoMap.keys ret ∨ p ∈ GoMap.keys ptl) ∧
        ∀ p axis' config',
          ((GoMap.getD ret' p LabelListAttribute.zero).selectTotal axis' config').Includes.toList =
            if p ∈ GoMap.keys ptl ∧ LabelListAttribute.sameSlot axis config axis' config' then
              (GoMap.getD ptl p LabelList.zero).Includes.toList
            else ((GoMap.getD ret p LabelListAttribute.zero).selectTotal axis' config').Includes.toList
  | [], ret, _ => ⟨ret, rfl, fun p hp => .inl hp, fun p axis' config' => by simp [GoMap.keys]⟩
  | (q, list) :: ptl, ret, hnodup => by
    simp only [GoMap.keys, List.map_cons, List.nodup_cons] at hnodup
    obtain ⟨r', hr', hsel⟩ :=
      LabelListAttribute.selectTotal_SetSelectValue (GoMap.getD ret q LabelListAttribute.zero) hv list
    have hw : writePartition axis config ret (q, list) = some (GoMap.set ret q r') := by
      simp [writePartition, hr']
    obtain ⟨ret', hrun, hkeys, hval⟩ := foldlM_writePartition hv ptl (GoMap.set ret q r') hnodup.2
    refine ⟨ret', by rw [List.foldlM_cons, hw]; exact hrun, fun p hp => ?_, fun p axis' config' => ?_⟩
    · -- the keys: the old ones and the partitions stored
      rcases hkeys p hp with h | h
      · rcases GoMap.mem_keys_set h with h | rfl
        · exact .inl h
        · exact .inr List.mem_cons_self
      · exact .inr (List.mem_cons_of_mem _ h)
    · rw [hval]
      by_cases hp : p = q
      · -- `q` was stored here and is not stored again
        subst hp
        have hq : p ∉ GoMap.keys ptl := hnodup.1
        rw [if_neg fun h => hq h.1, GoMap.getD_set_self, hsel]
        by_cases hs : LabelListAttribute.sameSlot axis config axis' config'
        · simp [hs, GoMap.keys, GoMap.getD_cons]
        · simp [hs]
      · have hmem : p ∈ GoMap.keys ((q, list) :: ptl) ↔ p ∈ GoMap.keys ptl := by
          simp [GoMap.keys, hp]
        simp only [GoMap.getD_set_of_ne _ _ _ hp, GoMap.getD_cons, if_neg (Ne.symm hp), hmem]

end OneConfig

/-! ### The whole attribute -/

section Run

variable {partitions : LabelPartitions}

theorem foldl_partitionItem (hm : ∀ e ∈ partitions, e.2.LabelMapper.isNone = true)
    (hkeys : (GoMap.keys partitions).Nodup) :
    ∀ (items : List Label) (st : partitionToLabelList × List String),
      (∀ l ∈ items, unambiguous partitions l) →
      items.foldl (partitionItem partitions (remainderPartition partitions)) st =
        (items.foldl (distributeItem partitions) st.1, st.2)
  | [], _, _ => rfl
  | item :: items, st, hu => by
    rw [List.foldl_cons, partitionItem_eq hm hkeys (hu item List.mem_cons_self),
      foldl_partitionItem hm hkeys items _ fun l hl => hu l (List.mem_cons_of_mem item hl)]
    rfl

/-- The collecting loop finds the one remainder partition, from any names
already collected and with no remainder found yet or none left to find. -/
theorem foldlM_collectPartitions_step :
    ∀ (l : LabelPartitions) (names : List String) (r : Option String),
      (l.filter fun e => e.2.Keep_remainder).length ≤ 1 →
      (r.isSome → (l.filter fun e => e.2.Keep_remainder) = []) →
      l.foldlM collectPartitions.step (names, r) =
        some (names ++ GoMap.keys l, r.or (remainderPartition l))
  | [], names, r, _, _ => by simp [GoMap.keys, remainderPartition]
  | e :: l, names, r, hone, hr => by
    rw [List.foldlM_cons]
    by_cases hkeep : e.2.Keep_remainder = true
    · -- `e` is the remainder partition: none was found before and none follows
      have hrn : r = none := by
        cases r with
        | none => rfl
        | some _ => simp [hkeep] at hr
      have hrest : (l.filter fun e => e.2.Keep_remainder) = [] := by
        simp only [List.filter_cons, hkeep, if_true, List.length_cons] at hone
        exact List.eq_nil_of_length_eq_zero (by omega)
      subst hrn
      have hstep : collectPartitions.step (names, none) e = some (names ++ [e.1], some e.1) := by
        simp [collectPartitions.step, hkeep]
      simp only [hstep, Option.bind_eq_bind, Option.bind_some]
      rw [foldlM_collectPartitions_step l _ _ (by simp [hrest]) (fun _ => hrest)]
      simp [GoMap.keys, remainderPartition, hkeep]
    · have hfilter : ((e :: l).filter fun e => e.2.Keep_remainder) =
          l.filter fun e => e.2.Keep_remainder := by simp [hkeep]
      have hstep : collectPartitions.step (names, r) e = some (names ++ [e.1], r) := by
        simp [collectPartitions.step, hkeep]
      rw [hfilter] at hone hr
      simp only [hstep, Option.bind_eq_bind, Option.bind_some]
      rw [foldlM_collectPartitions_step l _ _ hone hr]
      simp [GoMap.keys, remainderPartition, hkeep]

theorem collectPartitions_eq (h : (partitions.filter fun e => e.2.Keep_remainder).length ≤ 1) :
    collectPartitions partitions = some (GoMap.keys partitions, remainderPartition partitions) := by
  have hrun := foldlM_collectPartitions_step partitions [] none h (by simp)
  simpa [collectPartitions] using hrun

/-- Every label a config reads is a label of the attribute. -/
theorem mem_labels_of_selectTotal {lla : LabelListAttribute} {axis : ConfigurationAxis}
    {config : String} {l : Label} (hl : l ∈ (lla.selectTotal axis config).Includes.toList) :
    l ∈ lla.labels := by
  unfold LabelListAttribute.selectTotal at hl
  split_ifs at hl
  · exact List.mem_append_left _ hl
  · unfold LabelListAttribute.configValue GoMap.getD at hl
    cases hm : GoMap.get? lla.ConfigurableValues axis with
    | none => simp [hm, GoMap.get?, LabelList.zero] at hl
    | some m =>
      cases hv : GoMap.get? m config with
      | none => simp [hm, hv, LabelList.zero] at hl
      | some v =>
        rw [hm, Option.getD_some, hv, Option.getD_some] at hl
        refine List.mem_append_right _ (List.mem_flatMap.mpr ⟨(axis, m), GoMap.mem_of_get?_eq_some hm, ?_⟩)
        exact List.mem_flatMap.mpr ⟨(config, v), GoMap.mem_of_get?_eq_some hv, hl⟩

/-- What `PartitionLabelListAttribute` has built once the configs `done` are
processed: every partition reads, at a processed config, the labels of that
config whose destination it is, and nothing at any other. -/
def Distributed (lla : LabelListAttribute) (partitions : LabelPartitions)
    (ret : PartitionToLabelListAttribute) (done : List (ConfigurationAxis × String)) : Prop :=
  ∀ p axis' config',
    ((GoMap.getD ret p LabelListAttribute.zero).selectTotal axis' config').Includes.toList =
      if ∃ d ∈ done, LabelListAttribute.sameSlot d.1 d.2 axis' config' then
        (lla.selectTotal axis' config').Includes.toList.filter
          fun l => destination partitions l = some p
      else []

theorem distributed_nil (lla : LabelListAttribute) : Distributed lla partitions [] [] := by
  intro p axis' config'
  simp [GoMap.getD, GoMap.get?, LabelListAttribute.zero, LabelListAttribute.selectTotal,
    LabelListAttribute.configValue, LabelList.zero]

/-- The lists the partitions receive at a config whose value is `value`, before
they are stored: its includes handed to their destinations, and its excludes,
when set, copied to every partition. -/
def partitionLists (partitions : LabelPartitions) (value : LabelList) : partitionToLabelList :=
  let handedOut := value.Includes.toList.foldl (distributeItem partitions) []
  if value.Excludes.isNil then handedOut
  else (GoMap.keys partitions).foldl
    (fun (ptl : partitionToLabelList) partition => ptl.excludes partition value.Excludes) handedOut

theorem includes_partitionLists (value : LabelList) (p : String) :
    (GoMap.getD (partitionLists partitions value) p LabelList.zero).Includes.toList =
      value.Includes.toList.filter fun l => destination partitions l = some p := by
  have h₀ := @includes_foldl_distributeItem partitions value.Includes.toList [] p
  simp only [GoMap.getD, GoMap.get?, Option.getD_none, LabelList.zero, Slice.toList_none,
    List.nil_append] at h₀
  unfold partitionLists
  split_ifs
  · exact h₀
  · rw [includes_foldl_excludes]
    exact h₀

theorem nodup_keys_partitionLists (value : LabelList) :
    (GoMap.keys (partitionLists partitions value)).Nodup := by
  have h₀ := @nodup_keys_foldl_distributeItem partitions value.Includes.toList []
    List.nodup_nil
  unfold partitionLists
  split_ifs
  · exact h₀
  · exact nodup_keys_foldl_excludes _ _ _ h₀

theorem keys_partitionLists (value : LabelList) {p : String}
    (hp : p ∈ GoMap.keys (partitionLists partitions value)) : p ∈ GoMap.keys partitions := by
  have h₀ : ∀ p ∈ GoMap.keys (value.Includes.toList.foldl (distributeItem partitions) []),
      p ∈ GoMap.keys partitions := fun p hp =>
    (keys_foldl_distributeItem _ [] p hp).resolve_left List.not_mem_nil
  unfold partitionLists at hp
  split_ifs at hp
  · exact h₀ p hp
  · rcases keys_foldl_excludes _ _ _ p hp with h | h
    · exact h₀ p h
    · exact h

/-- `partitionLabelList` at a valid config whose labels no two partitions share:
it stores the lists `partitionLists` and reports nothing. -/
theorem partitionLabelList_eq {lla : LabelListAttribute}
    (hm : ∀ e ∈ partitions, e.2.LabelMapper.isNone = true) (hkeys : (GoMap.keys partitions).Nodup)
    {axis : ConfigurationAxis} {config : String}
    (hv : axis.configurationType.validateConfig config = true)
    (hu : ∀ l ∈ (lla.selectTotal axis config).Includes.toList, unambiguous partitions l)
    (ret : PartitionToLabelListAttribute) (errs : List String) :
    partitionLabelList lla partitions (GoMap.keys partitions) (remainderPartition partitions)
        (ret, errs) axis config =
      ((partitionLists partitions (lla.selectTotal axis config)).foldlM
        (writePartition axis config) ret).bind fun ret' => some (ret', errs) := by
  have hitems := foldl_partitionItem hm hkeys (lla.selectTotal axis config).Includes.toList
    ([], errs) hu
  simp only [partitionLabelList, LabelListAttribute.SelectValue_eq lla hv, Option.bind_eq_bind,
    Option.bind_some, hitems, partitionLists]
  rfl

/-- **One config.**  At a valid config whose labels no two partitions share,
`partitionLabelList` succeeds, reports nothing, and the config is distributed. -/
theorem partitionLabelList_distributed {lla : LabelListAttribute}
    (hm : ∀ e ∈ partitions, e.2.LabelMapper.isNone = true) (hkeys : (GoMap.keys partitions).Nodup)
    {axis : ConfigurationAxis} {config : String}
    (hv : axis.configurationType.validateConfig config = true)
    (hu : ∀ l ∈ (lla.selectTotal axis config).Includes.toList, unambiguous partitions l)
    {ret : PartitionToLabelListAttribute} {done : List (ConfigurationAxis × String)}
    (hinv : Distributed lla partitions ret done)
    (hret : ∀ p ∈ GoMap.keys ret, p ∈ GoMap.keys partitions) (errs : List String) :
    ∃ ret', partitionLabelList lla partitions (GoMap.keys partitions) (remainderPartition partitions)
        (ret, errs) axis config = some (ret', errs) ∧
      Distributed lla partitions ret' (done ++ [(axis, config)]) ∧
      ∀ p ∈ GoMap.keys ret', p ∈ GoMap.keys partitions := by
  obtain ⟨ret', hrun, hkeys', hval⟩ :=
    foldlM_writePartition hv _ ret (nodup_keys_partitionLists (lla.selectTotal axis config))
  refine ⟨ret', by rw [partitionLabelList_eq hm hkeys hv hu, hrun]; rfl,
    fun p axis' config' => ?_, fun p hp => ?_⟩
  · rw [hval p axis' config']
    by_cases hs : LabelListAttribute.sameSlot axis config axis' config'
    · -- the config just processed
      have hex : ∃ d ∈ done ++ [(axis, config)], LabelListAttribute.sameSlot d.1 d.2 axis' config' :=
        ⟨(axis, config), List.mem_append_right _ List.mem_cons_self, hs⟩
      rw [if_pos hex, LabelListAttribute.selectTotal_of_sameSlot lla hs]
      by_cases hp : p ∈ GoMap.keys (partitionLists partitions (lla.selectTotal axis config))
      · rw [if_pos ⟨hp, hs⟩, includes_partitionLists]
      · -- a partition with nothing at this config kept what it had: nothing
        have hempty : ((lla.selectTotal axis config).Includes.toList.filter
            fun l => destination partitions l = some p) = [] := by
          rw [← includes_partitionLists, GoMap.getD, GoMap.get?_eq_none_of_not_mem_keys hp]
          rfl
        rw [if_neg fun h => hp h.1, hinv p axis' config',
          LabelListAttribute.selectTotal_of_sameSlot lla hs, hempty]
        split_ifs <;> rfl
    · have hiff : (∃ d ∈ done ++ [(axis, config)], LabelListAttribute.sameSlot d.1 d.2 axis' config') ↔
          ∃ d ∈ done, LabelListAttribute.sameSlot d.1 d.2 axis' config' := by
        constructor
        · rintro ⟨d, hd, h⟩
          rcases List.mem_append.mp hd with hd | hd
          · exact ⟨d, hd, h⟩
          · rw [List.mem_singleton] at hd
            subst hd
            exact absurd h hs
        · rintro ⟨d, hd, h⟩
          exact ⟨d, List.mem_append_left _ hd, h⟩
      rw [if_neg fun h => hs h.2, hinv p axis' config']
      simp only [hiff]
  · rcases hkeys' p hp with h | h
    · exact hret p h
    · exact keys_partitionLists _ h

/-- The configs of the configured values, in loop order. -/
def slots (cll : configurableLabelLists) : List (ConfigurationAxis × String) :=
  cll.flatMap fun e => e.2.map fun c => (e.1, c.1)

theorem slots_append_singleton (cll : configurableLabelLists)
    (e : ConfigurationAxis × labelListSelectValues) :
    slots (cll ++ [e]) = slots cll ++ e.2.map fun c => (e.1, c.1) := by
  simp [slots]

/-- A config the configured values do not hold reads the zero list. -/
theorem configValue_of_not_mem_slots {lla : LabelListAttribute} {axis : ConfigurationAxis}
    {config : String} (h : (axis, config) ∉ slots lla.ConfigurableValues) :
    lla.configValue axis config = LabelList.zero := by
  unfold LabelListAttribute.configValue GoMap.getD
  cases hm : GoMap.get? lla.ConfigurableValues axis with
  | none => rfl
  | some m =>
    cases hv : GoMap.get? m config with
    | none => simp [hv]
    | some v =>
      refine absurd (List.mem_flatMap.mpr ⟨(axis, m), GoMap.mem_of_get?_eq_some hm, ?_⟩) h
      exact List.mem_map.mpr ⟨(config, v), GoMap.mem_of_get?_eq_some hv, rfl⟩

/-- **The loop over the configured values**: every config is distributed in
turn, with no error. -/
theorem foldlM_configs_distributed {lla : LabelListAttribute}
    (hm : ∀ e ∈ partitions, e.2.LabelMapper.isNone = true) (hkeys : (GoMap.keys partitions).Nodup)
    (hvalid : lla.ValidConfigs) (hext : ∀ l ∈ lla.labels, unambiguous partitions l)
    {ret : PartitionToLabelListAttribute} {done : List (ConfigurationAxis × String)}
    (hinv : Distributed lla partitions ret done)
    (hret : ∀ p ∈ GoMap.keys ret, p ∈ GoMap.keys partitions) :
    ∃ ret', lla.ConfigurableValues.foldlM
        (fun st (e : ConfigurationAxis × labelListSelectValues) =>
          e.2.foldlM
            (fun st (c : String × LabelList) =>
              partitionLabelList lla partitions (GoMap.keys partitions) (remainderPartition partitions)
                st e.1 c.1)
            st)
        (ret, []) = some (ret', []) ∧
      Distributed lla partitions ret' (done ++ slots lla.ConfigurableValues) ∧
      ∀ p ∈ GoMap.keys ret', p ∈ GoMap.keys partitions := by
  -- the invariant of the outer loop, after the axes `pre`
  let P : List (ConfigurationAxis × labelListSelectValues) →
      PartitionToLabelListAttribute × List String → Prop := fun pre st =>
    st.2 = [] ∧ Distributed lla partitions st.1 (done ++ slots pre) ∧
      ∀ p ∈ GoMap.keys st.1, p ∈ GoMap.keys partitions
  -- one axis: the inner loop over its configs, after the configs `pre'`
  have hstep : ∀ pre e t, e ∈ lla.ConfigurableValues → P pre t →
      ∃ t', e.2.foldlM
          (fun st (c : String × LabelList) =>
            partitionLabelList lla partitions (GoMap.keys partitions) (remainderPartition partitions)
              st e.1 c.1)
          t = some t' ∧ P (pre ++ [e]) t' := by
    intro pre e t he ht
    let Q : List (String × LabelList) → PartitionToLabelListAttribute × List String → Prop :=
      fun pre' st => st.2 = [] ∧
        Distributed lla partitions st.1 (done ++ slots pre ++ pre'.map fun c => (e.1, c.1)) ∧
        ∀ p ∈ GoMap.keys st.1, p ∈ GoMap.keys partitions
    have hconfig : ∀ pre' c u, c ∈ e.2 → Q pre' u →
        ∃ u', partitionLabelList lla partitions (GoMap.keys partitions)
          (remainderPartition partitions) u e.1 c.1 = some u' ∧ Q (pre' ++ [c]) u' := by
      rintro pre' c ⟨u, _⟩ hc ⟨rfl, hdist, hkeysu⟩
      obtain ⟨ret', hpl, hdist', hkeys''⟩ := partitionLabelList_distributed hm hkeys
        ((hvalid e he).2 c hc) (fun l hl => hext l (mem_labels_of_selectTotal hl)) hdist hkeysu []
      refine ⟨(ret', []), hpl, rfl, ?_, hkeys''⟩
      simpa [List.append_assoc] using hdist'
    obtain ⟨t', hrun, hQ⟩ :=
      Interleave.foldlM_some_of_step Q e.2 [] t hconfig ⟨ht.1, by simpa using ht.2.1, ht.2.2⟩
    refine ⟨t', hrun, hQ.1, ?_, hQ.2.2⟩
    rw [slots_append_singleton, ← List.append_assoc]
    exact hQ.2.1
  obtain ⟨⟨ret', errs⟩, hrun, rfl, hdist, hkeys'⟩ :=
    Interleave.foldlM_some_of_step P lla.ConfigurableValues [] (ret, []) hstep
      ⟨rfl, by simpa [slots] using hinv, hret⟩
  exact ⟨ret', hrun, hdist, hkeys'⟩

end Run

/-- **`PartitionLabelListAttribute` distributes every config's includes.**  For
an attribute whose configs are valid and partitions that map no label, with at
most one remainder partition and no label of the attribute taken by two
partitions, the function neither panics nor reports an error; it makes only
the given partitions, and each reads, at the base value and at every config,
the labels of the attribute there whose destination it is, in their order. -/
theorem PartitionLabelListAttribute_partitions (lla : LabelListAttribute)
    (partitions : LabelPartitions) (hvalid : lla.ValidConfigs)
    (hnames : (GoMap.keys partitions).Nodup)
    (hmapper : ∀ e ∈ partitions, e.2.LabelMapper.isNone = true)
    (hremainder : (partitions.filter fun e => e.2.Keep_remainder).length ≤ 1)
    (hext : ∀ l ∈ lla.labels, unambiguous partitions l) :
    ∃ ret, PartitionLabelListAttribute lla partitions = some (ret, []) ∧
      (∀ p ∈ GoMap.keys ret, p ∈ GoMap.keys partitions) ∧
      ∀ p axis config,
        ((GoMap.getD ret p LabelListAttribute.zero).selectTotal axis config).Includes.toList =
          (lla.selectTotal axis config).Includes.toList.filter
            fun l => destination partitions l = some p := by
  -- the base value, then every config
  have hbaseValid : NoConfigAxis.configurationType.validateConfig "" = true := rfl
  obtain ⟨ret₁, hbase, hdist₁, hkeys₁⟩ := partitionLabelList_distributed hmapper hnames
    hbaseValid (fun l hl => hext l (mem_labels_of_selectTotal hl))
    (distributed_nil lla) (fun p hp => by simp [GoMap.keys] at hp) []
  obtain ⟨ret, hrun, hdist, hkeys⟩ :=
    foldlM_configs_distributed hmapper hnames hvalid hext hdist₁ hkeys₁
  refine ⟨ret, ?_, hkeys, fun p axis config => ?_⟩
  · simp only [PartitionLabelListAttribute, collectPartitions_eq hremainder, Option.bind_eq_bind,
      Option.bind_some, hbase]
    exact hrun
  · rw [hdist p axis config]
    split_ifs with hdone
    · rfl
    · -- a config the attribute does not hold reads nothing
      have hnone : axis.configurationType ≠ .noConfig := fun h =>
        hdone ⟨(NoConfigAxis, ""), by simp, Or.inl ⟨rfl, h⟩⟩
      have hslot : (axis, config) ∉ slots lla.ConfigurableValues := fun h =>
        hdone ⟨(axis, config), List.mem_append_right _ h, Or.inr ⟨hnone, rfl, rfl⟩⟩
      simp [LabelListAttribute.selectTotal, hnone, configValue_of_not_mem_slots hslot,
        LabelList.zero]

/-- Sources `a.a`, `c.c` and `d.d`, and `c.c` again on x86. -/
def srcsAttribute : LabelListAttribute :=
  { Value := ⟨some [⟨"a.a", ""⟩, ⟨"c.c", ""⟩, ⟨"d.d", ""⟩], none⟩
    ConfigurableValues := [(ArchConfigurationAxis, [("x86", ⟨some [⟨"c.c", ""⟩], none⟩)])]
    ForceSpecifyEmptyList := false
    EmitEmptyList := false }

/-- `A` takes `.a` and the remainder, `C` takes `.c`. -/
def srcsPartitions : LabelPartitions :=
  [("A", ⟨[".a"], none, true⟩), ("C", ⟨[".c"], none, false⟩)]

theorem PartitionLabelListAttribute_partitions_srcs :
    ∃ ret, PartitionLabelListAttribute srcsAttribute srcsPartitions = some (ret, []) ∧
      (∀ p ∈ GoMap.keys ret, p ∈ GoMap.keys srcsPartitions) ∧
      ∀ p axis config,
        ((GoMap.getD ret p LabelListAttribute.zero).selectTotal axis config).Includes.toList =
          (srcsAttribute.selectTotal axis config).Includes.toList.filter
            fun l => destination srcsPartitions l = some p :=
  PartitionLabelListAttribute_partitions srcsAttribute srcsPartitions (by decide) (by decide)
    (by decide) (by decide) (by decide)

/-- An arch config the arch axis does not know. -/
def unknownArchAttribute : LabelListAttribute :=
  { Value := LabelList.zero
    ConfigurableValues := [(ArchConfigurationAxis, [("foo", ⟨some [⟨"a.a", ""⟩], none⟩)])]
    ForceSpecifyEmptyList := false
    EmitEmptyList := false }

/-- **An attribute with an unknown config makes the partitioning panic**, in
`SelectValue`'s `validateConfig`, although the one partition maps no label. -/
theorem PartitionLabelListAttribute_panics_on_unknown_config :
    (PartitionLabelListAttribute unknownArchAttribute [("A", ⟨[".a"], none, false⟩)]).isNone = true := by
  decide

/-! ### The attributes made -/

theorem LabelListAttribute.zero_validConfigs : LabelListAttribute.zero.ValidConfigs :=
  fun _ he => absurd he List.not_mem_nil

/-- A store of a partition's list keeps every attribute of the map valid. -/
theorem writePartition_validConfigs {axis : ConfigurationAxis} {config : String}
    {ret ret' : PartitionToLabelListAttribute} {e : String × LabelList}
    (hret : ∀ r ∈ ret, r.2.ValidConfigs) (hw : writePartition axis config ret e = some ret') :
    ∀ r ∈ ret', r.2.ValidConfigs := by
  simp only [writePartition, Option.pure_def, Option.bind_eq_bind] at hw
  obtain ⟨val, hset, hw⟩ := Option.bind_eq_some_iff.mp hw
  cases hw
  -- the attribute stored over is the partition's, or the zero one for a new partition
  have hold : (GoMap.getD ret e.1 LabelListAttribute.zero).ValidConfigs := by
    unfold GoMap.getD
    cases hg : GoMap.get? ret e.1 with
    | none => exact LabelListAttribute.zero_validConfigs
    | some v => exact hret _ (GoMap.mem_of_get?_eq_some hg)
  intro r hr
  rcases GoMap.mem_set hr with hr | rfl
  · exact hret r hr
  · exact LabelListAttribute.SetSelectValue_validConfigs hold hset

/-- One config: the lists are stored by `writePartition` alone. -/
theorem partitionLabelList_validConfigs {lla : LabelListAttribute}
    {partitions : LabelPartitions} {partitionNames : List String}
    {remainderPartition : Option String} {st st' : PartitionToLabelListAttribute × List String}
    {axis : ConfigurationAxis} {config : String} (hst : ∀ r ∈ st.1, r.2.ValidConfigs)
    (h : partitionLabelList lla partitions partitionNames remainderPartition st axis config =
      some st') :
    ∀ r ∈ st'.1, r.2.ValidConfigs := by
  simp only [partitionLabelList, Option.bind_eq_bind] at h
  obtain ⟨value, -, h⟩ := Option.bind_eq_some_iff.mp h
  obtain ⟨ret, hret, h⟩ := Option.bind_eq_some_iff.mp h
  cases h
  exact Interleave.foldlM_invariant (fun _ _ _ _ hs hw => writePartition_validConfigs hs hw)
    hst hret

/-- **The attributes `PartitionLabelListAttribute` makes have valid configs**,
whatever the attribute and the partitions: every config of a partition is
written by `SetSelectValue`, which checks it.  So partitioning one of them
again never panics in `SelectValue`. -/
theorem PartitionLabelListAttribute_validConfigs {lla : LabelListAttribute}
    {partitions : LabelPartitions} {ret : PartitionToLabelListAttribute} {errors : List String}
    (h : PartitionLabelListAttribute lla partitions = some (ret, errors)) :
    ∀ r ∈ ret, r.2.ValidConfigs := by
  simp only [PartitionLabelListAttribute, Option.bind_eq_bind] at h
  obtain ⟨names, -, h⟩ := Option.bind_eq_some_iff.mp h
  obtain ⟨st, hbase, hrun⟩ := Option.bind_eq_some_iff.mp h
  have hst : ∀ r ∈ st.1, r.2.ValidConfigs :=
    partitionLabelList_validConfigs (fun _ hr => absurd hr List.not_mem_nil) hbase
  -- the loop over the axes, and in it the loop over the axis's configs
  refine Interleave.foldlM_invariant (P := fun st => ∀ r ∈ st.1, r.2.ValidConfigs)
    (fun t e t' _ ht hstep => ?_) hst hrun
  exact Interleave.foldlM_invariant (fun _ _ _ _ hu hu' => partitionLabelList_validConfigs hu hu')
    ht hstep

/-- What the partitioning of `srcsAttribute` makes: `c.c` on x86 goes to `C`. -/
def srcsPartitioned : PartitionToLabelListAttribute :=
  [("A", ⟨⟨some [⟨"a.a", ""⟩, ⟨"d.d", ""⟩], none⟩, [], false, false⟩),
    ("C", ⟨⟨some [⟨"c.c", ""⟩], none⟩,
      [(ArchConfigurationAxis, [("x86", ⟨some [⟨"c.c", ""⟩], none⟩)])], false, false⟩)]

theorem PartitionLabelListAttribute_validConfigs_srcs :
    PartitionLabelListAttribute srcsAttribute srcsPartitions = some (srcsPartitioned, []) ∧
      ∀ r ∈ srcsPartitioned, r.2.ValidConfigs := by
  have h : PartitionLabelListAttribute srcsAttribute srcsPartitions =
      some (srcsPartitioned, []) := rfl
  exact ⟨h, PartitionLabelListAttribute_validConfigs h⟩

end Bazel

end Soong
