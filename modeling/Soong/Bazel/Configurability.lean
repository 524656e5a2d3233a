import Soong.Bazel.Collapse
import Mathlib.Data.Prod.Lex
import Soong.Lib.SortSearch

/-!
# The order of configuration axes

`bazel/configurability.go` and the `SortedConfigurationAxes` methods of
`bazel/properties.go`.  An attribute's configured values are a map keyed by
axes, and Bazel writes the axes in the order `ConfigurationAxis.less` sorts
them.  `less` compares the configuration types, and when the first is not the
smaller it compares the product-variable names, even when the first type is
the greater one.  So it is an order only because no axis the package builds
has a name unless its type is the greatest, `productVariables`
(`ConfigurationAxis.Public`); on those axes it is the lexicographic order of
the type and the name (`less_eq_key`).  Sorting the keys of a map of such axes
therefore gives one list, whatever order the map lists them in.

## Main definitions

* `configurationType.val`, `ConfigurationAxis.less`.
* `sortedConfigurationAxes` and the three `SortedConfigurationAxes`.

## Main results

* `less_eq_key` — on them `less` is the order of a key.
* `pairwise_Slice_less`, `sortedConfigurationAxes_perm` — sorted axes are in
  strict order and do not depend on the map order.
* `less_strict_total_on_public_axes` — `less` is a strict total order there.
-/

namespace Soong

namespace Bazel

/-- The `iota` value of a configuration type, by which Go compares them. -/
def configurationType.val : configurationType → ℕ
  | .noConfig => 0
  | .arch => 1
  | .os => 2
  | .osArch => 3
  | .productVariables => 4

theorem configurationType.val_injective : Function.Injective configurationType.val := by
  intro a b h
  cases a <;> cases b <;> first | rfl | cases h

/-- `(*ConfigurationAxis).less`: a smaller type is less; otherwise the names
decide, whichever type is the greater. -/
def ConfigurationAxis.less (ca other : ConfigurationAxis) : Bool :=
  if ca.configurationType.val < other.configurationType.val then true
  else decide (ca.subType < other.subType)

/-- `SortedConfigurationAxes` of `LabelAttribute`, `BoolAttribute` and
`LabelListAttribute`: the keys of the map of configured values, in map order,
then sorted by `less`. -/
def sortedConfigurationAxes {α : Type} (cv : List (ConfigurationAxis × α)) :
    List ConfigurationAxis :=
  sort.Slice (GoMap.keys cv) fun a b => a.less b

def LabelAttribute.SortedConfigurationAxes (la : LabelAttribute) : List ConfigurationAxis :=
  sortedConfigurationAxes la.ConfigurableValues

def BoolAttribute.SortedConfigurationAxes (ba : BoolAttribute) : List ConfigurationAxis :=
  sortedConfigurationAxes ba.ConfigurableValues

def LabelListAttribute.SortedConfigurationAxes (lla : LabelListAttribute) :
    List ConfigurationAxis :=
  sortedConfigurationAxes lla.ConfigurableValues

namespace ConfigurationAxis

/-- The type, then the name: the order `less` is on public axes. -/
def key (axis : ConfigurationAxis) : Lex (ℕ × String) :=
  toLex (axis.configurationType.val, axis.subType)

theorem key_injective : Function.Injective key := by
  rintro ⟨t, v⟩ ⟨t', v'⟩ h
  simp only [key, toLex_inj, Prod.mk.injEq] at h
  rw [configurationType.val_injective h.1, h.2]

/-- **On public axes `less` is the lexicographic order of type and name.**  When
the first type is the greater, it is not `productVariables`' smaller one, so
the second axis has no name and the names cannot make the first less. -/
theorem less_eq_key {a b : ConfigurationAxis} (hb : b.Public) :
    a.less b = decide (a.key < b.key) := by
  have hiff : a.less b = true ↔ a.key < b.key := by
    rw [key, key, Prod.Lex.toLex_lt_toLex]
    unfold less
    by_cases hlt : a.configurationType.val < b.configurationType.val
    · simp [hlt]
    · rw [if_neg hlt]
      by_cases heq : a.configurationType.val = b.configurationType.val
      · simp [heq]
      · -- `b`'s type is the smaller, so not the greatest: `b` has no name
        have hval : b.configurationType.val < 4 := by
          have : a.configurationType.val ≤ 4 := by
            cases a.configurationType <;> simp [configurationType.val]
          omega
        have hsub : b.subType = "" := by
          rcases hb with hpv | hsub
          · rw [hpv] at hval
            simp [configurationType.val] at hval
          · exact hsub
        simp only [hlt, heq, false_and, or_self, iff_false, hsub, decide_eq_true_eq]
        rw [String.lt_iff_toList_lt, String.toList_empty]
        exact List.not_lt_nil _
  rw [Bool.eq_iff_iff, decide_eq_true_iff]
  exact hiff

end ConfigurationAxis

open ConfigurationAxis

/-- Sorting distinct public axes orders them strictly by `less`. -/
theorem pairwise_Slice_less {keys : List ConfigurationAxis} (hkeys : keys.Nodup)
    (hpublic : ∀ a ∈ keys, a.Public) :
    (sort.Slice keys fun a b => a.less b).Pairwise fun a b => a.less b = true := by
  -- on the keys, `less` is the order of `key`, which the keys do not repeat
  have hcongr : sort.Slice keys (fun a b => a.less b) =
      sort.SliceStable keys fun a b => decide (a.key < b.key) :=
    sort.SliceStable_congr fun a _ b hb => less_eq_key (hpublic b hb)
  have hnodup : (keys.map key).Nodup := hkeys.map key_injective
  have hsorted := sort.pairwise_SliceStable_key sort.strictTotalOrder_decide_lt key hnodup
  rw [hcongr]
  refine hsorted.imp_of_mem fun {a b} _ hb hab => ?_
  have hb' : b ∈ keys := (sort.SliceStable_perm keys _).subset hb
  rw [less_eq_key (hpublic b hb')]
  exact hab

/-- **The sorted axes do not depend on the map order.**  Two orders of one map
of distinct public axes sort to lists strictly ordered by `less`, which are
the same list. -/
theorem sortedConfigurationAxes_perm {α : Type} {cv cv' : List (ConfigurationAxis × α)}
    (hkeys : (GoMap.keys cv).Nodup) (hpublic : ∀ a ∈ GoMap.keys cv, a.Public)
    (hperm : cv'.Perm cv) : sortedConfigurationAxes cv' = sortedConfigurationAxes cv := by
  have hkperm : (GoMap.keys cv').Perm (GoMap.keys cv) := hperm.map Prod.fst
  have hkeys' : (GoMap.keys cv').Nodup := hkperm.nodup_iff.mpr hkeys
  have hpublic' : ∀ a ∈ GoMap.keys cv', a.Public := fun a ha => hpublic a (hkperm.subset ha)
  refine List.Perm.eq_of_pairwise ?_
    (pairwise_Slice_less hkeys' hpublic') (pairwise_Slice_less hkeys hpublic) ?_
  · -- two public axes are never less than each other both ways
    intro a b ha hb hab hba
    have ha' := hpublic' a ((sort.Slice_perm _ _).subset ha)
    have hb' := hpublic b ((sort.Slice_perm _ _).subset hb)
    rw [less_eq_key hb', decide_eq_true_eq] at hab
    rw [less_eq_key ha', decide_eq_true_eq] at hba
    exact absurd (hab.trans hba) (lt_irrefl _)
  · exact (sort.Slice_perm _ _).trans (hkperm.trans (sort.Slice_perm _ _).symm)

/-- **`less` is a strict total order on the axes the package builds**
(`ConfigurationAxis.Public`): irreflexive, asymmetric, transitive and total; so the sorted
axes of an attribute are one list, whatever order its map is read in. -/
theorem less_strict_total_on_public_axes :
    (∀ a : ConfigurationAxis, a.Public → a.less a = false) ∧
    (∀ a b : ConfigurationAxis, a.Public → b.Public → a.less b = true → b.less a = false) ∧
    (∀ a b c : ConfigurationAxis, a.Public → b.Public → c.Public →
      a.less b = true → b.less c = true → a.less c = true) ∧
    (∀ a b : ConfigurationAxis, a.Public → b.Public → a ≠ b →
      a.less b = true ∨ b.less a = true) ∧
    ∀ lla lla' : LabelListAttribute, (GoMap.keys lla.ConfigurableValues).Nodup →
      (∀ a ∈ GoMap.keys lla.ConfigurableValues, a.Public) →
      lla'.ConfigurableValues.Perm lla.ConfigurableValues →
      lla'.SortedConfigurationAxes = lla.SortedConfigurationAxes := by
  refine ⟨?_, ?_, ?_, ?_, ?_⟩
  · intro a ha
    rw [less_eq_key ha]
    simp
  · intro a b ha hb hab
    rw [less_eq_key ha, decide_eq_false_iff_not, not_lt]
    rw [less_eq_key hb, decide_eq_true_eq] at hab
    exact hab.le
  · intro a b c _ hb hc hab hbc
    rw [less_eq_key hb, decide_eq_true_eq] at hab
    rw [less_eq_key hc, decide_eq_true_eq] at hbc
    rw [less_eq_key hc, decide_eq_true_eq]
    exact hab.trans hbc
  · intro a b ha hb hne
    -- distinct axes have distinct keys, and keys are linearly ordered
    have hkey : a.key ≠ b.key := fun h => hne (key_injective h)
    rw [less_eq_key hb, less_eq_key ha, decide_eq_true_eq, decide_eq_true_eq]
    exact lt_or_gt_of_ne hkey
  · intro lla lla' hkeys hpublic hperm
    exact sortedConfigurationAxes_perm hkeys hpublic hperm

/-- The arch axis is less than the os axis and not the other way round, and
an attribute configured on both sorts them alike in either map order. -/
theorem less_strict_total_on_public_axes_arch_os :
    ArchConfigurationAxis.Public ∧ OsConfigurationAxis.Public ∧
      ArchConfigurationAxis.less OsConfigurationAxis = true ∧
      OsConfigurationAxis.less ArchConfigurationAxis = false ∧
      (⟨LabelList.zero, [(OsConfigurationAxis, []), (ArchConfigurationAxis, [])], false, false⟩ :
          LabelListAttribute).SortedConfigurationAxes =
        (⟨LabelList.zero, [(ArchConfigurationAxis, []), (OsConfigurationAxis, [])], false, false⟩ :
          LabelListAttribute).SortedConfigurationAxes := by
  have harch : ArchConfigurationAxis.Public := by decide
  have hos : OsConfigurationAxis.Public := by decide
  have hlt : ArchConfigurationAxis.less OsConfigurationAxis = true := by decide
  obtain ⟨-, hasymm, -, -, hperm⟩ := less_strict_total_on_public_axes
  exact ⟨harch, hos, hlt, hasymm _ _ harch hos hlt,
    hperm _ _ (by decide) (by decide) (List.Perm.swap _ _ [])⟩

end Bazel

end Soong
