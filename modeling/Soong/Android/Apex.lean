import Soong.Lib.GoMap
import Soong.Lib.GoPath
import Soong.Android.Util

/-!
# Merging the APEX variations of a module

`android/apex.go`.  A module that goes into several APEXes gets one variation
for each, described by an `ApexInfo`; `BuildForApex` collects them, one for
each variation name.  `mergeApexVariations` then merges those that would build
the same into one variation named after their minimum SDK level, `apex<level>`.
It sorts the infos by name, keeps in `seen` the index in `merged` of the entry
of each merged name, and merges every later info of that name into the entry at
that index.  Infos for a prebuilt APEX are kept as they are.  It returns the
entries and the aliases from each variation name to its merged name.

The entry of a merged name is the first info of its group, renamed, with the
lists of the others appended and the flags combined (`mergeInto`).  Its
`InApexVariants` gets the *names* of the others, not their `InApexVariants`:
the merged list is the concatenation of the group's lists only for infos that
list their own name, as the ones `apexBundle` creates do
(`mergeApexVariations_two_variants`).  A prebuilt info is not renamed, so one
named like a merged name shares that name with the merged entry.

Slices are values here: the copies the source makes, so that appending to an
entry cannot write into an input's array, are the identity.

## Main definitions

* `ApiLevel.FinalOrFutureInt`, `ApexInfo.mergedName`, `BuildForApex`.
* `mergeInto` — one info merged into an entry; `mergeStep` — one pass of the loop.
* `mergeApexVariations`.
* `groupOf`, `aliasesOf` — the infos aliased to a merged name, and the aliases.

## Main results

* `foldlM_BuildForApex` — the infos a run of `BuildForApex` collects have
  distinct names; `BuildForApexInv.variants` — they list their own names when
  the infos given do.
* `foldl_mergeInto` — merging a group appends its lists and combines its flags.
* `MergeInv.mergeStep`, `MergeInv.foldl` — the loop keeps the aliases, the
  prebuilt infos and, at the index `seen` gives, the merge of each group.
* `MergeInv.merged_filter_name` — a merged name names one entry, its group's.
* `mergeApexVariations_merges_by_level` — the whole merge, for infos of distinct
  names that list their own names.
* `mergeApexVariations_two_variants` — otherwise a merged entry loses variants,
  and a prebuilt info may share a merged name.
-/

namespace Soong

/-- `FutureApiLevelInt`, the number of an unreleased API level. -/
def FutureApiLevelInt : ℤ := 10000

/-- `ApiLevel`. -/
structure ApiLevel where
  value : String
  number : ℤ
  isPreview : Bool
  deriving DecidableEq, Repr

namespace ApiLevel

/-- `ApiLevel.IsPreview`. -/
def IsPreview (this : ApiLevel) : Bool := this.isPreview

/-- `ApiLevel.FinalOrFutureInt`. -/
def FinalOrFutureInt (this : ApiLevel) : ℤ :=
  if this.IsPreview then FutureApiLevelInt else this.number

end ApiLevel

/-- `ApexInfo`, the `ApexContents` pointers being values of a type `C`. -/
structure ApexInfo (C : Type) where
  ApexVariationName : String
  MinSdkVersion : ApiLevel
  Updatable : Bool
  UsePlatformApis : Bool
  InApexVariants : List String
  InApexModules : List String
  ApexContents : List C
  ForPrebuiltApex : Bool
  deriving DecidableEq, Repr

variable {C : Type}

namespace ApexInfo

/-- `ApexInfo.mergedName`: `apex` followed by the minimum SDK level. -/
def mergedName (i : ApexInfo C) : String :=
  let name := "apex" ++ strconv.Itoa i.MinSdkVersion.FinalOrFutureInt
  name

/-- Two infos have one merged name exactly when they have one level. -/
theorem mergedName_eq_iff {a b : ApexInfo C} :
    a.mergedName = b.mergedName ↔
      a.MinSdkVersion.FinalOrFutureInt = b.MinSdkVersion.FinalOrFutureInt := by
  unfold mergedName
  constructor
  · intro h
    exact strconv.Itoa_injective ((String.append_right_inj _).mp h)
  · intro h
    rw [h]

end ApexInfo

/-- `ApexModuleBase.BuildForApex` on the module's `apexInfos`: an info of a new
variation name is appended; one of a present name adds its APEX module to the
modules of that name's info, unless listed.  `none` is the panic on an info of
a present name that is not for a single APEX. -/
def BuildForApex : List (ApexInfo C) → ApexInfo C → Option (List (ApexInfo C))
  | [], apex => some [apex]
  | v :: apexInfos, apex =>
    if v.ApexVariationName == apex.ApexVariationName then
      match apex.InApexModules with
      | [m] =>
        some ((if InList m v.InApexModules then v
          else { v with InApexModules := v.InApexModules ++ [m] }) :: apexInfos)
      | _ => none
    else (BuildForApex apexInfos apex).map (v :: ·)

/-- An info without its modules: what `BuildForApex` keeps of the info of a
present name. -/
def ApexInfo.withoutModules (v : ApexInfo C) : ApexInfo C := { v with InApexModules := [] }

@[simp] theorem ApexInfo.withoutModules_ApexVariationName (v : ApexInfo C) :
    v.withoutModules.ApexVariationName = v.ApexVariationName := rfl

/-- `BuildForApex` appends an info of a new name, and otherwise changes at most
the modules of the info of that name. -/
theorem BuildForApex_eq_some {apex : ApexInfo C} :
    ∀ {apexInfos l : List (ApexInfo C)}, BuildForApex apexInfos apex = some l →
      (apex.ApexVariationName ∉ apexInfos.map (·.ApexVariationName) ∧ l = apexInfos ++ [apex]) ∨
        l.map ApexInfo.withoutModules = apexInfos.map ApexInfo.withoutModules
  | [], l, h => by
    simp only [BuildForApex, Option.some.injEq] at h
    subst h
    simp
  | v :: apexInfos, l, h => by
    unfold BuildForApex at h
    by_cases hv : v.ApexVariationName = apex.ApexVariationName
    · -- the info of that name gets the module, if it lacks it
      rw [if_pos (by simpa using hv)] at h
      split at h
      · cases h
        right
        split <;> rfl
      · cases h
    · rw [if_neg (by simpa using hv)] at h
      obtain ⟨l', hl', rfl⟩ := Option.map_eq_some_iff.mp h
      rcases BuildForApex_eq_some hl' with ⟨hnot, rfl⟩ | hmap
      · left
        simp_all [Ne.symm hv]
      · right
        simp [hmap]

/-- What the infos a run of `BuildForApex` collects keep: distinct names, and
each the info of a call but for its modules. -/
def BuildForApexInv (apexes l : List (ApexInfo C)) : Prop :=
  (l.map (·.ApexVariationName)).Nodup ∧ ∀ v ∈ l, ∃ a ∈ apexes, v.withoutModules = a.withoutModules

theorem BuildForApexInv.step {apexes acc l : List (ApexInfo C)} {apex : ApexInfo C}
    (h : BuildForApexInv apexes acc) (ha : apex ∈ apexes) (hl : BuildForApex acc apex = some l) :
    BuildForApexInv apexes l := by
  obtain ⟨hnd, hmem⟩ := h
  rcases BuildForApex_eq_some hl with ⟨hnot, rfl⟩ | hmap
  · refine ⟨?_, ?_⟩
    · rw [List.map_append, List.nodup_append]
      simpa using ⟨hnd, fun b hb => fun heq => hnot (heq ▸ List.mem_map_of_mem hb)⟩
    · intro v hv
      rcases List.mem_append.mp hv with hv | hv
      · exact hmem v hv
      · exact ⟨apex, ha, by rw [List.mem_singleton.mp hv]⟩
  · -- the names are those of `acc`, read through the infos without their modules
    have hnames : l.map (·.ApexVariationName) = acc.map (·.ApexVariationName) := by
      have := congrArg (List.map (·.ApexVariationName)) hmap
      simpa [List.map_map, Function.comp_def] using this
    refine ⟨hnames ▸ hnd, fun v hv => ?_⟩
    obtain ⟨w, hw, hwv⟩ := List.mem_map.mp (hmap ▸ List.mem_map_of_mem hv :
      v.withoutModules ∈ acc.map ApexInfo.withoutModules)
    obtain ⟨a, ha, hwa⟩ := hmem w hw
    exact ⟨a, ha, hwv.symm.trans hwa⟩

/-- Infos that list their own names among their variants give such infos. -/
theorem BuildForApexInv.variants {apexes l : List (ApexInfo C)} (h : BuildForApexInv apexes l)
    (hvariants : ∀ a ∈ apexes, a.ForPrebuiltApex = false →
      a.InApexVariants = [a.ApexVariationName]) :
    ∀ v ∈ l, v.ForPrebuiltApex = false → v.InApexVariants = [v.ApexVariationName] := by
  intro v hv hvp
  obtain ⟨a, ha, hva⟩ := h.2 v hv
  have hp : v.ForPrebuiltApex = a.ForPrebuiltApex := (congrArg ApexInfo.ForPrebuiltApex hva :)
  have hn : v.ApexVariationName = a.ApexVariationName := (congrArg ApexInfo.ApexVariationName hva :)
  have hi : v.InApexVariants = a.InApexVariants := (congrArg ApexInfo.InApexVariants hva :)
  rw [hi, hn]
  exact hvariants a ha (hp ▸ hvp)

/-- **The infos a run of `BuildForApex` collects have distinct names**, and
each is an info of a call but for its modules. -/
theorem foldlM_BuildForApex {apexes : List (ApexInfo C)} :
    ∀ {L acc l : List (ApexInfo C)}, L ⊆ apexes → BuildForApexInv apexes acc →
      L.foldlM BuildForApex acc = some l → BuildForApexInv apexes l
  | [], acc, l, _, h, hl => by
    simp only [List.foldlM_nil] at hl
    cases hl
    exact h
  | apex :: L, acc, l, hL, h, hl => by
    simp only [List.foldlM_cons] at hl
    obtain ⟨acc', hacc', hl'⟩ := Option.bind_eq_some_iff.mp hl
    exact foldlM_BuildForApex (List.subset_of_cons_subset hL)
      (h.step (hL List.mem_cons_self) hacc') hl'

/-- **What the calls of `BuildForApex` on a module collect**, from no info: the
names are distinct, each info is that of a call but for its modules, and where
the info of every call lists only its own name among its variants, so does every
collected info.  These are the conditions `mergeApexVariations_merges_by_level`
asks of its input. -/
theorem BuildForApex_runs_mergeable {apexes l : List (ApexInfo C)}
    (hl : apexes.foldlM BuildForApex [] = some l) :
    (l.map (·.ApexVariationName)).Nodup ∧
    (∀ v ∈ l, ∃ a ∈ apexes, v.withoutModules = a.withoutModules) ∧
    ((∀ a ∈ apexes, a.ForPrebuiltApex = false → a.InApexVariants = [a.ApexVariationName]) →
      ∀ v ∈ l, v.ForPrebuiltApex = false → v.InApexVariants = [v.ApexVariationName]) := by
  have hnil : BuildForApexInv apexes [] := ⟨List.nodup_nil, by simp⟩
  have hinv : BuildForApexInv apexes l := foldlM_BuildForApex (List.Subset.refl _) hnil hl
  exact ⟨hinv.1, hinv.2, hinv.variants⟩

/-- The variation `com.android.media` built for two APEX modules, and the one
info the two calls collect. -/
def mediaForTwoApexes : List (ApexInfo Unit) :=
  [⟨"com.android.media", ⟨"29", 29, false⟩, false, false, ["com.android.media"],
      ["com.android.media"], [], false⟩,
    ⟨"com.android.media", ⟨"29", 29, false⟩, false, false, ["com.android.media"],
      ["test_com.android.media"], [], false⟩]

def mediaCollected : ApexInfo Unit :=
  ⟨"com.android.media", ⟨"29", 29, false⟩, false, false, ["com.android.media"],
    ["com.android.media", "test_com.android.media"], [], false⟩

theorem BuildForApex_runs_mergeable_media :
    mediaForTwoApexes.foldlM BuildForApex [] = some [mediaCollected] ∧
    ([mediaCollected].map (·.ApexVariationName)).Nodup ∧
    (∀ v ∈ [mediaCollected], ∃ a ∈ mediaForTwoApexes, v.withoutModules = a.withoutModules) ∧
    ((∀ a ∈ mediaForTwoApexes, a.ForPrebuiltApex = false →
        a.InApexVariants = [a.ApexVariationName]) →
      ∀ v ∈ [mediaCollected], v.ForPrebuiltApex = false →
        v.InApexVariants = [v.ApexVariationName]) := by
  have hl : mediaForTwoApexes.foldlM BuildForApex [] = some [mediaCollected] := by decide
  exact ⟨hl, BuildForApex_runs_mergeable hl⟩

/-! ### The merge loop -/

/-- The merge of `apexInfo` into the entry `m` of its merged name: its variation
name, modules and contents appended, `Updatable` or-ed and `UsePlatformApis`
and-ed. -/
def mergeInto (m apexInfo : ApexInfo C) : ApexInfo C :=
  { m with
    InApexVariants := m.InApexVariants ++ [apexInfo.ApexVariationName]
    InApexModules := m.InApexModules ++ apexInfo.InApexModules
    ApexContents := m.ApexContents ++ apexInfo.ApexContents
    Updatable := m.Updatable || apexInfo.Updatable
    UsePlatformApis := m.UsePlatformApis && apexInfo.UsePlatformApis }

/-- The entry a merged name starts with: `apexInfo` renamed, its lists copied. -/
def newEntry (apexInfo : ApexInfo C) : ApexInfo C :=
  { apexInfo with
    ApexVariationName := apexInfo.mergedName
    InApexVariants := CopyOf apexInfo.InApexVariants
    InApexModules := CopyOf apexInfo.InApexModules
    ApexContents := [] ++ apexInfo.ApexContents }

/-- The variables of the loop of `mergeApexVariations`. -/
structure MergeState (C : Type) where
  merged : List (ApexInfo C)
  aliases : List (String × String)
  seen : List (String × ℕ)

/-- One pass of the loop of `mergeApexVariations`. -/
def mergeStep (st : MergeState C) (apexInfo : ApexInfo C) : MergeState C :=
  if apexInfo.ForPrebuiltApex then { st with merged := st.merged ++ [apexInfo] }
  else
    let variantName := apexInfo.ApexVariationName
    let mergedName := apexInfo.mergedName
    match GoMap.get? st.seen mergedName with
    | some index =>
      { st with
        merged := st.merged.modify index (mergeInto · apexInfo)
        aliases := st.aliases ++ [(variantName, mergedName)] }
    | none =>
      { merged := st.merged ++ [newEntry apexInfo]
        aliases := st.aliases ++ [(variantName, mergedName)]
        seen := GoMap.set st.seen mergedName st.merged.length }

/-- `byApexName.Less`. -/
def byApexName (a b : ApexInfo C) : Bool := decide (a.ApexVariationName < b.ApexVariationName)

/-- `mergeApexVariations`: the merged entries and the aliases. -/
def mergeApexVariations (apexInfos : List (ApexInfo C)) :
    List (ApexInfo C) × List (String × String) :=
  let sorted := sort.«Sort» apexInfos byApexName
  let st := sorted.foldl mergeStep ⟨[], [], []⟩
  (st.merged, st.aliases)

/-! ### What the loop builds -/

/-- The infos aliased to `n`: those not for a prebuilt, of merged name `n`. -/
def groupOf (l : List (ApexInfo C)) (n : String) : List (ApexInfo C) :=
  l.filter fun a => !a.ForPrebuiltApex && a.mergedName == n

/-- The alias of each info not for a prebuilt, from its name to its merged name. -/
def aliasesOf (l : List (ApexInfo C)) : List (String × String) :=
  (l.filter fun a => !a.ForPrebuiltApex).map fun a => (a.ApexVariationName, a.mergedName)

/-- Merging the infos `G` into `m` appends their lists and combines their flags. -/
theorem foldl_mergeInto (G : List (ApexInfo C)) (m : ApexInfo C) :
    G.foldl mergeInto m =
      { m with
        InApexVariants := m.InApexVariants ++ G.map (·.ApexVariationName)
        InApexModules := m.InApexModules ++ G.flatMap (·.InApexModules)
        ApexContents := m.ApexContents ++ G.flatMap (·.ApexContents)
        Updatable := m.Updatable || G.any (·.Updatable)
        UsePlatformApis := m.UsePlatformApis && G.all (·.UsePlatformApis) } := by
  induction G generalizing m with
  | nil => simp
  | cons a G ih =>
    rw [List.foldl_cons, ih]
    simp [mergeInto, Bool.or_assoc, Bool.and_assoc]

@[simp] theorem mergeInto_ApexVariationName (m a : ApexInfo C) :
    (mergeInto m a).ApexVariationName = m.ApexVariationName := rfl

@[simp] theorem mergeInto_ForPrebuiltApex (m a : ApexInfo C) :
    (mergeInto m a).ForPrebuiltApex = m.ForPrebuiltApex := rfl

@[simp] theorem newEntry_ApexVariationName (a : ApexInfo C) :
    (newEntry a).ApexVariationName = a.mergedName := rfl

@[simp] theorem newEntry_ForPrebuiltApex (a : ApexInfo C) :
    (newEntry a).ForPrebuiltApex = a.ForPrebuiltApex := rfl

@[simp] theorem foldl_mergeInto_ApexVariationName (G : List (ApexInfo C)) (m : ApexInfo C) :
    (G.foldl mergeInto m).ApexVariationName = m.ApexVariationName := by
  rw [foldl_mergeInto]

@[simp] theorem foldl_mergeInto_ForPrebuiltApex (G : List (ApexInfo C)) (m : ApexInfo C) :
    (G.foldl mergeInto m).ForPrebuiltApex = m.ForPrebuiltApex := by
  rw [foldl_mergeInto]

theorem mem_groupOf {l : List (ApexInfo C)} {n : String} {a : ApexInfo C} :
    a ∈ groupOf l n ↔ a ∈ l ∧ a.ForPrebuiltApex = false ∧ a.mergedName = n := by
  simp [groupOf]

section append

variable {P : List (ApexInfo C)} {a : ApexInfo C} {n : String}

theorem groupOf_append_of_prebuilt (ha : a.ForPrebuiltApex = true) :
    groupOf (P ++ [a]) n = groupOf P n := by
  simp [groupOf, ha]

theorem groupOf_append_of_ne (hn : a.mergedName ≠ n) : groupOf (P ++ [a]) n = groupOf P n := by
  simp [groupOf, hn]

theorem groupOf_append_self (ha : a.ForPrebuiltApex = false) :
    groupOf (P ++ [a]) a.mergedName = groupOf P a.mergedName ++ [a] := by
  simp [groupOf, ha]

theorem aliasesOf_append_of_prebuilt (ha : a.ForPrebuiltApex = true) :
    aliasesOf (P ++ [a]) = aliasesOf P := by
  simp [aliasesOf, ha]

theorem aliasesOf_append_of_not_prebuilt (ha : a.ForPrebuiltApex = false) :
    aliasesOf (P ++ [a]) = aliasesOf P ++ [(a.ApexVariationName, a.mergedName)] := by
  simp [aliasesOf, ha]

end append

/-! ### The loop invariant -/

/-- What the loop keeps after the infos `P`: their aliases, their prebuilt infos
in `merged` as they are, and for each merged name with a group the index in
`merged` of the group's entry, the only entry of that name not for a prebuilt. -/
structure MergeInv (P : List (ApexInfo C)) (st : MergeState C) : Prop where
  aliases : st.aliases = aliasesOf P
  prebuilt : st.merged.filter (·.ForPrebuiltApex) = P.filter (·.ForPrebuiltApex)
  unseen : ∀ n, GoMap.get? st.seen n = none → groupOf P n = []
  seen : ∀ n index, GoMap.get? st.seen n = some index →
    ∃ a G, groupOf P n = a :: G ∧ st.merged[index]? = some (G.foldl mergeInto (newEntry a))
  index : ∀ i m, st.merged[i]? = some m → m.ForPrebuiltApex = false →
    GoMap.get? st.seen m.ApexVariationName = some i

theorem mergeInv_nil : MergeInv [] (⟨[], [], []⟩ : MergeState C) where
  aliases := rfl
  prebuilt := rfl
  unseen _ _ := rfl
  seen _ _ h := by simp [GoMap.get?] at h
  index _ _ h := by simp at h

namespace MergeInv

variable {P : List (ApexInfo C)} {st : MergeState C} {a : ApexInfo C}

/-- The entry `seen` points at is named by its key and not for a prebuilt. -/
theorem entry_of_seen (h : MergeInv P st) {n : String} {index : ℕ}
    (hn : GoMap.get? st.seen n = some index) :
    ∃ e, st.merged[index]? = some e ∧ e.ApexVariationName = n ∧ e.ForPrebuiltApex = false := by
  obtain ⟨b, G, hG, he⟩ := h.seen n index hn
  have hb : b ∈ groupOf P n := by rw [hG]; exact List.mem_cons_self
  obtain ⟨-, hbp, hbn⟩ := mem_groupOf.mp hb
  exact ⟨_, he, by simp [hbn], by simp [hbp]⟩

/-- An info for a prebuilt is appended as it is. -/
theorem step_prebuilt (h : MergeInv P st) (ha : a.ForPrebuiltApex = true) :
    MergeInv (P ++ [a]) { st with merged := st.merged ++ [a] } where
  aliases := by rw [aliasesOf_append_of_prebuilt ha]; exact h.aliases
  prebuilt := by simp [List.filter_append, h.prebuilt, ha]
  unseen n hn := by rw [groupOf_append_of_prebuilt ha]; exact h.unseen n hn
  seen n index hn := by
    obtain ⟨b, G, hG, he⟩ := h.seen n index hn
    refine ⟨b, G, by rw [groupOf_append_of_prebuilt ha, hG], ?_⟩
    rw [List.getElem?_append_left (List.getElem?_eq_some_iff.mp he).1, he]
  index i m hm hmp := by
    rcases Slice.getElem?_append_singleton_eq_some.mp hm with hm | ⟨-, rfl⟩
    · exact h.index i m hm hmp
    · simp [ha] at hmp

/-- An info of a merged name already seen is merged into its entry. -/
theorem step_seen (h : MergeInv P st) (ha : a.ForPrebuiltApex = false) {index : ℕ}
    (hseen : GoMap.get? st.seen a.mergedName = some index) :
    MergeInv (P ++ [a])
      { st with
        merged := st.merged.modify index (mergeInto · a)
        aliases := st.aliases ++ [(a.ApexVariationName, a.mergedName)] } := by
  obtain ⟨e, he, hen, hep⟩ := h.entry_of_seen hseen
  refine ⟨?_, ?_, ?_, ?_, ?_⟩
  · rw [aliasesOf_append_of_not_prebuilt ha, h.aliases]
  · rw [Slice.filter_modify_of_eq_false he hep (by simpa using hep)]
    simp [List.filter_append, h.prebuilt, ha]
  · intro n hn
    have hne : a.mergedName ≠ n := by rintro rfl; simp [hseen] at hn
    rw [groupOf_append_of_ne hne]
    exact h.unseen n hn
  · intro n index' hn
    by_cases hne : a.mergedName = n
    · -- the group of `a` grows by `a`, and so does its entry
      subst hne
      obtain rfl : index' = index := by simpa [hseen] using hn.symm
      obtain ⟨b, G, hG, he'⟩ := h.seen _ _ hseen
      refine ⟨b, G ++ [a], by rw [groupOf_append_self ha, hG, List.cons_append], ?_⟩
      simp [he', List.foldl_append]
    · obtain ⟨b, G, hG, he'⟩ := h.seen n index' hn
      obtain ⟨e', he'', hen', -⟩ := h.entry_of_seen hn
      -- another name's entry sits at another index
      have hidx : index ≠ index' := by
        rintro rfl
        rw [he] at he''
        cases he''
        exact hne (hen.symm.trans hen')
      refine ⟨b, G, by rw [groupOf_append_of_ne hne, hG], ?_⟩
      rw [List.getElem?_modify_ne _ _ hidx, he']
  · intro i m hm hmp
    by_cases hi : index = i
    · subst hi
      rw [List.getElem?_modify_eq, he] at hm
      cases hm
      simpa [hen] using hseen
    · rw [List.getElem?_modify_ne _ _ hi] at hm
      exact h.index i m hm hmp

/-- An info of a new merged name starts an entry at the end. -/
theorem step_new (h : MergeInv P st) (ha : a.ForPrebuiltApex = false)
    (hseen : GoMap.get? st.seen a.mergedName = none) :
    MergeInv (P ++ [a])
      { merged := st.merged ++ [newEntry a]
        aliases := st.aliases ++ [(a.ApexVariationName, a.mergedName)]
        seen := GoMap.set st.seen a.mergedName st.merged.length } := by
  refine ⟨?_, ?_, ?_, ?_, ?_⟩
  · rw [aliasesOf_append_of_not_prebuilt ha, h.aliases]
  · simp [List.filter_append, h.prebuilt, ha]
  · intro n hn
    have hne : n ≠ a.mergedName := by rintro rfl; simp [GoMap.get?_set_self] at hn
    rw [GoMap.get?_set_of_ne _ _ hne] at hn
    rw [groupOf_append_of_ne (Ne.symm hne)]
    exact h.unseen n hn
  · intro n index hn
    by_cases hne : n = a.mergedName
    · -- the group of `a` is `a` alone
      subst hne
      rw [GoMap.get?_set_self] at hn
      cases hn
      refine ⟨a, [], by rw [groupOf_append_self ha, h.unseen _ hseen]; rfl, ?_⟩
      simp
    · rw [GoMap.get?_set_of_ne _ _ hne] at hn
      obtain ⟨b, G, hG, he⟩ := h.seen n index hn
      refine ⟨b, G, by rw [groupOf_append_of_ne (Ne.symm hne), hG], ?_⟩
      rw [List.getElem?_append_left (List.getElem?_eq_some_iff.mp he).1, he]
  · intro i m hm hmp
    rcases Slice.getElem?_append_singleton_eq_some.mp hm with hm | ⟨rfl, rfl⟩
    · have hold := h.index i m hm hmp
      have hne : m.ApexVariationName ≠ a.mergedName := by
        intro heq
        rw [heq, hseen] at hold
        cases hold
      rw [GoMap.get?_set_of_ne _ _ hne]
      exact hold
    · simp [GoMap.get?_set_self]

/-- **One pass of the loop keeps the invariant.** -/
theorem mergeStep (h : MergeInv P st) (a : ApexInfo C) : MergeInv (P ++ [a]) (mergeStep st a) := by
  unfold Soong.mergeStep
  by_cases ha : a.ForPrebuiltApex = true
  · rw [if_pos ha]
    exact h.step_prebuilt ha
  · have ha : a.ForPrebuiltApex = false := by simpa using ha
    rw [if_neg (by simp [ha])]
    dsimp only
    split
    · next index hseen => exact h.step_seen ha hseen
    · next hseen => exact h.step_new ha hseen

/-- The loop keeps the invariant over the infos it passes. -/
theorem foldl (h : MergeInv P st) (L : List (ApexInfo C)) :
    MergeInv (P ++ L) (L.foldl Soong.mergeStep st) := by
  induction L generalizing P st with
  | nil => simpa using h
  | cons a L ih =>
    rw [List.foldl_cons, List.append_cons]
    exact ih (h.mergeStep a)

/-- A merged name with a group names one entry, the group's, when no prebuilt
info carries that name. -/
theorem merged_filter_name (h : MergeInv P st) {n : String} {b : ApexInfo C}
    {G : List (ApexInfo C)} (hG : groupOf P n = b :: G)
    (hpre : ∀ c ∈ P, c.ForPrebuiltApex = true → c.ApexVariationName ≠ n) :
    st.merged.filter (fun m => m.ApexVariationName == n) = [G.foldl mergeInto (newEntry b)] := by
  cases hs : GoMap.get? st.seen n with
  | none => rw [h.unseen n hs] at hG; cases hG
  | some index =>
    obtain ⟨b', G', hG', he⟩ := h.seen n index hs
    rw [hG] at hG'
    obtain ⟨rfl, rfl⟩ := List.cons.inj hG'
    obtain ⟨e, he', hen, -⟩ := h.entry_of_seen hs
    rw [he] at he'
    cases he'
    refine Slice.filter_eq_singleton_of_getElem? he (by simp [hen]) fun i m hm hmn => ?_
    have hmn : m.ApexVariationName = n := by simpa using hmn
    cases hmp : m.ForPrebuiltApex
    · -- an entry not for a prebuilt sits where `seen` says
      have hi := h.index i m hm hmp
      rw [hmn, hs] at hi
      exact (Option.some.inj hi).symm
    · -- an entry for a prebuilt is an info of `P`, which no prebuilt names `n`
      have hm' : m ∈ st.merged.filter (·.ForPrebuiltApex) :=
        List.mem_filter.mpr ⟨List.mem_of_getElem? hm, hmp⟩
      rw [h.prebuilt] at hm'
      exact absurd hmn (hpre m (List.mem_filter.mp hm').1 hmp)

/-- An entry not for a prebuilt is named by the merged name of an info. -/
theorem exists_of_mem_merged (h : MergeInv P st) {m : ApexInfo C} (hm : m ∈ st.merged)
    (hmp : m.ForPrebuiltApex = false) :
    ∃ a ∈ P, a.ForPrebuiltApex = false ∧ m.ApexVariationName = a.mergedName := by
  obtain ⟨i, hi⟩ := List.mem_iff_getElem?.mp hm
  obtain ⟨b, G, hG, -⟩ := h.seen _ _ (h.index i m hi hmp)
  have hb : b ∈ groupOf P m.ApexVariationName := by rw [hG]; exact List.mem_cons_self
  obtain ⟨hbP, hbp, hbn⟩ := mem_groupOf.mp hb
  exact ⟨b, hbP, hbp, hbn.symm⟩

end MergeInv

/-! ### `mergeApexVariations` -/

theorem mergeInv_mergeApexVariations (apexInfos : List (ApexInfo C)) :
    MergeInv (sort.«Sort» apexInfos byApexName)
      ((sort.«Sort» apexInfos byApexName).foldl mergeStep ⟨[], [], []⟩) := by
  simpa using mergeInv_nil.foldl (sort.«Sort» apexInfos byApexName)

/-- Sorting by name keeps the infos and, their names being distinct, orders
them strictly by name. -/
theorem Sort_byApexName {apexInfos : List (ApexInfo C)}
    (hnames : (apexInfos.map (·.ApexVariationName)).Nodup) :
    (sort.«Sort» apexInfos byApexName).Perm apexInfos ∧
      (sort.«Sort» apexInfos byApexName).Pairwise
        fun a b => a.ApexVariationName < b.ApexVariationName := by
  refine ⟨sort.SliceStable_perm _ _, ?_⟩
  have h := sort.pairwise_SliceStable_key sort.strictTotalOrder_decide_lt
    (fun a : ApexInfo C => a.ApexVariationName) hnames
  exact h.imp of_decide_eq_true

/-- In infos of distinct names, the name of one not for a prebuilt picks its
alias alone. -/
theorem aliasesOf_filter_name {l : List (ApexInfo C)} (hl : (l.map (·.ApexVariationName)).Nodup)
    {a : ApexInfo C} (ha : a ∈ l) (hap : a.ForPrebuiltApex = false) :
    (aliasesOf l).filter (fun al => al.1 == a.ApexVariationName) =
      [(a.ApexVariationName, a.mergedName)] := by
  have hnd : ((l.filter fun b => !b.ForPrebuiltApex).map (·.ApexVariationName)).Nodup :=
    List.Nodup.sublist (List.filter_sublist.map _) hl
  have hkey := Slice.filter_key_eq_singleton hnd (List.mem_filter.mpr ⟨ha, by simp [hap]⟩)
  unfold aliasesOf
  rw [List.filter_map]
  simp only [Function.comp_def]
  rw [hkey, List.map_singleton]

/-- The merged entry of a group whose infos list their own names: every list is
the concatenation of the group's lists, `Updatable` their or, `UsePlatformApis`
their and. -/
theorem groupEntry_fields {b : ApexInfo C} {G : List (ApexInfo C)}
    (hvariants : ∀ c ∈ b :: G, c.InApexVariants = [c.ApexVariationName]) :
    let e := G.foldl mergeInto (newEntry b)
    e.InApexVariants = (b :: G).flatMap (·.InApexVariants) ∧
    e.InApexModules = (b :: G).flatMap (·.InApexModules) ∧
    e.ApexContents = (b :: G).flatMap (·.ApexContents) ∧
    e.Updatable = (b :: G).any (·.Updatable) ∧
    e.UsePlatformApis = (b :: G).all (·.UsePlatformApis) := by
  have hv : (b :: G).flatMap (·.InApexVariants) = (b :: G).map (·.ApexVariationName) := by
    rw [List.flatMap_congr hvariants, ← List.map_eq_flatMap]
  rw [hv, foldl_mergeInto]
  simp [newEntry, CopyOf, hvariants b List.mem_cons_self]

/-- `mergeApexVariations` on infos of distinct names, those not for a prebuilt
listing their own names and no prebuilt one named like a merged name: the infos
are sorted by name; each not for a prebuilt has one alias, to its merged name;
that name names one entry, whose lists are the concatenations of those of the
infos aliased to it, in name order, whose flags are their or and and, and all
of whose infos have one level; the prebuilt infos are kept as they are; and
every other entry is a merged name's. -/
theorem mergeApexVariations_merges_by_level (apexInfos : List (ApexInfo C))
    (hnames : (apexInfos.map (·.ApexVariationName)).Nodup)
    (hvariants : ∀ a ∈ apexInfos, a.ForPrebuiltApex = false →
      a.InApexVariants = [a.ApexVariationName])
    (hprebuilt : ∀ a ∈ apexInfos, ∀ b ∈ apexInfos, a.ForPrebuiltApex = true →
      b.ForPrebuiltApex = false → a.ApexVariationName ≠ b.mergedName) :
    let sorted := sort.«Sort» apexInfos byApexName
    let merged := (mergeApexVariations apexInfos).1
    let aliases := (mergeApexVariations apexInfos).2
    sorted.Perm apexInfos ∧
    sorted.Pairwise (fun a b => a.ApexVariationName < b.ApexVariationName) ∧
    aliases = aliasesOf sorted ∧
    (∀ a ∈ apexInfos, a.ForPrebuiltApex = false →
      aliases.filter (fun al => al.1 == a.ApexVariationName) =
        [(a.ApexVariationName, a.mergedName)] ∧
      ∃ e, merged.filter (fun m => m.ApexVariationName == a.mergedName) = [e] ∧
        let G := groupOf sorted a.mergedName
        e.InApexVariants = G.flatMap (·.InApexVariants) ∧
        e.InApexModules = G.flatMap (·.InApexModules) ∧
        e.ApexContents = G.flatMap (·.ApexContents) ∧
        e.Updatable = G.any (·.Updatable) ∧
        e.UsePlatformApis = G.all (·.UsePlatformApis) ∧
        ∀ b ∈ G, b.MinSdkVersion.FinalOrFutureInt = a.MinSdkVersion.FinalOrFutureInt) ∧
    merged.filter (·.ForPrebuiltApex) = sorted.filter (·.ForPrebuiltApex) ∧
    ∀ m ∈ merged, m.ForPrebuiltApex = false →
      ∃ a ∈ apexInfos, a.ForPrebuiltApex = false ∧ m.ApexVariationName = a.mergedName := by
  intro sorted merged aliases
  obtain ⟨hperm, hsorted⟩ := Sort_byApexName hnames
  have hinv : MergeInv sorted (sorted.foldl mergeStep ⟨[], [], []⟩) :=
    mergeInv_mergeApexVariations apexInfos
  have haliases : aliases = aliasesOf sorted := hinv.aliases
  have hsnames : (sorted.map (·.ApexVariationName)).Nodup := (hperm.map _).nodup_iff.mpr hnames
  refine ⟨hperm, hsorted, haliases, ?_, hinv.prebuilt, ?_⟩
  · intro a ha hap
    have has : a ∈ sorted := hperm.mem_iff.mpr ha
    refine ⟨haliases ▸ aliasesOf_filter_name hsnames has hap, ?_⟩
    -- the group of `a` holds `a`, so it has a first info
    obtain ⟨b, G, hG⟩ : ∃ b G, groupOf sorted a.mergedName = b :: G :=
      List.exists_cons_of_ne_nil (List.ne_nil_of_mem (mem_groupOf.mpr ⟨has, hap, rfl⟩))
    have hmemG : ∀ c ∈ groupOf sorted a.mergedName, c ∈ apexInfos ∧ c.ForPrebuiltApex = false ∧
        c.mergedName = a.mergedName := fun c hc => by
      obtain ⟨hcs, hcp, hcn⟩ := mem_groupOf.mp hc
      exact ⟨hperm.mem_iff.mp hcs, hcp, hcn⟩
    have hpre : ∀ c ∈ sorted, c.ForPrebuiltApex = true → c.ApexVariationName ≠ a.mergedName :=
      fun c hc hcp => hprebuilt c (hperm.mem_iff.mp hc) a ha hcp hap
    refine ⟨_, hinv.merged_filter_name hG hpre, ?_⟩
    obtain ⟨hv, hm, hc, hu, hp⟩ := groupEntry_fields (b := b) (G := G) fun c hc => by
      rw [← hG] at hc
      obtain ⟨hca, hcp, -⟩ := hmemG c hc
      exact hvariants c hca hcp
    refine ⟨hG ▸ hv, hG ▸ hm, hG ▸ hc, hG ▸ hu, hG ▸ hp, fun c hc => ?_⟩
    exact ApexInfo.mergedName_eq_iff.mp (hmemG c hc).2.2
  · intro m hm hmp
    obtain ⟨b, hb, hbp, hbn⟩ := hinv.exists_of_mem_merged hm hmp
    exact ⟨b, hperm.mem_iff.mp hb, hbp, hbn⟩

/-- The API level 29. -/
def apiLevel29 : ApiLevel := ⟨"29", 29, false⟩

/-- Two variations at level 29, a third at level 30 and a prebuilt. -/
def apexesAtTwoLevels : List (ApexInfo Unit) :=
  [⟨"com.android.tethering", apiLevel29, true, false, ["com.android.tethering"],
      ["com.android.tethering"], [()], false⟩,
    ⟨"com.android.media", apiLevel29, false, false, ["com.android.media"],
      ["com.android.media"], [()], false⟩,
    ⟨"com.android.art", ⟨"30", 30, false⟩, true, false, ["com.android.art"],
      ["com.android.art"], [()], false⟩,
    ⟨"com.android.wifi", apiLevel29, true, false, ["com.android.wifi"],
      ["com.android.wifi"], [], true⟩]

theorem mergeApexVariations_merges_by_level_apexesAtTwoLevels :
    (apexesAtTwoLevels.map (·.ApexVariationName)).Nodup ∧
    (∀ a ∈ apexesAtTwoLevels, a.ForPrebuiltApex = false →
      a.InApexVariants = [a.ApexVariationName]) ∧
    (∀ a ∈ apexesAtTwoLevels, ∀ b ∈ apexesAtTwoLevels, a.ForPrebuiltApex = true →
      b.ForPrebuiltApex = false → a.ApexVariationName ≠ b.mergedName) ∧
    let sorted := sort.«Sort» apexesAtTwoLevels byApexName
    let merged := (mergeApexVariations apexesAtTwoLevels).1
    let aliases := (mergeApexVariations apexesAtTwoLevels).2
    sorted.Perm apexesAtTwoLevels ∧
    sorted.Pairwise (fun a b => a.ApexVariationName < b.ApexVariationName) ∧
    aliases = aliasesOf sorted ∧
    (∀ a ∈ apexesAtTwoLevels, a.ForPrebuiltApex = false →
      aliases.filter (fun al => al.1 == a.ApexVariationName) =
        [(a.ApexVariationName, a.mergedName)] ∧
      ∃ e, merged.filter (fun m => m.ApexVariationName == a.mergedName) = [e] ∧
        let G := groupOf sorted a.mergedName
        e.InApexVariants = G.flatMap (·.InApexVariants) ∧
        e.InApexModules = G.flatMap (·.InApexModules) ∧
        e.ApexContents = G.flatMap (·.ApexContents) ∧
        e.Updatable = G.any (·.Updatable) ∧
        e.UsePlatformApis = G.all (·.UsePlatformApis) ∧
        ∀ b ∈ G, b.MinSdkVersion.FinalOrFutureInt = a.MinSdkVersion.FinalOrFutureInt) ∧
    merged.filter (·.ForPrebuiltApex) = sorted.filter (·.ForPrebuiltApex) ∧
    ∀ m ∈ merged, m.ForPrebuiltApex = false →
      ∃ a ∈ apexesAtTwoLevels, a.ForPrebuiltApex = false ∧ m.ApexVariationName = a.mergedName :=
  ⟨by decide, by decide, by decide,
    mergeApexVariations_merges_by_level apexesAtTwoLevels (by decide) (by decide) (by decide)⟩

/-- Two variations at level 29 that list other names besides their own, and a
prebuilt info named `apex29` beside a variation at level 29.  The first merge
lists `b` but not `y`; the second has two entries named `apex29`. -/
def variantsListingOthers : List (ApexInfo Unit) :=
  [⟨"a", apiLevel29, false, false, ["a", "x"], ["a"], [], false⟩,
    ⟨"b", apiLevel29, false, false, ["b", "y"], ["b"], [], false⟩]

/-- A prebuilt info named like the merged name of a variation. -/
def prebuiltNamedApex29 : List (ApexInfo Unit) :=
  [⟨"apex29", apiLevel29, false, false, ["apex29"], ["apex29"], [], true⟩,
    ⟨"n", apiLevel29, false, false, ["n"], ["n"], [], false⟩]

theorem mergeApexVariations_two_variants :
    (mergeApexVariations variantsListingOthers).1.map (·.InApexVariants) = [["a", "x", "b"]] ∧
    (mergeApexVariations prebuiltNamedApex29).1.map (·.ApexVariationName) =
      ["apex29", "apex29"] := by
  decide

end Soong
