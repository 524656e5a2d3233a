import Soong.Lib.Dedup
import Soong.Lib.GoMap
import Soong.Lib.GoPath
import Soong.Android.Util

/-!
# Class loader contexts

`dexpreopt/class_loader_context.go`.  A class loader context (CLC) names a
library, its paths and the contexts of the libraries it uses in turn; a
`ClassLoaderContextMap` keeps a list of them for each SDK version, the
unconditional ones under `AnySdkVersion`.

Contexts are pointers in Go, and one context may hang below several others.
The functions modelled never write through such a pointer: `excludeLibs`
copies a context before it changes its subcontexts, and `addContext` and
`AddContextMap` only append to the lists of the map they are called on.  So
contexts are values here, and a list shared in Go is the same value twice.

## Main definitions

* `ClassLoaderContext`, `ClassLoaderContextMap`, `AnySdkVersion`.
* `ClassLoaderContext.excludeLibs`, `excludeLibsFromCLCList`,
  `ClassLoaderContextMap.ExcludeLibs` — copy-on-exclusion.
* `ClassLoaderContextMap.addContext`, `AddContext`, `AddContextMap`.
* `ClassLoaderContext.without`, `mentions` — what exclusion is meant to do.

## Main results

* `excludeLibs_eq` — `excludeLibs` is `without`, flagged by `mentions`.
* `ExcludeLibs_eq` — the map is copied exactly when a list mentions an excluded
  library, and then every list is cut down and the empty ones dropped.
* `Built.inv` — the maps that runs of `AddContext` and `AddContextMap` build
  keep distinct names in each list and unconditional subcontexts;
  `AddContext_of_mem` — adding a name a list holds changes nothing.
-/

namespace Soong

/-- `android.RemoveOptionalPrebuiltPrefix`. -/
def RemoveOptionalPrebuiltPrefix (name : String) : String := strings.TrimPrefix name "prebuilt_"

namespace dexpreopt

/-- `ClassLoaderContext`.  `Host` is an `android.Path`, an interface that may be
nil and is compared with `==`: a value of a type with decidable equality, or
`none`. -/
structure ClassLoaderContext (Path : Type) where
  Name : String
  Optional : Bool
  Implicit : Bool
  Host : Option Path
  Device : String
  Subcontexts : List (ClassLoaderContext Path)

/-- `ClassLoaderContextMap`: the contexts for each SDK version. -/
abbrev ClassLoaderContextMap (Path : Type) := List (ℤ × List (ClassLoaderContext Path))

/-- `AnySdkVersion`, `android.FutureApiLevelInt`. -/
def AnySdkVersion : ℤ := 10000

/-- `UnknownInstallLibraryPath`. -/
def UnknownInstallLibraryPath : String := "error"

def OrgApacheHttpLegacy : String := "org.apache.http.legacy"
def AndroidTestBase : String := "android.test.base"
def AndroidTestMock : String := "android.test.mock"
def AndroidHidlBase : String := "android.hidl.base-V1.0-java"
def AndroidHidlManager : String := "android.hidl.manager-V1.0-java"

def OptionalCompatUsesLibs28 : List String := [OrgApacheHttpLegacy]
def OptionalCompatUsesLibs30 : List String := [AndroidTestBase, AndroidTestMock]
def CompatUsesLibs29 : List String := [AndroidHidlManager, AndroidHidlBase]
def OptionalCompatUsesLibs : List String := OptionalCompatUsesLibs28 ++ OptionalCompatUsesLibs30
def CompatUsesLibs : List String := CompatUsesLibs29

variable {Path : Type}

/-! ### Excluding libraries -/

namespace ClassLoaderContext

mutual

/-- `excludeLibs`: `(nil, true)` for an excluded context, a copy with new
subcontexts and `true` when one below it is excluded, and the context itself
with `false` otherwise. -/
def excludeLibs (excludedLibs : List String) :
    ClassLoaderContext Path → Option (ClassLoaderContext Path) × Bool
  | c@⟨name, _, _, _, _, subcontexts⟩ =>
    if InList name excludedLibs then (none, true)
    else match excludeLibsFromCLCListLoop subcontexts excludedLibs [] false subcontexts with
      | (excludedList, true) => (some { c with Subcontexts := excludedList }, true)
      | (_, false) => (some c, false)

/-- The loop of `excludeLibsFromCLCList` over the contexts left, with the copy
and the flag so far; `clcList` is the list it was called on. -/
def excludeLibsFromCLCListLoop (clcList : List (ClassLoaderContext Path))
    (excludedLibs : List String) (copiedList : List (ClassLoaderContext Path))
    (modifiedList : Bool) : List (ClassLoaderContext Path) → List (ClassLoaderContext Path) × Bool
  | [] => if modifiedList then (copiedList, true) else (clcList, false)
  | clc :: rest =>
    match excludeLibs excludedLibs clc with
    | (resultClc, modifiedClc) =>
      excludeLibsFromCLCListLoop clcList excludedLibs (copiedList ++ resultClc.toList)
        (modifiedList || modifiedClc) rest

end

end ClassLoaderContext

open ClassLoaderContext

/-- `excludeLibsFromCLCList`: a copy without the excluded contexts and `true`
when one of them is excluded or changed, the list itself and `false`
otherwise. -/
def excludeLibsFromCLCList (clcList : List (ClassLoaderContext Path)) (excludedLibs : List String) :
    List (ClassLoaderContext Path) × Bool :=
  excludeLibsFromCLCListLoop clcList excludedLibs [] false clcList

/-- `ClassLoaderContextMap.ExcludeLibs`: every list cut down, the empty ones
left out, when some list changes; the map itself otherwise. -/
def ClassLoaderContextMap.ExcludeLibs (clcMap : ClassLoaderContextMap Path)
    (excludedLibs : List String) : ClassLoaderContextMap Path :=
  if excludedLibs.length = 0 then clcMap
  else
    let (excludedClcMap, modifiedMap) := clcMap.foldl
      (fun (acc : ClassLoaderContextMap Path × Bool) (entry : ℤ × List (ClassLoaderContext Path)) =>
        let (excludedList, modifiedList) := excludeLibsFromCLCList entry.2 excludedLibs
        (if excludedList.length ≠ 0 then GoMap.set acc.1 entry.1 excludedList else acc.1,
          acc.2 || modifiedList))
      ([], false)
    if modifiedMap then excludedClcMap else clcMap

/-! ### What exclusion removes -/

namespace ClassLoaderContext

mutual

/-- The context with every context named in `L` taken out from below it, its
subtree with it; `none` when it is named itself. -/
def without (L : List String) : ClassLoaderContext Path → Option (ClassLoaderContext Path)
  | ⟨name, optional, implicit, host, device, subcontexts⟩ =>
    if name ∈ L then none else some ⟨name, optional, implicit, host, device, withoutList L subcontexts⟩

/-- `without` over a list, the contexts named in `L` dropped. -/
def withoutList (L : List String) : List (ClassLoaderContext Path) → List (ClassLoaderContext Path)
  | [] => []
  | c :: cs => (without L c).toList ++ withoutList L cs

end

mutual

/-- Some context of the tree is named in `L`. -/
def mentions (L : List String) : ClassLoaderContext Path → Bool
  | ⟨name, _, _, _, _, subcontexts⟩ => decide (name ∈ L) || mentionsList L subcontexts

/-- Some context of the trees of a list is named in `L`. -/
def mentionsList (L : List String) : List (ClassLoaderContext Path) → Bool
  | [] => false
  | c :: cs => mentions L c || mentionsList L cs

end

variable (L : List String)

mutual

/-- A tree that mentions no name of `L` is left whole. -/
theorem without_of_mentions_eq_false :
    (c : ClassLoaderContext Path) → mentions L c = false → without L c = some c
  | ⟨name, optional, implicit, host, device, subcontexts⟩, h => by
    simp only [mentions, Bool.or_eq_false_iff, decide_eq_false_iff_not] at h
    rw [without, if_neg h.1, withoutList_of_mentionsList_eq_false subcontexts h.2]

theorem withoutList_of_mentionsList_eq_false :
    (l : List (ClassLoaderContext Path)) → mentionsList L l = false → withoutList L l = l
  | [], _ => rfl
  | c :: cs, h => by
    simp only [mentionsList, Bool.or_eq_false_iff] at h
    rw [withoutList, without_of_mentions_eq_false c h.1,
      withoutList_of_mentionsList_eq_false cs h.2]
    rfl

end

mutual

/-- **`excludeLibs` is `without`, and it reports a change exactly when the tree
mentions an excluded library.** -/
theorem excludeLibs_eq : (c : ClassLoaderContext Path) → excludeLibs L c = (without L c, mentions L c)
  | ⟨name, optional, implicit, host, device, subcontexts⟩ => by
    rw [excludeLibs, excludeLibsFromCLCListLoop_eq, without, mentions]
    by_cases hname : name ∈ L
    · simp [InList, hname]
    · cases hsub : mentionsList L subcontexts
      -- nothing below is excluded: the context itself comes back
      · simp [InList, hname, withoutList_of_mentionsList_eq_false L subcontexts hsub]
      · simp [InList, hname]

/-- The loop of `excludeLibsFromCLCList` appends what `without` keeps, and
flags a change once a tree mentions an excluded library. -/
theorem excludeLibsFromCLCListLoop_eq (clcList copiedList : List (ClassLoaderContext Path))
    (modifiedList : Bool) :
    (l : List (ClassLoaderContext Path)) →
      excludeLibsFromCLCListLoop clcList L copiedList modifiedList l =
        if modifiedList || mentionsList L l then (copiedList ++ withoutList L l, true)
        else (clcList, false)
  | [] => by simp [excludeLibsFromCLCListLoop, mentionsList, withoutList]
  | c :: cs => by
    rw [excludeLibsFromCLCListLoop, excludeLibs_eq c]
    dsimp only
    rw [excludeLibsFromCLCListLoop_eq clcList _ _ cs, mentionsList, withoutList, Bool.or_assoc,
      List.append_assoc]

end

end ClassLoaderContext

open ClassLoaderContext

theorem excludeLibsFromCLCList_eq (l : List (ClassLoaderContext Path)) (L : List String) :
    excludeLibsFromCLCList l L = (withoutList L l, mentionsList L l) := by
  rw [excludeLibsFromCLCList, excludeLibsFromCLCListLoop_eq, Bool.false_or, List.nil_append]
  cases h : mentionsList L l
  · simp [withoutList_of_mentionsList_eq_false L l h]
  · rfl

namespace ClassLoaderContextMap

/-- Exclusion over a whole map: every list cut down by `withoutList`, the lists
left empty dropped, in the map's order. -/
def withoutLibs (L : List String) (m : ClassLoaderContextMap Path) : ClassLoaderContextMap Path :=
  m.filterMap fun e => if (withoutList L e.2).isEmpty then none else some (e.1, withoutList L e.2)

/-- Some list of the map mentions a name of `L`. -/
def mentionsLibs (L : List String) (m : ClassLoaderContextMap Path) : Bool :=
  m.any fun e => mentionsList L e.2

/-- The loop of `ExcludeLibs` from any point: the lists done so far are kept,
the rest are cut down, and the flag is raised by any list that mentions an
excluded library. -/
theorem foldl_excludeLibs (L : List String) (m : ClassLoaderContextMap Path)
    (hm : (GoMap.keys m).Nodup) (acc : ClassLoaderContextMap Path) (b : Bool)
    (hacc : ∀ k ∈ GoMap.keys acc, k ∉ GoMap.keys m) :
    m.foldl
      (fun (acc : ClassLoaderContextMap Path × Bool) (entry : ℤ × List (ClassLoaderContext Path)) =>
        let (excludedList, modifiedList) := excludeLibsFromCLCList entry.2 L
        (if excludedList.length ≠ 0 then GoMap.set acc.1 entry.1 excludedList else acc.1,
          acc.2 || modifiedList))
      (acc, b) =
      (acc ++ withoutLibs L m, b || mentionsLibs L m) := by
  induction m generalizing acc b with
  | nil => simp [withoutLibs, mentionsLibs]
  | cons e m ih =>
    obtain ⟨k, l⟩ := e
    simp only [GoMap.keys, List.map_cons, List.nodup_cons] at hm
    have hk : k ∉ GoMap.keys acc := fun hk => hacc k hk (List.mem_cons_self)
    have hacc' : ∀ k' ∈ GoMap.keys acc, k' ∉ GoMap.keys m :=
      fun k' hk' hm' => hacc k' hk' (List.mem_cons_of_mem _ hm')
    rw [List.foldl_cons, excludeLibsFromCLCList_eq]
    by_cases hempty : withoutList L l = []
    · simp only [hempty, List.length_nil, ne_eq, not_true_eq_false, if_false]
      rw [ih hm.2 acc _ hacc']
      simp [withoutLibs, mentionsLibs, hempty, Bool.or_assoc]
    · have hlen : (withoutList L l).length ≠ 0 := by simpa using hempty
      simp only [hlen, ne_eq, not_false_eq_true, if_true]
      rw [GoMap.set_of_get?_eq_none _ (GoMap.get?_eq_none_of_not_mem_keys hk)]
      rw [ih hm.2 _ _ ?_]
      · simp [withoutLibs, mentionsLibs, hempty, Bool.or_assoc]
      · intro k' hk'
        simp only [GoMap.keys, List.map_append, List.mem_append, List.map_cons, List.map_nil,
          List.mem_singleton] at hk'
        rcases hk' with hk' | rfl
        · exact hacc' k' hk'
        · exact hm.1

/-- **`ExcludeLibs` copies the map exactly when one of its lists mentions an
excluded library, and the copy has every list cut down and the empty ones
dropped.** -/
theorem ExcludeLibs_eq (m : ClassLoaderContextMap Path) (hm : (GoMap.keys m).Nodup)
    {L : List String} (hL : L ≠ []) :
    ExcludeLibs m L = if mentionsLibs L m then withoutLibs L m else m := by
  have hlen : L.length ≠ 0 := by simpa using hL
  rw [ExcludeLibs, if_neg hlen]
  simp only
  rw [foldl_excludeLibs L m hm [] false (by simp [GoMap.keys]), List.nil_append, Bool.false_or]

/-- A map none of whose lists is empty or mentions a name of `L` is its own
exclusion. -/
theorem withoutLibs_of_mentionsLibs_eq_false {L : List String} {m : ClassLoaderContextMap Path}
    (hne : ∀ e ∈ m, e.2 ≠ []) (h : mentionsLibs L m = false) : withoutLibs L m = m := by
  induction m with
  | nil => rfl
  | cons e m ih =>
    simp only [mentionsLibs, List.any_cons, Bool.or_eq_false_iff] at h
    have hl : withoutList L e.2 = e.2 := withoutList_of_mentionsList_eq_false L e.2 h.1
    rw [withoutLibs, List.filterMap_cons, hl, if_neg (by simpa using hne e List.mem_cons_self)]
    rw [withoutLibs] at ih
    rw [ih (fun e' he' => hne e' (List.mem_cons_of_mem e he')) h.2]

/-- In a map without empty lists, `ExcludeLibs` is `withoutLibs`, whether it
copies the map or not. -/
theorem ExcludeLibs_eq_withoutLibs_of_ne_nil {m : ClassLoaderContextMap Path} {L : List String}
    (hm : (GoMap.keys m).Nodup) (hne : ∀ e ∈ m, e.2 ≠ []) (hL : L ≠ []) :
    ExcludeLibs m L = withoutLibs L m := by
  rw [ExcludeLibs_eq m hm hL]
  cases h : mentionsLibs L m
  · simp [withoutLibs_of_mentionsLibs_eq_false hne h]
  · rfl

theorem ExcludeLibs_eq_withoutLibs (m : ClassLoaderContextMap Path) (L : List String) (hL : L ≠ [])
    (hm : (GoMap.keys m).Nodup) (hne : ∀ e ∈ m, e.2 ≠ []) :
    ExcludeLibs m L = withoutLibs L m ∧ (mentionsLibs L m = false → ExcludeLibs m L = m) := by
  refine ⟨ExcludeLibs_eq_withoutLibs_of_ne_nil hm hne hL, fun h => ?_⟩
  rw [ExcludeLibs_eq m hm hL, h]
  rfl

/-- A context named `A`, without paths or subcontexts. -/
def ctxA : ClassLoaderContext Unit := ⟨"A", false, false, none, UnknownInstallLibraryPath, []⟩

/-- An empty list under SDK version 28 is dropped when `A` is excluded from
another list of the map, and kept when nothing is excluded. -/
theorem ExcludeLibs_drops_empty_list :
    ExcludeLibs [(28, []), (AnySdkVersion, [ctxA])] ["A"] = [] ∧
      ExcludeLibs ([(28, [])] : ClassLoaderContextMap Unit) ["A"] = [(28, [])] :=
  ⟨rfl, rfl⟩

/-- The unconditional context `A` alone. -/
def ctxAMap : ClassLoaderContextMap Unit := [(AnySdkVersion, [ctxA])]

theorem ExcludeLibs_eq_withoutLibs_ctxAMap :
    ["A"] ≠ [] ∧ (GoMap.keys ctxAMap).Nodup ∧ (∀ e ∈ ctxAMap, e.2 ≠ []) ∧
      ExcludeLibs ctxAMap ["A"] = withoutLibs ["A"] ctxAMap ∧
      (mentionsLibs ["A"] ctxAMap = false → ExcludeLibs ctxAMap ["A"] = ctxAMap) :=
  have hkeys : (GoMap.keys ctxAMap).Nodup := by simp [ctxAMap, GoMap.keys]
  have hne : ∀ e ∈ ctxAMap, e.2 ≠ [] := by simp [ctxAMap]
  ⟨by simp, hkeys, hne, ExcludeLibs_eq_withoutLibs ctxAMap ["A"] (by simp) hkeys hne⟩

/-! ### Adding contexts -/

section addContext

variable {InstallPath : Type} [DecidableEq Path]
  (PathForModuleInstall : List String → InstallPath)
  (InstallPathToOnDevicePath : InstallPath → String)
  (ComputeClassLoaderContext : ClassLoaderContextMap Path → String)

/-- The on-device path `addContext` records: that of the install path; for a
compatibility library without one, that of its jar in `framework`; and
`UnknownInstallLibraryPath` otherwise. -/
def installDevicePath (lib : String) (installPath : Option InstallPath) : String :=
  let installPath := match installPath with
    | none =>
      if InList lib CompatUsesLibs || InList lib OptionalCompatUsesLibs then
        some (PathForModuleInstall ["framework", lib ++ ".jar"])
      else none
    | some installPath => some installPath
  match installPath with
  | some installPath => InstallPathToOnDevicePath installPath
  | none => UnknownInstallLibraryPath

/-- `addContext`: the context of `lib` appended to the list of `sdkVer`, the
nested map's unconditional contexts below it.  A nested map with a conditional
part is an error, and so is `lib` in the list already with other paths; with
the same paths the map is left as it is. -/
def addContext (clcMap : ClassLoaderContextMap Path) (sdkVer : ℤ) (lib : String)
    (optional implicit : Bool) (hostPath : Option Path) (installPath : Option InstallPath)
    (nestedClcMap : ClassLoaderContextMap Path) : Except String (ClassLoaderContextMap Path) :=
  let lib := RemoveOptionalPrebuiltPrefix lib
  let devicePath := installDevicePath PathForModuleInstall InstallPathToOnDevicePath lib installPath
  if (GoMap.keys nestedClcMap).any (· ≠ AnySdkVersion) then
    .error ("nested class loader context shouldn't have conditional part: " ++
      ComputeClassLoaderContext nestedClcMap)
  else
    let subcontexts := GoMap.getD nestedClcMap AnySdkVersion []
    match (GoMap.getD clcMap sdkVer []).find? (fun clc => decide (clc.Name = lib)) with
    | some clc =>
      if clc.Host = hostPath ∧ clc.Device = devicePath then .ok clcMap
      else .error ("a <uses-library> named " ++ strconv.Quote lib ++
        " is already in class loader context," ++ "but the library paths are different:\t\n")
    | none => .ok (GoMap.set clcMap sdkVer (GoMap.getD clcMap sdkVer [] ++
        [⟨lib, optional, implicit, hostPath, devicePath, subcontexts⟩]))

/-- `AddContext`: `addContext`, its error reported (`ModuleErrorf`) with the map
left as it was. -/
def AddContext (clcMap : ClassLoaderContextMap Path) (sdkVer : ℤ) (lib : String)
    (optional implicit : Bool) (hostPath : Option Path) (installPath : Option InstallPath)
    (nestedClcMap : ClassLoaderContextMap Path) : ClassLoaderContextMap Path × Option String :=
  match addContext PathForModuleInstall InstallPathToOnDevicePath ComputeClassLoaderContext clcMap
      sdkVer lib optional implicit hostPath installPath nestedClcMap with
  | .ok clcMap => (clcMap, none)
  | .error err => (clcMap, some err)

end addContext

/-- `AddContextMap`: the other map's contexts appended to this one's lists,
each unless a context of its name is there already, and nothing at all when
`implicitRootLib` is an unconditional context already.  A nil other map adds
nothing, as an empty one does. -/
def AddContextMap (clcMap otherClcMap : ClassLoaderContextMap Path) (implicitRootLib : String) :
    ClassLoaderContextMap Path :=
  if (GoMap.getD clcMap AnySdkVersion []).any (fun clc => decide (clc.Name = implicitRootLib)) then
    clcMap
  else
    otherClcMap.foldl
      (fun clcMap (entry : ℤ × List (ClassLoaderContext Path)) =>
        entry.2.foldl
          (fun clcMap otherClc =>
            if (GoMap.getD clcMap entry.1 []).any (fun clc => decide (clc.Name = otherClc.Name)) then
              clcMap
            else GoMap.set clcMap entry.1 (GoMap.getD clcMap entry.1 [] ++ [otherClc]))
          clcMap)
      clcMap

/-! ### Runs of `AddContext` and `AddContextMap` -/

/-- The list of a version, where there is one, is a list of the map. -/
theorem mem_of_mem_getD {m : ClassLoaderContextMap Path} {k : ℤ} {clc : ClassLoaderContext Path}
    (h : clc ∈ GoMap.getD m k []) : ∃ l, (k, l) ∈ m ∧ clc ∈ l := by
  unfold GoMap.getD at h
  cases hk : GoMap.get? m k with
  | none => simp [hk] at h
  | some l =>
    rw [hk, Option.getD_some] at h
    exact ⟨l, GoMap.mem_of_get?_eq_some hk, h⟩


section runs

variable {InstallPath : Type} [DecidableEq Path]
  (PathForModuleInstall : List String → InstallPath)
  (InstallPathToOnDevicePath : InstallPath → String)
  (ComputeClassLoaderContext : ClassLoaderContextMap Path → String)

/-- The maps that runs of `AddContext` and `AddContextMap` build from empty maps,
the nested and the other maps being built the same way. -/
inductive Built : ClassLoaderContextMap Path → Prop
  | empty : Built []
  | ofAddContext {clcMap nestedClcMap : ClassLoaderContextMap Path} (sdkVer : ℤ) (lib : String)
      (optional implicit : Bool) (hostPath : Option Path) (installPath : Option InstallPath) :
      Built clcMap → Built nestedClcMap →
      Built (AddContext PathForModuleInstall InstallPathToOnDevicePath ComputeClassLoaderContext
        clcMap sdkVer lib optional implicit hostPath installPath nestedClcMap).1
  | ofAddContextMap {clcMap otherClcMap : ClassLoaderContextMap Path} (implicitRootLib : String) :
      Built clcMap → Built otherClcMap → Built (AddContextMap clcMap otherClcMap implicitRootLib)

/-- The subcontexts of a context are the unconditional contexts of a built map
that has no conditional part. -/
def NestedUnconditional (clc : ClassLoaderContext Path) : Prop :=
  ∃ n, Built PathForModuleInstall InstallPathToOnDevicePath ComputeClassLoaderContext n ∧
    (∀ k ∈ GoMap.keys n, k = AnySdkVersion) ∧ clc.Subcontexts = GoMap.getD n AnySdkVersion []

/-- What a built map keeps: it is a map, with a non-empty list of contexts of
distinct names for each version, each context's subcontexts unconditional. -/
structure Inv (m : ClassLoaderContextMap Path) : Prop where
  keys_nodup : (GoMap.keys m).Nodup
  ne_nil : ∀ e ∈ m, e.2 ≠ []
  names_nodup : ∀ e ∈ m, (e.2.map ClassLoaderContext.Name).Nodup
  nested : ∀ e ∈ m, ∀ clc ∈ e.2,
    NestedUnconditional PathForModuleInstall InstallPathToOnDevicePath ComputeClassLoaderContext clc

variable {PathForModuleInstall InstallPathToOnDevicePath ComputeClassLoaderContext}

theorem Inv.empty : Inv PathForModuleInstall InstallPathToOnDevicePath ComputeClassLoaderContext [] :=
  ⟨List.nodup_nil, by simp, by simp, by simp⟩

theorem Inv.names_nodup_getD {m : ClassLoaderContextMap Path}
    (hm : Inv PathForModuleInstall InstallPathToOnDevicePath ComputeClassLoaderContext m) (k : ℤ) :
    ((GoMap.getD m k []).map ClassLoaderContext.Name).Nodup := by
  unfold GoMap.getD
  cases hk : GoMap.get? m k with
  | none => simp
  | some l => exact hm.names_nodup _ (GoMap.mem_of_get?_eq_some hk)

/-- **The one step of every run**: a context of a new name with unconditional
subcontexts appended to the list of a version keeps the invariant. -/
theorem Inv.append {m : ClassLoaderContextMap Path}
    (hm : Inv PathForModuleInstall InstallPathToOnDevicePath ComputeClassLoaderContext m) (k : ℤ)
    {clc : ClassLoaderContext Path} (hname : clc.Name ∉ (GoMap.getD m k []).map ClassLoaderContext.Name)
    (hclc : NestedUnconditional PathForModuleInstall InstallPathToOnDevicePath
      ComputeClassLoaderContext clc) :
    Inv PathForModuleInstall InstallPathToOnDevicePath ComputeClassLoaderContext
      (GoMap.set m k (GoMap.getD m k [] ++ [clc])) := by
  refine ⟨GoMap.nodup_keys_set hm.keys_nodup _ _, ?_, ?_, ?_⟩
  · intro e he
    rcases GoMap.mem_set he with he | rfl
    · exact hm.ne_nil e he
    · simp
  · intro e he
    rcases GoMap.mem_set he with he | rfl
    · exact hm.names_nodup e he
    · rw [List.map_append, List.nodup_append]
      refine ⟨hm.names_nodup_getD k, by simp, ?_⟩
      intro a ha b hb hab
      rw [List.map_singleton, List.mem_singleton] at hb
      subst hb
      exact hname (hab ▸ ha)
  · intro e he
    rcases GoMap.mem_set he with he | rfl
    · exact hm.nested e he
    · intro c hc
      rcases List.mem_append.1 hc with hc | hc
      · obtain ⟨l, hl, hcl⟩ := mem_of_mem_getD hc
        exact hm.nested _ hl c hcl
      · rw [List.mem_singleton.1 hc]
        exact hclc

section addContext

variable {sdkVer : ℤ} {lib : String} {optional implicit : Bool} {hostPath : Option Path}
  {installPath : Option InstallPath} {nestedClcMap m m' : ClassLoaderContextMap Path}

/-- What a successful `addContext` does: nothing, or append a context of a new
name whose subcontexts are those of an unconditional nested map. -/
theorem addContext_eq_ok
    (h : addContext PathForModuleInstall InstallPathToOnDevicePath ComputeClassLoaderContext m sdkVer
      lib optional implicit hostPath installPath nestedClcMap = .ok m') :
    m' = m ∨
      ((∀ k ∈ GoMap.keys nestedClcMap, k = AnySdkVersion) ∧
        (GoMap.getD m sdkVer []).find?
          (fun clc => decide (clc.Name = RemoveOptionalPrebuiltPrefix lib)) = none ∧
        m' = GoMap.set m sdkVer (GoMap.getD m sdkVer [] ++
          [⟨RemoveOptionalPrebuiltPrefix lib, optional, implicit, hostPath,
            installDevicePath PathForModuleInstall InstallPathToOnDevicePath
              (RemoveOptionalPrebuiltPrefix lib) installPath,
            GoMap.getD nestedClcMap AnySdkVersion []⟩])) := by
  unfold addContext at h
  dsimp only at h
  split at h
  · cases h
  · rename_i hkeys
    split at h
    · split at h
      · cases h
        exact Or.inl rfl
      · cases h
    · rename_i hfind
      cases h
      refine Or.inr ⟨?_, hfind, rfl⟩
      simpa using hkeys

/-- For a name the list of `sdkVer` holds, `addContext` changes nothing. -/
theorem addContext_eq_ok_of_find?
    {clc : ClassLoaderContext Path}
    (hfind : (GoMap.getD m sdkVer []).find?
      (fun clc => decide (clc.Name = RemoveOptionalPrebuiltPrefix lib)) = some clc)
    (h : addContext PathForModuleInstall InstallPathToOnDevicePath ComputeClassLoaderContext m sdkVer
      lib optional implicit hostPath installPath nestedClcMap = .ok m') : m' = m := by
  rcases addContext_eq_ok h with h | ⟨-, hnone, -⟩
  · exact h
  · rw [hfind] at hnone
    cases hnone

/-- For a name the list of `sdkVer` holds with other paths, `addContext` fails. -/
theorem addContext_error_of_find? {clc : ClassLoaderContext Path}
    (hfind : (GoMap.getD m sdkVer []).find?
      (fun clc => decide (clc.Name = RemoveOptionalPrebuiltPrefix lib)) = some clc)
    (hpaths : ¬(clc.Host = hostPath ∧ clc.Device = installDevicePath PathForModuleInstall
      InstallPathToOnDevicePath (RemoveOptionalPrebuiltPrefix lib) installPath)) :
    ∃ err, addContext PathForModuleInstall InstallPathToOnDevicePath ComputeClassLoaderContext m
      sdkVer lib optional implicit hostPath installPath nestedClcMap = .error err := by
  unfold addContext
  dsimp only
  split
  · exact ⟨_, rfl⟩
  · simp only [hfind]
    rw [if_neg hpaths]
    exact ⟨_, rfl⟩

/-- For a name the list of `sdkVer` holds with the same paths, `addContext`
succeeds when the nested map is unconditional. -/
theorem addContext_eq_ok_self {clc : ClassLoaderContext Path}
    (hfind : (GoMap.getD m sdkVer []).find?
      (fun clc => decide (clc.Name = RemoveOptionalPrebuiltPrefix lib)) = some clc)
    (hpaths : clc.Host = hostPath ∧ clc.Device = installDevicePath PathForModuleInstall
      InstallPathToOnDevicePath (RemoveOptionalPrebuiltPrefix lib) installPath)
    (hnested : ∀ k ∈ GoMap.keys nestedClcMap, k = AnySdkVersion) :
    addContext PathForModuleInstall InstallPathToOnDevicePath ComputeClassLoaderContext m
      sdkVer lib optional implicit hostPath installPath nestedClcMap = .ok m := by
  have hkeys : ¬((GoMap.keys nestedClcMap).any fun k => decide (k ≠ AnySdkVersion)) = true := by
    simpa using hnested
  unfold addContext
  dsimp only
  rw [if_neg hkeys]
  simp only [hfind]
  rw [if_pos hpaths]

/-- `AddContext` keeps the invariant. -/
theorem Inv.AddContext
    (hm : Inv PathForModuleInstall InstallPathToOnDevicePath ComputeClassLoaderContext m)
    (hn : Built PathForModuleInstall InstallPathToOnDevicePath ComputeClassLoaderContext nestedClcMap) :
    Inv PathForModuleInstall InstallPathToOnDevicePath ComputeClassLoaderContext
      (AddContext PathForModuleInstall InstallPathToOnDevicePath ComputeClassLoaderContext m sdkVer
        lib optional implicit hostPath installPath nestedClcMap).1 := by
  unfold ClassLoaderContextMap.AddContext
  split
  · rename_i m' h
    rcases addContext_eq_ok h with rfl | ⟨hkeys, hfind, rfl⟩
    · exact hm
    · refine hm.append sdkVer ?_ ⟨nestedClcMap, hn, hkeys, rfl⟩
      rw [List.find?_eq_none] at hfind
      simpa using fun x hx hname => hfind x hx (by simp [hname])
  · exact hm

end addContext

/-- The inner loop of `AddContextMap` keeps the invariant. -/
theorem Inv.foldl_addOther (k : ℤ) (l : List (ClassLoaderContext Path))
    (hl : ∀ clc ∈ l, NestedUnconditional PathForModuleInstall InstallPathToOnDevicePath
      ComputeClassLoaderContext clc) (acc : ClassLoaderContextMap Path)
    (hacc : Inv PathForModuleInstall InstallPathToOnDevicePath ComputeClassLoaderContext acc) :
    Inv PathForModuleInstall InstallPathToOnDevicePath ComputeClassLoaderContext
      (l.foldl
        (fun clcMap otherClc =>
          if (GoMap.getD clcMap k []).any (fun clc => decide (clc.Name = otherClc.Name)) then clcMap
          else GoMap.set clcMap k (GoMap.getD clcMap k [] ++ [otherClc]))
        acc) := by
  induction l generalizing acc with
  | nil => exact hacc
  | cons clc l ih =>
    rw [List.foldl_cons]
    apply ih (fun c hc => hl c (List.mem_cons_of_mem clc hc))
    split
    · exact hacc
    · rename_i hnew
      refine hacc.append k ?_ (hl clc List.mem_cons_self)
      simpa using hnew

/-- `AddContextMap` keeps the invariant. -/
theorem Inv.AddContextMap {m other : ClassLoaderContextMap Path}
    (hm : Inv PathForModuleInstall InstallPathToOnDevicePath ComputeClassLoaderContext m)
    (ho : Inv PathForModuleInstall InstallPathToOnDevicePath ComputeClassLoaderContext other)
    (implicitRootLib : String) :
    Inv PathForModuleInstall InstallPathToOnDevicePath ComputeClassLoaderContext
      (AddContextMap m other implicitRootLib) := by
  unfold ClassLoaderContextMap.AddContextMap
  split
  · exact hm
  · -- the outer loop, over the versions of the other map
    rename_i hroot
    have hother := ho.nested
    clear ho hroot
    induction other generalizing m with
    | nil => exact hm
    | cons e other ih =>
      rw [List.foldl_cons]
      exact ih (Inv.foldl_addOther e.1 e.2 (hother e List.mem_cons_self) m hm)
        (fun e' he' => hother e' (List.mem_cons_of_mem e he'))

/-- **Every built map keeps the invariant.** -/
theorem Built.inv {m : ClassLoaderContextMap Path}
    (h : Built PathForModuleInstall InstallPathToOnDevicePath ComputeClassLoaderContext m) :
    Inv PathForModuleInstall InstallPathToOnDevicePath ComputeClassLoaderContext m := by
  induction h with
  | empty => exact Inv.empty
  | ofAddContext sdkVer lib optional implicit hostPath installPath _ hn ihm _ =>
    exact ihm.AddContext hn
  | ofAddContextMap implicitRootLib _ _ ihm iho => exact ihm.AddContextMap iho implicitRootLib

/-- In a built map each name is in a list once, so an `AddContext` of a name
the list holds leaves the map as it is: silently when the paths agree and the
nested map is unconditional, with an error when the paths differ. -/
theorem AddContext_of_mem {m : ClassLoaderContextMap Path}
    (hm : Inv PathForModuleInstall InstallPathToOnDevicePath ComputeClassLoaderContext m)
    {sdkVer : ℤ} {lib : String} {optional implicit : Bool} {hostPath : Option Path}
    {installPath : Option InstallPath} {nestedClcMap : ClassLoaderContextMap Path}
    {clc : ClassLoaderContext Path} (hclc : clc ∈ GoMap.getD m sdkVer [])
    (hname : clc.Name = RemoveOptionalPrebuiltPrefix lib) :
    (AddContext PathForModuleInstall InstallPathToOnDevicePath ComputeClassLoaderContext m sdkVer
        lib optional implicit hostPath installPath nestedClcMap).1 = m ∧
      (clc.Host = hostPath ∧ clc.Device = installDevicePath PathForModuleInstall
          InstallPathToOnDevicePath (RemoveOptionalPrebuiltPrefix lib) installPath →
        (∀ k ∈ GoMap.keys nestedClcMap, k = AnySdkVersion) →
        (AddContext PathForModuleInstall InstallPathToOnDevicePath ComputeClassLoaderContext m
          sdkVer lib optional implicit hostPath installPath nestedClcMap).2 = none) ∧
      (¬(clc.Host = hostPath ∧ clc.Device = installDevicePath PathForModuleInstall
          InstallPathToOnDevicePath (RemoveOptionalPrebuiltPrefix lib) installPath) →
        (AddContext PathForModuleInstall InstallPathToOnDevicePath ComputeClassLoaderContext m
          sdkVer lib optional implicit hostPath installPath nestedClcMap).2.isSome) := by
  have hfind : (GoMap.getD m sdkVer []).find?
      (fun c => decide (c.Name = RemoveOptionalPrebuiltPrefix lib)) = some clc := by
    rw [← hname]
    exact List.find?_eq_of_nodup_map ClassLoaderContext.Name (hm.names_nodup_getD sdkVer) hclc
  refine ⟨?_, fun hpaths hnested => ?_, fun hpaths => ?_⟩
  · unfold ClassLoaderContextMap.AddContext
    split
    · rename_i m' h
      exact addContext_eq_ok_of_find? hfind h
    · rfl
  · unfold ClassLoaderContextMap.AddContext
    rw [addContext_eq_ok_self hfind hpaths hnested]
  · obtain ⟨err, herr⟩ : ∃ err, addContext PathForModuleInstall InstallPathToOnDevicePath
        ComputeClassLoaderContext m sdkVer lib optional implicit hostPath installPath nestedClcMap =
          .error err :=
      addContext_error_of_find? hfind hpaths
    unfold ClassLoaderContextMap.AddContext
    rw [herr]
    rfl

/-- **Excluding libraries from a built map is `withoutLibs`**: a built map is a
map without empty lists, so whether `ExcludeLibs` copies it or not, every list
is cut down and the empty ones dropped. -/
theorem ExcludeLibs_of_Built {m : ClassLoaderContextMap Path}
    (h : Built PathForModuleInstall InstallPathToOnDevicePath ComputeClassLoaderContext m)
    {L : List String} (hL : L ≠ []) : ExcludeLibs m L = withoutLibs L m :=
  ExcludeLibs_eq_withoutLibs_of_ne_nil h.inv.keys_nodup h.inv.ne_nil hL

theorem AddContext_runs_keep_invariants {m : ClassLoaderContextMap Path}
    (hm : Built PathForModuleInstall InstallPathToOnDevicePath ComputeClassLoaderContext m) :
    (∀ e ∈ m, (e.2.map ClassLoaderContext.Name).Nodup) ∧
    (∀ e ∈ m, ∀ clc ∈ e.2,
      ∃ n, Built PathForModuleInstall InstallPathToOnDevicePath ComputeClassLoaderContext n ∧
        (∀ k ∈ GoMap.keys n, k = AnySdkVersion) ∧ clc.Subcontexts = GoMap.getD n AnySdkVersion []) ∧
    ∀ (sdkVer : ℤ) (lib : String) (optional implicit : Bool) (hostPath : Option Path)
      (installPath : Option InstallPath) (nestedClcMap : ClassLoaderContextMap Path),
      ∀ clc ∈ GoMap.getD m sdkVer [], clc.Name = RemoveOptionalPrebuiltPrefix lib →
        (AddContext PathForModuleInstall InstallPathToOnDevicePath ComputeClassLoaderContext m sdkVer
            lib optional implicit hostPath installPath nestedClcMap).1 = m ∧
          (clc.Host = hostPath ∧ clc.Device = installDevicePath PathForModuleInstall
              InstallPathToOnDevicePath (RemoveOptionalPrebuiltPrefix lib) installPath →
            (∀ k ∈ GoMap.keys nestedClcMap, k = AnySdkVersion) →
            (AddContext PathForModuleInstall InstallPathToOnDevicePath ComputeClassLoaderContext m
              sdkVer lib optional implicit hostPath installPath nestedClcMap).2 = none) ∧
          (¬(clc.Host = hostPath ∧ clc.Device = installDevicePath PathForModuleInstall
              InstallPathToOnDevicePath (RemoveOptionalPrebuiltPrefix lib) installPath) →
            (AddContext PathForModuleInstall InstallPathToOnDevicePath ComputeClassLoaderContext m
              sdkVer lib optional implicit hostPath installPath nestedClcMap).2.isSome) := by
  have hinv := hm.inv
  refine ⟨hinv.names_nodup, hinv.nested, ?_⟩
  intro sdkVer lib optional implicit hostPath installPath nestedClcMap clc hclc hname
  exact AddContext_of_mem hinv hclc hname

end runs

/-- The unconditional library `A` added to an empty map, its paths unknown. -/
def libAMap : ClassLoaderContextMap String :=
  (AddContext (String.intercalate "/") id (fun _ => "") [] AnySdkVersion "A" false false none none []).1

theorem AddContext_runs_keep_invariants_libAMap :
    Built (String.intercalate "/") id (fun _ => "") libAMap ∧
    (GoMap.getD libAMap AnySdkVersion []).map ClassLoaderContext.Name = ["A"] ∧
    (∀ e ∈ libAMap, (e.2.map ClassLoaderContext.Name).Nodup) ∧
    (∀ e ∈ libAMap, ∀ clc ∈ e.2,
      ∃ n, Built (String.intercalate "/") id (fun _ => "") n ∧
        (∀ k ∈ GoMap.keys n, k = AnySdkVersion) ∧ clc.Subcontexts = GoMap.getD n AnySdkVersion []) ∧
    ∀ (sdkVer : ℤ) (lib : String) (optional implicit : Bool) (hostPath : Option String)
      (installPath : Option String) (nestedClcMap : ClassLoaderContextMap String),
      ∀ clc ∈ GoMap.getD libAMap sdkVer [], clc.Name = RemoveOptionalPrebuiltPrefix lib →
        (AddContext (String.intercalate "/") id (fun _ => "") libAMap sdkVer lib optional implicit
            hostPath installPath nestedClcMap).1 = libAMap ∧
          (clc.Host = hostPath ∧ clc.Device = installDevicePath (String.intercalate "/") id
              (RemoveOptionalPrebuiltPrefix lib) installPath →
            (∀ k ∈ GoMap.keys nestedClcMap, k = AnySdkVersion) →
            (AddContext (String.intercalate "/") id (fun _ => "") libAMap sdkVer lib optional implicit
              hostPath installPath nestedClcMap).2 = none) ∧
          (¬(clc.Host = hostPath ∧ clc.Device = installDevicePath (String.intercalate "/") id
              (RemoveOptionalPrebuiltPrefix lib) installPath) →
            (AddContext (String.intercalate "/") id (fun _ => "") libAMap sdkVer lib optional implicit
              hostPath installPath nestedClcMap).2.isSome) :=
  have hbuilt : Built (String.intercalate "/") id (fun _ => "") libAMap :=
    Built.ofAddContext _ _ _ _ _ _ Built.empty Built.empty
  ⟨hbuilt, by decide, AddContext_runs_keep_invariants hbuilt⟩

theorem ExcludeLibs_of_Built_libAMap :
    ExcludeLibs libAMap ["A"] = withoutLibs ["A"] libAMap ∧ withoutLibs ["A"] libAMap = [] :=
  ⟨ExcludeLibs_of_Built (Built.ofAddContext _ _ _ _ _ _ Built.empty Built.empty) (by decide),
    by decide⟩

end ClassLoaderContextMap

end dexpreopt

end Soong
