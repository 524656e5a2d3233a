import Soong.Lib.InPlace
import Soong.Android.Paths
import Soong.Android.DepSet

/-!
# The first copy of each value, kept in place

`FirstUniqueStrings` (`android/util.go`), `FirstUniquePaths` and
`FirstUniqueInstallPaths` (`android/paths.go`) and `firstUnique`
(`android/depset_generic.go`) keep the first copy of each value of a slice,
in order.  Each has two implementations, chosen by the length of the slice:
one compares each value with the values kept so far, the other looks it up in
a map of the values seen.  All of them compact the slice in place: a read
index `i` runs over the slice, and a value that is kept is written to the
write index `k`, which never passes `i`; the result is `list[:k]`.

The three concrete functions are one code at three types
(`firstUniqueCompactList`, `firstUniqueCompactMap`).  The two of
`depset_generic.go` go through `reflect`, compare with `Interface()` and skip
the write when `readIndex` equals `writeIndex`; that write would put a value
onto itself (`reflectFirstUniqueListStep_eq`).  `Soong.firstUniqueList` and
`Soong.firstUniqueMap` state what the last two compute, as a scan into a
separate output; here they are shown to be what the code computes.

Every pass keeps one invariant, `Compacted`: the first `k` places hold the
first copies of the values read so far, and the places not yet read are
untouched.

## Main definitions

* `firstUniqueListStep`, `firstUniqueMapStep` and their loops
  `firstUniqueCompactList`, `firstUniqueCompactMap`.
* `firstUniqueStringsList`, `firstUniqueStringsMap`, `firstUniquePathsList`,
  `firstUniquePathsMap`, `firstUniqueInstallPathsList`,
  `firstUniqueInstallPathsMap`, `FirstUniquePaths`, `FirstUniqueInstallPaths`.
* `reflectFirstUniqueList`, `reflectFirstUniqueMap`.
* `Compacted`, `SeenOf` — the invariants of the loops.

## Main results

* `firstUniqueCompactList_eq`, `firstUniqueCompactMap_eq`,
  `reflectFirstUniqueList_eq`, `reflectFirstUniqueMap_eq` — every loop keeps
  the first copy of each value.
* `reflectFirstUnique_eq_scans` — the scans `DepSet` is modelled with are what
  the in-place loops of `depset_generic.go` compute.
* `FirstUniqueStrings_eq_ite`, `firstUnique_eq_ite` — the scans of
  `Visibility` and `DepSet` are what the code computes.
* `first_unique_list_and_map_agree` — the two sides of every threshold agree.
-/

namespace Soong

/-! ### The loops -/

section Loops

variable {α : Type} [DecidableEq α] [Inhabited α]

/-- A pass of the outer loop of `firstUniqueStringsList` at `i`, with `k`
values kept: `list[i]` is dropped when the inner loop finds it among
`list[0:k]`, and otherwise written to `list[k]`.  (`i` is always an index of
the slice, so the default is never read.) -/
def firstUniqueListStep : List α × ℕ → ℕ → List α × ℕ
  | (list, k), i =>
    if (List.range k).any fun j => list.getD i default == list.getD j default then (list, k)
    else (list.set k (list.getD i default), k + 1)

/-- `firstUniqueStringsList` on values of any type Go compares with `==`; it is
also the code of `firstUniquePathsList` and `firstUniqueInstallPathsList`. -/
def firstUniqueCompactList (list : List α) : List α :=
  match (List.range list.length).foldl firstUniqueListStep (list, 0) with
  | (list, k) => list.take k

/-- A pass of the loop of `firstUniqueStringsMap`: a value `seen` marks is
dropped; any other is marked and written to `list[k]`. -/
def firstUniqueMapStep : List α × ℕ × List (α × Bool) → ℕ → List α × ℕ × List (α × Bool)
  | (list, k, seen), i =>
    if GoMap.getD seen (list.getD i default) false then (list, k, seen)
    else (list.set k (list.getD i default), k + 1, GoMap.set seen (list.getD i default) true)

/-- `firstUniqueStringsMap` on values of any type; also the code of
`firstUniquePathsMap` and `firstUniqueInstallPathsMap`. -/
def firstUniqueCompactMap (list : List α) : List α :=
  match (List.range list.length).foldl firstUniqueMapStep (list, 0, []) with
  | (list, k, _) => list.take k

/-- A pass of `firstUniqueList` of `depset_generic.go`: the search of
`firstUniqueListStep`, and a write only when `readIndex` is not
`writeIndex`. -/
def reflectFirstUniqueListStep : List α × ℕ → ℕ → List α × ℕ
  | (slice, writeIndex), readIndex =>
    let readValue := slice.getD readIndex default
    if (List.range writeIndex).any fun compareIndex =>
        readValue == slice.getD compareIndex default then
      (slice, writeIndex)
    else
      ((if readIndex ≠ writeIndex then slice.set writeIndex readValue else slice), writeIndex + 1)

/-- `firstUniqueList` of `depset_generic.go`, as it runs through `reflect`. -/
def reflectFirstUniqueList (slice : List α) : List α :=
  match (List.range slice.length).foldl reflectFirstUniqueListStep (slice, 0) with
  | (slice, writeIndex) => slice.take writeIndex

/-- A pass of `firstUniqueMap` of `depset_generic.go`: a value is seen when the
map holds it (`MapIndex(readValue).IsValid()`). -/
def reflectFirstUniqueMapStep :
    List α × ℕ × List (α × Bool) → ℕ → List α × ℕ × List (α × Bool)
  | (slice, writeIndex, seen), readIndex =>
    let readValue := slice.getD readIndex default
    if (GoMap.get? seen readValue).isSome then (slice, writeIndex, seen)
    else
      ((if readIndex ≠ writeIndex then slice.set writeIndex readValue else slice),
        writeIndex + 1, GoMap.set seen readValue true)

/-- `firstUniqueMap` of `depset_generic.go`, as it runs through `reflect`. -/
def reflectFirstUniqueMap (slice : List α) : List α :=
  match (List.range slice.length).foldl reflectFirstUniqueMapStep (slice, 0, []) with
  | (slice, writeIndex, _) => slice.take writeIndex

end Loops

/-! ### The invariant of the passes -/

section Invariant

variable {α : Type} [DecidableEq α] [Inhabited α]

/-- What the passes before `i` leave of `orig`: the slice keeps its length,
its first `k` places hold the first copy of each value of `orig[:i]` in
order, and the places from `i` on, not read yet, are untouched. -/
structure Compacted (orig : List α) (i : ℕ) (list : List α) (k : ℕ) : Prop where
  length_eq : list.length = orig.length
  le : k ≤ i
  kept : list.take k = (orig.take i).eraseDups
  unread : list.drop i = orig.drop i

omit [Inhabited α] in
theorem compacted_zero (orig : List α) : Compacted orig 0 orig 0 :=
  ⟨rfl, le_rfl, by simp, rfl⟩

/-- The map of the map-based loops after the passes before `i`: it marks
`true` exactly the values of `orig[:i]`. -/
def SeenOf (orig : List α) (i : ℕ) (seen : List (α × Bool)) : Prop :=
  ∀ y, GoMap.get? seen y = if y ∈ orig.take i then some true else none

omit [Inhabited α] in
theorem seenOf_zero (orig : List α) : SeenOf orig 0 [] := by
  intro y
  simp [GoMap.get?]

namespace Compacted

variable {orig list : List α} {i k : ℕ}

/-- The pass at `i` reads the value `orig` holds there. -/
theorem read (h : Compacted orig i list k) : list.getD i default = orig.getD i default :=
  List.getD_of_drop_eq h.unread default

omit [Inhabited α] in
theorem mem_take_iff (h : Compacted orig i list k) (x : α) :
    x ∈ list.take k ↔ x ∈ orig.take i := by
  rw [h.kept, List.mem_eraseDups]

/-- A value read before is dropped: nothing is written. -/
theorem skip (h : Compacted orig i list k) (hi : i < orig.length)
    (hx : orig.getD i default ∈ orig.take i) : Compacted orig (i + 1) list k where
  length_eq := h.length_eq
  le := Nat.le_succ_of_le h.le
  kept := by
    rw [h.kept, List.take_succ_getD hi, List.eraseDups_append_singleton, if_pos hx]
  unread := List.drop_succ_of_drop_eq h.unread

/-- A value not read before is written to `list[k]`, a place already read. -/
theorem write (h : Compacted orig i list k) (hi : i < orig.length)
    (hx : orig.getD i default ∉ orig.take i) :
    Compacted orig (i + 1) (list.set k (orig.getD i default)) (k + 1) where
  length_eq := by rw [List.length_set, h.length_eq]
  le := Nat.succ_le_succ h.le
  kept := by
    have hk : k < list.length := by
      have := h.le
      rw [h.length_eq]
      omega
    rw [List.take_set_succ hk, h.kept, List.take_succ_getD hi, List.eraseDups_append_singleton,
      if_neg hx]
  unread := by
    rw [List.drop_set_of_lt (Nat.lt_succ_of_le h.le)]
    exact List.drop_succ_of_drop_eq h.unread

/-- The inner loop over `list[0:k]` finds the value read at `i` exactly when it
was read before. -/
theorem any_iff (h : Compacted orig i list k) (hi : i < orig.length) :
    ((List.range k).any fun j => orig.getD i default == list.getD j default) = true ↔
      orig.getD i default ∈ orig.take i := by
  have hk : k ≤ list.length := by
    have := h.le
    rw [h.length_eq]
    omega
  rw [List.any_range_getD_iff_mem_take hk, h.mem_take_iff]

/-- The pass of `firstUniqueListStep` at `i` keeps the invariant. -/
theorem listStep (h : Compacted orig i list k) (hi : i < orig.length) :
    Compacted orig (i + 1) (firstUniqueListStep (list, k) i).1
      (firstUniqueListStep (list, k) i).2 := by
  rw [firstUniqueListStep, h.read]
  by_cases hx : orig.getD i default ∈ orig.take i
  · rw [if_pos ((h.any_iff hi).mpr hx)]
    exact h.skip hi hx
  · rw [if_neg (fun hany => hx ((h.any_iff hi).mp hany))]
    exact h.write hi hx

end Compacted

namespace SeenOf

variable {orig : List α} {i : ℕ} {seen : List (α × Bool)}

omit [Inhabited α] in
/-- The map's test, as `firstUniqueStringsMap` reads it. -/
theorem getD_iff (h : SeenOf orig i seen) (x : α) :
    GoMap.getD seen x false = true ↔ x ∈ orig.take i := by
  rw [GoMap.getD, h x]
  split_ifs <;> simp [*]

omit [Inhabited α] in
/-- The map's test, as `firstUniqueMap` of `depset_generic.go` reads it: every
value in the map is `true`, so holding a value and marking it agree. -/
theorem isSome_eq_getD (h : SeenOf orig i seen) (x : α) :
    (GoMap.get? seen x).isSome = GoMap.getD seen x false := by
  rw [GoMap.getD, h x]
  split_ifs <;> rfl

omit [DecidableEq α] in
/-- The values read after the pass at `i`. -/
theorem mem_take_succ_iff (hi : i < orig.length) (y : α) :
    y ∈ orig.take (i + 1) ↔ y ∈ orig.take i ∨ y = orig.getD i default := by
  rw [List.take_succ_getD hi, List.mem_append, List.mem_singleton]

theorem skip (h : SeenOf orig i seen) (hi : i < orig.length)
    (hx : orig.getD i default ∈ orig.take i) : SeenOf orig (i + 1) seen := by
  intro y
  simp only [h y, mem_take_succ_iff hi]
  by_cases hy : y = orig.getD i default
  · subst hy
    rw [if_pos hx, if_pos (Or.inl hx)]
  · simp only [hy, or_false]

theorem write (h : SeenOf orig i seen) (hi : i < orig.length) :
    SeenOf orig (i + 1) (GoMap.set seen (orig.getD i default) true) := by
  intro y
  simp only [mem_take_succ_iff hi]
  by_cases hy : y = orig.getD i default
  · subst hy
    rw [GoMap.get?_set_self, if_pos (Or.inr rfl)]
  · rw [GoMap.get?_set_of_ne _ _ hy, h y]
    simp only [hy, or_false]

end SeenOf

/-- The pass of `firstUniqueMapStep` at `i` keeps both invariants. -/
theorem Compacted.mapStep {orig list : List α} {i k : ℕ} {seen : List (α × Bool)}
    (h : Compacted orig i list k) (hseen : SeenOf orig i seen) (hi : i < orig.length) :
    Compacted orig (i + 1) (firstUniqueMapStep (list, k, seen) i).1
      (firstUniqueMapStep (list, k, seen) i).2.1 ∧
    SeenOf orig (i + 1) (firstUniqueMapStep (list, k, seen) i).2.2 := by
  rw [firstUniqueMapStep, h.read]
  by_cases hx : orig.getD i default ∈ orig.take i
  · rw [if_pos ((hseen.getD_iff _).mpr hx)]
    exact ⟨h.skip hi hx, hseen.skip hi hx⟩
  · rw [if_neg (fun hget => hx ((hseen.getD_iff _).mp hget))]
    exact ⟨h.write hi hx, hseen.write hi⟩

end Invariant

/-! ### What the loops compute -/

section Runs

variable {α : Type} [DecidableEq α] [Inhabited α]

omit [Inhabited α] in
/-- The result of a loop whose invariant holds at the end. -/
theorem Compacted.take_eq {orig list : List α} {k : ℕ}
    (h : Compacted orig orig.length list k) : list.take k = orig.eraseDups := by
  rw [h.kept, List.take_length]

/-- **The list-based loop keeps the first copy of each value.** -/
theorem firstUniqueCompactList_eq (list : List α) :
    firstUniqueCompactList list = list.eraseDups := by
  -- the invariant at `i = 0` is the slice as given, with nothing kept
  have h0 : Compacted list 0 (list, 0).1 (list, 0).2 := compacted_zero list
  have hrun := List.foldl_range_induction (fun i (st : List α × ℕ) => Compacted list i st.1 st.2)
    h0 fun i st hi h => h.listStep hi
  unfold firstUniqueCompactList
  generalize (List.range list.length).foldl firstUniqueListStep (list, 0) = st at hrun ⊢
  obtain ⟨out, k⟩ := st
  exact hrun.take_eq

/-- **The map-based loop keeps the first copy of each value.** -/
theorem firstUniqueCompactMap_eq (list : List α) :
    firstUniqueCompactMap list = list.eraseDups := by
  have h0 : Compacted list 0 (list, 0, ([] : List (α × Bool))).1 0 ∧ SeenOf list 0 [] :=
    ⟨compacted_zero list, seenOf_zero list⟩
  have hrun := List.foldl_range_induction
    (fun i (st : List α × ℕ × List (α × Bool)) => Compacted list i st.1 st.2.1 ∧ SeenOf list i st.2.2)
    h0 fun i st hi h => h.1.mapStep h.2 hi
  unfold firstUniqueCompactMap
  generalize (List.range list.length).foldl firstUniqueMapStep (list, 0, []) = st at hrun ⊢
  obtain ⟨out, k, seen⟩ := st
  exact hrun.1.take_eq

omit [DecidableEq α] in
/-- The write `depset_generic.go` guards with `readIndex != writeIndex` is the
unguarded one: when the indices meet it would put a value onto itself. -/
theorem guardedWrite_eq (slice : List α) (readIndex writeIndex : ℕ) :
    (if readIndex ≠ writeIndex then slice.set writeIndex (slice.getD readIndex default)
      else slice) = slice.set writeIndex (slice.getD readIndex default) := by
  by_cases hne : readIndex ≠ writeIndex
  · rw [if_pos hne]
  · rw [if_neg hne, not_not.mp hne, List.set_getD_self]

/-- A pass of `firstUniqueList` of `depset_generic.go` is a pass of
`firstUniqueStringsList`. -/
theorem reflectFirstUniqueListStep_eq (st : List α × ℕ) (readIndex : ℕ) :
    reflectFirstUniqueListStep st readIndex = firstUniqueListStep st readIndex := by
  obtain ⟨slice, writeIndex⟩ := st
  simp only [reflectFirstUniqueListStep, firstUniqueListStep, guardedWrite_eq]

/-- A pass of `firstUniqueMap` of `depset_generic.go` is a pass of
`firstUniqueStringsMap`, on a map that marks what was read. -/
theorem reflectFirstUniqueMapStep_eq {orig : List α} {i : ℕ} {seen : List (α × Bool)}
    (hseen : SeenOf orig i seen) (slice : List α) (writeIndex readIndex : ℕ) :
    reflectFirstUniqueMapStep (slice, writeIndex, seen) readIndex =
      firstUniqueMapStep (slice, writeIndex, seen) readIndex := by
  simp only [reflectFirstUniqueMapStep, firstUniqueMapStep, guardedWrite_eq,
    hseen.isSome_eq_getD]

/-- **`firstUniqueList` of `depset_generic.go` keeps the first copy of each
value.** -/
theorem reflectFirstUniqueList_eq (slice : List α) : reflectFirstUniqueList slice = slice.eraseDups := by
  have hstep : (reflectFirstUniqueListStep : List α × ℕ → ℕ → List α × ℕ) = firstUniqueListStep :=
    funext fun st => funext fun readIndex => reflectFirstUniqueListStep_eq st readIndex
  rw [← firstUniqueCompactList_eq, reflectFirstUniqueList, firstUniqueCompactList, hstep]

/-- **`firstUniqueMap` of `depset_generic.go` keeps the first copy of each
value.** -/
theorem reflectFirstUniqueMap_eq (slice : List α) : reflectFirstUniqueMap slice = slice.eraseDups := by
  have h0 : Compacted slice 0 (slice, 0, ([] : List (α × Bool))).1 0 ∧ SeenOf slice 0 [] :=
    ⟨compacted_zero slice, seenOf_zero slice⟩
  -- the passes are those of `firstUniqueStringsMap` while the map marks what was read
  have hrun := @List.foldl_range_induction _ reflectFirstUniqueMapStep slice.length
    (fun i st => Compacted slice i st.1 st.2.1 ∧ SeenOf slice i st.2.2) _
    h0 fun i st hi h => by
      obtain ⟨list, k, seen⟩ := st
      rw [reflectFirstUniqueMapStep_eq h.2]
      exact h.1.mapStep h.2 hi
  unfold reflectFirstUniqueMap
  generalize (List.range slice.length).foldl reflectFirstUniqueMapStep (slice, 0, []) = st at hrun ⊢
  obtain ⟨out, writeIndex, seen⟩ := st
  exact hrun.1.take_eq

/-- **The in-place loops of `depset_generic.go` compute the scans**
`Soong.firstUniqueList` and `Soong.firstUniqueMap` that `DepSet` is modelled with. -/
theorem reflectFirstUnique_eq_scans (slice : List α) :
    reflectFirstUniqueList slice = firstUniqueList slice ∧
      reflectFirstUniqueMap slice = firstUniqueMap slice :=
  ⟨by rw [reflectFirstUniqueList_eq, firstUniqueList_eq],
    by rw [reflectFirstUniqueMap_eq, firstUniqueMap_eq]⟩

end Runs

/-! ### The functions -/

def firstUniqueStringsList (list : List String) : List String := firstUniqueCompactList list

def firstUniqueStringsMap (list : List String) : List String := firstUniqueCompactMap list

section Paths

variable {P : Type} [DecidableEq P] [Inhabited P]

def firstUniquePathsList (list : List P) : List P := firstUniqueCompactList list

def firstUniquePathsMap (list : List P) : List P := firstUniqueCompactMap list

/-- `FirstUniquePaths`: the map-based loop above 128 paths. -/
def FirstUniquePaths (list : List P) : List P :=
  if list.length > 128 then firstUniquePathsMap list else firstUniquePathsList list

def firstUniqueInstallPathsList (list : List P) : List P := firstUniqueCompactList list

def firstUniqueInstallPathsMap (list : List P) : List P := firstUniqueCompactMap list

/-- `FirstUniqueInstallPaths`: the map-based loop above 128 paths. -/
def FirstUniqueInstallPaths (list : List P) : List P :=
  if list.length > 128 then firstUniqueInstallPathsMap list else firstUniqueInstallPathsList list

end Paths

/-! ### The two sides of the thresholds -/

section Thresholds

variable {α : Type} [DecidableEq α] [Inhabited α]

/-- Whichever loop a length threshold picks, the first copy of each value is
kept. -/
theorem firstUniqueCompact_ite_eq (threshold : ℕ) (list : List α) :
    (if list.length > threshold then firstUniqueCompactMap list else firstUniqueCompactList list) =
      list.eraseDups := by
  split_ifs
  · exact firstUniqueCompactMap_eq list
  · exact firstUniqueCompactList_eq list

/-- `FirstUniqueStrings`, stated through the first-copy scans, is what the code
computes on either side of 128. -/
theorem FirstUniqueStrings_eq_ite (list : List String) :
    FirstUniqueStrings list =
      if list.length > 128 then firstUniqueStringsMap list else firstUniqueStringsList list := by
  rw [FirstUniqueStrings, firstUniqueAbove_eq, firstUniqueStringsMap, firstUniqueStringsList,
    firstUniqueCompact_ite_eq]

theorem FirstUniquePaths_eq (list : List α) : FirstUniquePaths list = list.eraseDups :=
  firstUniqueCompact_ite_eq 128 list

theorem FirstUniqueInstallPaths_eq (list : List α) : FirstUniqueInstallPaths list = list.eraseDups :=
  firstUniqueCompact_ite_eq 128 list

/-- `firstUnique`, stated through the first-copy scans, is what the code of
`depset_generic.go` computes on either side of 4. -/
theorem firstUnique_eq_ite (slice : List α) :
    firstUnique slice =
      if slice.length > 4 then reflectFirstUniqueMap slice else reflectFirstUniqueList slice := by
  rw [firstUnique_eq, reflectFirstUniqueMap_eq, reflectFirstUniqueList_eq, ite_self]

end Thresholds

/-- **The list-based and the map-based loops agree, on every slice**, and keep
the first copy of each value in order; so `FirstUniqueStrings`,
`FirstUniquePaths`, `FirstUniqueInstallPaths` and `firstUnique` compute the same
on either side of their thresholds. -/
theorem first_unique_list_and_map_agree :
    (∀ list : List String,
      firstUniqueStringsList list = firstUniqueStringsMap list ∧
      firstUniqueStringsMap list = list.eraseDups ∧
      FirstUniqueStrings list =
        if list.length > 128 then firstUniqueStringsMap list else firstUniqueStringsList list) ∧
    (∀ {P : Type} [DecidableEq P] [Inhabited P] (list : List P),
      firstUniquePathsList list = firstUniquePathsMap list ∧
      firstUniquePathsMap list = list.eraseDups ∧
      firstUniqueInstallPathsList list = firstUniqueInstallPathsMap list ∧
      firstUniqueInstallPathsMap list = list.eraseDups ∧
      FirstUniquePaths list = list.eraseDups ∧ FirstUniqueInstallPaths list = list.eraseDups) ∧
    (∀ {α : Type} [DecidableEq α] [Inhabited α] (slice : List α),
      reflectFirstUniqueList slice = reflectFirstUniqueMap slice ∧
      reflectFirstUniqueMap slice = slice.eraseDups ∧
      firstUnique slice =
        if slice.length > 4 then reflectFirstUniqueMap slice else reflectFirstUniqueList slice) := by
  refine ⟨?strings, ?paths, ?reflect⟩
  case strings =>
    intro list
    refine ⟨?_, firstUniqueCompactMap_eq list, FirstUniqueStrings_eq_ite list⟩
    rw [firstUniqueStringsList, firstUniqueStringsMap, firstUniqueCompactList_eq,
      firstUniqueCompactMap_eq]
  case paths =>
    intro P _ _ list
    -- the four loops are the two generic ones at `Path` and `InstallPath`
    have hagree : firstUniqueCompactList list = firstUniqueCompactMap list := by
      rw [firstUniqueCompactList_eq, firstUniqueCompactMap_eq]
    exact ⟨hagree, firstUniqueCompactMap_eq list, hagree, firstUniqueCompactMap_eq list,
      FirstUniquePaths_eq list, FirstUniqueInstallPaths_eq list⟩
  case reflect =>
    intro α _ _ slice
    refine ⟨?_, reflectFirstUniqueMap_eq slice, firstUnique_eq_ite slice⟩
    rw [reflectFirstUniqueList_eq, reflectFirstUniqueMap_eq]

end Soong
