import Soong.Lib.SortSearch
import Soong.Android.Util
import Soong.Android.Visibility

/-!
# Paths

Two functions of `android/paths.go` over `Paths`, a slice of values of the
`Path` interface.

`LastUniquePaths` is the code of `LastUniqueStrings` (`android/util.go`)
written again for `Paths`: both are `lastUnique`, which keeps the last copy of
every value (`lastUnique_eq_dedup`).

`PathsToDirectorySortedPaths` sorts paths by their strings, so that the paths
inside one directory stand together; `PathsInDirectory` finds that block by
two binary searches, for the first string above `dir/` and then for the first
one that does not start with `dir/`.  `PathsInDirectory_eq_filter` says it
returns exactly the paths strictly inside the directory, whatever sorted
order it is given.
-/

namespace Soong

/-- The `Path` interface, by the one method the functions here call. -/
class Path (P : Type) where
  String : P → String

/-! ### The last copy of each path -/

section LastUnique

variable {P : Type} [DecidableEq P] [Inhabited P]

/-- `LastUniquePaths`. -/
def LastUniquePaths (list : List P) : List P := lastUnique list

end LastUnique

theorem LastUnique_keeps_last_copies :
    (∀ list : List String, LastUniqueStrings list = list.dedup ∧
        LastUniqueStrings list = (FirstUniqueStrings list.reverse).reverse) ∧
      ∀ {P : Type} [DecidableEq P] [Inhabited P] (list : List P),
        LastUniquePaths list = list.dedup := by
  refine ⟨fun list => ⟨lastUnique_eq_dedup list, ?_⟩, fun list => lastUnique_eq_dedup list⟩
  -- `FirstUniqueStrings` keeps first copies: mirrored, it keeps last ones
  rw [LastUniqueStrings, lastUnique_eq_dedup, FirstUniqueStrings, firstUniqueAbove_eq,
    List.dedup_eq_reverse_eraseDups_reverse]

/-! ### Paths in a directory -/

section Directory

variable {P : Type} [Path P]

/-- `DirectorySortedPaths`: paths in the order of their strings.  Only
`PathsToDirectorySortedPaths` makes one, so the order is a field. -/
structure DirectorySortedPaths (P : Type) [Path P] where
  paths : List P
  sorted : paths.Pairwise fun a b => Path.String a ≤ Path.String b

/-- `PathsToDirectorySortedPaths`. -/
def PathsToDirectorySortedPaths (paths : List P) : DirectorySortedPaths P :=
  ⟨sort.Slice paths fun a b => decide (Path.String a < Path.String b),
    sort.pairwise_Slice_key _ _⟩

variable [Inhabited P]

/-- `PathsInDirectory`.  (`finish` is the code's `end`; the default is never
read, as `sort.Search` asks only indices of the slice.) -/
def DirectorySortedPaths.PathsInDirectory (p : DirectorySortedPaths P) (dir : String) :
    List P :=
  let pfx := filepath.Clean dir ++ "/"
  let start := sort.Search p.paths.length fun i => decide (pfx < Path.String (p.paths.getD i default))
  let ret := p.paths.drop start
  let finish := sort.Search ret.length fun i => !strings.HasPrefix (Path.String (ret.getD i default)) pfx
  ret.take finish

/-- `s` lies strictly inside the directory whose strings start with `pfx`. -/
def isProperPrefix (pfx s : String) : Bool := strings.HasPrefix s pfx && s != pfx

theorem isProperPrefix_iff (pfx s : String) :
    isProperPrefix pfx s = true ↔ pfx < s ∧ strings.HasPrefix s pfx = true := by
  rw [isProperPrefix, Bool.and_eq_true, strings.hasPrefix_iff, bne_iff_ne, String.lt_iff_toList_lt]
  constructor
  · rintro ⟨hp, hne⟩
    exact ⟨List.lt_of_prefix_of_ne hp (fun h => hne (String.toList_inj.mp h.symm)), hp⟩
  · rintro ⟨hlt, hp⟩
    refine ⟨hp, fun h => ?_⟩
    subst h
    exact lt_irrefl _ (String.lt_iff_toList_lt.mpr hlt)

omit [Inhabited P] in
/-- Along sorted strings, being above `pfx` stays true. -/
theorem pairwise_lt_of_sorted {pfx : String} {l : List P}
    (hl : l.Pairwise fun a b => Path.String a ≤ Path.String b) :
    l.Pairwise fun a b => decide (pfx < Path.String a) = true → decide (pfx < Path.String b) = true :=
  hl.imp fun hab ha => by simp only [decide_eq_true_eq] at ha ⊢; exact lt_of_lt_of_le ha hab

omit [Inhabited P] in
/-- Along sorted strings above `pfx`, not starting with `pfx` stays true. -/
theorem pairwise_not_prefix_of_sorted {pfx : String} {l : List P}
    (hl : l.Pairwise fun a b => Path.String a ≤ Path.String b)
    (habove : ∀ a ∈ l, pfx < Path.String a) :
    l.Pairwise fun a b => (!strings.HasPrefix (Path.String a) pfx) = true →
      (!strings.HasPrefix (Path.String b) pfx) = true := by
  refine hl.imp_of_mem fun {a b} ha _ hab hna => ?_
  simp only [Bool.not_eq_eq_eq_not, Bool.not_true] at hna ⊢
  by_contra hb
  simp only [Bool.not_eq_false, strings.hasPrefix_iff] at hb
  have hna' : ¬pfx.toList <+: (Path.String a).toList := by
    rw [← strings.hasPrefix_iff, hna]
    exact Bool.false_ne_true
  -- `b` starts with `pfx` and `a` does not, so `b` lies below `a`
  have hba := List.lt_of_lt_of_not_prefix (String.lt_iff_toList_lt.mp (habove a ha)) hna' hb
  exact absurd hab (not_le.mpr (String.lt_iff_toList_lt.mpr hba))

/-- **`PathsInDirectory` returns the paths strictly inside the directory**, in
their sorted order: the first search skips the strings up to `dir/`, the
second stops at the first string that does not start with it. -/
theorem PathsInDirectory_eq_filter (p : DirectorySortedPaths P) (dir : String) :
    p.PathsInDirectory dir =
      p.paths.filter fun a => isProperPrefix (filepath.Clean dir ++ "/") (Path.String a) := by
  set pfx := filepath.Clean dir ++ "/" with hpfx
  let above : P → Bool := fun a => decide (pfx < Path.String a)
  let outside : P → Bool := fun a => !strings.HasPrefix (Path.String a) pfx
  -- the first search skips the strings up to `pfx`
  have habove : p.paths.Pairwise fun a b => above a = true → above b = true :=
    pairwise_lt_of_sorted p.sorted
  -- the second, among the strings above `pfx`, stops at the first not starting with it
  have houtside : (p.paths.filter above).Pairwise
      fun a b => outside a = true → outside b = true :=
    pairwise_not_prefix_of_sorted (p.sorted.sublist List.filter_sublist)
      fun a ha => by simpa [above] using (List.mem_filter.mp ha).2
  simp only [DirectorySortedPaths.PathsInDirectory]
  rw [← hpfx, sort.Search_eq_length_filter habove, sort.drop_length_filter_not habove,
    sort.Search_eq_length_filter houtside, sort.take_length_filter_not houtside,
    List.filter_filter]
  -- inside the block: above `pfx` and starting with it
  refine List.filter_congr fun a _ => ?_
  rw [Bool.eq_iff_iff, isProperPrefix_iff]
  simp only [above, outside, Bool.not_not, Bool.and_eq_true, decide_eq_true_eq]
  exact and_comm

theorem PathsInDirectory_of_sorted_paths (ps : List P) (dir : String) :
    ((PathsToDirectorySortedPaths ps).PathsInDirectory dir).Perm
        (ps.filter fun a => isProperPrefix (filepath.Clean dir ++ "/") (Path.String a)) ∧
      ((PathsToDirectorySortedPaths ps).PathsInDirectory dir).map Path.String =
        sort.Strings ((ps.map Path.String).filter (isProperPrefix (filepath.Clean dir ++ "/"))) := by
  set pp := isProperPrefix (filepath.Clean dir ++ "/")
  set sorted := sort.Slice ps fun a b => decide (Path.String a < Path.String b)
  have heq : (PathsToDirectorySortedPaths ps).PathsInDirectory dir =
      sorted.filter fun a => pp (Path.String a) :=
    PathsInDirectory_eq_filter (PathsToDirectorySortedPaths ps) dir
  have hperm : sorted.Perm ps := sort.Slice_perm _ _
  refine ⟨heq ▸ hperm.filter _, ?_⟩
  -- two sorted permutations of one list of strings are equal
  have hmap : (sorted.filter fun a => pp (Path.String a)).map Path.String =
      (sorted.map Path.String).filter pp := by
    rw [List.filter_map]
    rfl
  rw [heq, hmap]
  apply List.Perm.eq_of_pairwise' (r := (· ≤ ·))
  · exact (List.pairwise_map.mpr (PathsToDirectorySortedPaths ps).sorted).filter pp
  · exact List.pairwise_insertionSort _ _
  · exact ((hperm.map Path.String).filter pp).trans (sort.Strings_perm _).symm

end Directory

end Soong
