import Mathlib.Data.List.Infix
import Soong.Lib.GoMap

/-!
# Namespaces and the lookup of a directory's namespace

`android/namespace.go`.  A `NameResolver` keeps the namespaces declared so far
and a map from directories to namespaces.  `addNamespace` puts a namespace in
the map at its own directory, and fails when the directory is in the map
already.  `findNamespace` walks up from a directory to the first one in the map,
and caches its answer at every directory it passed on the way.

A directory is a clean path relative to the top of the tree, as `filepath.Dir`
of a module's path gives it: here the list of its names, `.` being the empty
list, so that `filepath.Dir` drops the last name and `.` is its own parent.

The cache answers as the walk over the declared namespaces would, as long as
no namespace is added between a cached directory and the namespace cached for
it: and each such directory is in the map, so such an add fails.

## Main definitions

* `Namespace`, `NameResolver`, `NewNameResolver`.
* `NameResolver.addNamespace`, `namespaceAt`, `findNamespace`.
* `lookupRef` — the namespace of a directory: walking up from it, the first
  directory a declared namespace is at.
* `NameResolver.step`, `NameResolver.run` — interleavings of additions and
  lookups.

## Main results

* `lookupRef_eq_some_iff` — `lookupRef` finds the declared namespace at the
  longest ancestor-or-self directory.
* `NameResolver.Inv` — the cache agrees with `lookupRef`, and every directory
  between a cached one and its namespace is in the map; `Inv.step` keeps it.
* `findNamespace_spec` — a lookup answers `lookupRef`, and caches it.
-/

namespace Soong

/-- `Namespace`: its directory and whether it is exported to Kati. -/
structure Namespace where
  Path : List String
  exportToKati : Bool
  deriving DecidableEq

/-- The text of a directory, as `%v` prints it. -/
def pathString : List String → String
  | [] => "."
  | names => String.intercalate "/" names

/-- `NewNamespace`. -/
def NewNamespace (path : List String) : Namespace := ⟨path, false⟩

/-- `NameResolver`: the root namespace's visible namespaces, the namespaces
added (`sortedNamespaces`, in the order added: they are sorted on the first
read, which no function here makes) and the map from directories to
namespaces, where a lookup that found none stores nil. -/
structure NameResolver where
  rootNamespace : Namespace
  visibleNamespaces : List Namespace
  sortedNamespaces : List Namespace
  namespacesByDir : List (List String × Option Namespace)
  namespaceExportFilter : Namespace → Bool

namespace NameResolver

/-- `newNamespace`: a namespace exported to Kati as the filter says. -/
def newNamespace (r : NameResolver) (path : List String) : Namespace :=
  { NewNamespace path with exportToKati := r.namespaceExportFilter (NewNamespace path) }

/-- `namespaceAt`: the map's entry for a directory, which may be nil. -/
def namespaceAt (r : NameResolver) (path : List String) : Option (Option Namespace) :=
  GoMap.get? r.namespacesByDir path

/-- `namespacesByDir.Store`. -/
def Store (r : NameResolver) (path : List String) (ns : Option Namespace) : NameResolver :=
  { r with namespacesByDir := GoMap.set r.namespacesByDir path ns }

/-- `addNamespace`: an error when the directory is in the map already, and
`none` for the panic of reading the path of a nil namespace found there. -/
def addNamespace (r : NameResolver) (ns : Namespace) : Option (Except String NameResolver) :=
  match r.namespaceAt ns.Path with
  | some (some existingNamespace) =>
    if existingNamespace.Path = ns.Path then
      some (.error ("namespace " ++ pathString ns.Path ++ " already exists"))
    else some (.error "a namespace must be the first module in the file")
  | some none => none
  | none =>
    let r := { r with
      visibleNamespaces := if ns.exportToKati then r.visibleNamespaces ++ [ns] else r.visibleNamespaces
      sortedNamespaces := r.sortedNamespaces ++ [ns] }
    some (.ok (r.Store ns.Path (some ns)))

/-- `findNamespace`: the map's entry, or the parent's answer, cached here. -/
def findNamespace (r : NameResolver) (path : List String) : Option Namespace × NameResolver :=
  match r.namespaceAt path with
  | some ns => (ns, r)
  | none =>
    -- `filepath.Dir` of a clean relative directory
    let parentDir := path.dropLast
    if h : parentDir = path then (none, r)
    else
      have : parentDir.length < path.length := by
        rw [List.length_dropLast]
        have : path ≠ [] := by
          rintro rfl
          exact h rfl
        have := List.length_pos_iff.2 this
        omega
      let (ns, r) := findNamespace r parentDir
      (ns, r.Store path ns)
termination_by path.length

end NameResolver

/-! ### The namespace of a directory -/

/-- The namespace a lookup of `path` is meant to find: walking up from `path`,
the first directory a namespace of `R` is at. -/
def lookupRef (R : List Namespace) (path : List String) : Option Namespace :=
  match R.find? (fun ns => decide (ns.Path = path)) with
  | some ns => some ns
  | none =>
    if h : path = [] then none
    else
      have : path.dropLast.length < path.length := by
        rw [List.length_dropLast]
        have := List.length_pos_iff.2 h
        omega
      lookupRef R path.dropLast
termination_by path.length

/-- `ns` is a namespace of `R` at the longest ancestor-or-self directory of
`path` that a namespace of `R` is at. -/
def IsLongest (R : List Namespace) (path : List String) (ns : Namespace) : Prop :=
  ns ∈ R ∧ ns.Path <+: path ∧ ∀ ns' ∈ R, ns'.Path <+: path → ns'.Path.length ≤ ns.Path.length

/-- A proper ancestor-or-self of a directory is one of its parent. -/
theorem prefix_dropLast_of_ne {e p : List String} (h : e <+: p) (hne : e ≠ p) :
    e <+: p.dropLast := by
  have hlen : e.length < p.length := by
    have := h.length_le
    rcases Nat.lt_or_ge e.length p.length with hlt | hge
    · exact hlt
    · exact absurd (h.eq_of_length_le hge) hne
  rw [List.dropLast_eq_take, List.prefix_take_iff]
  exact ⟨h, by omega⟩

theorem lookupRef_of_find?_eq_none {R : List Namespace} {path : List String}
    (h : R.find? (fun ns => decide (ns.Path = path)) = none) (hp : path ≠ []) :
    lookupRef R path = lookupRef R path.dropLast := by
  rw [lookupRef, h]
  simp [hp]

/-- `lookupRef` finds the namespace at the longest ancestor-or-self directory. -/
theorem isLongest_of_lookupRef {R : List Namespace} {path : List String} {ns : Namespace}
    (h : lookupRef R path = some ns) : IsLongest R path ns := by
  fun_induction lookupRef R path with
  | case1 path ns' hfind =>
    cases h
    have hpath : ns.Path = path := by simpa using List.find?_some hfind
    refine ⟨List.mem_of_find?_eq_some hfind, hpath ▸ List.prefix_refl _, ?_⟩
    intro ns' _ hpre
    rw [hpath]
    exact hpre.length_le
  | case2 => cases h
  | case3 path hfind hp _ ih =>
    obtain ⟨hmem, hpre, hlong⟩ := ih h
    refine ⟨hmem, hpre.trans (List.dropLast_prefix path), fun ns' hns' hpre' => ?_⟩
    -- no namespace is at `path` itself, so the longer candidates are the parent's
    have hne : ns'.Path ≠ path := by
      intro hpath
      rw [List.find?_eq_none] at hfind
      exact hfind ns' hns' (by simp [hpath])
    exact hlong ns' hns' (prefix_dropLast_of_ne hpre' hne)

/-- With a namespace at `.`, every directory has one. -/
theorem lookupRef_ne_none {R : List Namespace} (hroot : ∃ ns ∈ R, ns.Path = [])
    (path : List String) : lookupRef R path ≠ none := by
  fun_induction lookupRef R path with
  | case1 => simp
  | case2 hfind =>
    obtain ⟨ns, hns, hpath⟩ := hroot
    rw [List.find?_eq_none] at hfind
    exact absurd (by simp [hpath]) (hfind ns hns)
  | case3 path _ _ _ ih => exact ih

section nodup

variable {R : List Namespace} (hnodup : (R.map Namespace.Path).Nodup) (hroot : ∃ ns ∈ R, ns.Path = [])
include hnodup hroot

/-- **`lookupRef` is the namespace at the longest ancestor-or-self directory**,
when the namespaces are at distinct directories, one of them `.`. -/
theorem lookupRef_eq_some_iff {path : List String} {ns : Namespace} :
    lookupRef R path = some ns ↔ IsLongest R path ns := by
  refine ⟨isLongest_of_lookupRef, fun h => ?_⟩
  obtain ⟨ns', hns'⟩ := Option.ne_none_iff_exists'.1 (lookupRef_ne_none hroot path)
  obtain ⟨hmem', hpre', hlong'⟩ := isLongest_of_lookupRef hns'
  obtain ⟨hmem, hpre, hlong⟩ := h
  -- two longest ancestors of one directory are at the same directory
  have hpath : ns'.Path = ns.Path := by
    have hle := hlong ns' hmem' hpre'
    have hge := hlong' ns hmem hpre
    rcases List.prefix_or_prefix_of_prefix hpre' hpre with h' | h'
    · exact h'.eq_of_length (by omega)
    · exact (h'.eq_of_length (by omega)).symm
  rw [hns', List.inj_on_of_nodup_map hnodup hmem' hmem hpath]

theorem lookupRef_self {ns : Namespace} (hns : ns ∈ R) : lookupRef R ns.Path = some ns :=
  (lookupRef_eq_some_iff hnodup hroot).2 ⟨hns, List.prefix_refl _, fun _ _ hpre => hpre.length_le⟩

end nodup

/-- A namespace added away from the walk from `path` to its namespace does not
change the namespace of `path`. -/
theorem lookupRef_append_of_not_between {R : List Namespace} {n ns : Namespace}
    {path : List String} (hnodup : ((R ++ [n]).map Namespace.Path).Nodup)
    (hroot : ∃ ns ∈ R, ns.Path = []) (hns : lookupRef R path = some ns)
    (hn : n.Path <+: path → n.Path.length ≤ ns.Path.length) :
    lookupRef (R ++ [n]) path = some ns := by
  obtain ⟨hmem, hpre, hlong⟩ := isLongest_of_lookupRef hns
  obtain ⟨r, hr, hroot⟩ := hroot
  refine (lookupRef_eq_some_iff hnodup ⟨r, List.mem_append_left _ hr, hroot⟩).2
    ⟨List.mem_append_left _ hmem, hpre, fun ns' hns' hpre' => ?_⟩
  rcases List.mem_append.1 hns' with hns' | hns'
  · exact hlong ns' hns' hpre'
  · rw [List.mem_singleton.1 hns']
    exact hn (List.mem_singleton.1 hns' ▸ hpre')

/-! ### The invariant of the cache -/

namespace NameResolver

variable {r : NameResolver}

@[simp] theorem namespaceAt_Store_self (r : NameResolver) (path : List String) (v : Option Namespace) :
    (r.Store path v).namespaceAt path = some v :=
  GoMap.get?_set_self _ _ _

theorem namespaceAt_Store_of_ne (r : NameResolver) {path d : List String} (v : Option Namespace)
    (h : d ≠ path) : (r.Store path v).namespaceAt d = r.namespaceAt d :=
  GoMap.get?_set_of_ne _ _ h

/-- A directory in the map stays in it. -/
theorem namespaceAt_Store_ne_none (r : NameResolver) (path : List String) (v : Option Namespace)
    {d : List String} (h : r.namespaceAt d ≠ none) : (r.Store path v).namespaceAt d ≠ none := by
  by_cases hd : d = path
  · rw [hd, namespaceAt_Store_self]
    exact Option.some_ne_none v
  · rwa [namespaceAt_Store_of_ne _ _ hd]

@[simp] theorem sortedNamespaces_Store (r : NameResolver) (path : List String) (v : Option Namespace) :
    (r.Store path v).sortedNamespaces = r.sortedNamespaces := rfl

/-- The invariant of a resolver: the namespaces added are at distinct
directories, the root at `.` among them, each in the map at its own directory;
every entry of the map is the namespace `lookupRef` gives its directory; and
every directory between a cached one and its namespace is in the map. -/
structure Inv (r : NameResolver) : Prop where
  paths_nodup : (r.sortedNamespaces.map Namespace.Path).Nodup
  root_mem : r.rootNamespace ∈ r.sortedNamespaces
  root_path : r.rootNamespace.Path = []
  registered : ∀ ns ∈ r.sortedNamespaces, r.namespaceAt ns.Path = some (some ns)
  cached : ∀ d v, r.namespaceAt d = some v → v = lookupRef r.sortedNamespaces d
  between : ∀ d ns, r.namespaceAt d = some (some ns) →
    ∀ e, e <+: d → ns.Path.length < e.length → r.namespaceAt e ≠ none

theorem Inv.hroot (h : r.Inv) : ∃ ns ∈ r.sortedNamespaces, ns.Path = [] :=
  ⟨_, h.root_mem, h.root_path⟩

/-- No entry of the map is nil. -/
theorem Inv.ne_some_none (h : r.Inv) (d : List String) : r.namespaceAt d ≠ some none :=
  fun hd => lookupRef_ne_none h.hroot d (h.cached d none hd).symm

theorem Inv.path_ne_of_namespaceAt_eq_none (h : r.Inv) {d : List String}
    (hd : r.namespaceAt d = none) : ∀ ns ∈ r.sortedNamespaces, ns.Path ≠ d := by
  intro ns hns hpath
  rw [← hpath, h.registered ns hns] at hd
  cases hd

/-- **The step of a lookup's walk**: caching at a directory out of the map the
answer its parent has cached keeps the invariant. -/
theorem Inv.Store_lookupRef (h : r.Inv) {path : List String} (hnone : r.namespaceAt path = none)
    (hparent : r.namespaceAt path.dropLast = some (lookupRef r.sortedNamespaces path)) :
    (r.Store path (lookupRef r.sortedNamespaces path)).Inv := by
  obtain ⟨nsv, hv⟩ := Option.ne_none_iff_exists'.1 (lookupRef_ne_none h.hroot path)
  have hnot := h.path_ne_of_namespaceAt_eq_none hnone
  refine ⟨h.paths_nodup, h.root_mem, h.root_path, ?_, ?_, ?_⟩
  · intro ns hns
    rw [sortedNamespaces_Store] at hns
    rw [namespaceAt_Store_of_ne _ _ (hnot ns hns)]
    exact h.registered ns hns
  · intro d v hd
    by_cases hdp : d = path
    · rw [hdp, namespaceAt_Store_self] at hd
      rw [hdp, ← Option.some.inj hd]
      rfl
    · rw [namespaceAt_Store_of_ne _ _ hdp] at hd
      exact h.cached d v hd
  · intro d ns hd e he hlen
    by_cases hdp : d = path
    · rw [hdp, namespaceAt_Store_self, hv] at hd
      cases hd
      rw [hdp] at he
      by_cases hep : e = path
      · rw [hep, namespaceAt_Store_self]
        exact Option.some_ne_none _
      · -- a shorter directory of the walk is in the map through the parent's entry
        rw [hv] at hparent
        exact namespaceAt_Store_ne_none _ _ _
          (h.between _ _ hparent e (prefix_dropLast_of_ne he hep) hlen)
    · rw [namespaceAt_Store_of_ne _ _ hdp] at hd
      exact namespaceAt_Store_ne_none _ _ _ (h.between d ns hd e he hlen)

/-- What a lookup of `path` from a resolver `r` keeping the invariant gives. -/
structure Found (r : NameResolver) (path : List String) (res : Option Namespace × NameResolver) :
    Prop where
  answer : res.1 = lookupRef r.sortedNamespaces path
  inv : res.2.Inv
  only_map : ∃ m, res.2 = { r with namespacesByDir := m }
  cached_here : res.2.namespaceAt path = some (lookupRef r.sortedNamespaces path)
  keeps : ∀ d v, r.namespaceAt d = some v → res.2.namespaceAt d = some v
  within : ∀ d, res.2.namespaceAt d ≠ none → r.namespaceAt d ≠ none ∨ d <+: path

theorem findNamespace_spec (h : r.Inv) (path : List String) : Found r path (r.findNamespace path) := by
  fun_induction r.findNamespace path with
  | case1 path v hat =>
    have hv := h.cached path v hat
    exact ⟨hv, h, ⟨_, rfl⟩, by rw [hat, hv], fun _ _ hd => hd, fun _ hd => Or.inl hd⟩
  | case2 path hnone parentDir heq =>
    -- only `.` is its own parent, and the root namespace is there
    have hp : path = [] := by
      by_contra hp
      have hlen := congrArg List.length (show path.dropLast = path from heq)
      rw [List.length_dropLast] at hlen
      have := List.length_pos_iff.2 hp
      omega
    rw [hp, ← h.root_path, h.registered _ h.root_mem] at hnone
    cases hnone
  | case3 path hnone parentDir hne _ v r1 hcall ih =>
    rw [hcall] at ih
    obtain ⟨hans, hinv1, ⟨m1, hr1⟩, hcached1, hkeeps1, hwithin1⟩ := ih
    dsimp only at hans hinv1 hcached1 hkeeps1 hwithin1 hr1
    have hp : path ≠ [] := by
      rintro rfl
      exact hne rfl
    have hsorted : r1.sortedNamespaces = r.sortedNamespaces := by rw [hr1]
    -- no namespace is at `path`, so its answer is its parent's
    have hlook : lookupRef r.sortedNamespaces path = lookupRef r.sortedNamespaces path.dropLast :=
      lookupRef_of_find?_eq_none (List.find?_eq_none.2 fun ns hns => by
        simpa using h.path_ne_of_namespaceAt_eq_none hnone ns hns) hp
    have hv : v = lookupRef r.sortedNamespaces path := hans.trans hlook.symm
    have hnone1 : r1.namespaceAt path = none := by
      by_contra hn
      rcases hwithin1 path hn with h' | h'
      · exact h' hnone
      · have := h'.length_le
        rw [List.length_dropLast] at this
        have := List.length_pos_iff.2 hp
        omega
    have hparent : r1.namespaceAt path.dropLast = some (lookupRef r1.sortedNamespaces path) := by
      rw [hsorted, hlook]
      exact hcached1
    refine ⟨hv, ?_, ⟨GoMap.set m1 path v, show r1.Store path v = _ by rw [hr1]; rfl⟩, ?_, ?_, ?_⟩
    · rw [hv, ← hsorted]
      exact hinv1.Store_lookupRef hnone1 hparent
    · rw [namespaceAt_Store_self, hv]
    · intro d w hd
      have hdp : d ≠ path := by
        rintro rfl
        rw [hnone] at hd
        cases hd
      rw [namespaceAt_Store_of_ne _ _ hdp]
      exact hkeeps1 d w hd
    · intro d hd
      by_cases hdp : d = path
      · exact Or.inr (hdp ▸ List.prefix_refl _)
      · rw [namespaceAt_Store_of_ne _ _ hdp] at hd
        exact (hwithin1 d hd).imp id fun h' => h'.trans (List.dropLast_prefix path)

/-- A successful `addNamespace` found nothing at the directory, adds the
namespace and stores it there. -/
theorem addNamespace_eq_ok {ns : Namespace} {r' : NameResolver}
    (hadd : r.addNamespace ns = some (.ok r')) :
    r.namespaceAt ns.Path = none ∧ r'.sortedNamespaces = r.sortedNamespaces ++ [ns] ∧
      r'.rootNamespace = r.rootNamespace ∧
      ∀ d, r'.namespaceAt d = (r.Store ns.Path (some ns)).namespaceAt d := by
  unfold addNamespace at hadd
  split at hadd
  · split at hadd <;> cases hadd
  · cases hadd
  · rename_i hnone
    cases hadd
    exact ⟨hnone, rfl, rfl, fun _ => rfl⟩

/-- At a directory where a lookup cached another directory's namespace,
`addNamespace` fails. -/
theorem addNamespace_of_namespaceAt {ns existing : Namespace}
    (h : r.namespaceAt ns.Path = some (some existing)) (hpath : existing.Path ≠ ns.Path) :
    r.addNamespace ns = some (.error "a namespace must be the first module in the file") := by
  unfold addNamespace
  rw [h]
  simp [hpath]

/-- Under the invariant `addNamespace` does not panic. -/
theorem Inv.addNamespace_ne_none (h : r.Inv) (ns : Namespace) : r.addNamespace ns ≠ none := by
  unfold addNamespace
  split
  · split <;> simp
  · rename_i hnil
    exact absurd hnil (h.ne_some_none _)
  · simp

/-- `addNamespace` keeps the invariant: the new directory is out of the map, so
it lies between no cached directory and its namespace. -/
theorem Inv.addNamespace (h : r.Inv) {ns : Namespace} {r' : NameResolver}
    (hadd : r.addNamespace ns = some (.ok r')) : r'.Inv := by
  obtain ⟨hnone, hsorted, hroot, hat⟩ := addNamespace_eq_ok hadd
  have hnot := h.path_ne_of_namespaceAt_eq_none hnone
  have hnodup : ((r.sortedNamespaces ++ [ns]).map Namespace.Path).Nodup := by
    rw [List.map_append, List.nodup_append]
    refine ⟨h.paths_nodup, by simp, ?_⟩
    intro a ha b hb hab
    rw [List.map_singleton, List.mem_singleton] at hb
    obtain ⟨x, hx, rfl⟩ := List.mem_map.1 ha
    exact hnot x hx (hab.trans hb)
  have hroot' : ∃ n ∈ r.sortedNamespaces ++ [ns], n.Path = [] :=
    ⟨_, List.mem_append_left _ h.root_mem, h.root_path⟩
  refine ⟨hsorted ▸ hnodup, hsorted ▸ hroot ▸ List.mem_append_left _ h.root_mem,
    hroot ▸ h.root_path, ?_, ?_, ?_⟩
  · intro n hn
    rw [hsorted] at hn
    rw [hat]
    rcases List.mem_append.1 hn with hn | hn
    · rw [namespaceAt_Store_of_ne _ _ (hnot n hn)]
      exact h.registered n hn
    · rw [List.mem_singleton.1 hn, namespaceAt_Store_self]
  · intro d v hd
    rw [hat] at hd
    rw [hsorted]
    by_cases hdp : d = ns.Path
    · rw [hdp, namespaceAt_Store_self] at hd
      rw [hdp, ← Option.some.inj hd]
      exact (lookupRef_self hnodup hroot' (List.mem_append_right _ (List.mem_singleton_self ns))).symm
    · rw [namespaceAt_Store_of_ne _ _ hdp] at hd
      have hv := h.cached d v hd
      obtain ⟨nsd, hnsd⟩ := Option.ne_none_iff_exists'.1 (lookupRef_ne_none h.hroot d)
      rw [hv, hnsd]
      refine (lookupRef_append_of_not_between hnodup h.hroot hnsd fun hpre => ?_).symm
      -- a new directory between `d` and its namespace would have been in the map
      by_contra hlt
      rw [hv, hnsd] at hd
      exact h.between d nsd hd ns.Path hpre (by omega) hnone
  · intro d n hd e he hlen
    rw [hat] at hd ⊢
    by_cases hdp : d = ns.Path
    · rw [hdp, namespaceAt_Store_self] at hd
      cases hd
      rw [hdp] at he
      exact absurd he.length_le (by omega)
    · rw [namespaceAt_Store_of_ne _ _ hdp] at hd
      exact namespaceAt_Store_ne_none _ _ _ (h.between d n hd e he hlen)

end NameResolver

/-- `NewNameResolver`: the root namespace at `.`, visible to itself and added;
the error of that addition is ignored. -/
def NewNameResolver (namespaceExportFilter : Namespace → Bool) : NameResolver :=
  let rootNamespace : Namespace :=
    { NewNamespace [] with exportToKati := namespaceExportFilter (NewNamespace []) }
  let r : NameResolver := ⟨rootNamespace, [rootNamespace], [], [], namespaceExportFilter⟩
  match r.addNamespace rootNamespace with
  | some (.ok r') => r'
  | _ => r

/-- A new resolver holds the root namespace only, in the map at `.`. -/
theorem NewNameResolver_inv (namespaceExportFilter : Namespace → Bool) :
    (NewNameResolver namespaceExportFilter).Inv := by
  have hroot : (NewNameResolver namespaceExportFilter).rootNamespace =
      ⟨[], namespaceExportFilter (NewNamespace [])⟩ := rfl
  have hsorted : (NewNameResolver namespaceExportFilter).sortedNamespaces =
      [⟨[], namespaceExportFilter (NewNamespace [])⟩] := rfl
  have hmap : ∀ d, (NewNameResolver namespaceExportFilter).namespaceAt d =
      GoMap.get? [(([] : List String), some (⟨[], namespaceExportFilter (NewNamespace [])⟩
        : Namespace))] d := fun _ => rfl
  -- the only entry of the map is the root's, at `.`
  have hat : ∀ d v, GoMap.get? [(([] : List String), some (⟨[], namespaceExportFilter (NewNamespace [])⟩
      : Namespace))] d = some v → d = [] ∧ v = some ⟨[], namespaceExportFilter (NewNamespace [])⟩ := by
    intro d v hd
    by_cases hdp : ([] : List String) = d
    · subst hdp
      simp only [GoMap.get?, if_true, Option.some.injEq] at hd
      exact ⟨rfl, hd.symm⟩
    · simp [GoMap.get?, hdp] at hd
  refine ⟨by simp [hsorted], by simp [hroot, hsorted], by rw [hroot], ?_, ?_, ?_⟩
  · intro ns hns
    rw [hsorted, List.mem_singleton] at hns
    rw [hmap, hns]
    simp [GoMap.get?]
  · intro d v hd
    rw [hmap] at hd
    obtain ⟨rfl, rfl⟩ := hat d v hd
    simp [hsorted, lookupRef]
  · intro d ns hd e he hlen
    rw [hmap] at hd
    obtain ⟨rfl, -⟩ := hat d _ hd
    rw [List.prefix_nil.1 he] at hlen
    simp at hlen

namespace NameResolver

/-- An operation of a run: adding a namespace at a directory, or looking up the
namespace of a directory. -/
inductive Op
  | addNamespace (path : List String)
  | findNamespace (path : List String)

/-- What an operation gives back: the error of an addition, or the namespace a
lookup found. -/
inductive Result
  | added (err : Option String)
  | found (ns : Option Namespace)

/-- One operation; `none` is a panic. -/
def step (r : NameResolver) : Op → Option (Result × NameResolver)
  | .addNamespace path =>
    match r.addNamespace (r.newNamespace path) with
    | some (.ok r') => some (.added none, r')
    | some (.error err) => some (.added (some err), r)
    | none => none
  | .findNamespace path => some (.found (r.findNamespace path).1, (r.findNamespace path).2)

/-- A run of operations, with what each gave back. -/
def run (r : NameResolver) : List Op → Option (List Result × NameResolver)
  | [] => some ([], r)
  | op :: ops =>
    (r.step op).bind fun (res, r) => (run r ops).map fun (results, r) => (res :: results, r)

/-- Every entry of the map of `r` is one of `r'`. -/
def Keeps (r r' : NameResolver) : Prop := ∀ d v, r.namespaceAt d = some v → r'.namespaceAt d = some v

theorem Keeps.trans {r₁ r₂ r₃ : NameResolver} (h₁ : Keeps r₁ r₂) (h₂ : Keeps r₂ r₃) : Keeps r₁ r₃ :=
  fun d v hd => h₂ d v (h₁ d v hd)

variable {r : NameResolver}

/-- **One operation keeps the invariant and the entries of the map**, and a
lookup answers `lookupRef` and caches it. -/
theorem Inv.step (h : r.Inv) (op : Op) :
    ∃ res r', r.step op = some (res, r') ∧ r'.Inv ∧ Keeps r r' ∧
      ∀ p, op = .findNamespace p → res = .found (lookupRef r.sortedNamespaces p) ∧
        r'.namespaceAt p = some (lookupRef r.sortedNamespaces p) := by
  cases op with
  | addNamespace path =>
    cases hadd : r.addNamespace (r.newNamespace path) with
    | none => exact absurd hadd (h.addNamespace_ne_none _)
    | some result =>
      cases result with
      | error err =>
        exact ⟨.added (some err), r, by simp [NameResolver.step, hadd], h, fun _ _ hd => hd, by simp⟩
      | ok r' =>
        refine ⟨.added none, r', by simp [NameResolver.step, hadd], h.addNamespace hadd, ?_, by simp⟩
        -- the directory added was out of the map, so every entry stays
        obtain ⟨hnone, -, -, hat⟩ := addNamespace_eq_ok hadd
        intro d v hd
        have hdp : d ≠ (r.newNamespace path).Path := by
          intro hdp
          rw [hdp, hnone] at hd
          cases hd
        rw [hat, namespaceAt_Store_of_ne _ _ hdp]
        exact hd
  | findNamespace path =>
    have hf := findNamespace_spec h path
    refine ⟨_, _, rfl, hf.inv, hf.keeps, fun p hp => ?_⟩
    cases hp
    exact ⟨by rw [hf.answer], hf.cached_here⟩

theorem run_cons_eq_some {op : Op} {ops : List Op} {results : List Result} {r' : NameResolver}
    (hrun : r.run (op :: ops) = some (results, r')) :
    ∃ res results' r₁, r.step op = some (res, r₁) ∧ r₁.run ops = some (results', r') ∧
      results = res :: results' := by
  simp only [NameResolver.run, Option.bind_eq_some_iff, Option.map_eq_some_iff] at hrun
  obtain ⟨⟨res, r₁⟩, hstep, ⟨results', r''⟩, hrest, heq⟩ := hrun
  simp only [Prod.mk.injEq] at heq
  obtain ⟨rfl, rfl⟩ := heq
  exact ⟨res, results', r₁, hstep, hrest, rfl⟩

/-- **A run keeps the invariant** and the entries of the map, and does not
panic. -/
theorem Inv.run (h : r.Inv) (ops : List Op) :
    ∃ results r', r.run ops = some (results, r') ∧ r'.Inv ∧ Keeps r r' ∧
      results.length = ops.length := by
  induction ops generalizing r with
  | nil => exact ⟨[], r, rfl, h, fun _ _ hd => hd, rfl⟩
  | cons op ops ih =>
    obtain ⟨res, r₁, hstep, hinv₁, hkeeps₁, -⟩ := h.step op
    obtain ⟨results, r', hrun, hinv', hkeeps', hlen⟩ := ih hinv₁
    refine ⟨res :: results, r', ?_, hinv', hkeeps₁.trans hkeeps', by simp [hlen]⟩
    simp [NameResolver.run, hstep, hrun]

/-- **Every lookup of a run answers as `lookupRef` over the namespaces added by
the end of the run**: its answer stays cached, and the cache agrees with
`lookupRef` at the end. -/
theorem Inv.run_found (h : r.Inv) {ops : List Op} {results : List Result} {r' : NameResolver}
    (hrun : r.run ops = some (results, r')) (i : ℕ) (p : List String)
    (hop : ops[i]? = some (.findNamespace p)) :
    results[i]? = some (.found (lookupRef r'.sortedNamespaces p)) := by
  induction ops generalizing r results i with
  | nil => simp at hop
  | cons op ops ih =>
    obtain ⟨res, results', r₁, hstep, hrest, rfl⟩ := run_cons_eq_some hrun
    obtain ⟨res₁, r₁', hstep₁, hinv₁, -, hfind⟩ := h.step op
    rw [hstep] at hstep₁
    cases hstep₁
    cases i with
    | zero =>
      simp only [List.getElem?_cons_zero, Option.some.injEq] at hop
      obtain ⟨hres, hcached⟩ := hfind p hop
      obtain ⟨results'', r'', hrun'', hinv'', hkeeps'', -⟩ := hinv₁.run ops
      rw [hrest] at hrun''
      cases hrun''
      rw [List.getElem?_cons_zero, hres, hinv''.cached p _ (hkeeps'' p _ hcached)]
    | succ i =>
      rw [List.getElem?_cons_succ] at hop ⊢
      exact ih hinv₁ hrest i hop

/-- In a run, an addition at a directory where a lookup has cached another
directory's namespace fails. -/
theorem run_added_of_cached {ops : List Op} {results : List Result} {r' : NameResolver}
    (hrun : r.run ops = some (results, r')) (i : ℕ) (d : List String) (rᵢ : NameResolver)
    (ns : Namespace) (hop : ops[i]? = some (.addNamespace d))
    (hupto : (r.run (ops.take i)).map Prod.snd = some rᵢ)
    (hat : rᵢ.namespaceAt d = some (some ns)) (hpath : ns.Path ≠ d) :
    results[i]? = some (.added (some "a namespace must be the first module in the file")) := by
  induction ops generalizing r results i with
  | nil => simp at hop
  | cons op ops ih =>
    obtain ⟨res, results', r₁, hstep, hrest, rfl⟩ := run_cons_eq_some hrun
    cases i with
    | zero =>
      simp only [List.getElem?_cons_zero, Option.some.injEq] at hop
      subst hop
      simp only [List.take_zero, NameResolver.run, Option.map_some, Option.some.injEq] at hupto
      subst hupto
      have hadd := @addNamespace_of_namespaceAt r (r.newNamespace d) ns hat hpath
      simp only [NameResolver.step, hadd, Option.some.injEq, Prod.mk.injEq] at hstep
      rw [List.getElem?_cons_zero, ← hstep.1]
    | succ i =>
      rw [List.getElem?_cons_succ] at hop ⊢
      rw [List.take_succ_cons] at hupto
      simp only [NameResolver.run, hstep, Option.bind_some, Option.map_map] at hupto
      exact ih hrest i hop (by simpa using hupto)

end NameResolver

open NameResolver in
theorem findNamespace_run_longest_ancestor (namespaceExportFilter : Namespace → Bool)
    (ops : List Op) :
    ∃ results r, (NewNameResolver namespaceExportFilter).run ops = some (results, r) ∧
      results.length = ops.length ∧
      (r.sortedNamespaces.map Namespace.Path).Nodup ∧
      r.rootNamespace ∈ r.sortedNamespaces ∧ r.rootNamespace.Path = [] ∧
      (∀ (i : ℕ) (p : List String), ops[i]? = some (Op.findNamespace p) →
        ∃ ns, results[i]? = some (Result.found (some ns)) ∧ ns ∈ r.sortedNamespaces ∧ ns.Path <+: p ∧
          ∀ ns' ∈ r.sortedNamespaces, ns'.Path <+: p → ns'.Path.length ≤ ns.Path.length) ∧
      (∀ (i : ℕ) (d : List String) (rᵢ : NameResolver) (ns : Namespace),
        ops[i]? = some (Op.addNamespace d) →
        ((NewNameResolver namespaceExportFilter).run (ops.take i)).map Prod.snd = some rᵢ →
        rᵢ.namespaceAt d = some (some ns) → ns.Path ≠ d →
        results[i]? = some (Result.added (some "a namespace must be the first module in the file"))) := by
  have hnew := NewNameResolver_inv namespaceExportFilter
  obtain ⟨results, r, hrun, hinv, -, hlen⟩ := hnew.run ops
  refine ⟨results, r, hrun, hlen, hinv.paths_nodup, hinv.root_mem, hinv.root_path, ?_,
    fun i d rᵢ ns hop hupto hat hpath => run_added_of_cached hrun i d rᵢ ns hop hupto hat hpath⟩
  intro i p hop
  -- the answer is `lookupRef` at the end of the run, the longest ancestor there
  obtain ⟨ns, hns⟩ := Option.ne_none_iff_exists'.1 (lookupRef_ne_none hinv.hroot p)
  obtain ⟨hmem, hpre, hlong⟩ := isLongest_of_lookupRef hns
  refine ⟨ns, ?_, hmem, hpre, hlong⟩
  rw [hnew.run_found hrun i p hop, hns]

end Soong
