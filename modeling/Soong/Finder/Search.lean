import Mathlib
import Soong.Finder.Db

/-!
# Searching the finder's tree

`finder/finder.go`.  A search walks the cached tree from a start node.  At
each directory, `listMatches` shows a `WalkFunc` the names of the children and
the file names; the filter returns the directories to walk and the files that
match.  `findInCacheSinglethreaded` walks breadth first with a queue;
`findInCacheMultithreaded` shares a budget of threads among the selected
children in proportion to their `approximateNumDescendents`, starts one
goroutine for each, and collects their results from a channel in whatever
order they arrive.

Go iterates a map in a random order, again at every `range`, so each visit may
show the filter the child names in another order.  The models are relations:
a search may return every result some run of the code returns.

## Main definitions

* `pathMap`, with `newPathMap`, `newChild`, `UpdateNumDescendents`,
  `UpdateNumDescendentsRecursive` and `MergeIn`.
* `CountsPositive`, `FinderTree` — every node counts at least itself.
* `listMatches`, `findInCacheSinglethreaded`, `findInCacheMultithreaded`.
* `findReference` — the files the filter selects, walked depth first.
* `OrderInvariant` — a filter whose selections do not depend on the order of
  the names.

## Main results

* `CountsPositive.MergeIn`, `countsPositive_UpdateNumDescendentsRecursive` —
  the tree's operations keep every count positive, so no search divides by a
  zero `totalWork`.
* `findInCacheSinglethreaded_perm`, `findInCacheMultithreaded_perm` — with an
  order-invariant filter, every result is a reordering of the reference.
* `singleLoop_exists`, `findInCacheMultithreaded_exists` — both searches
  return.
* `findInCacheMultithreaded_perm_singlethreaded` — the two searches agree up
  to order; `findInCache_firstDirOnly` — not with a filter that depends on the
  order of the names.
* `FindMatchingFrom_eq` — the sorted results do not depend on the schedule.
-/

namespace List

variable {α β : Type*}

/-- Concatenating results that each reorder `f` of their element reorders the
concatenation of `f`. -/
theorem flatten_perm_flatMap_of_zip {f : α → List β} :
    ∀ (l : List α) (rs : List (List β)), rs.length = l.length →
      (∀ p ∈ l.zip rs, p.2.Perm (f p.1)) → rs.flatten.Perm (l.flatMap f)
  | [], [], _, _ => .refl _
  | a :: l, r :: rs, hlen, h => by
    have hhead : r.Perm (f a) := h (a, r) List.mem_cons_self
    have htail : rs.flatten.Perm (l.flatMap f) :=
      flatten_perm_flatMap_of_zip l rs (by simpa using hlen)
        fun p hp => h p (List.mem_cons_of_mem _ hp)
    simpa using hhead.append htail

/-- A result for each element gives a list of results, element by element. -/
theorem exists_zip_of_forall_exists {R : α → β → Prop} :
    ∀ (l : List α), (∀ a ∈ l, ∃ b, R a b) →
      ∃ rs : List β, rs.length = l.length ∧ ∀ p ∈ l.zip rs, R p.1 p.2
  | [], _ => ⟨[], rfl, by simp⟩
  | a :: l, h => by
    obtain ⟨b, hb⟩ := h a List.mem_cons_self
    obtain ⟨rs, hlen, hrs⟩ := exists_zip_of_forall_exists l fun a' ha' =>
      h a' (List.mem_cons_of_mem _ ha')
    refine ⟨b :: rs, by simp [hlen], ?_⟩
    rintro p (_ | ⟨_, hp⟩)
    · exact hb
    · exact hrs p hp

end List

namespace Soong

namespace finder

namespace search

/-! ### The tree -/

/-- `mapNode`: a directory's stat (Go's embedded `statResponse`) and the names
of its files. -/
structure mapNode where
  ModTime : ℤ
  Inode : ℕ
  Device : ℕ
  FileNames : List String
  deriving DecidableEq, Repr

/-- `pathMap` with every field the search reads: the node, its path, its
children by name (a Go map, in one iteration order) and the approximate number
of nodes in its subtree.  `Soong.finder.pathMap` is the same tree without the
path and the count, which the dump does not read. -/
inductive pathMap where
  | mk (mapNode : mapNode) (path : String) (children : List (String × pathMap))
      (approximateNumDescendents : ℕ)

@[simp] def pathMap.mapNode : pathMap → mapNode
  | .mk node _ _ _ => node

@[simp] def pathMap.path : pathMap → String
  | .mk _ path _ _ => path

@[simp] def pathMap.children : pathMap → List (String × pathMap)
  | .mk _ _ children _ => children

@[simp] def pathMap.approximateNumDescendents : pathMap → ℕ
  | .mk _ _ _ n => n

/-- `newPathMap`: a node with a zero stat, no children and a count of one. -/
def newPathMap (path : String) : pathMap := .mk ⟨0, 0, 0, []⟩ path [] 1

/-- `newChild`: the tree with a new node under `name`, at the joined path, and
that node. -/
def pathMap.newChild : pathMap → String → pathMap × pathMap
  | .mk node path children n, name =>
    let newChild := newPathMap (joinCleanPaths path name)
    (.mk node path (GoMap.set children name newChild) n, newChild)

/-- The children's counts added up: the `totalWork` of the search, and what
`UpdateNumDescendents` adds to one. -/
def childrenWork (children : List (String × pathMap)) : ℕ :=
  (children.map fun e => e.2.approximateNumDescendents).sum

/-- `UpdateNumDescendents`: the node counts itself and its children's counts. -/
def pathMap.UpdateNumDescendents : pathMap → pathMap
  | .mk node path children _ => .mk node path children (1 + childrenWork children)

mutual

/-- `UpdateNumDescendentsRecursive`: the counts of the whole subtree, from the
leaves up. -/
def pathMap.UpdateNumDescendentsRecursive : pathMap → pathMap
  | .mk node path children n =>
    (pathMap.mk node path (updateChildren children) n).UpdateNumDescendents

/-- The loop of `UpdateNumDescendentsRecursive` over the children. -/
def updateChildren : List (String × pathMap) → List (String × pathMap)
  | [] => []
  | (name, child) :: children =>
    (name, child.UpdateNumDescendentsRecursive) :: updateChildren children

end

mutual

/-- `MergeIn`: the children of `other` are merged into those of the same name,
or added; a stat with a modification time replaces the node's; then the node
is counted again. -/
def pathMap.MergeIn : pathMap → pathMap → pathMap
  | .mk node path children n, .mk otherNode _ otherChildren _ =>
    (pathMap.mk (if otherNode.ModTime ≠ 0 then otherNode else node) path
      (mergeChildren children otherChildren) n).UpdateNumDescendents

/-- The loop of `MergeIn` over the other map's children. -/
def mergeChildren (ours : List (String × pathMap)) :
    List (String × pathMap) → List (String × pathMap)
  | [] => ours
  | (key, theirs) :: others =>
    mergeChildren
      (GoMap.set ours key ((GoMap.get? ours key).elim theirs fun o => o.MergeIn theirs)) others

end

/-! ### The counts -/

/-- Every node of the tree counts at least itself.  The search divides by the
children's total count, which is then positive whenever there is a child. -/
inductive CountsPositive : pathMap → Prop
  | mk {mapNode : mapNode} {path : String} {children : List (String × pathMap)} {n : ℕ} :
      0 < n → (∀ e ∈ children, CountsPositive e.2) → CountsPositive (.mk mapNode path children n)

theorem countsPositive_mk_iff {node : mapNode} {path : String} {children : List (String × pathMap)}
    {n : ℕ} :
    CountsPositive (.mk node path children n) ↔ 0 < n ∧ ∀ e ∈ children, CountsPositive e.2 :=
  ⟨fun | .mk hn hc => ⟨hn, hc⟩, fun ⟨hn, hc⟩ => .mk hn hc⟩

theorem CountsPositive.pos {m : pathMap} (h : CountsPositive m) : 0 < m.approximateNumDescendents := by
  cases h with
  | mk hn _ => exact hn

/-- A child's count is part of the total. -/
theorem le_childrenWork {children : List (String × pathMap)} {e : String × pathMap}
    (he : e ∈ children) : e.2.approximateNumDescendents ≤ childrenWork children :=
  List.le_sum_of_mem (List.mem_map_of_mem he)

theorem countsPositive_newPathMap (path : String) : CountsPositive (newPathMap path) :=
  .mk Nat.one_pos (by simp)

theorem CountsPositive.newChild {m : pathMap} (h : CountsPositive m) (name : String) :
    CountsPositive (m.newChild name).1 := by
  obtain ⟨node, path, children, n⟩ := m
  obtain ⟨hn, hc⟩ := countsPositive_mk_iff.mp h
  refine .mk hn fun e he => ?_
  -- the new pair, or one of the old children
  rcases GoMap.mem_set he with he | rfl
  · exact hc e he
  · exact countsPositive_newPathMap _

theorem CountsPositive.UpdateNumDescendents {m : pathMap}
    (hc : ∀ e ∈ m.children, CountsPositive e.2) : CountsPositive m.UpdateNumDescendents := by
  obtain ⟨node, path, children, n⟩ := m
  exact .mk (by omega) hc

mutual

/-- Counting a whole subtree again makes every count positive, whatever the
counts were. -/
theorem countsPositive_UpdateNumDescendentsRecursive :
    ∀ m : pathMap, CountsPositive m.UpdateNumDescendentsRecursive
  | .mk node path children n => by
    rw [pathMap.UpdateNumDescendentsRecursive]
    exact CountsPositive.UpdateNumDescendents (countsPositive_updateChildren children)

theorem countsPositive_updateChildren :
    ∀ children : List (String × pathMap), ∀ e ∈ updateChildren children, CountsPositive e.2
  | [], e, he => by simp [updateChildren] at he
  | (name, child) :: children, e, he => by
    rw [updateChildren, List.mem_cons] at he
    rcases he with rfl | he
    · exact countsPositive_UpdateNumDescendentsRecursive child
    · exact countsPositive_updateChildren children e he

end

/-- The loop of `MergeIn` keeps the children positive, when each child merged
in is positive and merging it into a positive node gives a positive one. -/
theorem countsPositive_mergeChildren {others : List (String × pathMap)}
    (hothers : ∀ e ∈ others, CountsPositive e.2 ∧
      ∀ m, CountsPositive m → CountsPositive (m.MergeIn e.2)) :
    ∀ ours : List (String × pathMap), (∀ e ∈ ours, CountsPositive e.2) →
      ∀ e ∈ mergeChildren ours others, CountsPositive e.2 := by
  induction others with
  | nil =>
    intro ours hours
    exact hours
  | cons p others ih =>
    obtain ⟨key, theirs⟩ := p
    obtain ⟨htheirs, hmerge⟩ := hothers _ List.mem_cons_self
    intro ours hours
    rw [mergeChildren]
    refine ih (fun e he => hothers e (List.mem_cons_of_mem _ he)) _ ?_
    intro e he
    -- the pair just set holds `theirs`, or ours merged with it
    rcases GoMap.mem_set he with he | rfl
    · exact hours e he
    · cases hget : GoMap.get? ours key with
      | none => exact htheirs
      | some o => exact hmerge o (hours _ (GoMap.mem_of_get?_eq_some hget))

/-- **Merging keeps the counts positive.**  By induction on the tree merged
in: a child merged into ours is merged by the induction hypothesis. -/
theorem CountsPositive.MergeIn {m other : pathMap} (hm : CountsPositive m)
    (hother : CountsPositive other) : CountsPositive (m.MergeIn other) := by
  induction hother generalizing m with
  | @mk otherNode otherPath otherChildren n' _ hothers ih =>
    obtain ⟨node, path, children, n⟩ := m
    have hchildren := (countsPositive_mk_iff.mp hm).2
    rw [pathMap.MergeIn]
    refine CountsPositive.UpdateNumDescendents ?_
    exact countsPositive_mergeChildren (fun e he => ⟨hothers e he, fun _ hm' => ih e he hm'⟩)
      children hchildren

/-- **The operations on the finder's tree keep every count positive**: a new
tree, a new child, counting a subtree again, and merging another tree in. -/
theorem countsPositive_operations :
    (∀ path, CountsPositive (newPathMap path)) ∧
    (∀ m : pathMap, CountsPositive m → ∀ name, CountsPositive (m.newChild name).1) ∧
    (∀ m : pathMap, CountsPositive m.UpdateNumDescendentsRecursive) ∧
    (∀ m other : pathMap, CountsPositive m → CountsPositive other →
      CountsPositive (m.MergeIn other)) :=
  ⟨countsPositive_newPathMap, fun _ h name => h.newChild name,
    countsPositive_UpdateNumDescendentsRecursive, fun _ _ hm ho => hm.MergeIn ho⟩

/-- A tree the finder keeps: every count positive. -/
structure FinderTree where
  root : pathMap
  counts_pos : CountsPositive root

/-! ### Matching one directory -/

/-- `DirEntries`: what a filter is shown of a directory. -/
structure DirEntries where
  Path : String
  DirNames : List String
  FileNames : List String
  deriving DecidableEq, Repr

/-- `WalkFunc`: from a directory's entries, the directories to walk and the
files that match. -/
abbrev WalkFunc := DirEntries → List String × List String

/-- `listMatches`: the children the filter selects and the paths of the files
it selects.  `names` is the order in which the loop over the children map
listed them; the entries' `Path` is never set.  A name the filter returns that
is no child's is skipped, and one it returns twice is walked twice. -/
def listMatches (node : pathMap) (filter : WalkFunc) (names : List String) :
    List pathMap × List String :=
  let result := filter ⟨"", names, node.mapNode.FileNames⟩
  (result.1.filterMap (GoMap.get? node.children), result.2.map (joinCleanPaths node.path))

/-- A selected directory is a child of the node. -/
theorem exists_mem_children_of_mem_listMatches {node child : pathMap} {filter : WalkFunc}
    {names : List String} (h : child ∈ (listMatches node filter names).1) :
    ∃ name, (name, child) ∈ node.children := by
  obtain ⟨name, -, hget⟩ := List.mem_filterMap.mp h
  exact ⟨name, GoMap.mem_of_get?_eq_some hget⟩

/-- A selected directory is smaller than the node: the searches go down. -/
theorem sizeOf_lt_of_mem_listMatches {node child : pathMap} {filter : WalkFunc}
    {names : List String} (h : child ∈ (listMatches node filter names).1) :
    sizeOf child < sizeOf node := by
  obtain ⟨name, hmem⟩ := exists_mem_children_of_mem_listMatches h
  obtain ⟨mapNode, path, children, n⟩ := node
  have hlt := List.sizeOf_lt_of_mem hmem
  simp only [pathMap.children, Prod.mk.sizeOf_spec] at hmem hlt
  simp only [pathMap.mk.sizeOf_spec]
  omega

/-- A filter whose selections do not depend on the order in which it is shown
the directory names: listing them in another order only reorders what it
returns. -/
def OrderInvariant (filter : WalkFunc) : Prop :=
  ∀ (entries : DirEntries) (DirNames : List String), DirNames.Perm entries.DirNames →
    (filter { entries with DirNames }).1.Perm (filter entries).1 ∧
      (filter { entries with DirNames }).2.Perm (filter entries).2

/-- With an order-invariant filter, the map order changes the matches of a
directory only by a reordering. -/
theorem listMatches_perm {filter : WalkFunc} (hfilter : OrderInvariant filter) (node : pathMap)
    {names names' : List String} (h : names'.Perm names) :
    (listMatches node filter names').1.Perm (listMatches node filter names).1 ∧
      (listMatches node filter names').2.Perm (listMatches node filter names).2 := by
  obtain ⟨hdirs, hfiles⟩ := hfilter ⟨"", names, node.mapNode.FileNames⟩ names' h
  exact ⟨hdirs.filterMap _, hfiles.map _⟩

/-! ### The reference -/

/-- What a search finds: the files the filter selects at the node, then the
reference of each directory it selects, in the map's own order.  A directory
selected twice is searched twice. -/
def findReference (filter : WalkFunc) (node : pathMap) : List String :=
  (listMatches node filter (GoMap.keys node.children)).2 ++
    (listMatches node filter (GoMap.keys node.children)).1.attach.flatMap
      fun child => findReference filter child.1
termination_by sizeOf node
decreasing_by exact sizeOf_lt_of_mem_listMatches child.2

theorem findReference_eq (filter : WalkFunc) (node : pathMap) :
    findReference filter node =
      (listMatches node filter (GoMap.keys node.children)).2 ++
        (listMatches node filter (GoMap.keys node.children)).1.flatMap (findReference filter) := by
  rw [findReference]
  simp

/-- How many directories a search visits from the node, itself included: the
measure that bounds the single-threaded loop. -/
def visits (filter : WalkFunc) (node : pathMap) : ℕ :=
  1 + ((listMatches node filter (GoMap.keys node.children)).1.attach.map
    fun child => visits filter child.1).sum
termination_by sizeOf node
decreasing_by exact sizeOf_lt_of_mem_listMatches child.2

theorem visits_eq (filter : WalkFunc) (node : pathMap) :
    visits filter node =
      1 + ((listMatches node filter (GoMap.keys node.children)).1.map (visits filter)).sum := by
  rw [visits]
  simp

/-! ### The single-threaded search -/

/-- The loop of `findInCacheSinglethreaded`: from the queue `nodes` and the
matches found so far, the matches it returns.  Each visit lists the children in an
order of its own, as every `range` over a Go map does. -/
inductive singleLoop (filter : WalkFunc) : List pathMap → List String → List String → Prop
  | done (found : List String) : singleLoop filter [] found found
  | visit {currentNode : pathMap} {nodes : List pathMap} {found result : List String}
      (names : List String) :
      names.Perm (GoMap.keys currentNode.children) →
      singleLoop filter (nodes ++ (listMatches currentNode filter names).1)
        (found ++ (listMatches currentNode filter names).2) result →
      singleLoop filter (currentNode :: nodes) found result

/-- `findInCacheSinglethreaded`: the results the loop may return from the
start node alone. -/
def findInCacheSinglethreaded (node : pathMap) (filter : WalkFunc) (result : List String) : Prop :=
  singleLoop filter [node] [] result

/-- **The loop returns.**  Each visit replaces a node by the directories it
selects, so the visits still to make go down by one. -/
theorem singleLoop_exists (filter : WalkFunc) (nodes : List pathMap) (found : List String) :
    ∃ result, singleLoop filter nodes found result := by
  match nodes with
  | [] => exact ⟨found, .done found⟩
  | currentNode :: nodes =>
    let next := listMatches currentNode filter (GoMap.keys currentNode.children)
    obtain ⟨result, hresult⟩ := singleLoop_exists filter (nodes ++ next.1) (found ++ next.2)
    exact ⟨result, .visit _ (List.Perm.refl _) hresult⟩
termination_by (nodes.map (visits filter)).sum
decreasing_by
  have hvisit := visits_eq filter currentNode
  simp only [List.map_append, List.sum_append, List.map_cons, List.sum_cons]
  omega

/-- **The loop finds the reference of every queued node.**  By induction on
the run: a visit trades the node's reference for its own matches and the
references of the directories it queues, up to the order of the map. -/
theorem singleLoop_perm {filter : WalkFunc} (hfilter : OrderInvariant filter)
    {nodes : List pathMap} {found result : List String}
    (h : singleLoop filter nodes found result) :
    result.Perm (found ++ nodes.flatMap (findReference filter)) := by
  induction h with
  | done found => simp
  | @visit currentNode nodes found result names hnames _ ih =>
    obtain ⟨hdirs, hfiles⟩ := listMatches_perm hfilter currentNode hnames
    have hrefs := hdirs.flatMap_right (findReference filter)
    refine ih.trans ?_
    rw [List.flatMap_cons, findReference_eq, List.flatMap_append]
    simp only [List.append_assoc]
    -- the directories queued now are searched after the rest of the queue
    exact (hfiles.append (List.perm_append_comm.trans (hrefs.append_right _))).append_left found

theorem findInCacheSinglethreaded_perm {filter : WalkFunc} (hfilter : OrderInvariant filter)
    {node : pathMap} {result : List String} (h : findInCacheSinglethreaded node filter result) :
    result.Perm (findReference filter node) := by
  simpa using singleLoop_perm hfilter h

/-! ### The multithreaded search -/

/-- `numChildThreads`: a child's share of the budget, by Go's integer division
(truncating; Go panics on a zero divisor). -/
def numChildThreads (approxNumThreads : ℤ) (child : pathMap) (totalWork : ℕ) : ℤ :=
  (approxNumThreads * child.approximateNumDescendents).tdiv totalWork

/-- `findInCacheMultithreaded`: the results the search may return from a node
with a budget of threads. -/
inductive findInCacheMultithreaded (filter : WalkFunc) : pathMap → ℤ → List String → Prop
  /-- Fewer than two threads: the single-threaded search. -/
  | single {node : pathMap} {approxNumThreads : ℤ} {result : List String} :
      approxNumThreads < 2 → findInCacheSinglethreaded node filter result →
      findInCacheMultithreaded filter node approxNumThreads result
  /-- A goroutine for each selected child, with its share of the budget; the
  results arrive in any order.  The channel holds as many results as there are
  children; a name selected twice can make more goroutines than that, which then
  wait for the collector, and it takes one result for each.  When a child is
  selected and the counts of the children add up to zero, the division panics
  and nothing is returned. -/
  | spawn {node : pathMap} {approxNumThreads : ℤ} (names : List String)
      (childResults received : List (List String)) :
      2 ≤ approxNumThreads →
      names.Perm (GoMap.keys node.children) →
      ((listMatches node filter names).1 ≠ [] → 0 < childrenWork node.children) →
      childResults.length = (listMatches node filter names).1.length →
      (∀ p ∈ (listMatches node filter names).1.zip childResults,
        findInCacheMultithreaded filter p.1
          (numChildThreads approxNumThreads p.1 (childrenWork node.children)) p.2) →
      received.Perm childResults →
      findInCacheMultithreaded filter node approxNumThreads
        ((listMatches node filter names).2 ++ received.flatten)

/-- **The multithreaded search finds the reference.**  By induction on the
run: each child's results reorder its reference, and the channel only reorders
the children. -/
theorem findInCacheMultithreaded_perm {filter : WalkFunc} (hfilter : OrderInvariant filter)
    {node : pathMap} {approxNumThreads : ℤ} {result : List String}
    (h : findInCacheMultithreaded filter node approxNumThreads result) :
    result.Perm (findReference filter node) := by
  induction h with
  | single _ hsingle => exact findInCacheSinglethreaded_perm hfilter hsingle
  | @spawn node approxNumThreads names childResults received _ hnames _ hlen _ hreceived ih =>
    obtain ⟨hdirs, hfiles⟩ := listMatches_perm hfilter node hnames
    have hchildren : childResults.flatten.Perm
        ((listMatches node filter names).1.flatMap (findReference filter)) :=
      List.flatten_perm_flatMap_of_zip _ _ hlen ih
    rw [findReference_eq]
    exact hfiles.append (hreceived.flatten.trans
      (hchildren.trans (hdirs.flatMap_right (findReference filter))))

/-- **The multithreaded search returns** from every node of a Finder tree,
whatever the budget.  By induction on the invariant: each selected child has a
run, and the positive counts rule out the division by zero. -/
theorem findInCacheMultithreaded_exists (filter : WalkFunc) {node : pathMap}
    (hnode : CountsPositive node) (approxNumThreads : ℤ) :
    ∃ result, findInCacheMultithreaded filter node approxNumThreads result := by
  induction hnode generalizing approxNumThreads with
  | @mk mapNode path children n _ hchildren ih =>
    by_cases hsingle : approxNumThreads < 2
    · obtain ⟨result, hresult⟩ := singleLoop_exists filter [.mk mapNode path children n] []
      exact ⟨result, .single hsingle hresult⟩
    · let node : pathMap := .mk mapNode path children n
      let subDirs := (listMatches node filter (GoMap.keys children)).1
      have hruns : ∀ child ∈ subDirs, ∃ r, findInCacheMultithreaded filter child
          (numChildThreads approxNumThreads child (childrenWork children)) r := by
        intro child hchild
        obtain ⟨name, hmem⟩ := exists_mem_children_of_mem_listMatches hchild
        exact ih (name, child) hmem _
      obtain ⟨childResults, hlen, hzip⟩ := List.exists_zip_of_forall_exists subDirs hruns
      -- a selected child counts at least one, so the total is positive
      have hwork : subDirs ≠ [] → 0 < childrenWork children := by
        intro hne
        obtain ⟨child, hchild⟩ := List.exists_mem_of_ne_nil subDirs hne
        obtain ⟨name, hmem⟩ := exists_mem_children_of_mem_listMatches hchild
        exact Nat.lt_of_lt_of_le (hchildren _ hmem).pos (le_childrenWork hmem)
      exact ⟨_, .spawn (GoMap.keys children) childResults childResults (by omega)
        (List.Perm.refl _) hwork hlen hzip (List.Perm.refl _)⟩

/-! ### The two searches agree -/

/-- **Both searches return, and every result of either is a reordering of the
reference**, for every start node of a Finder tree (every node of one is one,
`CountsPositive.child`), every budget of threads and every filter that does not
depend on the order of the names it is shown. -/
theorem findInCacheMultithreaded_perm_singlethreaded (node : FinderTree) (filter : WalkFunc)
    (hfilter : OrderInvariant filter) (approxNumThreads : ℤ) :
    (∃ result, findInCacheMultithreaded filter node.root approxNumThreads result) ∧
      (∃ result, findInCacheSinglethreaded node.root filter result) ∧
      ∀ multi single, findInCacheMultithreaded filter node.root approxNumThreads multi →
        findInCacheSinglethreaded node.root filter single →
        multi.Perm single ∧ single.Perm (findReference filter node.root) := by
  refine ⟨findInCacheMultithreaded_exists filter node.counts_pos approxNumThreads,
    singleLoop_exists filter [node.root] [], fun multi single hmulti hsingle => ?_⟩
  have hreference := findInCacheSinglethreaded_perm hfilter hsingle
  exact ⟨(findInCacheMultithreaded_perm hfilter hmulti).trans hreference.symm, hreference⟩

/-- The filter that walks every directory and keeps every file. -/
def walkAll : WalkFunc := fun entries => (entries.DirNames, entries.FileNames)

/-- A root `/r` with the directories `a` and `b`, which hold `x` and `y`. -/
def twoDirs : FinderTree where
  root := .mk ⟨1, 1, 1, []⟩ "/r"
    [("a", .mk ⟨1, 2, 1, ["x"]⟩ "/r/a" [] 1), ("b", .mk ⟨1, 3, 1, ["y"]⟩ "/r/b" [] 1)] 3
  counts_pos := by
    refine .mk (by decide) fun e he => ?_
    simp only [List.mem_cons, List.not_mem_nil, or_false] at he
    rcases he with rfl | rfl
    · exact .mk (by decide) (by simp)
    · exact .mk (by decide) (by simp)

theorem findInCacheMultithreaded_perm_singlethreaded_twoDirs :
    OrderInvariant walkAll ∧
      ((∃ result, findInCacheMultithreaded walkAll twoDirs.root 4 result) ∧
        (∃ result, findInCacheSinglethreaded twoDirs.root walkAll result) ∧
        ∀ multi single, findInCacheMultithreaded walkAll twoDirs.root 4 multi →
          findInCacheSinglethreaded twoDirs.root walkAll single →
          multi.Perm single ∧ single.Perm (findReference walkAll twoDirs.root)) :=
  ⟨fun _ _ h => ⟨h, .refl _⟩,
    findInCacheMultithreaded_perm_singlethreaded twoDirs walkAll (fun _ _ h => ⟨h, .refl _⟩) 4⟩

/-- A filter that walks only the first directory it is shown. -/
def firstDirOnly : WalkFunc := fun entries => (entries.DirNames.take 1, entries.FileNames)

/-- With a filter that depends on the order of the names, the two searches
over the same tree can find different files: the map may list `a` first to
the one and `b` first to the other. -/
theorem findInCache_firstDirOnly :
    findInCacheMultithreaded firstDirOnly twoDirs.root 3 ["/r/a/x"] ∧
      findInCacheSinglethreaded twoDirs.root firstDirOnly ["/r/b/y"] := by
  let dirA : pathMap := .mk ⟨1, 2, 1, ["x"]⟩ "/r/a" [] 1
  constructor
  · -- the map lists `a` first; with three threads, `a` gets a budget of one
    have hsubDirs : (listMatches twoDirs.root firstDirOnly ["a", "b"]).1 = [dirA] := rfl
    have hshare : numChildThreads 3 dirA (childrenWork twoDirs.root.children) = 1 := by decide
    have hdirA : findInCacheMultithreaded firstDirOnly dirA 1 ["/r/a/x"] :=
      .single (by decide) (.visit [] (by decide) (.done _))
    have hzip : ∀ p ∈ (listMatches twoDirs.root firstDirOnly ["a", "b"]).1.zip [["/r/a/x"]],
        findInCacheMultithreaded firstDirOnly p.1
          (numChildThreads 3 p.1 (childrenWork twoDirs.root.children)) p.2 := by
      rw [hsubDirs]
      intro p hp
      rw [List.zip_cons_cons, List.zip_nil_left, List.mem_singleton] at hp
      subst hp
      rw [hshare]
      exact hdirA
    exact @findInCacheMultithreaded.spawn firstDirOnly twoDirs.root 3 ["a", "b"] [["/r/a/x"]]
      [["/r/a/x"]] (by decide) (by decide) (fun _ => by decide) rfl hzip (.refl _)
  · -- the map lists `b` first to the single-threaded search
    exact .visit ["b", "a"] (by decide) (.visit [] (by decide) (.done _))

/-! ### `FindMatching` -/

/-- The search of `FindMatching` once the node of the root path is found: the
multithreaded search with `numSearchingThreads`, sorted.  A relative root path
also has the working directory cut from every result, which the model leaves
out. -/
def FindMatchingFrom (node : pathMap) (filter : WalkFunc) (numSearchingThreads : ℤ)
    (results : List String) : Prop :=
  ∃ found, findInCacheMultithreaded filter node numSearchingThreads found ∧
    results = sort.Strings found

/-- **`FindMatching` answers one list**, whatever the map orders and the order
in which the goroutines finish: the sorted reference. -/
theorem FindMatchingFrom_eq (node : FinderTree) {filter : WalkFunc}
    (hfilter : OrderInvariant filter) (numSearchingThreads : ℤ) :
    (∃ results, FindMatchingFrom node.root filter numSearchingThreads results) ∧
      ∀ results, FindMatchingFrom node.root filter numSearchingThreads results →
        results = sort.Strings (findReference filter node.root) := by
  obtain ⟨found, hfound⟩ := findInCacheMultithreaded_exists filter node.counts_pos
    numSearchingThreads
  refine ⟨⟨_, found, hfound, rfl⟩, ?_⟩
  rintro results ⟨found', hfound', rfl⟩
  exact sort.Strings_eq_of_perm (findInCacheMultithreaded_perm hfilter hfound')

/-- A filter that walks every directory and matches every file is order
invariant, and a search from a new tree answers the sorted reference. -/
theorem FindMatchingFrom_eq_walkAll :
    OrderInvariant (fun entries => (entries.DirNames, entries.FileNames)) ∧
      (∃ results, FindMatchingFrom (newPathMap "/")
        (fun entries => (entries.DirNames, entries.FileNames)) 4 results) ∧
      ∀ results, FindMatchingFrom (newPathMap "/")
          (fun entries => (entries.DirNames, entries.FileNames)) 4 results →
        results = sort.Strings (findReference
          (fun entries => (entries.DirNames, entries.FileNames)) (newPathMap "/")) := by
  have hfilter : OrderInvariant (fun entries => (entries.DirNames, entries.FileNames)) :=
    fun _ _ h => ⟨h, List.Perm.refl _⟩
  exact ⟨hfilter, FindMatchingFrom_eq ⟨newPathMap "/", countsPositive_newPathMap "/"⟩ hfilter 4⟩

end search

end finder

end Soong
