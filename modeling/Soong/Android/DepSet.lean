import Mathlib.Logic.Relation
import Soong.Lib.Dedup

/-!
# Depsets

`android/depset_generic.go`.  A depSet stores the direct contents of one node
and pointers to the depSets of its transitive dependencies; `ToList` flattens
the DAG, walking it depth first with a visited set, removing duplicates by
first occurrence, and reversing the result for the `TOPOLOGICAL` order.
`newDepSet` stores the direct contents and the transitive pointers reversed
when the order is `TOPOLOGICAL`, so that the walk is a post-order one.

The depSets a program has built are modelled by the heap they live in: a
`DepSetGraph` is the list of every node allocated so far, and a pointer is the
index of its node.  A node can only point at nodes built before it, which is
what makes the heap a DAG; the structure carries that, the order agreement that
`sliceToDepSets` enforces by a panic, and the two flags `newDepSet` derives
from the order.

## Main definitions

* `DepSetOrder`, `depSet`, `DepSetGraph` — orders, nodes and heaps.
* `newDepSet`, `depSetBuilder` — the two ways of building a depSet.
* `DepSetGraph.dfs`, `DepSetGraph.walk`, `DepSetGraph.toList`,
  `DepSetGraph.ToList` — the flattening.
* `firstUniqueList`, `firstUniqueMap`, `firstUnique` — first-occurrence
  deduplication, as a quadratic scan and with a seen set.
* `DepSetGraph.contents`, `DepSetGraph.children` — a node as its builder gave
  it, whatever `newDepSet` stored; `DepSetGraph.preExpand` and
  `DepSetGraph.postExpand` are the naive expansions over that view.
-/

namespace Soong

/-- The order a depSet is flattened in. -/
inductive DepSetOrder
  | PREORDER
  | POSTORDER
  | TOPOLOGICAL
  deriving DecidableEq, Repr, Inhabited

/-- Go's `DepSetOrder.String`. -/
def DepSetOrder.toString : DepSetOrder → String
  | .PREORDER => "PREORDER"
  | .POSTORDER => "POSTORDER"
  | .TOPOLOGICAL => "TOPOLOGICAL"

/-- One depSet node, with the fields `newDepSet` fills in.  `transitive` holds
pointers, that is indices into the heap. -/
structure depSet (α : Type) where
  preorder : Bool
  reverse : Bool
  order : DepSetOrder
  direct : List α
  transitive : List ℕ
  deriving Repr

/-- The node a dangling index reads: an empty `PREORDER` depSet. -/
def depSet.empty {α : Type} : depSet α :=
  { preorder := true, reverse := false, order := .PREORDER, direct := [], transitive := [] }

/-- The heap of depSets built so far.  Node `d` only points at nodes allocated
before it, of its own order, and its flags are the ones `newDepSet` derives
from the order. -/
structure DepSetGraph (α : Type) where
  nodes : List (depSet α)
  transitive_lt : ∀ d : ℕ, ∀ c ∈ (nodes[d]?.getD depSet.empty).transitive, c < d
  transitive_order : ∀ d : ℕ, ∀ c ∈ (nodes[d]?.getD depSet.empty).transitive,
    (nodes[c]?.getD depSet.empty).order = (nodes[d]?.getD depSet.empty).order
  preorder_eq : ∀ d : ℕ, (nodes[d]?.getD depSet.empty).preorder =
    ((nodes[d]?.getD depSet.empty).order == .PREORDER)
  reverse_eq : ∀ d : ℕ, (nodes[d]?.getD depSet.empty).reverse =
    ((nodes[d]?.getD depSet.empty).order == .TOPOLOGICAL)

namespace DepSetGraph

variable {α : Type}

/-- The node a pointer points at. -/
def node (g : DepSetGraph α) (d : ℕ) : depSet α := g.nodes[d]?.getD depSet.empty

/-- The number of nodes allocated: every valid pointer is below it. -/
def size (g : DepSetGraph α) : ℕ := g.nodes.length

theorem lt_of_mem_transitive (g : DepSetGraph α) {d c : ℕ} (h : c ∈ (g.node d).transitive) :
    c < d := g.transitive_lt d c h

theorem order_of_mem_transitive (g : DepSetGraph α) {d c : ℕ}
    (h : c ∈ (g.node d).transitive) : (g.node c).order = (g.node d).order :=
  g.transitive_order d c h

theorem preorder_node (g : DepSetGraph α) (d : ℕ) :
    (g.node d).preorder = ((g.node d).order == .PREORDER) := g.preorder_eq d

theorem reverse_node (g : DepSetGraph α) (d : ℕ) :
    (g.node d).reverse = ((g.node d).order == .TOPOLOGICAL) := g.reverse_eq d

/-- The empty heap. -/
def empty : DepSetGraph α where
  nodes := []
  transitive_lt := by simp [depSet.empty]
  transitive_order := by simp [depSet.empty]
  preorder_eq := by simp [depSet.empty]
  reverse_eq := by simp [depSet.empty]

theorem getD_append_singleton (l : List (depSet α)) (n : depSet α) (d : ℕ) :
    (l ++ [n])[d]?.getD depSet.empty =
      if d < l.length then l[d]?.getD depSet.empty
      else if d = l.length then n else depSet.empty := by
  split
  · next h => rw [List.getElem?_append_left h]
  · next h =>
    rw [List.getElem?_append_right (by omega)]
    split
    · next h' => simp [h']
    · next h' =>
      rw [List.getElem?_eq_none (by simp; omega)]
      rfl

section push

variable (g : DepSetGraph α) (n : depSet α)

theorem push_transitive_lt (hlt : ∀ c ∈ n.transitive, c < g.size) (d : ℕ) :
    ∀ c ∈ ((g.nodes ++ [n])[d]?.getD depSet.empty).transitive, c < d := by
  intro c hc
  rw [getD_append_singleton] at hc
  split at hc
  · exact g.transitive_lt d c hc
  · split at hc
    · next h => rw [h]; exact hlt c hc
    · simp [depSet.empty] at hc

theorem push_transitive_order (hlt : ∀ c ∈ n.transitive, c < g.size)
    (hord : ∀ c ∈ n.transitive, (g.node c).order = n.order) (d : ℕ) :
    ∀ c ∈ ((g.nodes ++ [n])[d]?.getD depSet.empty).transitive,
      ((g.nodes ++ [n])[c]?.getD depSet.empty).order =
        ((g.nodes ++ [n])[d]?.getD depSet.empty).order := by
  intro c hc
  have hcd : c < d := push_transitive_lt g n hlt d c hc
  rw [getD_append_singleton] at hc ⊢
  rw [getD_append_singleton]
  split at hc
  · -- an old node keeps its pointers, all to older nodes
    next hd => rw [if_pos (by omega), if_pos hd]; exact g.transitive_order d c hc
  · split at hc
    · -- the new node's pointers were checked against its order
      next hd h => rw [if_pos (by rw [h] at hcd; exact hcd), if_neg hd, if_pos h]; exact hord c hc
    · simp [depSet.empty] at hc

theorem push_flag (f : depSet α → Bool) (b : DepSetOrder)
    (hg : ∀ d, f (g.node d) = ((g.node d).order == b)) (hn : f n = (n.order == b))
    (hempty : f depSet.empty = ((depSet.empty : depSet α).order == b)) (d : ℕ) :
    f ((g.nodes ++ [n])[d]?.getD depSet.empty) =
      (((g.nodes ++ [n])[d]?.getD depSet.empty).order == b) := by
  rw [getD_append_singleton]
  split
  · exact hg d
  · split
    · exact hn
    · exact hempty

end push

/-- Allocate a node whose pointers are valid and of its order, with the flags of
its order. -/
def push (g : DepSetGraph α) (n : depSet α) (hlt : ∀ c ∈ n.transitive, c < g.size)
    (hord : ∀ c ∈ n.transitive, (g.node c).order = n.order)
    (hpre : n.preorder = (n.order == .PREORDER))
    (hrev : n.reverse = (n.order == .TOPOLOGICAL)) : DepSetGraph α where
  nodes := g.nodes ++ [n]
  transitive_lt := push_transitive_lt g n hlt
  transitive_order := push_transitive_order g n hlt hord
  preorder_eq := push_flag g n depSet.preorder .PREORDER g.preorder_eq hpre rfl
  reverse_eq := push_flag g n depSet.reverse .TOPOLOGICAL g.reverse_eq hrev rfl

/-- `d` reaches `m` through transitive pointers (in zero or more steps). -/
def Reach (g : DepSetGraph α) : ℕ → ℕ → Prop :=
  Relation.ReflTransGen fun a b => b ∈ (g.node a).transitive

end DepSetGraph

/-! ### Building depSets -/

section build

variable {α : Type}

/-- The panic `sliceToDepSets` raises for a transitive depSet of another order. -/
def incompatibleOrder (order other : DepSetOrder) : String :=
  "incompatible order, new depSet is " ++ order.toString ++ " but transitive depSet is " ++
    other.toString

/-- `sliceToDepSets`: the transitive depSets, or the panic for the first one
whose order is not `order`. -/
def sliceToDepSets (g : DepSetGraph α) (transitive : List ℕ) (order : DepSetOrder) :
    Except String (List ℕ) :=
  match transitive.find? fun c => (g.node c).order != order with
  | some c => .error (incompatibleOrder order (g.node c).order)
  | none => .ok transitive

theorem sliceToDepSets_ok {g : DepSetGraph α} {transitive out : List ℕ} {order : DepSetOrder}
    (h : sliceToDepSets g transitive order = .ok out) :
    out = transitive ∧ ∀ c ∈ transitive, (g.node c).order = order := by
  unfold sliceToDepSets at h
  split at h
  · cases h
  · next hfind =>
    cases h
    refine ⟨rfl, fun c hc => ?_⟩
    simpa using List.find?_eq_none.mp hfind c hc

/-- The node `newDepSet` allocates: for `TOPOLOGICAL` the direct contents and the
transitive depSets are stored reversed. -/
def newNode (order : DepSetOrder) (direct : List α) (transitive : List ℕ) : depSet α where
  preorder := order == .PREORDER
  reverse := order == .TOPOLOGICAL
  order := order
  direct := if order == .TOPOLOGICAL then direct.reverse else direct
  transitive := if order == .TOPOLOGICAL then transitive.reverse else transitive

theorem mem_newNode_transitive {order : DepSetOrder} {direct : List α} {transitive : List ℕ}
    {c : ℕ} : c ∈ (newNode order direct transitive).transitive ↔ c ∈ transitive := by
  unfold newNode
  split <;> simp

/-- `newDepSet`: allocate a depSet with the given order, direct contents and
transitive depSets, returning the grown heap and the new pointer.  A pointer is
always to a node already built, which Go's types guarantee. -/
def newDepSet (g : DepSetGraph α) (order : DepSetOrder) (direct : List α) (transitive : List ℕ)
    (hlt : ∀ c ∈ transitive, c < g.size) : Except String (DepSetGraph α × ℕ) :=
  match h : sliceToDepSets g transitive order with
  | .error e => .error e
  | .ok transitiveDepSet =>
    .ok (g.push (newNode order direct transitiveDepSet)
      (fun c hc => by
        rw [(sliceToDepSets_ok h).1] at hc
        exact hlt c (mem_newNode_transitive.mp hc))
      (fun c hc => by
        rw [(sliceToDepSets_ok h).1] at hc
        exact (sliceToDepSets_ok h).2 c (mem_newNode_transitive.mp hc))
      rfl rfl, g.size)

/-- A `depSetBuilder`: the order, and the direct contents and transitive depSets
added so far. -/
structure depSetBuilder (α : Type) where
  order : DepSetOrder
  direct : List α
  transitive : List ℕ

def newDepSetBuilder (order : DepSetOrder) : depSetBuilder α :=
  { order, direct := [], transitive := [] }

namespace depSetBuilder

/-- Add direct contents to the right of the existing ones. -/
def DirectSlice (b : depSetBuilder α) (direct : List α) : depSetBuilder α :=
  { b with direct := b.direct ++ direct }

/-- Add one direct element to the right of the existing ones. -/
def Direct (b : depSetBuilder α) (direct : α) : depSetBuilder α :=
  { b with direct := b.direct ++ [direct] }

/-- Add transitive depSets to the right of the existing ones, checking their order. -/
def Transitive (g : DepSetGraph α) (b : depSetBuilder α) (transitive : List ℕ) :
    Except String (depSetBuilder α) :=
  match sliceToDepSets g transitive b.order with
  | .error e => .error e
  | .ok depSets => .ok { b with transitive := b.transitive ++ depSets }

/-- Build the depSet; the builder keeps its contents. -/
def Build (g : DepSetGraph α) (b : depSetBuilder α) (hlt : ∀ c ∈ b.transitive, c < g.size) :
    Except String (DepSetGraph α × ℕ) :=
  newDepSet g b.order b.direct b.transitive hlt

end depSetBuilder

end build

/-! ### Flattening -/

section flatten

variable {α : Type}

/-- `firstUniqueList`: scan left to right and keep a value unless it already
occurs in the output region. -/
def firstUniqueList [DecidableEq α] (l : List α) : List α :=
  go l []
where
  go : List α → List α → List α
    | [], out => out
    | x :: xs, out => if x ∈ out then go xs out else go xs (out ++ [x])

/-- `firstUniqueMap`: the same scan with a set of the values seen so far. -/
def firstUniqueMap [DecidableEq α] (l : List α) : List α :=
  go l [] []
where
  go : List α → List α → List α → List α
    | [], _, out => out
    | x :: xs, seen, out => if x ∈ seen then go xs seen out else go xs (x :: seen) (out ++ [x])

/-- The map-based scan for lists longer than `threshold`, the list-based one
otherwise: `firstUnique` and `FirstUniqueStrings` differ only in the threshold. -/
def firstUniqueAbove [DecidableEq α] (threshold : ℕ) (l : List α) : List α :=
  if l.length > threshold then firstUniqueMap l else firstUniqueList l

/-- `firstUnique`: the map-based scan for lists longer than four. -/
def firstUnique [DecidableEq α] (l : List α) : List α := firstUniqueAbove 4 l

section firstUnique

variable [DecidableEq α]

/-- The scan keeps the first occurrences of what it has not output yet. -/
theorem firstUniqueList_go (l out : List α) (h : out.Nodup) :
    firstUniqueList.go l out = (out ++ l).eraseDups := by
  induction l generalizing out with
  | nil => rw [firstUniqueList.go, List.append_nil, h.eraseDups_eq]
  | cons x xs ih =>
    rw [firstUniqueList.go, List.append_cons out x xs]
    split
    · next hx =>
      rw [ih out h]
      exact (List.eraseDups_append_congr
        (List.eraseDups_append_of_subset (List.cons_subset.mpr ⟨hx, List.nil_subset _⟩)) xs).symm
    · next hx => exact ih (out ++ [x]) (h.append (List.nodup_singleton x) (by simpa using hx))

theorem firstUniqueList_eq (l : List α) : firstUniqueList l = l.eraseDups := by
  simpa [firstUniqueList] using firstUniqueList_go l [] List.nodup_nil

/-- The seen set always holds exactly what has been output. -/
theorem firstUniqueMap_go (l seen out : List α) (h : out.Nodup) (hs : ∀ y, y ∈ seen ↔ y ∈ out) :
    firstUniqueMap.go l seen out = (out ++ l).eraseDups := by
  induction l generalizing seen out with
  | nil => rw [firstUniqueMap.go, List.append_nil, h.eraseDups_eq]
  | cons x xs ih =>
    rw [firstUniqueMap.go, List.append_cons out x xs]
    split
    · next hx =>
      rw [ih seen out h hs]
      exact (List.eraseDups_append_congr (List.eraseDups_append_of_subset
        (List.cons_subset.mpr ⟨(hs x).mp hx, List.nil_subset _⟩)) xs).symm
    · next hx =>
      refine ih (x :: seen) (out ++ [x])
        (h.append (List.nodup_singleton x) (by simpa [hs x] using hx)) fun y => ?_
      simp [hs y, or_comm]

theorem firstUniqueMap_eq (l : List α) : firstUniqueMap l = l.eraseDups := by
  simpa [firstUniqueMap] using firstUniqueMap_go l [] [] List.nodup_nil (by simp)

theorem firstUniqueAbove_eq (threshold : ℕ) (l : List α) :
    firstUniqueAbove threshold l = l.eraseDups := by
  unfold firstUniqueAbove
  split
  · exact firstUniqueMap_eq l
  · exact firstUniqueList_eq l

theorem firstUnique_eq (l : List α) : firstUnique l = l.eraseDups := firstUniqueAbove_eq 4 l

end firstUnique

namespace DepSetGraph

/-- `walk`'s closure `dfs`: mark `d` visited, and visit its direct contents
before (preorder) or after (postorder) the transitive depSets not visited yet,
left to right.  The state is the visited set and the caller's accumulator. -/
def dfs {σ : Type} (g : DepSetGraph α) (visit : List α → σ → σ) (d : ℕ)
    (st : List ℕ × σ) : List ℕ × σ :=
  let st := (d :: st.1, if (g.node d).preorder then visit (g.node d).direct st.2 else st.2)
  let st := (g.node d).transitive.attach.foldl
    (fun st dep => if dep.1 ∈ st.1 then st else dfs g visit dep.1 st) st
  if (g.node d).preorder then st else (st.1, visit (g.node d).direct st.2)
termination_by d
decreasing_by exact g.lt_of_mem_transitive dep.2

/-- One step of `dfs`'s loop over the transitive depSets of a node. -/
def dfsStep {σ : Type} (g : DepSetGraph α) (visit : List α → σ → σ) (st : List ℕ × σ)
    (dep : ℕ) : List ℕ × σ :=
  if dep ∈ st.1 then st else g.dfs visit dep st

theorem dfs_eq {σ : Type} (g : DepSetGraph α) (visit : List α → σ → σ) (d : ℕ)
    (st : List ℕ × σ) :
    g.dfs visit d st =
      let st := (g.node d).transitive.foldl (g.dfsStep visit)
        (d :: st.1, if (g.node d).preorder then visit (g.node d).direct st.2 else st.2)
      if (g.node d).preorder then st else (st.1, visit (g.node d).direct st.2) := by
  rw [dfs, List.foldl_attach (f := fun st dep => if dep ∈ st.1 then st else g.dfs visit dep st)]
  rfl

/-- `walk`: run `dfs` from `d` with an empty visited set. -/
def walk {σ : Type} (g : DepSetGraph α) (visit : List α → σ → σ) (d : ℕ) (s : σ) : σ :=
  (g.dfs visit d ([], s)).2

/-- The visit `toList` passes to `walk`: append the slice to the result. -/
def appendSlice (paths slice : List α) : List α := slice ++ paths

/-- `toList`: append every visited slice, remove duplicates with
`firstUniqueFunc`, and reverse for `TOPOLOGICAL`. -/
def toList (g : DepSetGraph α) (firstUniqueFunc : List α → List α) (d : ℕ) : List α :=
  let list := firstUniqueFunc (g.walk appendSlice d [])
  if (g.node d).reverse then list.reverse else list

/-- `ToList`, with `nil` for the nil depSet. -/
def ToList [DecidableEq α] (g : DepSetGraph α) : Option ℕ → List α
  | none => []
  | some d => g.toList firstUnique d

/-! ### A node as its builder gave it -/

/-- The direct contents in the order they were given to `newDepSet`. -/
def contents (g : DepSetGraph α) (d : ℕ) : List α :=
  if (g.node d).reverse then (g.node d).direct.reverse else (g.node d).direct

/-- The transitive depSets in the order they were given to `newDepSet`. -/
def children (g : DepSetGraph α) (d : ℕ) : List ℕ :=
  if (g.node d).reverse then (g.node d).transitive.reverse else (g.node d).transitive

theorem mem_children {g : DepSetGraph α} {d c : ℕ} :
    c ∈ g.children d ↔ c ∈ (g.node d).transitive := by
  unfold children
  split <;> simp

/-- The pre-order expansion without a visited set: the direct contents, then
every transitive depSet expanded in turn, shared ones every time. -/
def preExpand (g : DepSetGraph α) (d : ℕ) : List α :=
  g.contents d ++ (g.children d).attach.flatMap fun ⟨c, _⟩ => g.preExpand c
termination_by d
decreasing_by exact g.lt_of_mem_transitive (mem_children.mp ‹_›)

theorem preExpand_eq (g : DepSetGraph α) (d : ℕ) :
    g.preExpand d = g.contents d ++ (g.children d).flatMap g.preExpand := by
  rw [preExpand]
  simp

/-- The post-order expansion without a visited set. -/
def postExpand (g : DepSetGraph α) (d : ℕ) : List α :=
  ((g.children d).attach.flatMap fun ⟨c, _⟩ => g.postExpand c) ++ g.contents d
termination_by d
decreasing_by exact g.lt_of_mem_transitive (mem_children.mp ‹_›)

theorem postExpand_eq (g : DepSetGraph α) (d : ℕ) :
    g.postExpand d = (g.children d).flatMap g.postExpand ++ g.contents d := by
  rw [postExpand]
  simp

end DepSetGraph

end flatten

end Soong
