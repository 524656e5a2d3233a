import Mathlib.Data.List.Pairwise
import Soong.Android.DepSet

/-!
# What `ToList` computes

`walk` skips a depSet it has visited before, so the slice `toList` deduplicates
is only a sub-sequence of the naive expansion of the DAG.  Nothing is lost: a
depSet is skipped only once it is *finished*, every value of its expansion
already emitted, and first-occurrence deduplication cannot tell the difference.
That is the invariant `Finished`; `dfs` preserves it and adds the naive
expansion up to first occurrences (`Grows`).  The walk never meets a node that
is still in progress, because a node only points at older nodes.

The naive expansion follows each node's stored order (`expand`); for the three
orders it is the pre-order expansion, the post-order one, and the reversed
pre-order expansion of what the builder gave, `newDepSet` having stored the
`TOPOLOGICAL` contents reversed.

## Main results

* `toList_eq_eraseDups_expand` — the flattening is the first occurrences of the
  naive expansion, reversed for `TOPOLOGICAL`.
* `ToList_eq_reference` — `ToList` against the visited-set-free references.
* `ToList_topological_order` — a `TOPOLOGICAL` depSet lists every value once, and
  the direct contents of a node before those of every node below it.
-/

namespace Soong

namespace DepSetGraph

variable {α : Type}

/-! ### The naive expansion of the stored nodes -/

/-- What `walk` would visit without its visited set: a node's direct contents
before or after its transitive depSets, as its `preorder` flag says. -/
def expand (g : DepSetGraph α) (d : ℕ) : List α :=
  if (g.node d).preorder then
    (g.node d).direct ++ (g.node d).transitive.attach.flatMap fun c => g.expand c.1
  else
    ((g.node d).transitive.attach.flatMap fun c => g.expand c.1) ++ (g.node d).direct
termination_by d
decreasing_by all_goals exact g.lt_of_mem_transitive c.2

theorem expand_eq (g : DepSetGraph α) (d : ℕ) :
    g.expand d =
      if (g.node d).preorder then
        (g.node d).direct ++ (g.node d).transitive.flatMap g.expand
      else (g.node d).transitive.flatMap g.expand ++ (g.node d).direct := by
  rw [expand]
  simp

section orders

variable {g : DepSetGraph α}

/-! ### The three orders -/

theorem Reach.le {d m : ℕ} (h : g.Reach d m) : m ≤ d := by
  induction h with
  | refl => exact Nat.le_refl _
  | tail _ hc ih => exact Nat.le_trans (Nat.le_of_lt (g.lt_of_mem_transitive hc)) ih

/-- What `preExpand` holds: the direct contents of every node it reaches. -/
theorem mem_preExpand {x : α} (d : ℕ) :
    x ∈ g.preExpand d ↔ ∃ n, g.Reach d n ∧ x ∈ g.contents n := by
  induction d using Nat.strongRecOn with
  | ind d ih =>
    rw [preExpand_eq, List.mem_append, List.mem_flatMap]
    constructor
    · rintro (hx | ⟨c, hc, hx⟩)
      · exact ⟨d, Relation.ReflTransGen.refl, hx⟩
      · have hcd := g.lt_of_mem_transitive (mem_children.mp hc)
        obtain ⟨n, hn, hxn⟩ := (ih c hcd).mp hx
        exact ⟨n, Relation.ReflTransGen.head (mem_children.mp hc) hn, hxn⟩
    · rintro ⟨n, hn, hxn⟩
      rcases Relation.ReflTransGen.cases_head hn with rfl | ⟨c, hc, hcn⟩
      · exact Or.inl hxn
      · exact Or.inr ⟨c, mem_children.mpr hc, (ih c (g.lt_of_mem_transitive hc)).mpr ⟨n, hcn, hxn⟩⟩

/-- For a `PREORDER` node the walk's expansion is the pre-order expansion. -/
theorem expand_eq_preExpand (d : ℕ) (hd : (g.node d).order = .PREORDER) :
    g.expand d = g.preExpand d := by
  induction d using Nat.strongRecOn with
  | ind d ih =>
    have hpre : (g.node d).preorder = true := by simp [preorder_node, hd]
    have hrev : (g.node d).reverse = false := by simp [reverse_node, hd]
    rw [expand_eq, preExpand_eq, if_pos hpre, contents, children, hrev]
    simp only [Bool.false_eq_true, if_false]
    congr 1
    exact List.flatMap_congr fun c hc =>
      ih c (g.lt_of_mem_transitive hc) ((g.order_of_mem_transitive hc).trans hd)

/-- For a `POSTORDER` node the walk's expansion is the post-order expansion. -/
theorem expand_eq_postExpand (d : ℕ) (hd : (g.node d).order = .POSTORDER) :
    g.expand d = g.postExpand d := by
  induction d using Nat.strongRecOn with
  | ind d ih =>
    have hpre : (g.node d).preorder = false := by simp [preorder_node, hd]
    have hrev : (g.node d).reverse = false := by simp [reverse_node, hd]
    rw [expand_eq, postExpand_eq, hpre, contents, children, hrev]
    simp only [Bool.false_eq_true, if_false]
    congr 1
    exact List.flatMap_congr fun c hc =>
      ih c (g.lt_of_mem_transitive hc) ((g.order_of_mem_transitive hc).trans hd)

/-- For a `TOPOLOGICAL` node, stored reversed, the walk's post-order expansion
is the pre-order expansion of what the builder gave, reversed. -/
theorem expand_eq_reverse_preExpand (d : ℕ) (hd : (g.node d).order = .TOPOLOGICAL) :
    g.expand d = (g.preExpand d).reverse := by
  induction d using Nat.strongRecOn with
  | ind d ih =>
    have hpre : (g.node d).preorder = false := by simp [preorder_node, hd]
    have hrev : (g.node d).reverse = true := by simp [reverse_node, hd]
    have hkids : (g.node d).transitive.flatMap g.expand =
        ((g.node d).transitive.flatMap fun c => (g.preExpand c).reverse) :=
      List.flatMap_congr fun c hc =>
        ih c (g.lt_of_mem_transitive hc) ((g.order_of_mem_transitive hc).trans hd)
    rw [expand_eq, preExpand_eq, hpre, contents, children, hrev]
    simp only [Bool.false_eq_true, if_false, if_true, List.reverse_append]
    rw [hkids, List.reverse_reverse, List.reverse_flatMap, List.reverse_reverse]
    rfl

/-- No value occurs twice among the direct contents of the nodes reachable
from `r`: not within one node, and not in two different nodes. -/
def DirectUnique (g : DepSetGraph α) (r : ℕ) : Prop :=
  (∀ n, g.Reach r n → (g.contents n).Nodup) ∧
    ∀ n₁ n₂ x, g.Reach r n₁ → g.Reach r n₂ → x ∈ g.contents n₁ → x ∈ g.contents n₂ → n₁ = n₂

/-- A decidable sufficient condition: the direct contents of all the nodes up
to `r` together have no duplicate. -/
theorem directUnique_of_nodup {r : ℕ} (h : ((List.range (r + 1)).flatMap g.contents).Nodup) :
    g.DirectUnique r := by
  rw [List.nodup_flatMap] at h
  obtain ⟨hnodup, hdisj⟩ := h
  have hrange : ∀ {n}, g.Reach r n → n ∈ List.range (r + 1) := fun hn =>
    List.mem_range.mpr (Nat.lt_succ_of_le hn.le)
  refine ⟨fun n hn => hnodup n (hrange hn), fun n₁ n₂ x hn₁ hn₂ hx₁ hx₂ => ?_⟩
  have : Std.Symm (Function.onFun List.Disjoint g.contents) :=
    ⟨fun _ _ h => List.disjoint_comm.mp h⟩
  by_contra hne
  exact hdisj.forall (hrange hn₁) (hrange hn₂) hne hx₁ hx₂

/-- Below a node `n` reachable from `r`, every occurrence in a pre-order
expansion of a direct value `y` of `n` is followed by every direct value `x`
of a node `m` strictly below `n`: an occurrence of `y` is an expansion of `n`,
which goes on to expand `m`. -/
theorem followedBy_preExpand {r n m : ℕ} (hu : g.DirectUnique r) (hn : g.Reach r n)
    (hm : g.Reach n m) (hmn : m ≠ n) {y x : α} (hy : y ∈ g.contents n) (hx : x ∈ g.contents m) :
    ∀ d, g.Reach r d → (g.preExpand d).FollowedBy y x := by
  intro d
  induction d using Nat.strongRecOn with
  | ind d ih =>
    intro hd
    rw [preExpand_eq]
    have hkids : ((g.children d).flatMap g.preExpand).FollowedBy y x :=
      List.followedBy_flatMap fun c hc =>
        ih c (g.lt_of_mem_transitive (mem_children.mp hc))
          (Relation.ReflTransGen.tail hd (mem_children.mp hc))
    by_cases hdn : d = n
    · -- at `n` itself the expansion of `m` follows in the transitive part
      subst hdn
      obtain ⟨c, hc, hcm⟩ := (Relation.ReflTransGen.cases_head hm).resolve_left (Ne.symm hmn)
      refine List.followedBy_append_of_mem _ ?_ hkids
      exact List.mem_flatMap.mpr ⟨c, mem_children.mpr hc, (mem_preExpand c).mpr ⟨m, hcm, hx⟩⟩
    · -- any other reachable node does not hold `y` at all
      have hyd : y ∉ g.contents d := fun hyd => hdn (hu.2 d n y hd hn hyd hy)
      exact List.followedBy_append (List.followedBy_of_not_mem hyd) hkids

end orders

/-! ### The walk's invariant -/

/-- Every visited node below `bound` is finished: its whole expansion is
already in the output. -/
def Finished (g : DepSetGraph α) (bound : ℕ) (vis : List ℕ) (out : List α) : Prop :=
  ∀ v ∈ vis, v < bound → g.expand v ⊆ out

/-- What a piece of the walk does from `(vis, out)` to `st`: it appends to the
output, which then has the first occurrences of `out ++ add`, and it only
visits new nodes below `bound`, finishing each. -/
structure Grows [DecidableEq α] (g : DepSetGraph α) (bound : ℕ) (add : List α) (vis : List ℕ) (out : List α)
    (st : List ℕ × List α) : Prop where
  appends : out <+: st.2
  eraseDups_eq : st.2.eraseDups = (out ++ add).eraseDups
  visited : vis ⊆ st.1
  finished : ∀ v ∈ st.1, v ∉ vis → v < bound ∧ g.expand v ⊆ st.2

theorem mem_iff_of_eraseDups_eq [DecidableEq α] {a b : List α} (h : a.eraseDups = b.eraseDups)
    (x : α) : x ∈ a ↔ x ∈ b := by
  rw [← List.mem_eraseDups, h, List.mem_eraseDups]

section invariant

variable [DecidableEq α] {g : DepSetGraph α}

theorem grows_refl (bound : ℕ) (vis : List ℕ) (out : List α) :
    g.Grows bound [] vis out (vis, out) where
  appends := List.prefix_refl out
  eraseDups_eq := by rw [List.append_nil]
  visited := List.Subset.refl vis
  finished := fun _ hv hnv => absurd hv hnv

theorem Grows.trans {bound : ℕ} {a₁ a₂ : List α} {vis : List ℕ} {out : List α}
    {st₁ st₂ : List ℕ × List α} (h₁ : g.Grows bound a₁ vis out st₁)
    (h₂ : g.Grows bound a₂ st₁.1 st₁.2 st₂) : g.Grows bound (a₁ ++ a₂) vis out st₂ where
  appends := h₁.appends.trans h₂.appends
  eraseDups_eq := by
    rw [h₂.eraseDups_eq, List.eraseDups_append_congr h₁.eraseDups_eq, List.append_assoc]
  visited := List.Subset.trans h₁.visited h₂.visited
  finished := by
    intro v hv hnv
    by_cases hv₁ : v ∈ st₁.1
    · obtain ⟨hlt, hsub⟩ := h₁.finished v hv₁ hnv
      exact ⟨hlt, List.Subset.trans hsub h₂.appends.subset⟩
    · exact h₂.finished v hv hv₁

theorem Grows.mono {b b' : ℕ} {add : List α} {vis : List ℕ} {out : List α}
    {st : List ℕ × List α} (h : g.Grows b add vis out st) (hb : b ≤ b') :
    g.Grows b' add vis out st :=
  { h with finished := fun v hv hnv => ⟨by have := (h.finished v hv hnv).1; omega,
      (h.finished v hv hnv).2⟩ }

/-- A piece of the walk keeps every node below its bound finished. -/
theorem Grows.finished_of {bound : ℕ} {add : List α} {vis : List ℕ} {out : List α}
    {st : List ℕ × List α} (h : g.Grows bound add vis out st) (hf : g.Finished bound vis out) :
    g.Finished bound st.1 st.2 := by
  intro v hv hlt
  by_cases hvis : v ∈ vis
  · exact List.Subset.trans (hf v hvis hlt) h.appends.subset
  · exact (h.finished v hv hvis).2

/-- Skipping a finished node grows the output by its expansion, up to first
occurrences. -/
theorem grows_skip {bound c : ℕ} {vis : List ℕ} {out : List α}
    (hc : g.expand c ⊆ out) : g.Grows bound (g.expand c) vis out (vis, out) :=
  { grows_refl bound vis out with
    eraseDups_eq := (List.eraseDups_append_of_subset hc).symm }

/-! ### `dfs` and its loop -/

/-- The loop of `dfs` over the transitive depSets `cs` of a node `p`, with the
specification of `dfs` for every node below `p` as hypothesis. -/
theorem grows_foldl {p : ℕ} (ih : ∀ c < p, ∀ vis out, c ∉ vis → g.Finished c vis out →
      g.Grows (c + 1) (g.expand c) vis out (g.dfs appendSlice c (vis, out))) :
    ∀ (cs : List ℕ), (∀ c ∈ cs, c < p) → ∀ vis out, g.Finished p vis out →
      g.Grows p (cs.flatMap g.expand) vis out (cs.foldl (g.dfsStep appendSlice) (vis, out)) := by
  intro cs
  induction cs with
  | nil => intro _ vis out _; exact grows_refl p vis out
  | cons c cs ihc =>
    intro hcs vis out hf
    have hcp : c < p := hcs c List.mem_cons_self
    -- the first transitive depSet: skipped when visited, walked otherwise
    have hstep : g.Grows p (g.expand c) vis out (g.dfsStep appendSlice (vis, out) c) := by
      unfold dfsStep
      split
      · next hc => exact grows_skip (hf c hc hcp)
      · next hc =>
        refine (ih c hcp vis out hc fun v hv hlt => hf v hv (by omega)).mono (by omega)
    rw [List.flatMap_cons, List.foldl_cons]
    exact hstep.trans (ihc (fun c' hc' => hcs c' (List.mem_cons_of_mem c hc')) _ _
      (hstep.finished_of hf))

/-- **The specification of `dfs`.**  Started on a fresh node whose older visited
nodes are finished, `dfs` appends a sub-sequence with the first occurrences of
the node's naive expansion, and finishes every node it visits. -/
theorem grows_dfs (d : ℕ) : ∀ vis out, d ∉ vis → g.Finished d vis out →
    g.Grows (d + 1) (g.expand d) vis out (g.dfs appendSlice d (vis, out)) := by
  induction d using Nat.strongRecOn with
  | ind d ih =>
    intro vis out hd hf
    have hlt : ∀ c ∈ (g.node d).transitive, c < d := fun c hc => g.lt_of_mem_transitive hc
    -- marking `d` visited keeps the older nodes finished
    have hf' : ∀ out', out <+: out' → g.Finished d (d :: vis) out' := by
      intro out' hout v hv hvd
      rcases List.mem_cons.mp hv with rfl | hv
      · omega
      · exact List.Subset.trans (hf v hv hvd) hout.subset
    rw [dfs_eq, expand_eq]
    by_cases hpre : (g.node d).preorder = true
    · -- preorder: the direct contents, then the loop
      simp only [hpre, if_true]
      have hfold := grows_foldl ih (g.node d).transitive hlt (d :: vis)
        (appendSlice (g.node d).direct out) (hf' _ (List.prefix_append _ _))
      set st := (g.node d).transitive.foldl (g.dfsStep appendSlice)
        (d :: vis, appendSlice (g.node d).direct out)
      have hmem := mem_iff_of_eraseDups_eq hfold.eraseDups_eq
      refine ⟨(List.prefix_append _ _).trans hfold.appends, ?_, ?_, ?_⟩
      · rw [hfold.eraseDups_eq, appendSlice, List.append_assoc]
      · exact List.Subset.trans (List.subset_cons_self d vis) hfold.visited
      · intro v hv hnv
        by_cases hvd : v = d
        · subst hvd
          refine ⟨by omega, ?_⟩
          rw [expand_eq, if_pos hpre]
          intro x hx
          exact (hmem x).mpr (by simpa [appendSlice, or_comm] using Or.inr hx)
        · obtain ⟨hvlt, hsub⟩ := hfold.finished v hv (by simp [hvd, hnv])
          exact ⟨by omega, hsub⟩
    · -- postorder: the loop, then the direct contents
      simp only [hpre, if_false, Bool.false_eq_true]
      have hfold := grows_foldl ih (g.node d).transitive hlt (d :: vis) out
        (hf' _ (List.prefix_refl out))
      set st := (g.node d).transitive.foldl (g.dfsStep appendSlice) (d :: vis, out)
      have hmem := mem_iff_of_eraseDups_eq hfold.eraseDups_eq
      refine ⟨hfold.appends.trans (List.prefix_append _ _), ?_, ?_, ?_⟩
      · simp only [appendSlice]
        rw [List.eraseDups_append_congr hfold.eraseDups_eq, List.append_assoc]
      · exact List.Subset.trans (List.subset_cons_self d vis) hfold.visited
      · intro v hv hnv
        by_cases hvd : v = d
        · subst hvd
          refine ⟨by omega, ?_⟩
          rw [expand_eq, if_neg hpre]
          intro x hx
          rcases List.mem_append.mp hx with hx | hx
          · exact List.mem_append_left _ ((hmem x).mpr (List.mem_append_right _ hx))
          · exact List.mem_append_right _ hx
        · obtain ⟨hvlt, hsub⟩ := hfold.finished v hv (by simp [hvd, hnv])
          exact ⟨by omega, List.Subset.trans hsub (List.subset_append_left _ _)⟩

/-- `walk` collects a slice with the first occurrences of the naive expansion. -/
theorem eraseDups_walk (d : ℕ) :
    (g.walk appendSlice d []).eraseDups = (g.expand d).eraseDups := by
  have h := grows_dfs (g := g) d [] [] (List.not_mem_nil) (fun v hv => absurd hv List.not_mem_nil)
  rw [walk, h.eraseDups_eq, List.nil_append]

/-- **The flattening is the first occurrences of the naive expansion**, reversed
for `TOPOLOGICAL`. -/
theorem toList_eq_eraseDups_expand (d : ℕ) :
    g.toList firstUnique d =
      if (g.node d).reverse then (g.expand d).eraseDups.reverse else (g.expand d).eraseDups := by
  simp only [toList, firstUnique_eq, eraseDups_walk]

/-! ### `ToList` -/

theorem ToList_preorder_eq (d : ℕ) (hd : (g.node d).order = .PREORDER) :
    g.ToList (some d) = (g.preExpand d).eraseDups := by
  have hrev : (g.node d).reverse = false := by simp [reverse_node, hd]
  rw [ToList, toList_eq_eraseDups_expand, hrev, expand_eq_preExpand d hd]
  rfl

theorem ToList_postorder_eq (d : ℕ) (hd : (g.node d).order = .POSTORDER) :
    g.ToList (some d) = (g.postExpand d).eraseDups := by
  have hrev : (g.node d).reverse = false := by simp [reverse_node, hd]
  rw [ToList, toList_eq_eraseDups_expand, hrev, expand_eq_postExpand d hd]
  rfl

theorem ToList_topological_eq (d : ℕ) (hd : (g.node d).order = .TOPOLOGICAL) :
    g.ToList (some d) = (g.preExpand d).dedup := by
  have hrev : (g.node d).reverse = true := by simp [reverse_node, hd]
  rw [ToList, toList_eq_eraseDups_expand, hrev, if_pos rfl, expand_eq_reverse_preExpand d hd,
    List.dedup_eq_reverse_eraseDups_reverse]

/-- **`ToList` is the visited-set-free reference.**  For every depSet of every
heap built by `newDepSet`, `ToList` is the first occurrences of the naive
pre-order expansion (`PREORDER`), of the naive post-order expansion
(`POSTORDER`), or the last occurrences of the naive pre-order expansion
(`TOPOLOGICAL`): pruning visited depSets never changes the result. -/
theorem ToList_eq_reference (g : DepSetGraph α) (d : ℕ) :
    g.ToList (some d) =
      match (g.node d).order with
      | .PREORDER => (g.preExpand d).eraseDups
      | .POSTORDER => (g.postExpand d).eraseDups
      | .TOPOLOGICAL => (g.preExpand d).dedup := by
  rcases hd : (g.node d).order
  · exact ToList_preorder_eq d hd
  · exact ToList_postorder_eq d hd
  · exact ToList_topological_eq d hd

/-- **A `TOPOLOGICAL` depSet lists its parents first.**  When no value occurs
twice among the direct contents of the reachable nodes, `ToList` holds every
value once, exactly the direct contents of the reachable nodes, and for every
reachable `n` and every `m ≠ n` reachable from it, each direct value of `n`
before each direct value of `m`. -/
theorem ToList_topological_order (g : DepSetGraph α) (r : ℕ)
    (hr : (g.node r).order = .TOPOLOGICAL) (hu : g.DirectUnique r) :
    (g.ToList (some r)).Nodup ∧
      (∀ x, x ∈ g.ToList (some r) ↔ ∃ n, g.Reach r n ∧ x ∈ g.contents n) ∧
      ∀ n m, g.Reach r n → g.Reach n m → m ≠ n →
        ∀ y ∈ g.contents n, ∀ x ∈ g.contents m, List.Sublist [y, x] (g.ToList (some r)) := by
  rw [ToList_topological_eq r hr]
  refine ⟨List.nodup_dedup _, fun x => by rw [List.mem_dedup, mem_preExpand], ?_⟩
  intro n m hn hm hmn y hy x hx
  have hyr : y ∈ g.preExpand r := (mem_preExpand r).mpr ⟨n, hn, hy⟩
  exact List.sublist_dedup_of_followedBy hyr
    (followedBy_preExpand hu hn hm hmn hy hx r Relation.ReflTransGen.refl)

/-- The diamond of `TestDepSet` in `TOPOLOGICAL` order: `a` over `b` and `c`,
both over `d`, with the values `a = 0`, `b = 1`, `c = 2`, `d = 3` at the nodes
`3`, `2`, `1` and `0`. -/
def diamond : DepSetGraph ℕ :=
  let gd := (empty : DepSetGraph ℕ).push (newNode .TOPOLOGICAL [3] []) (by decide) (by decide)
    rfl rfl
  let gc := gd.push (newNode .TOPOLOGICAL [2] [0]) (by decide) (by decide) rfl rfl
  let gb := gc.push (newNode .TOPOLOGICAL [1] [0]) (by decide) (by decide) rfl rfl
  gb.push (newNode .TOPOLOGICAL [0] [2, 1]) (by decide) (by decide) rfl rfl

theorem ToList_topological_order_diamond :
    diamond.DirectUnique 3 ∧ List.Sublist [1, 3] (diamond.ToList (some 3)) := by
  have hu : diamond.DirectUnique 3 := directUnique_of_nodup (by decide)
  refine ⟨hu, ?_⟩
  have h32 : diamond.Reach 3 2 := Relation.ReflTransGen.single (by decide)
  have h20 : diamond.Reach 2 0 := Relation.ReflTransGen.single (by decide)
  exact (ToList_topological_order diamond 3 rfl hu).2.2 2 0 h32 h20 (by decide) 1 (by decide) 3
    (by decide)

end invariant

end DepSetGraph

end Soong
