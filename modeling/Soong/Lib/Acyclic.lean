import Mathlib.Data.Finset.Card
import Mathlib.Logic.Relation

/-!
# Fuelled recursion over a finite acyclic graph

Two tools for showing that a recursion with fuel over a graph returns, and
what it returns.

A graph whose edges all end in a finite set of nodes and which has no cycle
has a *rank*: a number at most the size of that set, which every edge
increases.  The rank of a node counts the nodes of the set below it, and one
more if the node is in the set (`rankBelow`).  A recursion that follows the
edges backwards, spending one unit of fuel for each, returns from every node
with more fuel than its rank.

`Returns x s res Q` says that the computation `x` of a state-and-error monad
with fuel, run from `s`, does not run out of fuel and gives `res`, in a state
satisfying `Q` when it succeeds.  It composes along `bind` (`Returns.bind_ok`,
`Returns.bind_error`).

## Main definitions

* `rankBelow` — the rank of a node.
* `Returns` — a run that returns.

## Main results

* `rankBelow_lt`, `rankBelow_le` — every edge increases the rank, which is at
  most the size of the set.
* `rank_lt_of_transGen`, `not_transGen_self_of_rank` — a rank orders paths and
  rules out cycles.
* `Returns.bind_ok`, `Returns.bind_error`, `Returns.foldlM_append` — runs compose.
-/

section rank

variable {α : Type} (R : α → α → Prop)

open Classical in
/-- The rank of `y`: how many nodes of `D` lie below it, and one more when it
is in `D` itself. -/
noncomputable def rankBelow (D : List α) (y : α) : ℕ :=
  (D.toFinset.filter fun z => Relation.TransGen R z y).card + if y ∈ D then 1 else 0

variable {R} {D : List α}

open Classical in
/-- **Every edge of an acyclic graph whose edges end in `D` increases the
rank.** -/
theorem rankBelow_lt (hD : ∀ x y, R x y → y ∈ D) (hacyc : ∀ x, ¬Relation.TransGen R x x)
    {x y : α} (hxy : R x y) : rankBelow R D x < rankBelow R D y := by
  have hy : y ∈ D := hD x y hxy
  -- what lies below `x` lies below `y`
  have hsub : (D.toFinset.filter fun z => Relation.TransGen R z x) ⊆
      D.toFinset.filter fun z => Relation.TransGen R z y := by
    intro z hz
    rw [Finset.mem_filter] at hz ⊢
    exact ⟨hz.1, hz.2.tail hxy⟩
  have hle : rankBelow R D x ≤ (D.toFinset.filter fun z => Relation.TransGen R z y).card := by
    unfold rankBelow
    by_cases hx : x ∈ D
    · -- `x` itself lies below `y` and not below itself
      have hssub : (D.toFinset.filter fun z => Relation.TransGen R z x) ⊂
          D.toFinset.filter fun z => Relation.TransGen R z y := by
        refine Finset.ssubset_iff_subset_ne.mpr ⟨hsub, fun heq => hacyc x ?_⟩
        have hmem : x ∈ D.toFinset.filter fun z => Relation.TransGen R z y :=
          Finset.mem_filter.mpr ⟨List.mem_toFinset.mpr hx, .single hxy⟩
        rw [← heq, Finset.mem_filter] at hmem
        exact hmem.2
      have := Finset.card_lt_card hssub
      rw [if_pos hx]
      omega
    · rw [if_neg hx]
      exact Finset.card_le_card hsub
  unfold rankBelow at hle ⊢
  rw [if_pos hy]
  omega

open Classical in
/-- The rank is at most the number of nodes edges end in. -/
theorem rankBelow_le (hacyc : ∀ x, ¬Relation.TransGen R x x) (y : α) :
    rankBelow R D y ≤ D.length := by
  have htoFinset : D.toFinset.card ≤ D.length := List.toFinset_card_le D
  unfold rankBelow
  by_cases hy : y ∈ D
  · -- `y` is in `D` but not below itself
    have hsub : (D.toFinset.filter fun z => Relation.TransGen R z y) ⊆ D.toFinset.erase y := by
      intro z hz
      rw [Finset.mem_filter] at hz
      refine Finset.mem_erase.mpr ⟨?_, hz.1⟩
      rintro rfl
      exact hacyc z hz.2
    have hcard := Finset.card_le_card hsub
    rw [Finset.card_erase_of_mem (List.mem_toFinset.mpr hy)] at hcard
    have hpos : 0 < D.toFinset.card := Finset.card_pos.mpr ⟨y, List.mem_toFinset.mpr hy⟩
    rw [if_pos hy]
    omega
  · rw [if_neg hy]
    have := Finset.card_le_card (Finset.filter_subset (fun z => Relation.TransGen R z y) D.toFinset)
    omega

/-- A rank that every edge increases increases along every path. -/
theorem rank_lt_of_transGen {rank : α → ℕ} (hrank : ∀ x y, R x y → rank x < rank y) {x y : α}
    (h : Relation.TransGen R x y) : rank x < rank y := by
  induction h with
  | single hxy => exact hrank _ _ hxy
  | tail _ hyz ih => exact ih.trans (hrank _ _ hyz)

/-- A graph with a rank that every edge increases has no cycle. -/
theorem not_transGen_self_of_rank {rank : α → ℕ} (hrank : ∀ x y, R x y → rank x < rank y)
    (x : α) : ¬Relation.TransGen R x x :=
  fun h => Nat.lt_irrefl _ (rank_lt_of_transGen hrank h)

end rank

section returns

variable {σ ε α β : Type}

/-- `x` run from `s` does not run out of fuel and gives `res`, in a state
satisfying `Q` when it succeeds. -/
def Returns (x : StateT σ (ExceptT ε Option) α) (s : σ) (res : Except ε α) (Q : σ → Prop) :
    Prop :=
  match res with
  | .ok a => ∃ s', x.run s = some (.ok (a, s')) ∧ Q s'
  | .error e => x.run s = some (.error e)

namespace Returns

variable {Q R : σ → Prop} {s : σ}

theorem of_pure {a : α} (hs : Q s) :
    Returns (pure a : StateT σ (ExceptT ε Option) α) s (.ok a) Q :=
  ⟨s, rfl, hs⟩

theorem of_throw {e : ε} : Returns (throw e : StateT σ (ExceptT ε Option) α) s (.error e) Q := rfl

/-- A computation whose run is another's returns what that one returns. -/
theorem of_run_eq {x y : StateT σ (ExceptT ε Option) α} {s' : σ} {res : Except ε α}
    (hxy : x.run s = y.run s') (hy : Returns y s' res Q) : Returns x s res Q := by
  cases res with
  | ok a =>
    obtain ⟨s'', hrun, hQ⟩ := hy
    exact ⟨s'', hxy.trans hrun, hQ⟩
  | error e => exact hxy.trans hy

/-- A run that succeeds goes on with what follows it. -/
theorem run_bind_of_ok {x : StateT σ (ExceptT ε Option) α}
    {f : α → StateT σ (ExceptT ε Option) β} {a : α} {s' : σ}
    (h : x.run s = some (.ok (a, s'))) : (x >>= f).run s = (f a).run s' := by
  simp only [StateT.run_bind]
  rw [h]
  rfl

theorem bind_ok {x : StateT σ (ExceptT ε Option) α} {f : α → StateT σ (ExceptT ε Option) β}
    {a : α} {res : Except ε β} (hx : Returns x s (.ok a) Q)
    (hf : ∀ s', Q s' → Returns (f a) s' res R) : Returns (x >>= f) s res R := by
  obtain ⟨s', hrun, hQ⟩ := hx
  exact of_run_eq (run_bind_of_ok hrun) (hf s' hQ)

theorem bind_error {x : StateT σ (ExceptT ε Option) α} {f : α → StateT σ (ExceptT ε Option) β}
    {e : ε} (hx : Returns x s (.error e) Q) : Returns (x >>= f) s (.error e) R := by
  show (x >>= f).run s = some (.error e)
  simp only [StateT.run_bind]
  rw [show x.run s = some (.error e) from hx]
  rfl

/-- A computation followed by a function of its value returns that function
of what it returns. -/
theorem bind_pure {x : StateT σ (ExceptT ε Option) α} {f : α → β} {res : Except ε α}
    (hx : Returns x s res Q) : Returns (x >>= fun a => pure (f a)) s (f <$> res) Q := by
  cases res with
  | ok a => exact bind_ok hx fun _ hs' => of_pure hs'
  | error e => exact bind_error hx

theorem get_bind {f : σ → StateT σ (ExceptT ε Option) α} {res : Except ε α}
    (h : Returns (f s) s res Q) : Returns (get >>= f) s res Q :=
  of_run_eq rfl h

theorem modify_bind {g : σ → σ} {f : PUnit → StateT σ (ExceptT ε Option) α} {res : Except ε α}
    (h : Returns (f ⟨⟩) (g s) res Q) : Returns (modify g >>= f) s res Q :=
  of_run_eq rfl h

/-- Appending to nothing changes no result. -/
@[simp] theorem map_nil_append {γ : Type} (res : Except ε (List γ)) :
    (([] : List γ) ++ ·) <$> res = res := by
  cases res <;> rfl

/-- **A fold that appends the result of a run for each element.**  When every
step from `acc` returns `acc` followed by a result that `P` relates to its
element, the fold returns `acc` followed by a result that `L` relates to the
list, for every `L` closed under the rules of such a concatenation: nothing
for no element, the first error, and the results one after another. -/
theorem foldlM_append {γ : Type} {P : α → Except ε (List γ) → Prop}
    {L : List α → Except ε (List γ) → Prop} (hnil : L [] (.ok []))
    (herror : ∀ x xs e, P x (.error e) → L (x :: xs) (.error e))
    (hcons : ∀ x xs r res, P x (.ok r) → L xs res → L (x :: xs) ((r ++ ·) <$> res))
    {g : List γ → α → StateT σ (ExceptT ε Option) (List γ)} :
    ∀ (l : List α), (∀ x ∈ l, ∀ acc s, Q s → ∃ r, P x r ∧ Returns (g acc x) s ((acc ++ ·) <$> r) Q) →
      ∀ acc s, Q s → ∃ res, L l res ∧ Returns (l.foldlM g acc) s ((acc ++ ·) <$> res) Q
  | [], _, acc, s, hs => ⟨.ok [], hnil, by simpa using of_pure (ε := ε) (a := acc) hs⟩
  | x :: xs, hg, acc, s, hs => by
    obtain ⟨r, hr, hret⟩ := hg x List.mem_cons_self acc s hs
    rw [List.foldlM_cons]
    cases r with
    | error e => exact ⟨.error e, herror x xs e hr, bind_error hret⟩
    | ok r =>
      -- the rest of the fold goes on from `acc ++ r`, in the state the step left
      obtain ⟨s', hrun, hs'⟩ := hret
      obtain ⟨res, hres, hret'⟩ := foldlM_append hnil herror hcons xs
        (fun y hy => hg y (List.mem_cons_of_mem x hy)) (acc ++ r) s' hs'
      refine ⟨(r ++ ·) <$> res, hcons x xs r res hr hres, ?_⟩
      have hassoc : (acc ++ ·) <$> ((r ++ ·) <$> res) = ((acc ++ r) ++ ·) <$> res := by
        cases res <;> simp [Functor.map, Except.map]
      rw [hassoc]
      exact of_run_eq (run_bind_of_ok hrun) hret'

end Returns

end returns
