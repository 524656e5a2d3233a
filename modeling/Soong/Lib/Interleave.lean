import Mathlib.Algebra.Order.BigOperators.Group.List

/-!
# Interleaved runs of parties

A system of parties moves one party at a time: `step s i` is the state after
party `i` takes its next step from `s`, or `none` when the party has nothing
left to do.  A schedule lists the parties in the order they move, and `run`
follows it, passing over a party that cannot move.  `Within ok step s sched`
says that every party the schedule moves was allowed to by `ok` at that moment;
a theorem about a class of interleavings states it as a hypothesis.

When each party keeps a share of some quantity of the whole system, a step of
one party changes one entry of the list of parties; the last two lemmas are the
facts about sums over the parties that such a step needs.

## Main definitions

* `next`, `run`, `Within`.

## Main results

* `run_invariant` — a predicate kept by every allowed step holds after every
  allowed run; `foldlM_invariant` is the same rule for a run of calls that
  stops at its first failure, and `foldlM_some_of_step` shows such a run
  succeeds.
* `sum_map_set_of_getElem?` — the sum after one party's share changed.
* `le_sum_map_of_getElem?` — one party's share is at most the sum when the
  shares of the others are not negative.
-/

namespace Interleave

variable {σ ι : Type*}

/-- The state after party `i` moves from `s`; `s` itself when it cannot. -/
def next (step : σ → ι → Option σ) (s : σ) (i : ι) : σ := (step s i).getD s

/-- The state after the parties of `sched` move in turn. -/
def run (step : σ → ι → Option σ) : σ → List ι → σ
  | s, [] => s
  | s, i :: sched => run step (next step s i) sched

/-- Every move of the run of `sched` from `s` is allowed by `ok`. -/
def Within (ok : σ → ι → Prop) (step : σ → ι → Option σ) : σ → List ι → Prop
  | _, [] => True
  | s, i :: sched => ok s i ∧ Within ok step (next step s i) sched

instance decidableWithin (ok : σ → ι → Prop) [∀ s i, Decidable (ok s i)]
    (step : σ → ι → Option σ) : ∀ s sched, Decidable (Within ok step s sched)
  | _, [] => instDecidableTrue
  | s, i :: sched =>
    haveI := decidableWithin ok step (next step s i) sched
    instDecidableAnd

section Invariant

variable {ok : σ → ι → Prop} {step : σ → ι → Option σ} {P : σ → Prop}

/-- A predicate kept by every allowed step is kept by the move of a party. -/
theorem next_invariant (hstep : ∀ s i s', P s → ok s i → step s i = some s' → P s')
    {s : σ} {i : ι} (hs : P s) (hok : ok s i) : P (next step s i) := by
  unfold next
  cases h : step s i with
  | none => exact hs
  | some s' => exact hstep s i s' hs hok h

/-- **Invariant rule.**  A predicate that holds at the start and is kept by
every allowed step holds after every run of allowed moves. -/
theorem run_invariant (hstep : ∀ s i s', P s → ok s i → step s i = some s' → P s')
    {s : σ} {sched : List ι} (hs : P s) (hw : Within ok step s sched) :
    P (run step s sched) := by
  induction sched generalizing s with
  | nil => exact hs
  | cons i sched ih =>
    obtain ⟨hok, hrest⟩ := hw
    exact ih (next_invariant hstep hs hok) hrest

/-- **Invariant rule for a run that stops at its first failure.**  A predicate
kept by every call of the run holds at its end. -/
theorem foldlM_invariant {α : Type*} {f : σ → α → Option σ} {l : List α}
    (hstep : ∀ s a s', a ∈ l → P s → f s a = some s' → P s') {s s' : σ} (hs : P s)
    (hrun : l.foldlM f s = some s') : P s' := by
  induction l generalizing s with
  | nil =>
    cases hrun
    exact hs
  | cons a l ih =>
    rw [List.foldlM_cons] at hrun
    obtain ⟨s₁, hs₁, hrest⟩ := Option.bind_eq_some_iff.mp hrun
    exact ih (fun t b t' hb => hstep t b t' (List.mem_cons_of_mem a hb))
      (hstep s a s₁ List.mem_cons_self hs hs₁) hrest

/-- **Progress rule for a run that stops at its first failure.**  If every call
succeeds from a state where `P` holds of the elements processed so far, and
keeps `P` with its element added, the run succeeds and `P` holds of all. -/
theorem foldlM_some_of_step {α : Type*} {f : σ → α → Option σ} (P : List α → σ → Prop) :
    ∀ (l pre : List α) (s : σ),
      (∀ pre' a t, a ∈ l → P pre' t → ∃ t', f t a = some t' ∧ P (pre' ++ [a]) t') →
      P pre s → ∃ s', l.foldlM f s = some s' ∧ P (pre ++ l) s'
  | [], pre, s, _, hs => ⟨s, rfl, by simpa using hs⟩
  | a :: l, pre, s, hstep, hs => by
    obtain ⟨s₁, hs₁, hP₁⟩ := hstep pre a s List.mem_cons_self hs
    obtain ⟨s', hrun, hP'⟩ := foldlM_some_of_step P l (pre ++ [a]) s₁
      (fun pre' b t hb => hstep pre' b t (List.mem_cons_of_mem a hb)) hP₁
    refine ⟨s', ?_, by simpa using hP'⟩
    rw [List.foldlM_cons, hs₁]
    exact hrun

end Invariant

section Shares

variable {α G : Type*}

/-- The sum of the shares after party `j`'s entry changed from `a` to `b`. -/
theorem sum_map_set_of_getElem? [AddCommGroup G] {l : List α} {j : ℕ} {a : α}
    (hj : l[j]? = some a) (b : α) (f : α → G) :
    ((l.set j b).map f).sum = (l.map f).sum - f a + f b := by
  obtain ⟨hlt, rfl⟩ := List.getElem?_eq_some_iff.mp hj
  rw [List.map_set, List.sum_set']
  have hlt' : j < (l.map f).length := by simpa using hlt
  rw [dif_pos hlt', List.getElem_map, sub_eq_add_neg, add_assoc]

/-- A share is at most the sum of all shares when no other share is negative. -/
theorem le_sum_map_of_getElem? [AddCommMonoid G] [PartialOrder G] [IsOrderedAddMonoid G]
    {l : List α} {j : ℕ} {a : α} (hj : l[j]? = some a) (f : α → G)
    (hothers : ∀ k (hk : k < l.length), k ≠ j → 0 ≤ f l[k]) : f a ≤ (l.map f).sum := by
  induction l generalizing j with
  | nil => simp at hj
  | cons x l ih =>
    cases j with
    | zero =>
      -- the share is the head; the tail sums to something non-negative
      have htail : 0 ≤ (l.map f).sum := by
        apply List.sum_nonneg
        intro y hy
        obtain ⟨z, hz, rfl⟩ := List.mem_map.mp hy
        obtain ⟨k, hk, rfl⟩ := List.getElem_of_mem hz
        have hk' := hothers (k + 1) (by simp [hk]) (by omega)
        rwa [List.getElem_cons_succ] at hk'
      simp only [List.getElem?_cons_zero, Option.some.injEq] at hj
      subst hj
      simpa using le_add_of_nonneg_right htail
    | succ j =>
      -- the share is in the tail; the head is not negative
      have hhead : 0 ≤ f x := hothers 0 (by simp) (by omega)
      have hrest := ih (j := j) (by simpa using hj) fun k hk hne => by
        have hk' := hothers (k + 1) (by simp [hk]) (by omega)
        rwa [List.getElem_cons_succ] at hk'
      simpa using le_add_of_nonneg_of_le hhead hrest

end Shares

end Interleave
