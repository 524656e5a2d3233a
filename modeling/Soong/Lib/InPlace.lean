import Mathlib.Data.List.GetD

/-!
# Loops that rewrite a slice in place

A loop `for i := 0; i < n; i++` that reads and writes one slice is modelled
as a fold over `List.range n` of a step on the slice and the loop's counters.
What the loop computes is stated as an invariant indexed by `i`: true before
the first pass and kept by the pass at each `i < n`, it holds when the loop
ends (`foldl_range_induction`).

The other lemmas are what such invariants need of the slice: a write at an
index below the part still to read leaves that part alone, writing the value
an index holds changes nothing, and an inner loop over the indices below `k`
that looks for a value finds it exactly when it is in the first `k` places.

## Main results

* `foldl_range_induction` — the invariant rule of a counting loop.
* `take_set_succ`, `take_succ_getD`, `getD_of_drop_eq`, `set_getD_self` —
  reads and writes.
* `any_range_getD_iff_mem_take`, `findIdx?_eq_some_split` — searches.
* `copyInto`, `take_copyInto`, `drop_copyInto` — Go's `copy` between two
  windows of one slice.
-/

namespace List

variable {α σ : Type*}

/-- **A counting loop keeps an invariant indexed by its counter.** -/
theorem foldl_range_induction {f : σ → ℕ → σ} {n : ℕ} (I : ℕ → σ → Prop) {s : σ} (h0 : I 0 s)
    (hstep : ∀ i st, i < n → I i st → I (i + 1) (f st i)) : I n ((range n).foldl f s) := by
  induction n with
  | zero => exact h0
  | succ n ih =>
    rw [range_succ, foldl_append, foldl_cons, foldl_nil]
    exact hstep n _ (Nat.lt_succ_self n) (ih fun i st hi => hstep i st (Nat.lt_succ_of_lt hi))

/-- A write at `k` followed by a cut after it: the first `k` places, then the
value written. -/
theorem take_set_succ {l : List α} {k : ℕ} (hk : k < l.length) (x : α) :
    (l.set k x).take (k + 1) = l.take k ++ [x] := by
  induction l generalizing k with
  | nil => simp at hk
  | cons a l ih =>
    cases k with
    | zero => simp
    | succ k =>
      rw [length_cons] at hk
      simp [ih (by omega : k < l.length)]

/-- The first `i + 1` places: the first `i`, then the value at `i`. -/
theorem take_succ_getD {l : List α} {i : ℕ} (hi : i < l.length) (d : α) :
    l.take (i + 1) = l.take i ++ [l.getD i d] := by
  rw [take_add_one, getElem?_eq_getElem hi, Option.toList_some, getD_eq_getElem l d hi]

/-- What is left after `i + 1` places: what is left after `i`, less one. -/
theorem drop_succ_of_drop_eq {l l' : List α} {i : ℕ} (h : l.drop i = l'.drop i) :
    l.drop (i + 1) = l'.drop (i + 1) := by
  rw [← drop_drop, h, drop_drop]

/-- Two slices that agree from `i` on hold the same value at `i`. -/
theorem getD_of_drop_eq {l l' : List α} {i : ℕ} (h : l.drop i = l'.drop i) (d : α) :
    l.getD i d = l'.getD i d := by
  have := congrArg (fun m : List α => m.getD 0 d) h
  simpa [getD_eq_getElem?_getD] using this

/-- Writing back the value an index holds changes nothing. -/
theorem set_getD_self (l : List α) (k : ℕ) (d : α) : l.set k (l.getD k d) = l := by
  by_cases hk : k < l.length
  · rw [getD_eq_getElem l d hk, set_getElem_self]
  · exact set_eq_of_length_le (Nat.le_of_not_lt hk)

/-- **The inner loop `for j := 0; j < k; j++ { if x == l[j] … }`** finds `x`
exactly when it is among the first `k` places. -/
theorem any_range_getD_iff_mem_take [DecidableEq α] {l : List α} {k : ℕ} (hk : k ≤ l.length)
    (x d : α) : ((range k).any fun j => x == l.getD j d) = true ↔ x ∈ l.take k := by
  rw [any_eq_true, mem_iff_getElem]
  constructor
  · rintro ⟨j, hj, hx⟩
    rw [mem_range] at hj
    rw [beq_iff_eq] at hx
    refine ⟨j, by simp [length_take]; omega, ?_⟩
    rw [getElem_take, hx, getD_eq_getElem l d (by omega)]
  · rintro ⟨j, hj, hx⟩
    rw [length_take] at hj
    refine ⟨j, mem_range.mpr (by omega), ?_⟩
    rw [beq_iff_eq, ← hx, getElem_take, getD_eq_getElem l d (by omega)]

/-- Where a search stops: what it looks for, and nothing of it before. -/
theorem findIdx?_eq_some_split {p : α → Bool} {l : List α} {k : ℕ} (h : l.findIdx? p = some k) :
    ∃ pre x post, l = pre ++ x :: post ∧ pre.length = k ∧ p x = true ∧ ∀ y ∈ pre, p y = false := by
  obtain ⟨hk, hx, hbefore⟩ := findIdx?_eq_some_iff_getElem.mp h
  refine ⟨l.take k, l[k], l.drop (k + 1), ?_, length_take_of_le (Nat.le_of_lt hk), hx, ?_⟩
  · rw [← drop_eq_getElem_cons hk, take_append_drop]
  · intro y hy
    obtain ⟨j, hj, rfl⟩ := getElem_of_mem hy
    rw [length_take_of_le (Nat.le_of_lt hk)] at hj
    rw [getElem_take]
    exact Bool.eq_false_iff.mpr (hbefore j hj)

/-! ### Go's `copy` within one slice -/

/-- `copy(buf[w:], src)` where `src` may share `buf`'s array: the places from
`w` take `src`'s values, as many as both have.  `src` is read before anything
is written, which is what `copy` guarantees for overlapping slices. -/
def copyInto (buf : List α) (w : ℕ) (src : List α) : List α :=
  buf.take w ++ src.take (buf.length - w) ++ buf.drop (w + src.length)

section copyInto

variable {buf src : List α} {w : ℕ}

/-- A copy that fits: the slice is its first `w` places, `src`, and the rest. -/
theorem copyInto_eq (h : w + src.length ≤ buf.length) :
    copyInto buf w src = buf.take w ++ src ++ buf.drop (w + src.length) := by
  rw [copyInto, take_of_length_le (by omega : src.length ≤ buf.length - w)]

theorem length_copyInto (h : w + src.length ≤ buf.length) :
    (copyInto buf w src).length = buf.length := by
  rw [copyInto_eq h, length_append, length_append, length_take_of_le (by omega), length_drop]
  omega

/-- The places up to the end of the copy. -/
theorem take_copyInto (h : w + src.length ≤ buf.length) :
    (copyInto buf w src).take (w + src.length) = buf.take w ++ src := by
  rw [copyInto_eq h, take_left']
  rw [length_append, length_take_of_le (by omega)]

/-- The places past the copy are untouched. -/
theorem drop_copyInto {k : ℕ} (h : w + src.length ≤ buf.length) (hk : w + src.length ≤ k) :
    (copyInto buf w src).drop k = buf.drop k := by
  have hlen : (buf.take w ++ src).length = w + src.length := by
    rw [length_append, length_take_of_le (by omega)]
  rw [copyInto_eq h, drop_append, drop_eq_nil_of_le (by omega), nil_append, hlen, drop_drop,
    Nat.add_sub_cancel' hk]

end copyInto

end List
