import Mathlib.Data.List.GetD
import Mathlib.Data.List.Sort
import Soong.Lib.GoMap

/-!
# Binary search and prefix blocks

Go's `sort.Search(n, f)` bisects `[0, n)` for the first index at which `f`
turns true; it is correct only when `f` is false and then true along the
indices, and that is all `searchLoop_eq` assumes: a boundary `k` with `f`
false below it and true from it on.

A sorted list is split at such a boundary by any predicate that, once true,
stays true along the list (`filter_not_append_filter`).  Two predicates of
that kind come from the lexicographic order: "greater than `p`", and, among
the lists greater than `p`, "does not start with `p`" — the lists that start
with `p` and are not `p` itself form one block right after `p`
(`lt_of_lt_of_not_prefix`).

`sort.Slice` is not stable: Go leaves the order of elements that neither
`less` orders unspecified.  The model sorts by insertion, one of the orders
Go may give; statements about it go through `Slice_perm` and
`pairwise_Slice_key`, which every order Go may give satisfies.
-/

namespace sort

variable {α : Type}

/-- The loop of `sort.Search`: the answer lies in `[i, j]`. -/
def searchLoop (f : ℕ → Bool) (i j : ℕ) : ℕ :=
  if i < j then
    let h := (i + j) / 2
    if !f h then searchLoop f (h + 1) j else searchLoop f i h
  else i
termination_by j - i

/-- `sort.Search(n, f)`. -/
def Search (n : ℕ) (f : ℕ → Bool) : ℕ := searchLoop f 0 n

/-- **The bisection finds the boundary.**  If `f` is false below `k` and true
from `k` up to `n`, every interval `[i, j]` around `k` leads to `k`. -/
theorem searchLoop_eq {f : ℕ → Bool} {k n : ℕ} (hlo : ∀ m < k, f m = false)
    (hhi : ∀ m, k ≤ m → m < n → f m = true) {i j : ℕ} (hi : i ≤ k) (hk : k ≤ j)
    (hj : j ≤ n) : searchLoop f i j = k := by
  fun_induction searchLoop f i j with
  | case1 i j hij h hf ih =>
    -- `f` is false at the midpoint, so the boundary lies above it
    have hhk : h < k := by
      by_contra hle
      have := hhi h (by omega) (by omega)
      simp_all
    exact ih (by omega) hk hj
  | case2 i j hij h hf ih =>
    -- `f` is true at the midpoint, so the boundary is at or below it
    have hkh : k ≤ h := by
      by_contra hlt
      have := hlo h (by omega)
      simp_all
    exact ih hi hkh (by omega)
  | case3 i j hij => omega

theorem Search_eq {f : ℕ → Bool} {k n : ℕ} (hlo : ∀ m < k, f m = false)
    (hhi : ∀ m, k ≤ m → m < n → f m = true) (hk : k ≤ n) : Search n f = k :=
  searchLoop_eq hlo hhi (Nat.zero_le k) hk le_rfl

/-- `sort.Search` over the indices of a list that a predicate splits into a
false part and a true part returns the length of the false part. -/
theorem Search_append (l₁ l₂ : List α) (q : α → Bool) (d : α) (h₁ : ∀ a ∈ l₁, q a = false)
    (h₂ : ∀ a ∈ l₂, q a = true) :
    Search (l₁ ++ l₂).length (fun i => q ((l₁ ++ l₂).getD i d)) = l₁.length := by
  apply Search_eq
  · intro m hm
    rw [List.getD_append _ _ _ _ hm, List.getD_eq_getElem _ _ hm]
    exact h₁ _ (List.getElem_mem hm)
  · intro m hm hmn
    have hm₂ : m - l₁.length < l₂.length := by simp at hmn; omega
    rw [List.getD_append_right _ _ _ _ hm, List.getD_eq_getElem _ _ hm₂]
    exact h₂ _ (List.getElem_mem hm₂)
  · simp

/-- `sort.Slice(s, less)`: insertion sort, one of the orders Go's unstable
sort may produce. -/
def Slice (s : List α) (less : α → α → Bool) : List α := SliceStable s less

theorem Slice_perm (s : List α) (less : α → α → Bool) : (Slice s less).Perm s :=
  SliceStable_perm s less

/-- Sorting by a key into a linear order leaves the keys in order. -/
theorem pairwise_Slice_key {β : Type} [LinearOrder β] (key : α → β) (s : List α) :
    (Slice s fun a b => decide (key a < key b)).Pairwise fun a b => key a ≤ key b := by
  let r : α → α → Prop := fun a b => (!decide (key b < key a)) = true
  have hr : ∀ a b, r a b ↔ key a ≤ key b := by simp [r]
  have htotal : Std.Total r := ⟨fun a b => by simpa only [hr] using le_total (key a) (key b)⟩
  have htrans : IsTrans α r := ⟨fun a b c hab hbc => by
    simp only [hr] at *
    exact le_trans hab hbc⟩
  have hsorted : (Slice s fun a b => decide (key a < key b)).Pairwise r :=
    List.pairwise_insertionSort _ s
  exact hsorted.imp fun h => (hr _ _).mp h

end sort

namespace List

variable {α : Type}

/-- A list along which `q`, once true, stays true is its elements failing `q`
followed by those satisfying it. -/
theorem filter_not_append_filter {q : α → Bool} :
    ∀ {l : List α}, l.Pairwise (fun a b => q a = true → q b = true) →
      l.filter (fun a => !q a) ++ l.filter q = l
  | [], _ => rfl
  | a :: l, h => by
    obtain ⟨hrest, hl⟩ := pairwise_cons.mp h
    by_cases ha : q a = true
    · -- from `a` on everything satisfies `q`
      have hall : l.filter q = l := filter_eq_self.mpr fun b hb => hrest b hb ha
      have hnone : l.filter (fun a => !q a) = [] :=
        filter_eq_nil_iff.mpr fun b hb => by simp [hrest b hb ha]
      simp [ha, hall, hnone]
    · simp only [Bool.not_eq_true] at ha
      simp [ha, filter_not_append_filter hl]

section Lex

variable [LT α]

/-- A proper prefix is below the list. -/
theorem lt_of_prefix_of_ne : ∀ {p a : List α}, p <+: a → p ≠ a → p < a
  | [], [], _, hne => absurd rfl hne
  | [], _ :: _, _, _ => nil_lt_cons _ _
  | _ :: _, [], h, _ => absurd (eq_nil_of_prefix_nil h) (cons_ne_nil _ _)
  | c :: p, d :: a, h, hne => by
    obtain ⟨rfl, hp⟩ := cons_prefix_cons.mp h
    have hne' : p ≠ a := fun hpa => hne (hpa ▸ rfl)
    exact cons_lt_cons_iff.mpr (Or.inr ⟨rfl, lt_of_prefix_of_ne hp hne'⟩)

/-- **The lists that start with `p` form a block.**  A list above `p` that does
not start with `p` differs from `p` upwards at the first place they differ,
so it is above every list that starts with `p`. -/
theorem lt_of_lt_of_not_prefix : ∀ {p a b : List α}, p < a → ¬p <+: a → p <+: b → b < a
  | [], _, _, _, ha, _ => absurd nil_prefix ha
  | _ :: _, [], _, hlt, _, _ => absurd hlt (not_lt_nil _)
  | c :: p, d :: a, _, hlt, ha, ⟨t, rfl⟩ => by
    rw [cons_append]
    rcases cons_lt_cons_iff.mp hlt with hcd | ⟨rfl, hpa⟩
    · exact cons_lt_cons_iff.mpr (Or.inl hcd)
    · -- the first difference lies further on
      have ha' : ¬p <+: a := fun h => ha (cons_prefix_cons.mpr ⟨rfl, h⟩)
      exact cons_lt_cons_iff.mpr
        (Or.inr ⟨rfl, lt_of_lt_of_not_prefix hpa ha' (prefix_append p t)⟩)

end Lex

end List

namespace sort

variable {α : Type}

/-- `sort.Search` over a list along which `q`, once true, stays true returns
the number of elements failing `q`. -/
theorem Search_eq_length_filter {l : List α} {q : α → Bool}
    (h : l.Pairwise fun a b => q a = true → q b = true) (d : α) :
    Search l.length (fun i => q (l.getD i d)) = (l.filter fun a => !q a).length := by
  have hsearch := Search_append (l.filter fun a => !q a) (l.filter q) q d
    (fun a ha => by simpa using (List.mem_filter.mp ha).2) (fun a ha => (List.mem_filter.mp ha).2)
  rwa [List.filter_not_append_filter h] at hsearch

/-- Past the elements failing `q` are the elements satisfying it. -/
theorem drop_length_filter_not {l : List α} {q : α → Bool}
    (h : l.Pairwise fun a b => q a = true → q b = true) :
    l.drop (l.filter fun a => !q a).length = l.filter q := by
  have hdrop : (l.filter (fun a => !q a) ++ l.filter q).drop (l.filter fun a => !q a).length =
      l.filter q := List.drop_left
  rwa [List.filter_not_append_filter h] at hdrop

/-- Up to the first element satisfying `q` are the elements failing it. -/
theorem take_length_filter_not {l : List α} {q : α → Bool}
    (h : l.Pairwise fun a b => q a = true → q b = true) :
    l.take (l.filter fun a => !q a).length = l.filter fun a => !q a := by
  have htake : (l.filter (fun a => !q a) ++ l.filter q).take (l.filter fun a => !q a).length =
      l.filter fun a => !q a := List.take_left
  rwa [List.filter_not_append_filter h] at htake

end sort
