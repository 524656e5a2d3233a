import Mathlib.Data.List.Induction
import Mathlib.Data.List.Sort
import Mathlib.Data.String.Basic

/-!
# Go maps and slices

Two pieces of the Go language that the models read and write.

A Go map is modelled by its entries in iteration order.  Go leaves that order
unspecified and varies it from run to run, so a model fixes *one* order by the
list, and a statement meant for every order quantifies over the lists.
Assigning to a present key keeps its place, assigning to a new key adds it at
the end, and `delete` removes it.

A Go slice may be `nil`, which is observable (`s == nil`) although it behaves
as an empty list: `Slice α` is `Option (List α)`, `none` being `nil`.  `append`
returns its first argument unchanged when there is nothing to add, so `nil`
survives an append of nothing.
-/

namespace GoMap

variable {K V : Type} [DecidableEq K]

/-- `m[k]` in its comma-ok form. -/
def get? : List (K × V) → K → Option V
  | [], _ => none
  | (k', v) :: m, k => if k' = k then some v else get? m k

/-- `m[k]`, with the zero value `z` for an absent key. -/
def getD (m : List (K × V)) (k : K) (z : V) : V := (get? m k).getD z

/-- `m[k] = v`: overwrite in place, or add at the end. -/
def set : List (K × V) → K → V → List (K × V)
  | [], k, v => [(k, v)]
  | (k', v') :: m, k, v => if k' = k then (k, v) :: m else (k', v') :: set m k v

/-- `delete(m, k)`. -/
def delete (m : List (K × V)) (k : K) : List (K × V) :=
  m.filter fun e => e.1 ≠ k

/-- The keys in iteration order. -/
def keys (m : List (K × V)) : List K := m.map Prod.fst

theorem get?_set_self (m : List (K × V)) (k : K) (v : V) : get? (set m k v) k = some v := by
  induction m with
  | nil => simp [set, get?]
  | cons e m ih =>
    obtain ⟨k', v'⟩ := e
    by_cases hk : k' = k
    · simp [set, get?, hk]
    · simp [set, get?, hk, ih]

theorem get?_set_of_ne (m : List (K × V)) {k k' : K} (v : V) (h : k' ≠ k) :
    get? (set m k v) k' = get? m k' := by
  induction m with
  | nil => simp [set, get?, Ne.symm h]
  | cons e m ih =>
    obtain ⟨k'', v''⟩ := e
    by_cases hk : k'' = k
    · subst hk
      simp [set, get?, Ne.symm h]
    · simp [set, get?, hk, ih]

@[simp] theorem getD_set_self (m : List (K × V)) (k : K) (v z : V) : getD (set m k v) k z = v := by
  simp [getD, get?_set_self]

theorem getD_set_of_ne (m : List (K × V)) {k k' : K} (v z : V) (h : k' ≠ k) :
    getD (set m k v) k' z = getD m k' z := by
  simp [getD, get?_set_of_ne m v h]

theorem getD_cons (m : List (K × V)) (k' k : K) (v z : V) :
    getD ((k', v) :: m) k z = if k' = k then v else getD m k z := by
  by_cases h : k' = k <;> simp [getD, get?, h]

theorem get?_eq_none_of_not_mem_keys {m : List (K × V)} {k : K} (h : k ∉ keys m) :
    get? m k = none := by
  induction m with
  | nil => rfl
  | cons e m ih =>
    obtain ⟨k', v'⟩ := e
    simp only [keys, List.map_cons, List.mem_cons, not_or] at h
    simp [get?, Ne.symm h.1, ih h.2]

theorem mem_of_get?_eq_some {m : List (K × V)} {k : K} {v : V} (h : get? m k = some v) :
    (k, v) ∈ m := by
  induction m with
  | nil => simp [get?] at h
  | cons e m ih =>
    obtain ⟨k', v'⟩ := e
    by_cases hk : k' = k
    · simp only [get?, hk, if_true, Option.some.injEq] at h
      simp [hk, h]
    · simp only [get?, hk, if_false] at h
      exact List.mem_cons_of_mem _ (ih h)

/-- **Updating a map by the pairs of another.**  When, for each pair `(k, w)`
of a map of distinct keys, the entry `k` of `m` is replaced by `F k (m[k]) w`,
every entry of `m` is updated once, by its own pair, and the others are kept. -/
theorem getD_foldl_update {W : Type} (F : K → V → W → V) (z : V) {other : List (K × W)}
    (hother : (keys other).Nodup) (m : List (K × V)) (k : K) :
    getD (other.foldl (fun m e => set m e.1 (F e.1 (getD m e.1 z) e.2)) m) k z =
      (get? other k).elim (getD m k z) (F k (getD m k z)) := by
  induction other generalizing m with
  | nil => rfl
  | cons e other ih =>
    obtain ⟨k', w⟩ := e
    simp only [keys, List.map_cons, List.nodup_cons] at hother
    rw [List.foldl_cons, ih hother.2]
    by_cases hk : k' = k
    · -- the key of the pair: updated here, and by no later pair
      subst hk
      rw [get?_eq_none_of_not_mem_keys hother.1]
      simp [get?]
    · -- another key: this pair leaves it alone
      rw [getD_set_of_ne _ _ _ (Ne.symm hk)]
      simp [get?, hk]

/-- Assigning to an absent key adds it at the end. -/
theorem set_of_get?_eq_none {m : List (K × V)} {k : K} (v : V) (h : get? m k = none) :
    set m k v = m ++ [(k, v)] := by
  induction m with
  | nil => rfl
  | cons e m ih =>
    obtain ⟨k', v'⟩ := e
    have hne : k' ≠ k := by
      intro hk
      simp [get?, hk] at h
    have hrest : get? m k = none := by simpa [get?, hne] using h
    simp [set, hne, ih hrest]

/-- A map whose pairs are the elements of a list under their keys: a lookup is
the first element with the key. -/
theorem get?_map_pair {α : Type} (l : List α) (f : α → K) (k : K) :
    get? (l.map fun a => (f a, a)) k = l.find? fun a => f a = k := by
  induction l with
  | nil => rfl
  | cons a l ih =>
    by_cases hk : f a = k
    · simp [get?, hk]
    · simp [get?, hk, ih]

theorem get?_isSome_of_mem_keys {m : List (K × V)} {k : K} (h : k ∈ keys m) :
    (get? m k).isSome := by
  induction m with
  | nil => simp [keys] at h
  | cons e m ih =>
    obtain ⟨k', v'⟩ := e
    by_cases hk : k' = k
    · simp [get?, hk]
    · have : k ∈ keys m := by
        simp only [keys, List.map_cons, List.mem_cons] at h
        exact h.resolve_left (Ne.symm hk)
      simpa [get?, hk] using ih this

/-- Looking up every key, in key order, gives back a map of distinct keys. -/
theorem filterMap_keys_get? {m : List (K × V)} (hm : (keys m).Nodup) :
    (keys m).filterMap (fun k => (get? m k).map (k, ·)) = m := by
  induction m with
  | nil => rfl
  | cons e m ih =>
    obtain ⟨k, v⟩ := e
    simp only [keys, List.map_cons, List.nodup_cons] at hm
    have hrest : (keys m).filterMap (fun k' => (get? ((k, v) :: m) k').map (k', ·)) =
        (keys m).filterMap (fun k' => (get? m k').map (k', ·)) := by
      apply List.filterMap_congr
      intro k' hk'
      have hne : k ≠ k' := fun h => hm.1 (h ▸ hk')
      simp [get?, hne]
    have hhead : get? ((k, v) :: m) k = some v := by simp [get?]
    rw [show keys ((k, v) :: m) = k :: keys m from rfl, List.filterMap_cons, hhead,
      Option.map_some, hrest, ih hm.2]

/-- Looking up a reordering of the keys writes the pairs of the map in that
order. -/
theorem filterMap_get?_of_perm {m : List (K × V)} (hm : (keys m).Nodup) {names : List K}
    (hnames : names.Perm (keys m)) :
    (names.filterMap fun k => (get? m k).map (k, ·)).Perm m ∧
      (names.filterMap fun k => (get? m k).map (k, ·)).map Prod.fst = names := by
  constructor
  · have := hnames.filterMap (fun k => (get? m k).map (k, ·))
    rwa [filterMap_keys_get? hm] at this
  · have hmem : ∀ k ∈ names, k ∈ keys m := fun k hk => hnames.subset hk
    clear hnames
    induction names with
    | nil => rfl
    | cons k names ih =>
      obtain ⟨v, hv⟩ := Option.isSome_iff_exists.mp (get?_isSome_of_mem_keys (hmem k (by simp)))
      simp only [List.filterMap_cons, hv, Option.map_some, List.map_cons]
      rw [ih fun k' hk' => hmem k' (List.mem_cons_of_mem k hk')]

omit [DecidableEq K] in
@[simp] theorem keys_map_pair {α : Type} (l : List α) (f : α → K) :
    keys (l.map fun a => (f a, a)) = l.map f := by
  simp [keys]

/-- Appending a value to a key's slice adds one pair to the map's pairs. -/
theorem perm_flatMap_set_getD_append (m : List (K × List V)) (k : K) (v : V) :
    ((set m k (getD m k [] ++ [v])).flatMap fun e => e.2.map (e.1, ·)).Perm
      ((m.flatMap fun e => e.2.map (e.1, ·)) ++ [(k, v)]) := by
  induction m with
  | nil => simp [set, getD, get?]
  | cons e m ih =>
    obtain ⟨k', vs⟩ := e
    by_cases hk : k' = k
    · subst hk
      simp only [set, getD, get?, if_true, Option.getD_some, List.flatMap_cons, List.map_append,
        List.map_cons, List.map_nil, List.append_assoc]
      exact List.Perm.append_left _ List.perm_append_comm
    · have hget : getD ((k', vs) :: m) k [] = getD m k [] := by simp [getD, get?, hk]
      rw [hget]
      simp only [set, if_neg hk, List.flatMap_cons, List.append_assoc]
      exact List.Perm.append_left _ ih

theorem get?_delete_self (m : List (K × V)) (k : K) : get? (delete m k) k = none := by
  apply get?_eq_none_of_not_mem_keys
  simp [delete, keys]

theorem get?_delete_of_ne (m : List (K × V)) {k k' : K} (h : k' ≠ k) :
    get? (delete m k) k' = get? m k' := by
  induction m with
  | nil => rfl
  | cons e m ih =>
    obtain ⟨k'', v⟩ := e
    by_cases hk : k'' = k
    · -- the deleted key is not the one looked up
      subst hk
      have hne : k'' ≠ k' := Ne.symm h
      simpa [delete, get?, hne] using ih
    · by_cases hk' : k'' = k'
      · subst hk'
        simp [delete, get?, hk]
      · simpa [delete, get?, hk, hk'] using ih

/-- The keys of a map after an assignment: the old ones and the assigned one. -/
theorem mem_keys_set {m : List (K × V)} {k x : K} {v : V} (hx : x ∈ keys (set m k v)) :
    x ∈ keys m ∨ x = k := by
  induction m with
  | nil => simpa [set, keys] using hx
  | cons e m ih =>
    obtain ⟨k', v'⟩ := e
    by_cases hk : k' = k
    · subst hk
      simp only [set, if_true, keys, List.map_cons, List.mem_cons] at hx
      rcases hx with rfl | hx
      · exact .inr rfl
      · exact .inl (List.mem_cons_of_mem _ hx)
    · simp only [set, hk, if_false, keys, List.map_cons, List.mem_cons] at hx
      rcases hx with rfl | hx
      · exact .inl List.mem_cons_self
      · rcases ih hx with h | h
        · exact .inl (List.mem_cons_of_mem _ h)
        · exact .inr h

theorem nodup_keys_set {m : List (K × V)} (hm : (keys m).Nodup) (k : K) (v : V) :
    (keys (set m k v)).Nodup := by
  induction m with
  | nil => simp [set, keys]
  | cons e m ih =>
    obtain ⟨k', v'⟩ := e
    simp only [keys, List.map_cons, List.nodup_cons] at hm
    by_cases hk : k' = k
    · subst hk
      simpa [set, keys] using hm
    · simp only [set, hk, if_false, keys, List.map_cons, List.nodup_cons]
      refine ⟨fun hmem => ?_, ih hm.2⟩
      rcases mem_keys_set hmem with h | h
      · exact hm.1 h
      · exact hk h

/-- The pairs of a map after an assignment: the old ones and the assigned one. -/
theorem mem_set {m : List (K × V)} {k : K} {v : V} {e : K × V} (he : e ∈ set m k v) :
    e ∈ m ∨ e = (k, v) := by
  induction m with
  | nil => simpa [set] using he
  | cons e' m ih =>
    obtain ⟨k', v'⟩ := e'
    by_cases hk : k' = k
    · simp only [set, hk, if_true, List.mem_cons] at he
      rcases he with rfl | he
      · exact .inr rfl
      · exact .inl (List.mem_cons_of_mem _ he)
    · simp only [set, hk, if_false, List.mem_cons] at he
      rcases he with rfl | he
      · exact .inl List.mem_cons_self
      · rcases ih he with h | h
        · exact .inl (List.mem_cons_of_mem _ h)
        · exact .inr h

theorem set_ne_nil (m : List (K × V)) (k : K) (v : V) : set m k v ≠ [] := by
  cases m with
  | nil => simp [set]
  | cons e m =>
    unfold set
    split_ifs <;> simp

omit [DecidableEq K] in
/-- An element other than the last one appended is found where it was. -/
theorem getElem?_append_singleton_eq_some {l : List K} {b a : K} (hb : b ≠ a) (j : ℕ) :
    (l ++ [b])[j]? = some a ↔ l[j]? = some a := by
  rcases Nat.lt_or_ge j l.length with hj | hj
  · rw [List.getElem?_append_left hj]
  · rw [List.getElem?_append_right hj, List.getElem?_eq_none hj]
    cases hk : j - l.length with
    | zero => simp [hb]
    | succ n => simp

/-- **A map filled with the positions of a list's elements maps each element
to its last position**: later assignments overwrite earlier ones. -/
theorem get?_foldl_set_zipIdx (l : List K) (a : K) (i : ℕ) :
    get? (l.zipIdx.foldl (fun m p => set m p.1 p.2) []) a = some i ↔
      l[i]? = some a ∧ ∀ j, i < j → l[j]? ≠ some a := by
  induction l using List.reverseRecOn generalizing i with
  | nil => simp [get?]
  | append_singleton l b ih =>
    rw [List.zipIdx_append, List.foldl_append, Nat.zero_add]
    simp only [List.zipIdx_singleton, List.foldl_cons, List.foldl_nil]
    by_cases hb : b = a
    · -- the last element: its position is the last assignment
      subst hb
      rw [get?_set_self, Option.some.injEq]
      constructor
      · rintro rfl
        refine ⟨by simp, fun j hj => ?_⟩
        rw [List.getElem?_eq_none (by simp; omega)]
        simp
      · rintro ⟨hi, hlast⟩
        have hlt : i < l.length + 1 := by
          by_contra hge
          rw [List.getElem?_eq_none (by simp; omega)] at hi
          cases hi
        by_contra hne
        exact hlast l.length (by omega) (by simp)
    · -- another element: the last assignment leaves it alone
      rw [get?_set_of_ne _ _ (Ne.symm hb), ih, getElem?_append_singleton_eq_some hb]
      simp only [ne_eq, getElem?_append_singleton_eq_some hb]

theorem keys_delete_sublist (m : List (K × V)) (k : K) : (keys (delete m k)).Sublist (keys m) :=
  List.filter_sublist.map Prod.fst

theorem mem_keys_delete {m : List (K × V)} {k x : K} (hx : x ∈ keys (delete m k)) :
    x ∈ keys m ∧ x ≠ k := by
  simp only [keys, delete, List.mem_map, List.mem_filter] at hx
  obtain ⟨e, ⟨he, hne⟩, rfl⟩ := hx
  exact ⟨List.mem_map_of_mem he, by simpa using hne⟩

/-- A lookup in a map of distinct keys finds exactly its pairs. -/
theorem get?_eq_some_iff {m : List (K × V)} (hm : (keys m).Nodup) {k : K} {v : V} :
    get? m k = some v ↔ (k, v) ∈ m := by
  refine ⟨mem_of_get?_eq_some, fun h => ?_⟩
  induction m with
  | nil => cases h
  | cons e m ih =>
    obtain ⟨k', v'⟩ := e
    simp only [keys, List.map_cons, List.nodup_cons] at hm
    rcases List.mem_cons.mp h with h | h
    · cases h
      simp [get?]
    · -- the key is in the rest, so not the head's
      have hne : k' ≠ k := fun hk => hm.1 (hk ▸ List.mem_map_of_mem (f := Prod.fst) h)
      simpa [get?, hne] using ih hm.2 h

/-- **A map's lookups do not depend on its order of iteration.** -/
theorem get?_eq_of_perm {m m' : List (K × V)} (h : m.Perm m') (hm : (keys m).Nodup) (k : K) :
    get? m k = get? m' k := by
  have hm' : (keys m').Nodup := (h.map Prod.fst).nodup_iff.mp hm
  cases hk : get? m k with
  | none =>
    cases hk' : get? m' k with
    | none => rfl
    | some v => exact absurd ((get?_eq_some_iff hm).mpr (h.mem_iff.mpr (mem_of_get?_eq_some hk'))) (by simp [hk])
  | some v => exact ((get?_eq_some_iff hm').mpr (h.mem_iff.mp (mem_of_get?_eq_some hk))).symm

/-- Assigning to a key that stands after others overwrites it in place. -/
theorem set_append_cons {l₁ l₂ : List (K × V)} {k : K} (v₀ v : V) (h : k ∉ keys l₁) :
    set (l₁ ++ (k, v₀) :: l₂) k v = l₁ ++ (k, v) :: l₂ := by
  induction l₁ with
  | nil => simp [set]
  | cons e l₁ ih =>
    obtain ⟨k', v'⟩ := e
    simp only [keys, List.map_cons, List.mem_cons, not_or] at h
    rw [List.cons_append, set, if_neg (Ne.symm h.1), ih h.2, List.cons_append]

/-- A second assignment to a key overwrites the first. -/
@[simp] theorem set_set_self (m : List (K × V)) (k : K) (v v' : V) :
    set (set m k v) k v' = set m k v' := by
  induction m with
  | nil => simp [set]
  | cons e m ih =>
    obtain ⟨k', v''⟩ := e
    by_cases hk : k' = k
    · simp [set, hk]
    · simp [set, hk, ih]

/-- Rewriting every value in place: a lookup finds the rewritten value. -/
theorem get?_map_val {W : Type} (m : List (K × V)) (g : K → V → W) (k : K) :
    get? (m.map fun e => (e.1, g e.1 e.2)) k = (get? m k).map (g k) := by
  induction m with
  | nil => rfl
  | cons e m ih =>
    obtain ⟨k', v⟩ := e
    by_cases hk : k' = k
    · subst hk
      simp [get?]
    · simp [get?, hk, ih]

omit [DecidableEq K] in
@[simp] theorem keys_map_val {W : Type} (m : List (K × V)) (g : K → V → W) :
    keys (m.map fun e => (e.1, g e.1 e.2)) = keys m := by
  simp [keys, Function.comp_def]

/-- **Filling a map from a list of distinct keys appends its pairs in order.** -/
theorem foldl_set_of_nodup {α : Type} (l : List α) (key : α → K) (val : α → V)
    (acc : List (K × V)) (h : (keys acc ++ l.map key).Nodup) :
    l.foldl (fun m a => set m (key a) (val a)) acc = acc ++ l.map fun a => (key a, val a) := by
  induction l generalizing acc with
  | nil => simp
  | cons a l ih =>
    have hfresh : key a ∉ keys acc := by
      intro hk
      exact (List.nodup_append.mp h).2.2 _ hk _ List.mem_cons_self rfl
    rw [List.foldl_cons, set_of_get?_eq_none _ (get?_eq_none_of_not_mem_keys hfresh), ih]
    · simp
    · simpa [keys] using h

/-- The pairs of a map filled from a list: those it had, and those of the list. -/
theorem mem_foldl_set {α : Type} (l : List α) (key : α → K) (val : α → V)
    {acc : List (K × V)} {e : K × V} (he : e ∈ l.foldl (fun m a => set m (key a) (val a)) acc) :
    e ∈ acc ∨ ∃ a ∈ l, e = (key a, val a) := by
  induction l generalizing acc with
  | nil => exact .inl he
  | cons a l ih =>
    rcases ih he with h | ⟨b, hb, rfl⟩
    · rcases mem_set h with h | rfl
      · exact .inl h
      · exact .inr ⟨a, List.mem_cons_self, rfl⟩
    · exact .inr ⟨b, List.mem_cons_of_mem a hb, rfl⟩

theorem nodup_keys_foldl_set {α : Type} (l : List α) (key : α → K) (val : α → V)
    {acc : List (K × V)} (h : (keys acc).Nodup) :
    (keys (l.foldl (fun m a => set m (key a) (val a)) acc)).Nodup := by
  induction l generalizing acc with
  | nil => exact h
  | cons a l ih => exact ih (nodup_keys_set h _ _)

end GoMap

/-- A Go slice: `none` is the `nil` slice. -/
abbrev Slice (α : Type) := Option (List α)

namespace Slice

variable {α : Type}

/-- The elements, `[]` for `nil`. -/
def toList : Slice α → List α
  | none => []
  | some l => l

/-- `append(s, xs...)`: `s` itself when `xs` is empty. -/
def append (s : Slice α) (xs : List α) : Slice α :=
  if xs.isEmpty then s else some (s.toList ++ xs)

/-- `s == nil`. -/
def isNil : Slice α → Bool
  | none => true
  | some _ => false

@[simp] theorem toList_none : toList (none : Slice α) = [] := rfl

@[simp] theorem toList_some (l : List α) : toList (some l) = l := rfl

@[simp] theorem toList_append (s : Slice α) (xs : List α) :
    (s.append xs).toList = s.toList ++ xs := by
  unfold append
  split
  · next h => simp [List.isEmpty_iff.mp h]
  · rfl

/-- What an index of a slice with one element appended holds. -/
theorem getElem?_append_singleton_eq_some {l : List α} {x m : α} {i : ℕ} :
    (l ++ [x])[i]? = some m ↔ l[i]? = some m ∨ (i = l.length ∧ m = x) := by
  rcases Nat.lt_or_ge i l.length with hi | hi
  · rw [List.getElem?_append_left hi]
    constructor
    · exact Or.inl
    · rintro (h | ⟨rfl, -⟩)
      · exact h
      · omega
  · rw [List.getElem?_append_right hi, List.getElem?_eq_none hi]
    rcases Nat.lt_or_ge i (l.length + 1) with hi' | hi'
    · have hil : i = l.length := by omega
      subst hil
      simp [eq_comm]
    · rw [List.getElem?_eq_none (by simp; omega)]
      simp only [reduceCtorEq, false_or, false_iff, not_and]
      omega

/-- When `e` at `idx` is the only element satisfying `p` that any index holds,
`filter p` keeps `e` alone. -/
theorem filter_eq_singleton_of_getElem? {p : α → Bool} {e : α} :
    ∀ {l : List α} {idx : ℕ}, l[idx]? = some e → p e = true →
      (∀ i m, l[i]? = some m → p m = true → i = idx) → l.filter p = [e]
  | [], _, he, _, _ => by simp at he
  | x :: l, 0, he, hp, huniq => by
    have hx : x = e := by simpa using he
    subst hx
    -- no later index holds an element satisfying `p`
    have hrest : l.filter p = [] := List.filter_eq_nil_iff.mpr fun m hm hpm => by
      obtain ⟨i, hi⟩ := List.mem_iff_getElem?.mp hm
      exact absurd (huniq (i + 1) m (by simpa using hi) hpm) (by omega)
    rw [List.filter_cons_of_pos hp, hrest]
  | x :: l, k + 1, he, hp, huniq => by
    have hx : ¬p x = true := fun hpx => absurd (huniq 0 x rfl hpx) (by omega)
    rw [List.filter_cons_of_neg hx]
    exact filter_eq_singleton_of_getElem? (by simpa using he) hp fun i m hi hpm => by
      have := huniq (i + 1) m (by simpa using hi) hpm
      omega

/-- Writing through an index to an element that `p` rejects before and after
changes nothing that `filter p` keeps. -/
theorem filter_modify_of_eq_false {p : α → Bool} {f : α → α} {l : List α} {i : ℕ} {x : α}
    (hx : l[i]? = some x) (hpx : p x = false) (hpfx : p (f x) = false) :
    (l.modify i f).filter p = l.filter p := by
  obtain ⟨hi, hxi⟩ := List.getElem?_eq_some_iff.mp hx
  have hl : l = l.take i ++ x :: l.drop (i + 1) := by
    rw [← hxi, ← List.drop_eq_getElem_cons hi, List.take_append_drop]
  rw [List.modify_eq_take_cons_drop hi, hxi]
  conv_rhs => rw [hl]
  simp [List.filter_append, hpx, hpfx]

/-- In a slice of distinct keys, the key of a member picks that member alone. -/
theorem filter_key_eq_singleton {β : Type} [DecidableEq β] {key : α → β} {a : α} :
    ∀ {l : List α}, (l.map key).Nodup → a ∈ l → l.filter (fun b => key b == key a) = [a]
  | [], _, ha => by simp at ha
  | x :: l, hnd, ha => by
    rw [List.map_cons, List.nodup_cons] at hnd
    rcases List.mem_cons.mp ha with rfl | ha'
    · -- the other members have other keys
      have hrest : l.filter (fun b => key b == key a) = [] :=
        List.filter_eq_nil_iff.mpr fun b hb hkb =>
          hnd.1 (List.mem_map.mpr ⟨b, hb, by simpa using hkb⟩)
      simp [hrest]
    · have hx : (key x == key a) = false := by
        rw [beq_eq_false_iff_ne]
        intro h
        exact hnd.1 (by rw [h]; exact List.mem_map_of_mem ha')
      rw [List.filter_cons_of_neg (by simp [hx])]
      exact filter_key_eq_singleton hnd.2 ha'

end Slice

namespace sort

variable {α : Type}

/-- A strict total order, given as Go gives one, by a Boolean comparison. -/
structure StrictTotalOrder (less : α → α → Bool) : Prop where
  irrefl : ∀ a, less a a = false
  trans : ∀ {a b c}, less a b = true → less b c = true → less a c = true
  total : ∀ {a b}, a ≠ b → less a b = true ∨ less b a = true

/-- `sort.SliceStable(s, less)`: a stable sort, here insertion sort, which keeps
`a` before `b` unless `b` is less than `a`. -/
def SliceStable (s : List α) (less : α → α → Bool) : List α :=
  s.insertionSort fun a b => !less b a

/-- `sort.Sort(data)`, with `data.Less` given as `less`.  Go's sort is not
stable; on elements that `less` orders strictly every sort gives the one
order, and the model takes the stable one. -/
def «Sort» (s : List α) (less : α → α → Bool) : List α := SliceStable s less

/-- `sort.Strings`. -/
def Strings (s : List String) : List String := s.insertionSort (· ≤ ·)

theorem SliceStable_perm (s : List α) (less : α → α → Bool) : (SliceStable s less).Perm s :=
  List.perm_insertionSort _ s

/-- Sorting a slice of distinct elements by a strict total order leaves it
ordered by it. -/
theorem pairwise_SliceStable {less : α → α → Bool} (hless : StrictTotalOrder less) {s : List α}
    (hs : s.Nodup) : (SliceStable s less).Pairwise fun a b => less a b = true := by
  let r : α → α → Prop := fun a b => (!less b a) = true
  -- `r` is the reflexive closure of `less`: total, and transitive by totality
  have htotal : Std.Total r := ⟨fun a b => by
    by_cases hab : less a b = true
    · have : less b a = false := by
        cases hba : less b a
        · rfl
        · simpa [hless.irrefl] using hless.trans hab hba
      simp [r, this]
    · simp_all [r]⟩
  have htrans : IsTrans α r := ⟨fun a b c hab hbc => by
    simp only [r, Bool.not_eq_eq_eq_not, Bool.not_true] at *
    by_contra hca
    have hca : less c a = true := by simpa using hca
    by_cases hba : b = a
    · subst hba
      simp_all
    · rcases hless.total hba with h | h
      · simp_all
      · simp_all [hless.trans hca h]⟩
  have hsorted : (SliceStable s less).Pairwise r := List.pairwise_insertionSort _ s
  have hnodup : (SliceStable s less).Nodup := (SliceStable_perm s less).nodup_iff.mpr hs
  refine (hsorted.and hnodup).imp fun {a b} ⟨hab, hne⟩ => ?_
  rcases hless.total hne with h | h
  · exact h
  · simp [r, h] at hab

/-- `<` of a linear order, decided, is a strict total order. -/
theorem strictTotalOrder_decide_lt {β : Type} [LinearOrder β] :
    StrictTotalOrder fun a b : β => decide (a < b) where
  irrefl a := by simp
  trans hab hbc := by simp only [decide_eq_true_eq] at *; exact hab.trans hbc
  total hab := by simpa using lt_or_gt_of_ne hab

/-- `>` of a linear order, decided, is a strict total order: the comparison of
`sort.Reverse`. -/
theorem strictTotalOrder_decide_gt {β : Type} [LinearOrder β] :
    StrictTotalOrder fun a b : β => decide (b < a) where
  irrefl a := by simp
  trans hab hbc := by simp only [decide_eq_true_eq] at *; exact hbc.trans hab
  total hab := by simpa using lt_or_gt_of_ne hab.symm

/-- Sorting reads the comparison only on elements of the slice. -/
theorem SliceStable_congr {s : List α} {less less' : α → α → Bool}
    (h : ∀ a ∈ s, ∀ b ∈ s, less a b = less' a b) : SliceStable s less = SliceStable s less' := by
  have hid := List.map_insertionSort (fun a b => (!less b a) = true) (fun a b => (!less' b a) = true)
    id s fun a ha b hb => by simp [h b hb a ha]
  simpa [SliceStable] using hid

/-- Sorting by a strict total order on a key, the keys being distinct, orders
the slice strictly by its keys. -/
theorem pairwise_SliceStable_key {β : Type} {less : β → β → Bool} (hless : StrictTotalOrder less)
    (key : α → β) {s : List α} (hs : (s.map key).Nodup) :
    (SliceStable s fun a b => less (key a) (key b)).Pairwise
      fun a b => less (key a) (key b) = true := by
  have h := pairwise_SliceStable hless hs
  -- sorting commutes with taking the keys, the comparisons being the keys' own
  have hmap : (SliceStable s fun a b => less (key a) (key b)).map key = SliceStable (s.map key) less :=
    List.map_insertionSort _ _ key s fun _ _ _ _ => Iff.rfl
  rw [← hmap] at h
  exact List.pairwise_map.mp h

theorem Strings_perm (s : List String) : (Strings s).Perm s := List.perm_insertionSort _ s

/-- `sort.Strings` of distinct strings orders them strictly. -/
theorem pairwise_Strings {s : List String} (hs : s.Nodup) : (Strings s).Pairwise (· < ·) := by
  have hsorted : (Strings s).Pairwise (· ≤ ·) := List.pairwise_insertionSort _ s
  have hnodup : (Strings s).Nodup := (Strings_perm s).nodup_iff.mpr hs
  exact (hsorted.and hnodup).imp fun ⟨hab, hne⟩ => lt_of_le_of_ne hab hne

/-- `sort.Strings` gives one slice for every reordering of its input. -/
theorem Strings_eq_of_perm {s t : List String} (h : s.Perm t) : Strings s = Strings t :=
  ((Strings_perm s).trans (h.trans (Strings_perm t).symm)).eq_of_sortedLE
    List.sortedLE_insertionSort List.sortedLE_insertionSort

/-- **`sort.Sort` gives one slice for every reordering of distinct elements**,
the order being strict and total. -/
theorem Sort_eq_of_perm {less : α → α → Bool} (hless : StrictTotalOrder less) {s t : List α}
    (hs : s.Nodup) (h : s.Perm t) : «Sort» s less = «Sort» t less := by
  have hperm : («Sort» s less).Perm («Sort» t less) :=
    (SliceStable_perm s less).trans (h.trans (SliceStable_perm t less).symm)
  -- two orderings of one set by a strict order agree: no two elements are
  -- each less than the other
  refine hperm.eq_of_pairwise (fun a b _ _ hab hba => ?_) (pairwise_SliceStable hless hs)
    (pairwise_SliceStable hless (h.nodup_iff.mp hs))
  have := hless.trans hab hba
  rw [hless.irrefl] at this
  cases this

/-- **`slices.Sort`-like sorting by `≤` of a linear order gives one list for
every reordering of its input**: `mergeSort` is stable, but equal elements
are equal. -/
theorem mergeSort_eq_of_perm {β : Type} [LinearOrder β] {l₁ l₂ : List β} (h : l₁.Perm l₂) :
    l₁.mergeSort (fun a b => decide (a ≤ b)) = l₂.mergeSort (fun a b => decide (a ≤ b)) := by
  have htrans : ∀ a b c : β, decide (a ≤ b) = true → decide (b ≤ c) = true →
      decide (a ≤ c) = true := by
    intro a b c hab hbc
    simp only [decide_eq_true_eq] at *
    exact hab.trans hbc
  have htotal : ∀ a b : β, (decide (a ≤ b) || decide (b ≤ a)) = true := by
    intro a b
    simpa using le_total a b
  refine ((List.mergeSort_perm _ _).trans (h.trans (List.mergeSort_perm _ _).symm)).eq_of_pairwise
    (fun a b _ _ hab hba => ?_) (List.pairwise_mergeSort htrans htotal _)
    (List.pairwise_mergeSort htrans htotal _)
  simp only [decide_eq_true_eq] at hab hba
  exact le_antisymm hab hba

end sort
