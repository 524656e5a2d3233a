import Mathlib.Data.List.Dedup
import Mathlib.Data.List.Induction

/-!
# Keeping the first or the last occurrence

Two ways of removing duplicates from a list: core's `List.eraseDups` keeps the
first occurrence of every value, Mathlib's `List.dedup` keeps the last one.  A
flattening that walks a graph with a visited set emits a *sub*-sequence of the
naive expansion, and the two only agree after one of these; the lemmas here are
the ones such a comparison needs.

* `eraseDups_eq_reverse_dedup_reverse` — the two are mirror images.
* `eraseDups_append_of_subset`, `eraseDups_append_congr` — appending values
  already present changes nothing, and equal deduplications stay equal under
  a common suffix.
* `FollowedBy y x l` — every occurrence of `y` in `l` has an `x` after it;
  `sublist_dedup_of_followedBy` turns it into an order on `l.dedup`.
* `firstByKey key l` — the first element of each key, as a Go map filled only
  with absent keys keeps them; `find?_firstByKey` and
  `exists_mem_rel_iff_of_find?` say that comparing a new element with the first
  of its key is comparing it with all of them.
-/

namespace List

/-! ### First and last occurrences -/

section FirstLast

variable {α : Type*} [DecidableEq α]

theorem eraseDups_append_singleton (l : List α) (a : α) :
    (l ++ [a]).eraseDups = if a ∈ l then l.eraseDups else l.eraseDups ++ [a] := by
  rw [eraseDups_append]
  by_cases ha : a ∈ l
  · have : [a].removeAll l = [] := by simp [removeAll, ha]
    simp [this, ha]
  · have : [a].removeAll l = [a] := by simp [removeAll, ha]
    simp [this, ha, eraseDups_cons]

/-- Keeping first occurrences is keeping last occurrences of the reversed list. -/
theorem eraseDups_eq_reverse_dedup_reverse (l : List α) :
    l.eraseDups = l.reverse.dedup.reverse := by
  induction l using List.reverseRecOn with
  | nil => simp
  | append_singleton l a ih =>
    rw [eraseDups_append_singleton, reverse_append, reverse_singleton, singleton_append]
    by_cases ha : a ∈ l
    · rw [if_pos ha, dedup_cons_of_mem (mem_reverse.mpr ha), ih]
    · rw [if_neg ha, dedup_cons_of_notMem (fun h => ha (mem_reverse.mp h)), reverse_cons, ih]

theorem dedup_eq_reverse_eraseDups_reverse (l : List α) :
    l.dedup = l.reverse.eraseDups.reverse := by
  rw [eraseDups_eq_reverse_dedup_reverse, reverse_reverse, reverse_reverse]

theorem nodup_eraseDups (l : List α) : l.eraseDups.Nodup := by
  rw [eraseDups_eq_reverse_dedup_reverse, nodup_reverse]
  exact nodup_dedup _

theorem Nodup.eraseDups_eq {l : List α} (h : l.Nodup) : l.eraseDups = l := by
  rw [eraseDups_eq_reverse_dedup_reverse, (nodup_reverse.mpr h).dedup, reverse_reverse]

/-- Values that are already present add nothing to the first occurrences. -/
theorem eraseDups_append_of_subset {a b : List α} (h : b ⊆ a) :
    (a ++ b).eraseDups = a.eraseDups := by
  have hb : b.removeAll a = [] := by
    rw [removeAll, filter_eq_nil_iff]
    intro x hx
    simp [h hx]
  rw [eraseDups_append, hb, eraseDups_nil, append_nil]

/-- Two lists with the same first occurrences keep them under a common suffix. -/
theorem eraseDups_append_congr {a b : List α} (h : a.eraseDups = b.eraseDups) (c : List α) :
    (a ++ c).eraseDups = (b ++ c).eraseDups := by
  -- the same first occurrences means the same members, so `c` loses the same values
  have hmem : ∀ x, x ∈ a ↔ x ∈ b := fun x => by
    rw [← mem_eraseDups, h, mem_eraseDups]
  have hc : c.removeAll a = c.removeAll b := by
    simp only [removeAll]
    congr 1
    funext x
    simp [hmem x]
  rw [eraseDups_append, eraseDups_append, h, hc]

/-- The last occurrence of the last value is the last element, and the values
before it keep their last occurrences among the others. -/
theorem dedup_append_singleton (l : List α) (x : α) :
    (l ++ [x]).dedup = (l.filter (· ≠ x)).dedup ++ [x] := by
  induction l with
  | nil => simp
  | cons a l ih =>
    by_cases hax : a = x
    · -- a copy of `x`: dropped on both sides
      subst hax
      rw [cons_append, dedup_cons_of_mem (mem_append_right l (mem_singleton_self a)), ih]
      simp
    · have hfilter : (a :: l).filter (· ≠ x) = a :: l.filter (· ≠ x) := by simp [hax]
      rw [hfilter, cons_append]
      by_cases hal : a ∈ l
      · have hal' : a ∈ l.filter (· ≠ x) := mem_filter.mpr ⟨hal, by simpa using hax⟩
        rw [dedup_cons_of_mem (mem_append_left _ hal), dedup_cons_of_mem hal', ih]
      · have hal' : a ∉ l ++ [x] := by simp [hal, hax]
        have hal'' : a ∉ l.filter (· ≠ x) := fun h => hal (mem_filter.mp h).1
        rw [dedup_cons_of_notMem hal', dedup_cons_of_notMem hal'', ih, cons_append]

/-- A list splits into its copies of `x` and the rest. -/
theorem length_filter_ne_add_count (l : List α) (x : α) :
    (l.filter (· ≠ x)).length + l.count x = l.length := by
  induction l with
  | nil => rfl
  | cons a l ih =>
    simp only [ne_eq, decide_not] at ih
    by_cases hax : a = x
    · subst hax
      simp [count_cons_self]
      omega
    · simp [hax, count_cons_of_ne hax]
      omega

end FirstLast

/-! ### Occurrences followed by another value -/

section FollowedBy

variable {α : Type*}

/-- `FollowedBy y x l`: every occurrence of `y` in `l` has an occurrence of `x`
somewhere after it. -/
def FollowedBy (y x : α) : List α → Prop
  | [] => True
  | a :: l => (a = y → x ∈ l) ∧ FollowedBy y x l

theorem followedBy_of_not_mem {y x : α} {l : List α} (h : y ∉ l) : FollowedBy y x l := by
  induction l with
  | nil => trivial
  | cons a l ih =>
    rw [mem_cons, not_or] at h
    exact ⟨fun ha => absurd ha.symm h.1, ih h.2⟩

theorem followedBy_append {y x : α} {a b : List α} (ha : FollowedBy y x a)
    (hb : FollowedBy y x b) : FollowedBy y x (a ++ b) := by
  induction a with
  | nil => exact hb
  | cons c a ih =>
    obtain ⟨hc, ha⟩ := ha
    exact ⟨fun h => mem_append_left b (hc h), ih ha⟩

/-- A tail that contains `x` covers every occurrence of `y` before it. -/
theorem followedBy_append_of_mem {y x : α} (a : List α) {b : List α} (hx : x ∈ b)
    (hb : FollowedBy y x b) : FollowedBy y x (a ++ b) := by
  induction a with
  | nil => exact hb
  | cons c a ih => exact ⟨fun _ => mem_append_right a hx, ih⟩

theorem followedBy_flatten {y x : α} {L : List (List α)} (h : ∀ l ∈ L, FollowedBy y x l) :
    FollowedBy y x L.flatten := by
  induction L with
  | nil => trivial
  | cons l L ih =>
    rw [flatten_cons]
    exact followedBy_append (h l mem_cons_self) (ih fun l' hl' => h l' (mem_cons_of_mem l hl'))

theorem followedBy_flatMap {β : Type*} {y x : α} {f : β → List α} {L : List β}
    (h : ∀ b ∈ L, FollowedBy y x (f b)) : FollowedBy y x (L.flatMap f) := by
  rw [flatMap_def]
  exact followedBy_flatten fun l hl => by
    obtain ⟨b, hb, rfl⟩ := mem_map.mp hl
    exact h b hb

/-- **Keeping last occurrences orders `y` before `x`** when every `y` is followed
by an `x`: the last `x` comes after the last `y`. -/
theorem sublist_dedup_of_followedBy [DecidableEq α] {y x : α} {l : List α} (hy : y ∈ l)
    (h : FollowedBy y x l) : [y, x] <+ l.dedup := by
  induction l with
  | nil => simp at hy
  | cons a l ih =>
    obtain ⟨ha, hl⟩ := h
    by_cases hyl : y ∈ l
    · -- a later `y` already carries the order, and `a` can only be dropped
      have hsub : l.dedup <+ (a :: l).dedup := by
        by_cases hal : a ∈ l
        · rw [dedup_cons_of_mem hal]
        · rw [dedup_cons_of_notMem hal]
          exact sublist_cons_self a _
      exact (ih hyl hl).trans hsub
    · -- `a` is the last `y`, and the `x` after it survives in the tail
      have hay : a = y := by
        rcases mem_cons.mp hy with h | h
        · exact h.symm
        · exact absurd h hyl
      subst hay
      rw [dedup_cons_of_notMem hyl]
      exact (singleton_sublist.mpr (mem_dedup.mpr (ha rfl))).cons_cons a

end FollowedBy

/-! ### The first element of each key -/

section FirstByKey

variable {α κ : Type*} [DecidableEq κ] (key : α → κ)

/-- The first element of each key, in the order of first occurrence. -/
def firstByKey (l : List α) : List α :=
  l.foldl (fun acc a => if key a ∈ acc.map key then acc else acc ++ [a]) []

@[simp] theorem firstByKey_nil : firstByKey key ([] : List α) = [] := rfl

theorem firstByKey_append_singleton (l : List α) (a : α) :
    firstByKey key (l ++ [a]) =
      if key a ∈ (firstByKey key l).map key then firstByKey key l else firstByKey key l ++ [a] := by
  simp [firstByKey, foldl_append]

/-- The keys of the first elements are the keys without their repetitions. -/
theorem map_firstByKey (l : List α) : (firstByKey key l).map key = (l.map key).eraseDups := by
  induction l using List.reverseRecOn with
  | nil => rfl
  | append_singleton l a ih =>
    rw [firstByKey_append_singleton, map_append, map_singleton, eraseDups_append_singleton]
    by_cases ha : key a ∈ l.map key
    · simp [ha, ih]
    · simp [ha, ih]

theorem nodup_map_firstByKey (l : List α) : ((firstByKey key l).map key).Nodup := by
  rw [map_firstByKey]
  exact nodup_eraseDups _

theorem mem_map_firstByKey {l : List α} {k : κ} : k ∈ (firstByKey key l).map key ↔ k ∈ l.map key := by
  rw [map_firstByKey, mem_eraseDups]

/-- The first element of a key is found among the first elements. -/
theorem find?_firstByKey (l : List α) (k : κ) :
    (firstByKey key l).find? (fun a => key a = k) = l.find? fun a => key a = k := by
  induction l using List.reverseRecOn with
  | nil => rfl
  | append_singleton l a ih =>
    rw [firstByKey_append_singleton, find?_append, ← ih]
    split
    · next ha =>
      -- `a` repeats a key, so whatever it could be found for is found before it
      by_cases hk : key a = k
      · obtain ⟨b, hb, hbk⟩ := mem_map.mp ha
        have hsome : ((firstByKey key l).find? fun a => key a = k) ≠ none := by
          rw [Ne, find?_eq_none]
          exact fun h => h b hb (by simp [hbk, hk])
        obtain ⟨x, hx⟩ := Option.ne_none_iff_exists'.mp hsome
        simp [hx]
      · simp [hk]
    · rw [find?_append]

/-- In a list of distinct keys, an element is the one found for its key. -/
theorem find?_eq_of_nodup_map {l : List α} (hl : (l.map key).Nodup) {a : α} (ha : a ∈ l) :
    l.find? (fun b => key b = key a) = some a := by
  induction l with
  | nil => simp at ha
  | cons b l ih =>
    rw [map_cons, nodup_cons] at hl
    rcases mem_cons.mp ha with rfl | ha
    · simp
    · have hne : key b ≠ key a := fun h => hl.1 (h ▸ mem_map_of_mem ha)
      simp [hne, ih hl.2 ha]

/-- **A new element conflicts with an earlier one exactly when it conflicts
with the first earlier element of its key**, for a conflict that only relates
elements of one key, when the earlier elements conflict pairwise nowhere, and
when agreeing with the first element of a key passes conflicts on to it. -/
theorem exists_mem_rel_iff_of_find? {C : α → α → Prop} {l : List α} {b x : α}
    (hpass : ∀ {x a b}, key x = key a → ¬C x a → C a b → C x b)
    (hl : l.Pairwise fun a b => ¬C a b) (hx : l.find? (fun a => key a = key b) = some x) :
    (∃ a ∈ l, key a = key b ∧ C a b) ↔ C x b := by
  obtain ⟨hxb, as, bs, rfl, has⟩ := find?_eq_some_iff_append.mp hx
  have hxb : key x = key b := by simpa using hxb
  constructor
  · rintro ⟨a, ha, hab, hC⟩
    rcases mem_append.mp ha with ha | ha
    · exact absurd (by simpa using hab) (by simpa using has a ha)
    · rcases mem_cons.mp ha with rfl | ha
      · exact hC
      · -- `x` comes before `a`, so the two agree, and `a`'s conflict passes to `x`
        have hxa : ¬C x a := (pairwise_cons.mp (pairwise_append.mp hl).2.1).1 a ha
        exact hpass (hxb.trans hab.symm) hxa hC
  · intro hC
    exact ⟨x, mem_append_right as mem_cons_self, hxb, hC⟩

end FirstByKey

end List
