import Mathlib.Data.List.Nodup
import Mathlib.Logic.Function.Basic

/-!
# Doubly linked cells in a heap

A heap of cells with two links each, `older` and `newer`, as functions from
addresses to nullable addresses.  `Seg older newer a l c` says that following
`older` from `a` visits the cells `l` in order and then `c`, and that `newer`
leads back along the same cells; a circular list through a sentinel `h` is
`Seg older newer h l h`.

The lemmas are the ones a list implementation needs: a segment only reads the
links of its own cells (`Seg.frame`), it splits at any of its cells
(`seg_append_cons`), and unlinking a cell or linking a fresh one after the
first cell are the two pointer updates that keep it a segment (`Seg.unlink`,
`Seg.link`).

## Main definitions

* `Seg`.

## Main results

* `Seg.frame`, `seg_append_cons`.
* `Seg.unlink`, `Seg.link`.
* `Seg.older_newer`, `Seg.newer_older` — every cell of a circular list is its
  older neighbour's newer neighbour and its newer neighbour's older one.
-/

namespace DLList

variable {P : Type*}

/-- `Seg older newer a l c`: `older` leads from `a` through `l` to `c`, and
`newer` leads back. -/
def Seg (older newer : P → Option P) : P → List P → P → Prop
  | a, [], c => older a = some c ∧ newer c = some a
  | a, x :: l, c => older a = some x ∧ newer x = some a ∧ Seg older newer x l c

instance decidableSeg [DecidableEq P] (older newer : P → Option P) :
    ∀ a l c, Decidable (Seg older newer a l c)
  | _, [], _ => instDecidableAnd
  | _, x :: l, c =>
    haveI := decidableSeg older newer x l c
    instDecidableAnd

section

variable {older newer older' newer' : P → Option P}

@[simp] theorem seg_nil {a c : P} :
    Seg older newer a [] c ↔ older a = some c ∧ newer c = some a := Iff.rfl

@[simp] theorem seg_cons {a x c : P} {l : List P} :
    Seg older newer a (x :: l) c ↔ older a = some x ∧ newer x = some a ∧ Seg older newer x l c :=
  Iff.rfl

/-- A segment is split at any of its cells. -/
theorem seg_append_cons {a x c : P} {l₁ l₂ : List P} :
    Seg older newer a (l₁ ++ x :: l₂) c ↔ Seg older newer a l₁ x ∧ Seg older newer x l₂ c := by
  induction l₁ generalizing a with
  | nil => simp [and_assoc]
  | cons y l₁ ih => simp [ih, and_assoc]

/-- **A segment reads only its own links**: `older` of its cells but the last,
and `newer` of its cells but the first. -/
theorem Seg.frame {a c : P} {l : List P} (h : Seg older newer a l c)
    (ho : ∀ p ∈ a :: l, older' p = older p) (hn : ∀ p ∈ l ++ [c], newer' p = newer p) :
    Seg older' newer' a l c := by
  induction l generalizing a with
  | nil =>
    obtain ⟨hac, hca⟩ := h
    exact ⟨(ho a (by simp)).trans hac, (hn c (by simp)).trans hca⟩
  | cons x l ih =>
    obtain ⟨hax, hxa, hrest⟩ := h
    refine ⟨(ho a (by simp)).trans hax, (hn x (by simp)).trans hxa, ?_⟩
    exact ih hrest (fun p hp => ho p (List.mem_cons_of_mem a hp))
      (fun p hp => hn p (by simp_all))

/-- The cell a segment's last cell links back to is one of its cells. -/
theorem Seg.mem_of_newer {a c p : P} {l : List P} (h : Seg older newer a l c)
    (hp : newer c = some p) : p ∈ a :: l := by
  induction l generalizing a with
  | nil =>
    have hpa : p = a := Option.some.inj (hp.symm.trans h.2)
    simp [hpa]
  | cons x l ih => exact List.mem_cons_of_mem a (ih h.2.2)

/-- The cell a segment's first cell links to is one of its cells. -/
theorem Seg.mem_of_older {a c q : P} {l : List P} (h : Seg older newer a l c)
    (hq : older a = some q) : q ∈ l ++ [c] := by
  cases l with
  | nil =>
    have hqc : q = c := Option.some.inj (hq.symm.trans h.1)
    simp [hqc]
  | cons x l =>
    have hqx : q = x := Option.some.inj (hq.symm.trans h.1)
    simp [hqx]

/-- Every cell of a segment but the last is its older neighbour's newer
neighbour. -/
theorem Seg.older_newer {a c p : P} {l : List P} (h : Seg older newer a l c) (hp : p ∈ a :: l) :
    ∃ q, older p = some q ∧ newer q = some p := by
  induction l generalizing a with
  | nil =>
    have hpa : p = a := by simpa using hp
    exact ⟨c, hpa ▸ h.1, hpa ▸ h.2⟩
  | cons x l ih =>
    rcases List.mem_cons.mp hp with rfl | hp
    · exact ⟨x, h.1, h.2.1⟩
    · exact ih h.2.2 hp

/-- Every cell of a segment but the first is its newer neighbour's older
neighbour. -/
theorem Seg.newer_older {a c p : P} {l : List P} (h : Seg older newer a l c) (hp : p ∈ l ++ [c]) :
    ∃ r, newer p = some r ∧ older r = some p := by
  induction l generalizing a with
  | nil =>
    have hpc : p = c := by simpa using hp
    exact ⟨a, hpc ▸ h.2, hpc ▸ h.1⟩
  | cons x l ih =>
    rcases List.mem_cons.mp hp with rfl | hp
    · exact ⟨a, h.2.1, h.1⟩
    · exact ih h.2.2 hp

end

section

variable [DecidableEq P] {older newer : P → Option P}

/-- **Unlinking a cell.**  A cell `x` of a segment, between `p` and `q`, leaves
it when `p`'s older link goes to `q` and `q`'s newer link goes to `p`; each
cell's links are read once. -/
theorem Seg.unlink {a x c p q : P} {l₁ l₂ : List P}
    (h : Seg older newer a (l₁ ++ x :: l₂) c) (hq : older x = some q) (hp : newer x = some p)
    (hnd : (a :: (l₁ ++ x :: l₂)).Nodup) (hnd' : (l₁ ++ x :: l₂ ++ [c]).Nodup) :
    Seg (Function.update older p (some q)) (Function.update newer q (some p)) a (l₁ ++ l₂) c := by
  induction l₁ generalizing a with
  | nil =>
    -- `x` follows `a`, so `p = a`
    obtain ⟨hax, hxa, hrest⟩ := h
    have hpa : p = a := Option.some.inj (hp.symm.trans hxa)
    subst hpa
    have ha : p ∉ l₂ := fun hmem => by simp_all
    cases l₂ with
    | nil =>
      have hqc : q = c := Option.some.inj (hq.symm.trans hrest.1)
      subst hqc
      simp
    | cons y l₂ =>
      obtain ⟨hxy, hyx, hrest⟩ := hrest
      have hqy : q = y := Option.some.inj (hq.symm.trans hxy)
      subst hqy
      -- the rest of the segment reads neither `p`'s older link nor `q`'s newer one
      have hpy : p ∉ q :: l₂ := by simp_all
      have hqn : q ∉ l₂ ++ [c] := by
        simp only [List.nil_append, List.cons_append, List.nodup_cons] at hnd'
        exact hnd'.2.1
      refine ⟨by simp, by simp, hrest.frame ?_ ?_⟩
      · intro r hr
        have hrp : r ≠ p := fun h => hpy (h ▸ hr)
        simp [hrp]
      · intro r hr
        have hrq : r ≠ q := fun h => hqn (h ▸ hr)
        simp [hrq]
  | cons y l₁ ih =>
    obtain ⟨hay, hya, hrest⟩ := h
    obtain ⟨hfst, hsnd⟩ := seg_append_cons.mp hrest
    -- `p` precedes `x` and `q` follows it, so neither is `a` nor `y`
    have hpmem : p ∈ y :: l₁ := hfst.mem_of_newer hp
    have hqmem : q ∈ l₂ ++ [c] := hsnd.mem_of_older hq
    have hap : a ≠ p := by
      rintro rfl
      exact (List.nodup_cons.mp hnd).1 (by simp_all)
    have hyq : y ≠ q := by
      rintro rfl
      have := (List.nodup_cons.mp hnd').1
      simp_all
    refine ⟨by simp [hap, hay], by simp [hyq, hya], ih hrest ?_ ?_⟩
    · exact (List.nodup_cons.mp hnd).2
    · exact (List.nodup_cons.mp hnd').2

/-- **Linking a fresh cell** after the first cell `a` of a segment: `a` and the
fresh cell `x` link to each other, and `x` and `a`'s old neighbour `o` do. -/
theorem Seg.link {a x c o : P} {l : List P} (h : Seg older newer a l c) (ho : older a = some o)
    (hx : x ∉ a :: l ++ [c]) (hnd : (a :: l).Nodup) (hnd' : (l ++ [c]).Nodup) :
    Seg (Function.update (Function.update older a (some x)) x (some o))
      (Function.update (Function.update newer o (some x)) x (some a)) a (x :: l) c := by
  have hxa : x ≠ a := fun h => hx (by simp [h])
  refine ⟨by simp [hxa.symm], by simp, ?_⟩
  cases l with
  | nil =>
    have hoc : o = c := Option.some.inj (ho.symm.trans h.1)
    subst hoc
    have hxo : x ≠ o := fun h => hx (by simp [h])
    simp [hxo.symm]
  | cons y l =>
    obtain ⟨hay, hya, hrest⟩ := h
    have hoy : o = y := Option.some.inj (ho.symm.trans hay)
    subst hoy
    have hxo : x ≠ o := fun h => hx (by simp [h])
    refine ⟨by simp, by simp [hxo.symm], hrest.frame ?_ ?_⟩
    · -- the cells after `o` are neither `a` nor `x`
      intro r hr
      have hra : r ≠ a := by
        rintro rfl
        exact (List.nodup_cons.mp hnd).1 hr
      have hrx : r ≠ x := by
        rintro rfl
        exact hx (by simp_all)
      simp [hra, hrx]
    · intro r hr
      have hro : r ≠ o := by
        rintro rfl
        exact (List.nodup_cons.mp hnd').1 hr
      have hrx : r ≠ x := by
        rintro rfl
        exact hx (by simp_all)
      simp [hro, hrx]

end

end DLList
