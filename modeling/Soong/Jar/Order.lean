import Soong.Lib.GoMap
import Soong.Lib.GoPath

/-!
# The order of the entries of a jar

`jar/jar.go`.  A jar lists `META-INF/` first, then its manifest, then the rest
of `META-INF/`, then everything else; `EntryNamesLess` orders names by the
first pattern of `jarOrder` they match, and by name within one pattern.

## Main definitions

* `MetaDir`, `ManifestFile`, `ModuleInfoClass`.
* `patternMatch`, `jarOrder`, `index`, `EntryNamesLess`.

## Main results

* `EntryNamesLess_iff` — the order is lexicographic on the pattern index and the
  name.
* `EntryNamesLess_strictTotalOrder` — a strict total order, so sorting by it
  leaves one possible result.
-/

namespace Soong

namespace jar

def MetaDir : String := "META-INF/"

def ManifestFile : String := MetaDir ++ "MANIFEST.MF"

def ModuleInfoClass : String := "module-info.class"

/-- `patternMatch`: a trailing `*` matches every name with the rest of the
pattern as a prefix; any other pattern matches itself. -/
def patternMatch (pattern name : String) : Bool :=
  if strings.HasSuffix pattern "*" then strings.HasPrefix name (strings.TrimSuffix pattern "*")
  else name = pattern

def jarOrder : List String := [MetaDir, ManifestFile, MetaDir ++ "*", "*"]

/-- `index`: the position of the first pattern of `jarOrder` the name matches.
The last pattern, `*`, matches every name, so Go's panic after the loop is
unreachable and `findIdx`'s default of the length is never returned. -/
def index (name : String) : ℕ := jarOrder.findIdx (patternMatch · name)

/-- `EntryNamesLess`: by `index`, then by name. -/
def EntryNamesLess (filepathA filepathB : String) : Bool :=
  let diff : ℤ := index filepathA - index filepathB
  if diff = 0 then decide (filepathA < filepathB) else decide (diff < 0)

theorem EntryNamesLess_iff (a b : String) :
    EntryNamesLess a b = true ↔ index a < index b ∨ (index a = index b ∧ a < b) := by
  unfold EntryNamesLess
  by_cases h : index a = index b
  · simp [h]
  · have : (index a : ℤ) - index b ≠ 0 := by omega
    simp only [this, if_false, decide_eq_true_eq]
    omega

theorem EntryNamesLess_irrefl (a : String) : EntryNamesLess a a = false := by
  rw [← Bool.not_eq_true, EntryNamesLess_iff]
  simp

theorem EntryNamesLess_trans {a b c : String} (hab : EntryNamesLess a b = true)
    (hbc : EntryNamesLess b c = true) : EntryNamesLess a c = true := by
  rw [EntryNamesLess_iff] at *
  rcases hab with hab | ⟨hab, hab'⟩ <;> rcases hbc with hbc | ⟨hbc, hbc'⟩
  · exact Or.inl (by omega)
  · exact Or.inl (by omega)
  · exact Or.inl (by omega)
  · exact Or.inr ⟨by omega, lt_trans hab' hbc'⟩

theorem EntryNamesLess_trichotomous {a b : String} (hne : a ≠ b) :
    EntryNamesLess a b = true ∨ EntryNamesLess b a = true := by
  simp only [EntryNamesLess_iff]
  rcases lt_trichotomy (index a) (index b) with h | h | h
  · exact Or.inl (Or.inl h)
  · rcases lt_or_gt_of_ne hne with hlt | hlt
    · exact Or.inl (Or.inr ⟨h, hlt⟩)
    · exact Or.inr (Or.inr ⟨h.symm, hlt⟩)
  · exact Or.inr (Or.inl h)

theorem EntryNamesLess_strictTotalOrder : sort.StrictTotalOrder EntryNamesLess :=
  ⟨EntryNamesLess_irrefl, EntryNamesLess_trans, EntryNamesLess_trichotomous⟩

end jar

end Soong
