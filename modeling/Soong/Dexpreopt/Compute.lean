import Soong.Dexpreopt.ClassLoaderContext
import Soong.Android.FirstUnique

/-!
# Validating, fixing and printing class loader contexts

What `dexpreopt.go` does with the class loader contexts of a module before it
runs `dex2oat`: `validateClassLoaderContext` checks that every library has a
build path and an install path, `fixClassLoaderContext` drops from the lists
of the compatibility libraries those the app uses unconditionally, and
`ComputeClassLoaderContext` prints the contexts for `construct_context`, one
pair of flags per SDK version, with the build paths of all the libraries as
the command's implicit inputs.

The recursions of `class_loader_context.go` walk a list of contexts and, for
each, the list below it.  Each is written as a loop over a list and a function
of one context, calling each other on the parts of the tree, so that the
recursion is structural.

## Main definitions

* `ClassLoaderContext.contexts`, `contextsList` — the contexts of a tree, in
  preorder.
* `validateClassLoaderContext`, `ClassLoaderContext.validateClassLoaderContextRec`.
* `ClassLoaderContextMap.usesLibs`, `fixClassLoaderContext`.
* `ComputeClassLoaderContext`, `ClassLoaderContext.computeClassLoaderContextRec`.

## Main results

* `validateClassLoaderContext_eq_true_iff`, `validateClassLoaderContext_error` —
  what validation accepts, and which libraries its errors name.
* `fixClassLoaderContext_spec` — what fixing keeps.
* `ComputeClassLoaderContext_perm` — the printed context does not depend on
  the order in which Go walks the map.
* `ComputeClassLoaderContext_of_validate` — a map that validates prints, once
  fixed, without a panic, with the build path of every library as an input.
-/

namespace Soong

namespace dexpreopt

variable {Path : Type}

namespace ClassLoaderContext

/-! ### The contexts of a tree -/

mutual

/-- The contexts of a tree in preorder: the context, then those below it. -/
def contexts : ClassLoaderContext Path → List (ClassLoaderContext Path)
  | c@⟨_, _, _, _, _, subcontexts⟩ => c :: contextsList subcontexts

/-- The contexts of the trees of a list, one tree after the other. -/
def contextsList : List (ClassLoaderContext Path) → List (ClassLoaderContext Path)
  | [] => []
  | c :: cs => contexts c ++ contextsList cs

end

@[simp] theorem contexts_eq (c : ClassLoaderContext Path) :
    contexts c = c :: contextsList c.Subcontexts := by
  cases c
  rfl

@[simp] theorem contextsList_nil : contextsList ([] : List (ClassLoaderContext Path)) = [] := rfl

@[simp] theorem contextsList_cons (c : ClassLoaderContext Path) (cs : List (ClassLoaderContext Path)) :
    contextsList (c :: cs) = contexts c ++ contextsList cs := rfl

theorem contextsList_eq_flatMap (l : List (ClassLoaderContext Path)) :
    contextsList l = l.flatMap contexts := by
  induction l with
  | nil => rfl
  | cons c cs ih => rw [contextsList_cons, ih, List.flatMap_cons]

/-- The contexts of a sublist of trees are among the contexts of the list. -/
theorem contextsList_subset {l l' : List (ClassLoaderContext Path)} (h : l ⊆ l') :
    contextsList l ⊆ contextsList l' := by
  intro c hc
  rw [contextsList_eq_flatMap, List.mem_flatMap] at hc ⊢
  obtain ⟨t, ht, hc⟩ := hc
  exact ⟨t, h ht, hc⟩

/-! ### Validation -/

/-- A context `dex2oat` can use: it has a build path, and its install path is
known. -/
def Valid (c : ClassLoaderContext Path) : Prop :=
  c.Host.isSome = true ∧ c.Device ≠ UnknownInstallLibraryPath

instance : DecidablePred (@Valid Path) := fun c =>
  inferInstanceAs (Decidable (c.Host.isSome = true ∧ c.Device ≠ UnknownInstallLibraryPath))

mutual

/-- One round of the loop of `validateClassLoaderContextRec`: the context
itself, then, recursively, the contexts below it.  Only an unconditional
library raises an error; a compatibility library makes the context invalid
silently. -/
def validateOne (sdkVer : ℤ) : ClassLoaderContext Path → Bool × Option String
  | ⟨name, _, _, host, device, subcontexts⟩ =>
    if host.isNone || device == UnknownInstallLibraryPath then
      if sdkVer = AnySdkVersion then
        if host.isNone then (false, some ("invalid build path for <uses-library> \"" ++ name ++ "\""))
        else (false, some ("invalid install path for <uses-library> \"" ++ name ++ "\""))
      else (false, none)
    else validateClassLoaderContextRec sdkVer subcontexts

/-- `validateClassLoaderContextRec(sdkVer, clcs)`: the first invalid result of
the contexts of the list, `(true, nil)` when there is none. -/
def validateClassLoaderContextRec (sdkVer : ℤ) :
    List (ClassLoaderContext Path) → Bool × Option String
  | [] => (true, none)
  | clc :: rest =>
    match validateOne sdkVer clc with
    | (true, none) => validateClassLoaderContextRec sdkVer rest
    | r => r

end

/-- The error validation gives for an unconditional context without a path. -/
def invalidText (c : ClassLoaderContext Path) : String :=
  if c.Host.isNone then "invalid build path for <uses-library> \"" ++ c.Name ++ "\""
  else "invalid install path for <uses-library> \"" ++ c.Name ++ "\""

/-- What validating the contexts `cs` may give: success, or a failure with an
error exactly for the unconditional version, the error of a context of `cs`
without a path. -/
def Outcome (sdkVer : ℤ) (cs : List (ClassLoaderContext Path)) (r : Bool × Option String) : Prop :=
  r = (true, none) ∨
    (r.1 = false ∧ (r.2.isSome ↔ sdkVer = AnySdkVersion) ∧
      ∀ msg, r.2 = some msg → ∃ c ∈ cs, ¬Valid c ∧ msg = invalidText c)

theorem Outcome.mono {sdkVer : ℤ} {cs cs' : List (ClassLoaderContext Path)} {r : Bool × Option String}
    (h : Outcome sdkVer cs r) (hsub : cs ⊆ cs') : Outcome sdkVer cs' r := by
  rcases h with h | ⟨hfalse, hany, herr⟩
  · exact .inl h
  · refine .inr ⟨hfalse, hany, fun msg hmsg => ?_⟩
    obtain ⟨c, hc, hinv, htext⟩ := herr msg hmsg
    exact ⟨c, hsub hc, hinv, htext⟩

section validate

variable (sdkVer : ℤ)

mutual

/-- A context validates when it and every context below it is valid. -/
theorem validateOne_eq_true_iff : (c : ClassLoaderContext Path) →
    validateOne sdkVer c = (true, none) ↔ ∀ c' ∈ contexts c, Valid c'
  | ⟨name, optional, implicit, host, device, subcontexts⟩ => by
    rw [validateOne, contexts_eq, List.forall_mem_cons]
    by_cases hinv : (host.isNone || device == UnknownInstallLibraryPath) = true
    · -- the context itself is invalid: a failure, whatever is below
      have hnot : ¬Valid (⟨name, optional, implicit, host, device, subcontexts⟩ : ClassLoaderContext Path) := by
        simp only [Bool.or_eq_true, Option.isNone_iff_eq_none, beq_iff_eq] at hinv
        rcases hinv with rfl | rfl <;> simp [Valid]
      rw [if_pos hinv]
      split_ifs <;> simp [hnot]
    · have hvalid : Valid (⟨name, optional, implicit, host, device, subcontexts⟩ : ClassLoaderContext Path) := by
        simp only [Bool.or_eq_true, Option.isNone_iff_eq_none, beq_iff_eq, not_or] at hinv
        exact ⟨Option.isSome_iff_ne_none.mpr hinv.1, hinv.2⟩
      rw [if_neg hinv, validateClassLoaderContextRec_eq_true_iff subcontexts]
      simp [hvalid]

/-- A list validates when every context of its trees is valid. -/
theorem validateClassLoaderContextRec_eq_true_iff : (l : List (ClassLoaderContext Path)) →
    validateClassLoaderContextRec sdkVer l = (true, none) ↔ ∀ c ∈ contextsList l, Valid c
  | [] => by simp [validateClassLoaderContextRec]
  | c :: rest => by
    rw [validateClassLoaderContextRec, contextsList_cons, List.forall_mem_append,
      ← validateOne_eq_true_iff c, ← validateClassLoaderContextRec_eq_true_iff rest]
    -- the loop goes on exactly past a context that validates
    rcases h : validateOne sdkVer c with ⟨_ | _, _ | msg⟩ <;> simp

end

mutual

theorem validateOne_outcome : (c : ClassLoaderContext Path) →
    Outcome sdkVer (contexts c) (validateOne sdkVer c)
  | ⟨name, optional, implicit, host, device, subcontexts⟩ => by
    rw [validateOne, contexts_eq]
    split_ifs with hinv hany hhost
    · -- an unconditional library without a build path
      refine .inr ⟨rfl, by simp [hany], fun msg hmsg => ⟨_, List.mem_cons_self, ?_, ?_⟩⟩
      · simp [Valid, Option.isNone_iff_eq_none.mp hhost]
      · cases hmsg
        simp [invalidText, hhost]
    · -- an unconditional library with an unknown install path
      refine .inr ⟨rfl, by simp [hany], fun msg hmsg => ⟨_, List.mem_cons_self, ?_, ?_⟩⟩
      · simp only [Bool.or_eq_true, beq_iff_eq] at hinv
        simp [Valid, hinv.resolve_left hhost]
      · cases hmsg
        simp [invalidText, hhost]
    · -- a compatibility library fails silently
      exact .inr ⟨rfl, by simp [hany], fun msg hmsg => by cases hmsg⟩
    · exact (validateClassLoaderContextRec_outcome subcontexts).mono
        (fun _ h => List.mem_cons_of_mem _ h)

theorem validateClassLoaderContextRec_outcome : (l : List (ClassLoaderContext Path)) →
    Outcome sdkVer (contextsList l) (validateClassLoaderContextRec sdkVer l)
  | [] => .inl rfl
  | c :: rest => by
    rw [validateClassLoaderContextRec, contextsList_cons]
    have hone := (validateOne_outcome c).mono (List.subset_append_left (contexts c) (contextsList rest))
    have hrest := (validateClassLoaderContextRec_outcome rest).mono
      (List.subset_append_right (contexts c) (contextsList rest))
    -- the loop goes on past a success, and stops at anything else
    rcases h : validateOne sdkVer c with ⟨b, e⟩
    rw [h] at hone
    match b, e with
    | true, none => exact hrest
    | false, _ => exact hone
    | true, some _ => exact hone

end

end validate

end ClassLoaderContext

open ClassLoaderContext

/-- `validateClassLoaderContext`: the lists of the map in Go's order of
iteration, up to the first that is invalid. -/
def validateClassLoaderContext : ClassLoaderContextMap Path → Bool × Option String
  | [] => (true, none)
  | (sdkVer, clcs) :: rest =>
    match validateClassLoaderContextRec sdkVer clcs with
    | (true, none) => validateClassLoaderContext rest
    | r => r

/-! ### Fixing the compatibility libraries -/

theorem validateClassLoaderContext_cons (sdkVer : ℤ) (clcs : List (ClassLoaderContext Path))
    (rest : ClassLoaderContextMap Path) :
    validateClassLoaderContext ((sdkVer, clcs) :: rest) =
      if validateClassLoaderContextRec sdkVer clcs = (true, none) then validateClassLoaderContext rest
      else validateClassLoaderContextRec sdkVer clcs := by
  rw [validateClassLoaderContext]
  rcases validateClassLoaderContextRec sdkVer clcs with ⟨_ | _, _ | _⟩ <;> rfl

/-- A map validates exactly when every context of every list of it is valid:
validation does not depend on the order in which Go walks the map. -/
theorem validateClassLoaderContext_eq_true_iff : (m : ClassLoaderContextMap Path) →
    validateClassLoaderContext m = (true, none) ↔ ∀ e ∈ m, ∀ c ∈ contextsList e.2, Valid c
  | [] => by simp [validateClassLoaderContext]
  | (sdkVer, clcs) :: rest => by
    rw [validateClassLoaderContext_cons, List.forall_mem_cons,
      ← validateClassLoaderContextRec_eq_true_iff sdkVer clcs,
      ← validateClassLoaderContext_eq_true_iff rest]
    split_ifs with h <;> simp [h]

/-- An error of validation is that of an unconditional library: it names a
context of the list of `AnySdkVersion` that has no build path, or no install
path.  A compatibility library that is invalid makes the map fail silently. -/
theorem validateClassLoaderContext_error : (m : ClassLoaderContextMap Path) → {b : Bool} →
    {msg : String} → validateClassLoaderContext m = (b, some msg) →
    b = false ∧ ∃ clcs, (AnySdkVersion, clcs) ∈ m ∧
      ∃ c ∈ contextsList clcs, ¬Valid c ∧ msg = invalidText c
  | [], _, _, h => by cases h
  | (sdkVer, clcs) :: rest, b, msg, h => by
    rw [validateClassLoaderContext_cons] at h
    split_ifs at h with hok
    · -- this list is valid: the error comes from the rest of the map
      obtain ⟨hb, clcs', hmem, hc⟩ := validateClassLoaderContext_error rest h
      exact ⟨hb, clcs', List.mem_cons_of_mem _ hmem, hc⟩
    · rcases validateClassLoaderContextRec_outcome sdkVer clcs with hout | ⟨hfalse, hany, herr⟩
      · exact absurd hout hok
      rw [h] at hfalse hany herr
      obtain rfl := hany.mp rfl
      obtain ⟨c, hc, hinv, htext⟩ := herr msg rfl
      exact ⟨hfalse, clcs, List.mem_cons_self, c, hc, hinv, htext⟩

/-- **What validation accepts, and what its errors name.**  A map validates
exactly when every context of it has a build path and a known install path;
an error names an unconditional library without one of them. -/
theorem validateClassLoaderContext_spec (clcMap : ClassLoaderContextMap Path) :
    (validateClassLoaderContext clcMap = (true, none) ↔
      ∀ e ∈ clcMap, ∀ c ∈ contextsList e.2, Valid c) ∧
    ∀ b msg, validateClassLoaderContext clcMap = (b, some msg) →
      b = false ∧ ∃ clcs, (AnySdkVersion, clcs) ∈ clcMap ∧
        ∃ c ∈ contextsList clcs, ¬Valid c ∧ msg = invalidText c :=
  ⟨validateClassLoaderContext_eq_true_iff clcMap,
    fun _ _ h => validateClassLoaderContext_error clcMap h⟩

/-- A list with an invalid context fails, with an error exactly when it is the
unconditional one. -/
theorem validateClassLoaderContextRec_of_not_valid {sdkVer : ℤ}
    {clcs : List (ClassLoaderContext Path)} (h : ∃ c ∈ contextsList clcs, ¬Valid c) :
    (validateClassLoaderContextRec sdkVer clcs).1 = false ∧
      ((validateClassLoaderContextRec sdkVer clcs).2.isSome ↔ sdkVer = AnySdkVersion) := by
  rcases validateClassLoaderContextRec_outcome sdkVer clcs with hok | ⟨hfalse, hany, -⟩
  · obtain ⟨c, hc, hinv⟩ := h
    exact absurd ((validateClassLoaderContextRec_eq_true_iff sdkVer clcs).mp hok c hc) hinv
  · exact ⟨hfalse, hany⟩

/-- Walked first, a list with an invalid context decides the result. -/
theorem validateClassLoaderContext_cons_of_not_valid {sdkVer : ℤ}
    {clcs : List (ClassLoaderContext Path)} (h : ∃ c ∈ contextsList clcs, ¬Valid c)
    (rest : ClassLoaderContextMap Path) :
    validateClassLoaderContext ((sdkVer, clcs) :: rest) =
      (false, if sdkVer = AnySdkVersion then (validateClassLoaderContextRec sdkVer clcs).2
        else none) := by
  obtain ⟨hfalse, hany⟩ := @validateClassLoaderContextRec_of_not_valid _ sdkVer _ h
  rw [validateClassLoaderContext_cons, if_neg (fun hok => by simp [hok] at hfalse)]
  refine Prod.ext hfalse ?_
  split_ifs with hsdk
  · rfl
  · exact Option.not_isSome_iff_eq_none.mp (fun hs => hsdk (hany.mp hs))

/-- **Whether validation reports an error depends on the order in which Go
walks the map.**  When a conditional list holds an invalid compatibility
library and the unconditional list an invalid library, walking the
conditional list first fails with no error, so that the module is silently
not dexpreopted, and walking the unconditional list first reports an error. -/
theorem validateClassLoaderContext_order_dependent (clcMap : ClassLoaderContextMap Path)
    (hcond : ∃ e ∈ clcMap, e.1 ≠ AnySdkVersion ∧ ∃ c ∈ contextsList e.2, ¬Valid c)
    (hany : ∃ clcs, (AnySdkVersion, clcs) ∈ clcMap ∧ ∃ c ∈ contextsList clcs, ¬Valid c) :
    ∃ m₁ m₂ : ClassLoaderContextMap Path, m₁.Perm clcMap ∧ m₂.Perm clcMap ∧
      validateClassLoaderContext m₁ = (false, none) ∧
      ∃ msg, validateClassLoaderContext m₂ = (false, some msg) := by
  obtain ⟨⟨sdkVer, clcs⟩, hmem, hsdk, hinv⟩ := hcond
  obtain ⟨anyClcs, hanyMem, hanyInv⟩ := hany
  obtain ⟨l₁, l₂, rfl⟩ := List.append_of_mem hmem
  obtain ⟨r₁, r₂, hsplit⟩ := List.append_of_mem hanyMem
  -- each order puts one of the two lists first
  refine ⟨(sdkVer, clcs) :: (l₁ ++ l₂), (AnySdkVersion, anyClcs) :: (r₁ ++ r₂),
    List.perm_middle.symm, hsplit ▸ List.perm_middle.symm, ?_, ?_⟩
  · rw [validateClassLoaderContext_cons_of_not_valid hinv, if_neg hsdk]
  · have herr := (@validateClassLoaderContextRec_of_not_valid _ AnySdkVersion _ hanyInv).2.mpr rfl
    obtain ⟨msg, hmsg⟩ := Option.isSome_iff_exists.mp herr
    exact ⟨msg, by rw [validateClassLoaderContext_cons_of_not_valid hanyInv, if_pos rfl, hmsg]⟩

/-- An app whose unconditional library `foo` has no known install path, and
whose compatibility library of SDK version 28 has no build path. -/
def invalidClcMap : ClassLoaderContextMap String :=
  [(AnySdkVersion, [⟨"foo", false, false, some "out/foo.jar", UnknownInstallLibraryPath, []⟩]),
   (28, [⟨OrgApacheHttpLegacy, true, false, none, "/system/framework/org.apache.http.legacy.jar",
      []⟩])]

theorem validateClassLoaderContext_order_dependent_invalidClcMap :
    (∃ e ∈ invalidClcMap, e.1 ≠ AnySdkVersion ∧ ∃ c ∈ contextsList e.2, ¬Valid c) ∧
    (∃ clcs, (AnySdkVersion, clcs) ∈ invalidClcMap ∧ ∃ c ∈ contextsList clcs, ¬Valid c) ∧
    ∃ m₁ m₂ : ClassLoaderContextMap String, m₁.Perm invalidClcMap ∧ m₂.Perm invalidClcMap ∧
      validateClassLoaderContext m₁ = (false, none) ∧
      ∃ msg, validateClassLoaderContext m₂ = (false, some msg) := by
  have hcond : ∃ e ∈ invalidClcMap, e.1 ≠ AnySdkVersion ∧ ∃ c ∈ contextsList e.2, ¬Valid c := by
    decide +kernel
  have hany : ∃ clcs, (AnySdkVersion, clcs) ∈ invalidClcMap ∧ ∃ c ∈ contextsList clcs, ¬Valid c :=
    ⟨_, List.mem_cons_self, by decide +kernel⟩
  exact ⟨hcond, hany, validateClassLoaderContext_order_dependent invalidClcMap hcond hany⟩

namespace ClassLoaderContextMap

/-- `usesLibs(implicit)`: the names of the unconditional libraries, required
and optional apart; with `implicit`, only the implicit ones. -/
def usesLibs (clcMap : ClassLoaderContextMap Path) (implicit : Bool) : List String × List String :=
  (GoMap.getD clcMap AnySdkVersion []).foldl
    (fun (acc : List String × List String) clc =>
      if implicit && !clc.Implicit then acc
      else if clc.Optional then (acc.1, acc.2 ++ [clc.Name])
      else (acc.1 ++ [clc.Name], acc.2))
    ([], [])

/-- `UsesLibs()`. -/
def UsesLibs (clcMap : ClassLoaderContextMap Path) : List String × List String :=
  clcMap.usesLibs false

/-- `ImplicitUsesLibs()`. -/
def ImplicitUsesLibs (clcMap : ClassLoaderContextMap Path) : List String × List String :=
  clcMap.usesLibs true

/-- The loop of `usesLibs` appends, in order, the names it selects. -/
theorem foldl_usesLibs (implicit : Bool) (l : List (ClassLoaderContext Path))
    (acc : List String × List String) :
    l.foldl (fun (acc : List String × List String) clc =>
        if implicit && !clc.Implicit then acc
        else if clc.Optional then (acc.1, acc.2 ++ [clc.Name])
        else (acc.1 ++ [clc.Name], acc.2)) acc =
      (acc.1 ++ (l.filter fun c => (!implicit || c.Implicit) && !c.Optional).map (·.Name),
        acc.2 ++ (l.filter fun c => (!implicit || c.Implicit) && c.Optional).map (·.Name)) := by
  induction l generalizing acc with
  | nil => simp
  | cons c l ih =>
    rw [List.foldl_cons, ih]
    rcases implicit <;> rcases hi : c.Implicit <;> rcases ho : c.Optional <;> simp [hi, ho]

/-- The names of the unconditional libraries a module uses, required or
optional, whatever the order. -/
theorem mem_UsesLibs (clcMap : ClassLoaderContextMap Path) (name : String) :
    name ∈ clcMap.UsesLibs.1 ++ clcMap.UsesLibs.2 ↔
      ∃ c ∈ GoMap.getD clcMap AnySdkVersion [], c.Name = name := by
  rw [UsesLibs, usesLibs, foldl_usesLibs]
  simp only [List.nil_append, List.mem_append, List.mem_map, List.mem_filter]
  constructor
  · rintro (⟨c, ⟨hc, -⟩, rfl⟩ | ⟨c, ⟨hc, -⟩, rfl⟩) <;> exact ⟨c, hc, rfl⟩
  · rintro ⟨c, hc, rfl⟩
    cases ho : c.Optional
    · exact .inl ⟨c, ⟨hc, by simp [ho]⟩, rfl⟩
    · exact .inr ⟨c, ⟨hc, by simp [ho]⟩, rfl⟩

end ClassLoaderContextMap

/-- Whether `fixClassLoaderContext` keeps a compatibility library, given the
libraries the app uses. -/
def keepsCompat (usesLibs : List String) (clc : ClassLoaderContext Path) : Bool :=
  if InList clc.Name usesLibs then false
  else if clc.Name = AndroidTestMock && !InList "android.test.runner" usesLibs then false
  else true

/-- `fixClassLoaderContext`: in each list of a conditional SDK version, the
compatibility libraries the app uses unconditionally are dropped, and so is
`android.test.mock` unless the app uses `android.test.runner`.  Go writes the
list back to the map after each context; the map is walked in its order, and
only the key being walked is written. -/
def fixClassLoaderContext (clcMap : ClassLoaderContextMap Path) : ClassLoaderContextMap Path :=
  let (required, optional) := clcMap.UsesLibs
  let usesLibs := required ++ optional
  clcMap.foldl
    (fun (acc : ClassLoaderContextMap Path) (entry : ℤ × List (ClassLoaderContext Path)) =>
      if entry.1 = AnySdkVersion then acc
      else
        (entry.2.foldl
          (fun (st : ClassLoaderContextMap Path × List (ClassLoaderContext Path)) clc =>
            let fixedClcs := if keepsCompat usesLibs clc then st.2 ++ [clc] else st.2
            (GoMap.set st.1 entry.1 fixedClcs, fixedClcs))
          (acc, [])).1)
    clcMap

/-- The inner loop of `fixClassLoaderContext` leaves in the map, under the
key it walks, the contexts of the list it keeps. -/
theorem foldl_fixedClcs (k : ℤ) (p : ClassLoaderContext Path → Bool)
    (l : List (ClassLoaderContext Path)) (a : ClassLoaderContextMap Path)
    (xs : List (ClassLoaderContext Path)) :
    l.foldl (fun (st : ClassLoaderContextMap Path × List (ClassLoaderContext Path)) clc =>
        let fixedClcs := if p clc then st.2 ++ [clc] else st.2
        (GoMap.set st.1 k fixedClcs, fixedClcs)) (GoMap.set a k xs, xs) =
      (GoMap.set a k (xs ++ l.filter p), xs ++ l.filter p) := by
  induction l generalizing xs with
  | nil => simp
  | cons c l ih =>
    rw [List.foldl_cons]
    dsimp only
    rw [GoMap.set_set_self]
    by_cases hc : p c
    · simp only [hc, if_true, ih, List.filter_cons_of_pos hc, List.append_assoc,
        List.singleton_append]
    · simp only [hc, Bool.false_eq_true, if_false, ih, List.filter_cons_of_neg hc]

/-- One key of the outer loop: the list under `k`, filtered, in place. -/
theorem foldl_fixedClcs_entry (k : ℤ) (p : ClassLoaderContext Path → Bool)
    {l₁ l₂ : ClassLoaderContextMap Path} (v : List (ClassLoaderContext Path))
    (hk : k ∉ GoMap.keys l₁) :
    (v.foldl (fun (st : ClassLoaderContextMap Path × List (ClassLoaderContext Path)) clc =>
        let fixedClcs := if p clc then st.2 ++ [clc] else st.2
        (GoMap.set st.1 k fixedClcs, fixedClcs)) (l₁ ++ (k, v) :: l₂, [])).1 =
      l₁ ++ (k, v.filter p) :: l₂ := by
  cases v with
  | nil => rfl
  | cons c v =>
    -- the first context writes the key; the rest of the loop is `foldl_fixedClcs`
    rw [List.foldl_cons, foldl_fixedClcs, GoMap.set_append_cons _ _ hk]
    by_cases hc : p c <;> simp [hc]

/-- `fixClassLoaderContext` as a map over the entries: each list of a
conditional SDK version filtered by `keepsCompat`, the unconditional list as
it is. -/
theorem fixClassLoaderContext_eq (clcMap : ClassLoaderContextMap Path)
    (hm : (GoMap.keys clcMap).Nodup) :
    fixClassLoaderContext clcMap = clcMap.map fun e =>
      if e.1 = AnySdkVersion then e
      else (e.1, e.2.filter (keepsCompat (clcMap.UsesLibs.1 ++ clcMap.UsesLibs.2))) := by
  rw [fixClassLoaderContext]
  rcases clcMap.UsesLibs with ⟨required, optional⟩
  dsimp only
  generalize required ++ optional = usesLibs
  -- the outer loop keeps `acc = done.map f ++ todo`, where `done ++ todo` is the map
  suffices h : ∀ done todo : ClassLoaderContextMap Path, (GoMap.keys (done ++ todo)).Nodup →
      todo.foldl (fun acc entry => if entry.1 = AnySdkVersion then acc else
        (entry.2.foldl (fun (st : ClassLoaderContextMap Path × List (ClassLoaderContext Path)) clc =>
          let fixedClcs := if keepsCompat usesLibs clc then st.2 ++ [clc] else st.2
          (GoMap.set st.1 entry.1 fixedClcs, fixedClcs)) (acc, [])).1)
        (done.map (fun e => if e.1 = AnySdkVersion then e
          else (e.1, e.2.filter (keepsCompat usesLibs))) ++ todo) =
      (done ++ todo).map fun e => if e.1 = AnySdkVersion then e
        else (e.1, e.2.filter (keepsCompat usesLibs)) by
    have := h [] clcMap (by simpa using hm)
    rwa [List.map_nil, List.nil_append] at this
  intro done todo hnd
  induction todo generalizing done with
  | nil => simp
  | cons e todo ih =>
    obtain ⟨k, v⟩ := e
    have hk : k ∉ GoMap.keys (done.map fun e => if e.1 = AnySdkVersion then e
        else (e.1, e.2.filter (keepsCompat usesLibs))) := by
      have hnd' : (GoMap.keys done ++ k :: GoMap.keys todo).Nodup := by
        simpa [GoMap.keys] using hnd
      have : k ∉ GoMap.keys done := fun h => (List.nodup_append.mp hnd').2.2 k h k
        List.mem_cons_self rfl
      simpa [GoMap.keys, Function.comp_def, apply_ite Prod.fst] using this
    have step := ih (done ++ [(k, v)]) (by simpa using hnd)
    simp -zeta only [List.map_append, List.map_cons, List.map_nil, List.append_assoc,
      List.singleton_append] at step ⊢
    rw [List.foldl_cons]
    split_ifs at step ⊢ with hany
    · exact step
    · rw [foldl_fixedClcs_entry _ _ _ hk]
      exact step

theorem keys_fixClassLoaderContext {clcMap : ClassLoaderContextMap Path}
    (hm : (GoMap.keys clcMap).Nodup) :
    GoMap.keys (fixClassLoaderContext clcMap) = GoMap.keys clcMap := by
  rw [fixClassLoaderContext_eq clcMap hm, GoMap.keys, GoMap.keys, List.map_map]
  refine List.map_congr_left fun e _ => ?_
  by_cases he : e.1 = AnySdkVersion <;> simp [he]

/-- Fixing only drops contexts: each list of the fixed map has its contexts
among those of a list of the map. -/
theorem contextsList_fixClassLoaderContext {clcMap : ClassLoaderContextMap Path}
    (hm : (GoMap.keys clcMap).Nodup) {e : ℤ × List (ClassLoaderContext Path)}
    (he : e ∈ fixClassLoaderContext clcMap) :
    ∃ e₀ ∈ clcMap, contextsList e.2 ⊆ contextsList e₀.2 := by
  rw [fixClassLoaderContext_eq clcMap hm, List.mem_map] at he
  obtain ⟨e₀, he₀, rfl⟩ := he
  refine ⟨e₀, he₀, ?_⟩
  split_ifs
  · exact List.Subset.refl _
  · exact contextsList_subset List.filter_sublist.subset

/-- `keepsCompat` reads the libraries the app uses only as a set: the names of
the unconditional contexts. -/
theorem keepsCompat_UsesLibs (clcMap : ClassLoaderContextMap Path) (c : ClassLoaderContext Path) :
    keepsCompat (clcMap.UsesLibs.1 ++ clcMap.UsesLibs.2) c =
      (!((GoMap.getD clcMap AnySdkVersion []).map (·.Name)).contains c.Name &&
        (c.Name != AndroidTestMock ||
          ((GoMap.getD clcMap AnySdkVersion []).map (·.Name)).contains "android.test.runner")) := by
  have hused : ∀ name, InList name (clcMap.UsesLibs.1 ++ clcMap.UsesLibs.2) =
      ((GoMap.getD clcMap AnySdkVersion []).map (·.Name)).contains name := by
    intro name
    rw [InList, List.contains_eq_mem]
    exact decide_eq_decide.mpr ((ClassLoaderContextMap.mem_UsesLibs clcMap name).trans
      List.mem_map.symm)
  rw [keepsCompat, hused, hused]
  generalize ((GoMap.getD clcMap AnySdkVersion []).map (·.Name)).contains c.Name = usesName
  generalize ((GoMap.getD clcMap AnySdkVersion []).map (·.Name)).contains
    "android.test.runner" = usesRunner
  by_cases hname : c.Name = AndroidTestMock <;> cases usesName <;> cases usesRunner <;> simp [hname]

/-- What fixing does to a map: the keys and the unconditional list stay; each
conditional list keeps, in order, the compatibility libraries the
unconditional list does not name, except `android.test.mock` when it does not
name `android.test.runner`. -/
theorem fixClassLoaderContext_spec (clcMap : ClassLoaderContextMap Path)
    (hm : (GoMap.keys clcMap).Nodup) :
    GoMap.keys (fixClassLoaderContext clcMap) = GoMap.keys clcMap ∧
      GoMap.get? (fixClassLoaderContext clcMap) AnySdkVersion =
        GoMap.get? clcMap AnySdkVersion ∧
      ∀ sdkVer ≠ AnySdkVersion, GoMap.get? (fixClassLoaderContext clcMap) sdkVer =
        (GoMap.get? clcMap sdkVer).map (List.filter fun c =>
          !((GoMap.getD clcMap AnySdkVersion []).map (·.Name)).contains c.Name &&
            (c.Name != AndroidTestMock ||
              ((GoMap.getD clcMap AnySdkVersion []).map (·.Name)).contains
                "android.test.runner")) := by
  -- fixing rewrites each value in place, under its own key
  let g : ℤ → List (ClassLoaderContext Path) → List (ClassLoaderContext Path) := fun k v =>
    if k = AnySdkVersion then v else v.filter (keepsCompat (clcMap.UsesLibs.1 ++ clcMap.UsesLibs.2))
  have hval : fixClassLoaderContext clcMap = clcMap.map fun e => (e.1, g e.1 e.2) := by
    rw [fixClassLoaderContext_eq clcMap hm]
    refine List.map_congr_left fun ⟨k, v⟩ _ => ?_
    by_cases hk : k = AnySdkVersion
    · subst hk
      simp [g]
    · simp [g, hk]
  refine ⟨by rw [hval, GoMap.keys_map_val], ?_, ?_⟩
  · rw [hval, GoMap.get?_map_val]
    simp [g]
  · intro sdkVer hsdk
    rw [hval, GoMap.get?_map_val]
    congr 1
    funext clcs
    simp only [g, if_neg hsdk]
    exact List.filter_congr fun c _ => keepsCompat_UsesLibs clcMap c

/-- An app that uses `foo`, which itself uses `bar`, and `android.test.base`
unconditionally, with the compatibility libraries of SDK versions 28 and 30. -/
def sampleClcMap : ClassLoaderContextMap String :=
  [(AnySdkVersion,
      [⟨"foo", false, false, some "out/foo.jar", "/system/framework/foo.jar",
        [⟨"bar", false, false, some "out/bar.jar", "/system/framework/bar.jar", []⟩]⟩,
       ⟨AndroidTestBase, true, false, some "out/android.test.base.jar",
        "/system/framework/android.test.base.jar", []⟩]),
   (30,
      [⟨AndroidTestBase, true, false, some "out/android.test.base.jar",
        "/system/framework/android.test.base.jar", []⟩,
       ⟨AndroidTestMock, true, false, some "out/android.test.mock.jar",
        "/system/framework/android.test.mock.jar", []⟩]),
   (28,
      [⟨OrgApacheHttpLegacy, true, false, some "out/org.apache.http.legacy.jar",
        "/system/framework/org.apache.http.legacy.jar", []⟩])]

theorem fixClassLoaderContext_spec_sampleClcMap :
    (GoMap.keys sampleClcMap).Nodup ∧
    GoMap.keys (fixClassLoaderContext sampleClcMap) = GoMap.keys sampleClcMap ∧
      GoMap.get? (fixClassLoaderContext sampleClcMap) AnySdkVersion =
        GoMap.get? sampleClcMap AnySdkVersion ∧
      ∀ sdkVer ≠ AnySdkVersion, GoMap.get? (fixClassLoaderContext sampleClcMap) sdkVer =
        (GoMap.get? sampleClcMap sdkVer).map (List.filter fun c =>
          !((GoMap.getD sampleClcMap AnySdkVersion []).map (·.Name)).contains c.Name &&
            (c.Name != AndroidTestMock ||
              ((GoMap.getD sampleClcMap AnySdkVersion []).map (·.Name)).contains
                "android.test.runner")) := by
  have hm : (GoMap.keys sampleClcMap).Nodup := by decide +kernel
  exact ⟨hm, fixClassLoaderContext_spec sampleClcMap hm⟩

/-! ### Printing -/

namespace ClassLoaderContext

variable (pathString : Path → String)

mutual

/-- The loop of `computeClassLoaderContextRec` over the contexts left, with
the texts and paths so far.  A context without a build path is the panic of
`clc.Host.String()` on a nil interface, `none`. -/
def computeLoop : List (ClassLoaderContext Path) → List String → List String → Slice Path →
    Option (List String × List String × Slice Path)
  | [], clcsHost, clcsTarget, paths => some (clcsHost, clcsTarget, paths)
  | clc :: rest, clcsHost, clcsTarget, paths => do
    let (subClcHost, subClcTarget, subPaths) ← computeRecBelow clc
    -- a nil slice of paths: no context below
    let subClcHost := if !subPaths.isNil then "\x7b" ++ subClcHost ++ "\x7d" else subClcHost
    let subClcTarget := if !subPaths.isNil then "\x7b" ++ subClcTarget ++ "\x7d" else subClcTarget
    let host ← clc.Host
    computeLoop rest (clcsHost ++ ["PCL[" ++ pathString host ++ "]" ++ subClcHost])
      (clcsTarget ++ ["PCL[" ++ clc.Device ++ "]" ++ subClcTarget])
      ((paths.append [host]).append subPaths.toList)

/-- `computeClassLoaderContextRec(clc.Subcontexts)`, the call the loop makes
for one context. -/
def computeRecBelow : ClassLoaderContext Path → Option (String × String × Slice Path)
  | ⟨_, _, _, _, _, subcontexts⟩ => do
    let (clcsHost, clcsTarget, paths) ← computeLoop subcontexts [] [] none
    return (String.intercalate "#" clcsHost, String.intercalate "#" clcsTarget, paths)

end

/-- `computeClassLoaderContextRec(clcs)`: the host and target texts of the
trees of the list, joined by `#`, and the build paths of their contexts in
preorder. -/
def computeClassLoaderContextRec (clcs : List (ClassLoaderContext Path)) :
    Option (String × String × Slice Path) := do
  let (clcsHost, clcsTarget, paths) ← computeLoop pathString clcs [] [] none
  return (String.intercalate "#" clcsHost, String.intercalate "#" clcsTarget, paths)

/-- What printing the contexts `cs` gives for the build paths, after `paths`:
a panic exactly when one of them has no build path, and otherwise their build
paths in order, in the slice `slice` picks out of the result. -/
def Prints {γ : Type} (slice : γ → Slice Path) (cs : List (ClassLoaderContext Path))
    (paths : List Path) : Option γ → Prop
  | none => ∃ c ∈ cs, c.Host = none
  | some r => (∀ c ∈ cs, c.Host.isSome) ∧ (slice r).toList = paths ++ cs.filterMap (·.Host)

mutual

theorem computeLoop_prints : (l : List (ClassLoaderContext Path)) → (clcsHost clcsTarget : List String) →
    (paths : Slice Path) →
    Prints (·.2.2) (contextsList l) paths.toList
      (computeLoop pathString l clcsHost clcsTarget paths)
  | [], _, _, _ => by simp [computeLoop, Prints]
  | clc :: rest, clcsHost, clcsTarget, paths => by
    have hbelow := computeRecBelow_prints clc
    rcases hsub : computeRecBelow pathString clc with _ | ⟨subHost, subTarget, subPaths⟩
    · -- a panic below the context
      rw [hsub] at hbelow
      obtain ⟨c, hc, hnone⟩ := hbelow
      simp only [computeLoop, hsub, Option.bind_eq_bind, Option.bind_none, Prints]
      exact ⟨c, by simp [hc], hnone⟩
    rw [hsub] at hbelow
    obtain ⟨hsome, hsubPaths⟩ := hbelow
    rcases hhost : clc.Host with _ | host
    · -- a panic on the context's own build path
      simp only [computeLoop, hsub, hhost, Option.bind_eq_bind, Option.bind_some, Option.bind_none,
        Prints]
      exact ⟨clc, by simp, hhost⟩
    have hrest := computeLoop_prints rest
      (clcsHost ++ ["PCL[" ++ pathString host ++ "]" ++
        if !subPaths.isNil then "\x7b" ++ subHost ++ "\x7d" else subHost])
      (clcsTarget ++ ["PCL[" ++ clc.Device ++ "]" ++
        if !subPaths.isNil then "\x7b" ++ subTarget ++ "\x7d" else subTarget])
      ((paths.append [host]).append subPaths.toList)
    simp only [computeLoop, hsub, hhost, Option.bind_eq_bind, Option.bind_some]
    -- the rest of the loop starts from the paths of the context and those below it
    rcases hr : computeLoop pathString rest _ _ ((paths.append [host]).append subPaths.toList)
      with _ | ⟨h', t', paths'⟩ <;> rw [hr] at hrest
    · obtain ⟨c, hc, hnone⟩ := hrest
      exact ⟨c, by simp [hc], hnone⟩
    · obtain ⟨hall, hpaths⟩ := hrest
      refine ⟨?_, ?_⟩
      · simp only [contextsList_cons, contexts_eq, List.mem_cons, List.mem_append]
        rintro c ((rfl | hc) | hc)
        · simp [hhost]
        · exact hsome c hc
        · exact hall c hc
      · rw [hpaths, hsubPaths]
        simp [hhost]

theorem computeRecBelow_prints : (c : ClassLoaderContext Path) →
    Prints (·.2.2) (contextsList c.Subcontexts) [] (computeRecBelow pathString c)
  | ⟨_, _, _, _, _, subcontexts⟩ => by
    have h := computeLoop_prints subcontexts [] [] none
    simp only [computeRecBelow, Option.bind_eq_bind]
    rcases hr : computeLoop pathString subcontexts [] [] none with _ | ⟨h', t', paths⟩ <;>
      rw [hr] at h
    · exact h
    · exact h

end

theorem computeClassLoaderContextRec_prints (clcs : List (ClassLoaderContext Path)) :
    Prints (·.2.2) (contextsList clcs) [] (computeClassLoaderContextRec pathString clcs) := by
  have h := computeLoop_prints pathString clcs [] [] none
  simp only [computeClassLoaderContextRec, Option.bind_eq_bind]
  rcases hr : computeLoop pathString clcs [] [] none with _ | ⟨h', t', paths⟩ <;> rw [hr] at h
  · exact h
  · exact h

end ClassLoaderContext

/-- The SDK versions of the map in the order the flags name them: the
conditional ones in descending order, then `AnySdkVersion`. -/
def sortedVersions (clcMap : ClassLoaderContextMap Path) : List ℤ :=
  sort.«Sort» ((GoMap.keys clcMap).filter (· ≠ AnySdkVersion)) (fun a b => decide (b < a)) ++
    [AnySdkVersion]

/-- One SDK version of `ComputeClassLoaderContext`: its pair of flags, when
its list has a context, and its build paths. -/
def computeVersion (pathString : Path → String) (clcMap : ClassLoaderContextMap Path)
    (acc : String × Slice Path) (sdkVer : ℤ) : Option (String × Slice Path) := do
  let sdkVerStr := if sdkVer = AnySdkVersion then "any" else strconv.Itoa sdkVer
  let (hostClc, targetClc, hostPaths) ←
    computeClassLoaderContextRec pathString (GoMap.getD clcMap sdkVer [])
  let clcStr := if !hostPaths.isNil then
      acc.1 ++ " --host-context-for-sdk " ++ sdkVerStr ++ " " ++ hostClc ++
        " --target-context-for-sdk " ++ sdkVerStr ++ " " ++ targetClc
    else acc.1
  return (clcStr, acc.2.append hostPaths.toList)

theorem mem_sortedVersions {clcMap : ClassLoaderContextMap Path} {sdkVer : ℤ} :
    sdkVer ∈ sortedVersions clcMap ↔ sdkVer ∈ GoMap.keys clcMap ∨ sdkVer = AnySdkVersion := by
  rw [sortedVersions, List.mem_append, sort.«Sort», (sort.SliceStable_perm _ _).mem_iff,
    List.mem_filter, List.mem_singleton]
  by_cases h : sdkVer = AnySdkVersion <;> simp [h]

/-- The contexts the versions of `sortedVersions` look up are those of the
map: each key is looked up once, and `AnySdkVersion`, when it is no key, finds
nothing. -/
theorem mem_flatMap_sortedVersions {clcMap : ClassLoaderContextMap Path}
    (hm : (GoMap.keys clcMap).Nodup) (c : ClassLoaderContext Path) :
    c ∈ (sortedVersions clcMap).flatMap (fun v => contextsList (GoMap.getD clcMap v [])) ↔
      ∃ e ∈ clcMap, c ∈ contextsList e.2 := by
  rw [List.mem_flatMap]
  constructor
  · rintro ⟨v, -, hc⟩
    -- a version that finds a context is a key of the map
    rcases hget : GoMap.get? clcMap v with _ | clcs
    · simp [GoMap.getD, hget] at hc
    · rw [GoMap.getD, hget, Option.getD_some] at hc
      exact ⟨(v, clcs), GoMap.mem_of_get?_eq_some hget, hc⟩
  · rintro ⟨⟨k, clcs⟩, he, hc⟩
    have hget : GoMap.get? clcMap k = some clcs := (GoMap.get?_eq_some_iff hm).mpr he
    refine ⟨k, mem_sortedVersions.mpr (.inl (List.mem_map_of_mem he)), ?_⟩
    rwa [GoMap.getD, hget, Option.getD_some]

/-- The loop over the versions collects, after the paths it starts with, the
build paths of the lists it looks up, or panics on one without a build path. -/
theorem foldlM_computeVersion_prints (pathString : Path → String)
    (clcMap : ClassLoaderContextMap Path) (vers : List ℤ) (acc : String × Slice Path) :
    Prints (·.2) (vers.flatMap fun v => contextsList (GoMap.getD clcMap v [])) acc.2.toList
      (vers.foldlM (computeVersion pathString clcMap) acc) := by
  induction vers generalizing acc with
  | nil => simp [Prints]
  | cons v vers ih =>
    have hv := computeClassLoaderContextRec_prints pathString (GoMap.getD clcMap v [])
    rw [List.foldlM_cons, List.flatMap_cons]
    rcases hr : computeClassLoaderContextRec pathString (GoMap.getD clcMap v [])
      with _ | ⟨hostClc, targetClc, hostPaths⟩ <;> rw [hr] at hv
    · -- a panic in this version's list
      obtain ⟨c, hc, hnone⟩ := hv
      simp only [computeVersion, hr, Option.bind_eq_bind, Option.bind_none, Prints]
      exact ⟨c, List.mem_append_left _ hc, hnone⟩
    obtain ⟨hsome, hpaths⟩ := hv
    have hrest := ih (if !hostPaths.isNil then
        acc.1 ++ " --host-context-for-sdk " ++ (if v = AnySdkVersion then "any" else strconv.Itoa v) ++
          " " ++ hostClc ++ " --target-context-for-sdk " ++
          (if v = AnySdkVersion then "any" else strconv.Itoa v) ++ " " ++ targetClc
      else acc.1, acc.2.append hostPaths.toList)
    simp only [computeVersion, hr, Option.bind_eq_bind, Option.bind_some, Option.pure_def]
    rcases hf : List.foldlM (computeVersion pathString clcMap) _ vers with _ | ⟨clcStr, paths⟩ <;>
      rw [hf] at hrest
    · obtain ⟨c, hc, hnone⟩ := hrest
      exact ⟨c, List.mem_append_right _ hc, hnone⟩
    · obtain ⟨hall, hrestPaths⟩ := hrest
      refine ⟨fun c hc => ?_, ?_⟩
      · rcases List.mem_append.mp hc with hc | hc
        · exact hsome c hc
        · exact hall c hc
      · simp only at hrestPaths ⊢
        rw [hrestPaths, Slice.toList_append, hpaths]
        simp

/-- `ComputeClassLoaderContext`: the flags of `construct_context` for each SDK
version, and the build paths of all the libraries, each once.  `none` is a
panic on a context without a build path. -/
def ComputeClassLoaderContext [DecidableEq Path] [Inhabited Path] (pathString : Path → String)
    (clcMap : ClassLoaderContextMap Path) : Option (String × List Path) := do
  let (clcStr, paths) ← (sortedVersions clcMap).foldlM (computeVersion pathString clcMap) ("", none)
  return (clcStr, FirstUniquePaths paths.toList)

section compute

variable [DecidableEq Path] [Inhabited Path] (pathString : Path → String)

theorem ComputeClassLoaderContext_eq_map (clcMap : ClassLoaderContextMap Path) :
    ComputeClassLoaderContext pathString clcMap =
      ((sortedVersions clcMap).foldlM (computeVersion pathString clcMap) ("", none)).map
        fun r => (r.1, FirstUniquePaths r.2.toList) := by
  simp only [ComputeClassLoaderContext, Option.bind_eq_bind, Option.pure_def]
  rcases (sortedVersions clcMap).foldlM (computeVersion pathString clcMap) ("", none)
    with _ | ⟨clcStr, paths⟩ <;> rfl

/-- `ComputeClassLoaderContext` panics exactly on a context of the map without
a build path. -/
theorem ComputeClassLoaderContext_eq_none_iff {clcMap : ClassLoaderContextMap Path}
    (hm : (GoMap.keys clcMap).Nodup) :
    ComputeClassLoaderContext pathString clcMap = none ↔
      ∃ e ∈ clcMap, ∃ c ∈ contextsList e.2, c.Host = none := by
  have h := foldlM_computeVersion_prints pathString clcMap (sortedVersions clcMap) ("", none)
  rw [ComputeClassLoaderContext_eq_map, Option.map_eq_none_iff]
  rcases hr : (sortedVersions clcMap).foldlM (computeVersion pathString clcMap) ("", none)
    with _ | ⟨clcStr, paths⟩ <;> rw [hr] at h
  · obtain ⟨c, hc, hnone⟩ := h
    obtain ⟨e, he, hce⟩ := (mem_flatMap_sortedVersions hm c).mp hc
    exact iff_of_true rfl ⟨e, he, c, hce, hnone⟩
  · obtain ⟨hall, -⟩ := h
    refine iff_of_false (by simp) ?_
    rintro ⟨e, he, c, hce, hnone⟩
    have := hall c ((mem_flatMap_sortedVersions hm c).mpr ⟨e, he, hce⟩)
    simp [hnone] at this

/-- The implicit inputs of `construct_context` are the build paths of the map,
each once. -/
theorem mem_ComputeClassLoaderContext {clcMap : ClassLoaderContextMap Path}
    (hm : (GoMap.keys clcMap).Nodup) {clcStr : String} {paths : List Path}
    (h : ComputeClassLoaderContext pathString clcMap = some (clcStr, paths)) :
    paths.Nodup ∧ ∀ p, p ∈ paths ↔ ∃ e ∈ clcMap, ∃ c ∈ contextsList e.2, c.Host = some p := by
  have hp := foldlM_computeVersion_prints pathString clcMap (sortedVersions clcMap) ("", none)
  rw [ComputeClassLoaderContext_eq_map] at h
  obtain ⟨⟨clcStr', slice⟩, hr, heq⟩ := Option.map_eq_some_iff.mp h
  simp only [Prod.mk.injEq] at heq
  obtain ⟨-, rfl⟩ := heq
  rw [hr] at hp
  obtain ⟨-, hpaths⟩ := hp
  simp only at hpaths
  rw [FirstUniquePaths_eq]
  refine ⟨List.nodup_eraseDups _, fun p => ?_⟩
  rw [List.mem_eraseDups, hpaths, Slice.toList_none, List.nil_append, List.mem_filterMap]
  constructor
  · rintro ⟨c, hc, hp⟩
    obtain ⟨e, he, hce⟩ := (mem_flatMap_sortedVersions hm c).mp hc
    exact ⟨e, he, c, hce, hp⟩
  · rintro ⟨e, he, c, hce, hp⟩
    exact ⟨c, (mem_flatMap_sortedVersions hm c).mpr ⟨e, he, hce⟩, hp⟩

/-- **What `ComputeClassLoaderContext` does with the build paths.**  It panics
exactly when a context of the map has no build path; otherwise the paths it
returns are each build path of the map once. -/
theorem ComputeClassLoaderContext_spec (clcMap : ClassLoaderContextMap Path)
    (hm : (GoMap.keys clcMap).Nodup) :
    (ComputeClassLoaderContext pathString clcMap = none ↔
      ∃ e ∈ clcMap, ∃ c ∈ contextsList e.2, c.Host = none) ∧
    ∀ clcStr paths, ComputeClassLoaderContext pathString clcMap = some (clcStr, paths) →
      paths.Nodup ∧ ∀ p, p ∈ paths ↔ ∃ e ∈ clcMap, ∃ c ∈ contextsList e.2, c.Host = some p :=
  ⟨ComputeClassLoaderContext_eq_none_iff pathString hm,
    fun _ _ h => mem_ComputeClassLoaderContext pathString hm h⟩

theorem ComputeClassLoaderContext_spec_sampleClcMap :
    (GoMap.keys sampleClcMap).Nodup ∧
    (ComputeClassLoaderContext id sampleClcMap = none ↔
      ∃ e ∈ sampleClcMap, ∃ c ∈ contextsList e.2, c.Host = none) ∧
    ∀ clcStr paths, ComputeClassLoaderContext id sampleClcMap = some (clcStr, paths) →
      paths.Nodup ∧ ∀ p, p ∈ paths ↔ ∃ e ∈ sampleClcMap, ∃ c ∈ contextsList e.2, c.Host = some p := by
  have hm : (GoMap.keys sampleClcMap).Nodup := by decide +kernel
  exact ⟨hm, ComputeClassLoaderContext_spec id sampleClcMap hm⟩

/-- **A module whose class loader contexts validate is dexpreopted without a
panic.**  What `GenerateDexpreoptRule` does with a map that validates: it fixes
it, and printing the fixed map for `construct_context` succeeds, with the
build paths of the fixed map, each once, as the command's inputs. -/
theorem ComputeClassLoaderContext_of_validate {clcMap : ClassLoaderContextMap Path}
    (hm : (GoMap.keys clcMap).Nodup) (hvalid : validateClassLoaderContext clcMap = (true, none)) :
    ∃ clcStr paths,
      ComputeClassLoaderContext pathString (fixClassLoaderContext clcMap) = some (clcStr, paths) ∧
      paths.Nodup ∧ ∀ p, p ∈ paths ↔
        ∃ e ∈ fixClassLoaderContext clcMap, ∃ c ∈ contextsList e.2, c.Host = some p := by
  have hall := (validateClassLoaderContext_eq_true_iff clcMap).mp hvalid
  have hfm : (GoMap.keys (fixClassLoaderContext clcMap)).Nodup := by
    rw [keys_fixClassLoaderContext hm]
    exact hm
  -- every context of the fixed map is one of the map, which has a build path
  have hsome : ComputeClassLoaderContext pathString (fixClassLoaderContext clcMap) ≠ none := by
    rw [Ne, ComputeClassLoaderContext_eq_none_iff pathString hfm]
    rintro ⟨e, he, c, hc, hnone⟩
    obtain ⟨e₀, he₀, hsub⟩ := contextsList_fixClassLoaderContext hm he
    have := (hall e₀ he₀ c (hsub hc)).1
    simp [hnone] at this
  obtain ⟨⟨clcStr, paths⟩, hr⟩ := Option.ne_none_iff_exists'.mp hsome
  exact ⟨clcStr, paths, hr, mem_ComputeClassLoaderContext pathString hfm hr⟩

theorem ComputeClassLoaderContext_of_validate_sampleClcMap :
    (GoMap.keys sampleClcMap).Nodup ∧ validateClassLoaderContext sampleClcMap = (true, none) ∧
    ∃ clcStr paths,
      ComputeClassLoaderContext id (fixClassLoaderContext sampleClcMap) = some (clcStr, paths) ∧
      paths.Nodup ∧ ∀ p, p ∈ paths ↔
        ∃ e ∈ fixClassLoaderContext sampleClcMap, ∃ c ∈ contextsList e.2, c.Host = some p := by
  have hm : (GoMap.keys sampleClcMap).Nodup := by decide +kernel
  have hvalid : validateClassLoaderContext sampleClcMap = (true, none) := by decide +kernel
  exact ⟨hm, hvalid, ComputeClassLoaderContext_of_validate id hm hvalid⟩

omit [DecidableEq Path] [Inhabited Path] in
/-- The versions are walked in one order whatever the map's order of
iteration: Go's map has no order, and sorting restores one. -/
theorem sortedVersions_eq_of_perm {clcMap clcMap' : ClassLoaderContextMap Path}
    (h : clcMap.Perm clcMap') (hm : (GoMap.keys clcMap).Nodup) :
    sortedVersions clcMap = sortedVersions clcMap' := by
  have hkeys : (GoMap.keys clcMap).Perm (GoMap.keys clcMap') := h.map Prod.fst
  rw [sortedVersions, sortedVersions,
    sort.Sort_eq_of_perm sort.strictTotalOrder_decide_gt (hm.filter _) (hkeys.filter _)]

/-- **The flags and inputs of `construct_context` do not depend on the order
in which Go walks the map.** -/
theorem ComputeClassLoaderContext_perm {clcMap clcMap' : ClassLoaderContextMap Path}
    (h : clcMap.Perm clcMap') (hm : (GoMap.keys clcMap).Nodup) :
    ComputeClassLoaderContext pathString clcMap = ComputeClassLoaderContext pathString clcMap' := by
  have hversion : computeVersion pathString clcMap = computeVersion pathString clcMap' := by
    funext acc sdkVer
    simp only [computeVersion, GoMap.getD, GoMap.get?_eq_of_perm h hm]
  rw [ComputeClassLoaderContext, ComputeClassLoaderContext, sortedVersions_eq_of_perm h hm,
    hversion]

theorem ComputeClassLoaderContext_perm_sampleClcMap :
    sampleClcMap.Perm sampleClcMap.reverse ∧ (GoMap.keys sampleClcMap).Nodup ∧
    ComputeClassLoaderContext id sampleClcMap = ComputeClassLoaderContext id sampleClcMap.reverse := by
  have h : sampleClcMap.Perm sampleClcMap.reverse := (List.reverse_perm sampleClcMap).symm
  have hm : (GoMap.keys sampleClcMap).Nodup := by decide +kernel
  exact ⟨h, hm, ComputeClassLoaderContext_perm id h hm⟩

end compute

end dexpreopt

end Soong
