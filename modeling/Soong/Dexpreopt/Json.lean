import Soong.Dexpreopt.Compute

/-!
# Class loader contexts in `dexpreopt.config`

Soong writes the class loader contexts of a module to `dexpreopt.config` for
Make, and reads them back from the configs Make writes, with
`toJsonClassLoaderContext` and `fromJsonClassLoaderContext`.  In the JSON form
an SDK version is a string and a build path is the path's string; a context
without a build path is written with a placeholder jar, so that the build
fails only when the context is used.

## Main definitions

* `jsonClassLoaderContext`, `jsonClassLoaderContextMap`.
* `toJsonClassLoaderContext`, `toJsonClassLoaderContextRec`.
* `fromJsonClassLoaderContext`, `fromJsonClassLoaderContextRec`, `parseSdkVersion`.

## Main results

* `fromJsonClassLoaderContext_toJsonClassLoaderContext` — reading back what was
  written gives the map, in any order of the JSON object, without errors.
* `ComputeClassLoaderContext_fromJson_toJson` — after a round trip every context
  has a build path, so the failure is left to the build.
-/

namespace Soong

namespace dexpreopt

/-- `jsonClassLoaderContext`: a context with its build path as a string. -/
structure jsonClassLoaderContext where
  Name : String
  Optional : Bool
  Implicit : Bool
  Host : String
  Device : String
  Subcontexts : List jsonClassLoaderContext

/-- `jsonClassLoaderContextMap`: the contexts for each SDK version, the version
a JSON string. -/
abbrev jsonClassLoaderContextMap := List (String × List jsonClassLoaderContext)

variable {Path : Type}

open ClassLoaderContext

/-! ### Writing -/

section toJson

variable (pathString : Path → String)

mutual

/-- One round of the loop of `toJsonClassLoaderContextRec`. -/
def toJsonOne : ClassLoaderContext Path → jsonClassLoaderContext
  | ⟨name, optional, implicit, host, device, subcontexts⟩ =>
    -- a missing build path: the build fails when the context is used
    let host := match host with
      | none => "implementation-jar-for-" ++ name ++ "-is-not-available.jar"
      | some p => pathString p
    ⟨name, optional, implicit, host, device, toJsonClassLoaderContextRec subcontexts⟩

/-- `toJsonClassLoaderContextRec(clcs)`. -/
def toJsonClassLoaderContextRec : List (ClassLoaderContext Path) → List jsonClassLoaderContext
  | [] => []
  | clc :: rest => toJsonOne clc :: toJsonClassLoaderContextRec rest

end

/-- `toJsonClassLoaderContext(clcMap)`: each SDK version printed with `%d`. -/
def toJsonClassLoaderContext (clcMap : ClassLoaderContextMap Path) : jsonClassLoaderContextMap :=
  clcMap.foldl
    (fun (jClcMap : jsonClassLoaderContextMap) (entry : ℤ × List (ClassLoaderContext Path)) =>
      GoMap.set jClcMap (strconv.Itoa entry.1) (toJsonClassLoaderContextRec pathString entry.2))
    []

end toJson

/-! ### Reading -/

section fromJson

variable (constructPath : String → Option Path)

mutual

/-- One round of the loop of `fromJsonClassLoaderContextRec`. -/
def fromJsonOne : jsonClassLoaderContext → ClassLoaderContext Path
  | ⟨name, optional, implicit, host, device, subcontexts⟩ =>
    ⟨name, optional, implicit, constructPath host, device, fromJsonClassLoaderContextRec subcontexts⟩

/-- `fromJsonClassLoaderContextRec(ctx, jClcs)`, with `constructPath(ctx, ·)`
given: `nil` for the empty string, a path otherwise. -/
def fromJsonClassLoaderContextRec : List jsonClassLoaderContext → List (ClassLoaderContext Path)
  | [] => []
  | clc :: rest => fromJsonOne clc :: fromJsonClassLoaderContextRec rest

end

/-- The SDK version of a key of the JSON map, and the error reported for a key
that is not a number: `"any"` is `AnySdkVersion`, and any other key is kept
under the value `strconv.Atoi` returns with its error. -/
def parseSdkVersion (sdkVerStr : String) : ℤ × Option String :=
  let (sdkVer, ok) := strconv.Atoi sdkVerStr
  if ok.isSome then
    if sdkVerStr = "any" then (AnySdkVersion, none)
    else (sdkVer, some ("failed to parse SDK version in dexpreopt.config: '" ++ sdkVerStr ++ "'"))
  else (sdkVer, none)

/-- `fromJsonClassLoaderContext(ctx, jClcMap)`: the errors it reports, and the
map. -/
def fromJsonClassLoaderContext (jClcMap : jsonClassLoaderContextMap) :
    List String × ClassLoaderContextMap Path :=
  jClcMap.foldl
    (fun (acc : List String × ClassLoaderContextMap Path)
        (entry : String × List jsonClassLoaderContext) =>
      let (sdkVer, err) := parseSdkVersion entry.1
      (acc.1 ++ err.toList,
        GoMap.set acc.2 sdkVer (fromJsonClassLoaderContextRec constructPath entry.2)))
    ([], [])

end fromJson

/-! ### The loops as maps and folds -/

section loops

variable (pathString : Path → String) (constructPath : String → Option Path)

/-- With distinct SDK versions, writing appends the versions in the order the
map is walked: printed numbers are distinct. -/
theorem toJsonClassLoaderContext_eq {clcMap : ClassLoaderContextMap Path}
    (hm : (GoMap.keys clcMap).Nodup) :
    toJsonClassLoaderContext pathString clcMap =
      clcMap.map fun e => (strconv.Itoa e.1, toJsonClassLoaderContextRec pathString e.2) := by
  rw [toJsonClassLoaderContext, GoMap.foldl_set_of_nodup]
  · rfl
  · have := hm.map strconv.Itoa_injective
    simpa [GoMap.keys, Function.comp_def] using this

/-- Reading reports the errors of the keys in the order the JSON map is walked,
and fills the map with the lists under the versions read. -/
theorem fromJsonClassLoaderContext_eq (jClcMap : jsonClassLoaderContextMap) :
    fromJsonClassLoaderContext constructPath jClcMap =
      (jClcMap.flatMap fun e => (parseSdkVersion e.1).2.toList,
        jClcMap.foldl (fun (m : ClassLoaderContextMap Path) e =>
          GoMap.set m (parseSdkVersion e.1).1 (fromJsonClassLoaderContextRec constructPath e.2))
          []) := by
  rw [fromJsonClassLoaderContext]
  -- the loop carries the errors so far and the map so far side by side
  suffices h : ∀ (acc : List String × ClassLoaderContextMap Path),
      jClcMap.foldl (fun (acc : List String × ClassLoaderContextMap Path) entry =>
        let (sdkVer, err) := parseSdkVersion entry.1
        (acc.1 ++ err.toList,
          GoMap.set acc.2 sdkVer (fromJsonClassLoaderContextRec constructPath entry.2))) acc =
      (acc.1 ++ jClcMap.flatMap fun e => (parseSdkVersion e.1).2.toList,
        jClcMap.foldl (fun (m : ClassLoaderContextMap Path) e =>
          GoMap.set m (parseSdkVersion e.1).1 (fromJsonClassLoaderContextRec constructPath e.2))
          acc.2) by
    simpa using h ([], [])
  induction jClcMap with
  | nil => intro acc; simp
  | cons e rest ih =>
    intro acc
    rw [List.foldl_cons, ih, List.flatMap_cons, List.foldl_cons, List.append_assoc]

/-- A version `Itoa` printed is read back without an error. -/
theorem parseSdkVersion_Itoa {sdkVer : ℤ} (hlo : -2 ^ 63 ≤ sdkVer) (hhi : sdkVer < 2 ^ 63) :
    parseSdkVersion (strconv.Itoa sdkVer) = (sdkVer, none) := by
  rw [parseSdkVersion, strconv.Atoi_Itoa hlo hhi]
  rfl

end loops

/-! ### The round trip -/

section roundTrip

variable {pathString : Path → String} {constructPath : String → Option Path}

mutual

theorem fromJsonOne_toJsonOne : (c : ClassLoaderContext Path) →
    (∀ c' ∈ contexts c, ∃ p, c'.Host = some p ∧ constructPath (pathString p) = some p) →
    fromJsonOne constructPath (toJsonOne pathString c) = c
  | ⟨name, optional, implicit, host, device, subcontexts⟩, h => by
    have hsub := fromJsonClassLoaderContextRec_toJsonClassLoaderContextRec subcontexts
      fun c' hc' => h c' (List.mem_cons_of_mem _ hc')
    obtain ⟨p, hp, hcp⟩ := h _ List.mem_cons_self
    -- the context's own build path is read back as it was written
    simp only at hp
    subst hp
    simp only [toJsonOne, fromJsonOne, hcp, hsub]

theorem fromJsonClassLoaderContextRec_toJsonClassLoaderContextRec :
    (l : List (ClassLoaderContext Path)) →
    (∀ c ∈ contextsList l, ∃ p, c.Host = some p ∧ constructPath (pathString p) = some p) →
    fromJsonClassLoaderContextRec constructPath (toJsonClassLoaderContextRec pathString l) = l
  | [], _ => rfl
  | c :: rest, h => by
    rw [toJsonClassLoaderContextRec, fromJsonClassLoaderContextRec,
      fromJsonOne_toJsonOne c fun c' hc' => h c' (List.mem_append_left _ hc'),
      fromJsonClassLoaderContextRec_toJsonClassLoaderContextRec rest
        fun c' hc' => h c' (List.mem_append_right _ hc')]

end

/-- **Reading back what Soong writes to `dexpreopt.config` gives the map.**
Whatever the order in which the JSON object is walked, no version is reported
and the map read is the map written, up to Go's order; it needs the SDK
versions to be 64-bit, and each build path to be read back as itself. -/
theorem fromJsonClassLoaderContext_toJsonClassLoaderContext {clcMap : ClassLoaderContextMap Path}
    (hm : (GoMap.keys clcMap).Nodup) (hrange : ∀ k ∈ GoMap.keys clcMap, -2 ^ 63 ≤ k ∧ k < 2 ^ 63)
    (hhost : ∀ e ∈ clcMap, ∀ c ∈ contextsList e.2,
      ∃ p, c.Host = some p ∧ constructPath (pathString p) = some p)
    {jClcMap : jsonClassLoaderContextMap}
    (hperm : jClcMap.Perm (toJsonClassLoaderContext pathString clcMap)) :
    (fromJsonClassLoaderContext constructPath jClcMap).1 = [] ∧
      (fromJsonClassLoaderContext constructPath jClcMap).2.Perm clcMap := by
  rw [toJsonClassLoaderContext_eq pathString hm] at hperm
  -- each entry written is read back as itself, under its own version
  have hentry : ∀ e ∈ clcMap,
      parseSdkVersion (strconv.Itoa e.1) = (e.1, none) ∧
      fromJsonClassLoaderContextRec constructPath (toJsonClassLoaderContextRec pathString e.2) =
        e.2 := fun e he =>
    ⟨parseSdkVersion_Itoa (hrange e.1 (List.mem_map_of_mem he)).1
        (hrange e.1 (List.mem_map_of_mem he)).2,
      fromJsonClassLoaderContextRec_toJsonClassLoaderContextRec e.2 (hhost e he)⟩
  have hread : ∀ j ∈ jClcMap, ∃ e ∈ clcMap,
      j = (strconv.Itoa e.1, toJsonClassLoaderContextRec pathString e.2) := fun j hj => by
    obtain ⟨e, he, rfl⟩ := List.mem_map.mp (hperm.subset hj)
    exact ⟨e, he, rfl⟩
  let g : String × List jsonClassLoaderContext → ℤ × List (ClassLoaderContext Path) := fun j =>
    ((parseSdkVersion j.1).1, fromJsonClassLoaderContextRec constructPath j.2)
  have hg : (clcMap.map fun e =>
      (strconv.Itoa e.1, toJsonClassLoaderContextRec pathString e.2)).map g = clcMap := by
    rw [List.map_map]
    refine (List.map_congr_left fun e he => ?_).trans (List.map_id clcMap)
    simp [g, (hentry e he).1, (hentry e he).2]
  have hgperm : (jClcMap.map g).Perm clcMap := hg ▸ hperm.map g
  rw [fromJsonClassLoaderContext_eq]
  refine ⟨List.flatMap_eq_nil_iff.mpr fun j hj => ?_, ?_⟩
  · obtain ⟨e, he, rfl⟩ := hread j hj
    simp [(hentry e he).1]
  · -- the versions read are the versions written, so distinct
    have hnodup : (jClcMap.map fun j => (parseSdkVersion j.1).1).Nodup := by
      have := (hgperm.map Prod.fst).nodup_iff.mpr hm
      simpa [g, List.map_map, Function.comp_def] using this
    rw [GoMap.foldl_set_of_nodup jClcMap (fun j => (parseSdkVersion j.1).1)
      (fun j => fromJsonClassLoaderContextRec constructPath j.2) [] (by simpa [GoMap.keys] using hnodup)]
    simpa [g] using hgperm

theorem fromJsonClassLoaderContext_toJsonClassLoaderContext_sampleClcMap :
    (GoMap.keys sampleClcMap).Nodup ∧
    (∀ k ∈ GoMap.keys sampleClcMap, -2 ^ 63 ≤ k ∧ k < 2 ^ 63) ∧
    (∀ e ∈ sampleClcMap, ∀ c ∈ contextsList e.2, ∃ p, c.Host = some p ∧ some (id p) = some p) ∧
    (fromJsonClassLoaderContext some (toJsonClassLoaderContext id sampleClcMap)).1 = [] ∧
      (fromJsonClassLoaderContext some (toJsonClassLoaderContext id sampleClcMap)).2.Perm
        sampleClcMap := by
  have hm : (GoMap.keys sampleClcMap).Nodup := by decide +kernel
  have hrange : ∀ k ∈ GoMap.keys sampleClcMap, -2 ^ 63 ≤ k ∧ k < 2 ^ 63 := by decide +kernel
  have hsome : ∀ e ∈ sampleClcMap, ∀ c ∈ contextsList e.2, c.Host.isSome := by decide +kernel
  have hhost : ∀ e ∈ sampleClcMap, ∀ c ∈ contextsList e.2,
      ∃ p, c.Host = some p ∧ some (id p) = some p := fun e he c hc =>
    (Option.isSome_iff_exists.mp (hsome e he c hc)).imp fun _ hp => ⟨hp, rfl⟩
  exact ⟨hm, hrange, hhost,
    fromJsonClassLoaderContext_toJsonClassLoaderContext hm hrange hhost (List.Perm.refl _)⟩

end roundTrip

/-! ### A missing build path after a round trip -/

section deferred

variable {pathString : Path → String} {constructPath : String → Option Path}

mutual

theorem host_isSome_fromJsonOne_toJsonOne (hcp : ∀ s, s ≠ "" → (constructPath s).isSome)
    (hps : ∀ p, pathString p ≠ "") : (c : ClassLoaderContext Path) →
    ∀ c' ∈ contexts (fromJsonOne constructPath (toJsonOne pathString c)), c'.Host.isSome
  | ⟨name, optional, implicit, host, device, subcontexts⟩ => by
    intro c' hc'
    simp only [toJsonOne, fromJsonOne, contexts_eq, List.mem_cons] at hc'
    rcases hc' with rfl | hc'
    · -- the string written is never empty: a path, or the placeholder jar
      apply hcp
      cases host with
      | none => simp [String.ext_iff]
      | some p => exact hps p
    · exact host_isSome_fromJsonClassLoaderContextRec_toJsonClassLoaderContextRec hcp hps
        subcontexts c' hc'

theorem host_isSome_fromJsonClassLoaderContextRec_toJsonClassLoaderContextRec
    (hcp : ∀ s, s ≠ "" → (constructPath s).isSome) (hps : ∀ p, pathString p ≠ "") :
    (l : List (ClassLoaderContext Path)) →
    ∀ c ∈ contextsList (fromJsonClassLoaderContextRec constructPath
      (toJsonClassLoaderContextRec pathString l)), c.Host.isSome
  | [] => by simp [toJsonClassLoaderContextRec, fromJsonClassLoaderContextRec]
  | c :: rest => by
    intro c' hc'
    rw [toJsonClassLoaderContextRec, fromJsonClassLoaderContextRec, contextsList_cons,
      List.mem_append] at hc'
    rcases hc' with hc' | hc'
    · exact host_isSome_fromJsonOne_toJsonOne hcp hps c c' hc'
    · exact host_isSome_fromJsonClassLoaderContextRec_toJsonClassLoaderContextRec hcp hps rest c' hc'

end

/-- **A library without a build path fails only when it is used.**  After a
round trip through `dexpreopt.config`, every context has a build path, the
placeholder jar standing for a missing one; so printing the contexts read back
never panics, in any order of the JSON object, and the build fails only when
`construct_context` runs on the placeholder. -/
theorem ComputeClassLoaderContext_fromJson_toJson [DecidableEq Path] [Inhabited Path]
    (hcp : ∀ s, s ≠ "" → (constructPath s).isSome) (hps : ∀ p, pathString p ≠ "")
    (clcMap : ClassLoaderContextMap Path) {jClcMap : jsonClassLoaderContextMap}
    (hperm : jClcMap.Perm (toJsonClassLoaderContext pathString clcMap)) :
    ∃ clcStr paths, ComputeClassLoaderContext pathString
      (fromJsonClassLoaderContext constructPath jClcMap).2 = some (clcStr, paths) := by
  rw [fromJsonClassLoaderContext_eq]
  have hm := @GoMap.nodup_keys_foldl_set ℤ (List (ClassLoaderContext Path)) _ _ jClcMap
    (fun j => (parseSdkVersion j.1).1) (fun j => fromJsonClassLoaderContextRec constructPath j.2) []
    List.nodup_nil
  have hsome : ComputeClassLoaderContext pathString (jClcMap.foldl (fun m j =>
      GoMap.set m (parseSdkVersion j.1).1 (fromJsonClassLoaderContextRec constructPath j.2))
      []) ≠ none := by
    rw [Ne, ComputeClassLoaderContext_eq_none_iff pathString hm]
    rintro ⟨e, he, c, hc, hnone⟩
    -- every list read back is one written by `toJsonClassLoaderContextRec`
    rcases GoMap.mem_foldl_set _ _ _ he with he | ⟨j, hj, rfl⟩
    · cases he
    rcases GoMap.mem_foldl_set _ _ _ (hperm.subset hj) with hj' | ⟨e₀, -, rfl⟩
    · cases hj'
    have := host_isSome_fromJsonClassLoaderContextRec_toJsonClassLoaderContextRec hcp hps e₀.2 c hc
    simp [hnone] at this
  obtain ⟨⟨clcStr, paths⟩, hr⟩ := Option.ne_none_iff_exists'.mp hsome
  exact ⟨clcStr, paths, hr⟩

theorem ComputeClassLoaderContext_fromJson_toJson_invalidClcMap :
    (∀ s, s ≠ "" → ((fun s : String => if s = "" then none else some s) s).isSome) ∧
    (∀ p : String, "out/" ++ p ≠ "") ∧
    ∃ clcStr paths, ComputeClassLoaderContext (fun p => "out/" ++ p)
      (fromJsonClassLoaderContext (fun s => if s = "" then none else some s)
        (toJsonClassLoaderContext (fun p => "out/" ++ p) invalidClcMap)).2 = some (clcStr, paths) := by
  have hcp : ∀ s, s ≠ "" → ((fun s : String => if s = "" then none else some s) s).isSome :=
    fun s hs => by simp [hs]
  have hps : ∀ p : String, "out/" ++ p ≠ "" := fun p => by simp [String.ext_iff]
  exact ⟨hcp, hps, ComputeClassLoaderContext_fromJson_toJson hcp hps invalidClcMap (List.Perm.refl _)⟩

end deferred

end dexpreopt

end Soong
