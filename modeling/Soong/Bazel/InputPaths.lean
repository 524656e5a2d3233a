import Soong.Bazel.Aquery
import Soong.Lib.Acyclic

/-!
# The memoised walks of the action graph

`artifactIdsFromDepsetId` and `getInputPaths` of `bazel/aquery.go`, against a
reference without the memo.  The flattening of a depset is its direct
artifacts followed by the flattening of each transitive depset (`Flattens`);
the input paths of some depsets are the paths of their flattenings, a
middleman artifact replaced by the input paths of its action's depsets, and the
whole filtered (`InputPaths`).  Both are relations: they say what the result
is wherever the recursion is well founded, and a depset has at most one
flattening (`Flattens.det`).  The first undefined depset or artifact met is the
error, as in the code.

The memo only ever holds reference flattenings (`CacheSound`), whatever calls
filled it, so a memoised result is the reference.  On an acyclic graph the
recursion descends in the rank of `Soong.Lib.Acyclic`, and with more fuel than
the graph has nodes each call returns the reference.  `getInputPaths` also
recurses through middlemen, whose cycles no acyclicity of the depsets rules out
(`getInputPaths_middleman_loop`).

## Main definitions

* `Flattens`, `FlattensAll` — the flattening of a depset and of a list of them.
* `InputPaths` — the input paths of a list of depsets.
* `CacheSound` — the memo holds reference flattenings.
* `DepsetChild`, `Below` — the edges of the depset graph, and of the graph of
  depsets, artifacts and middleman actions.

## Main results

* `artifactIdsFromDepsetId_returns`, `mapM_artifactIdsFromDepsetId_returns` —
  with fuel above its rank, a call returns the reference and keeps the memo
  sound, and so does every call of a sequence.
* `getInputPaths_returns` — likewise for the input paths, on a graph acyclic
  through middlemen.
* `getInputPaths_refines_reference` — both, with fuel above the size of the
  graph.
* `getInputPaths_middleman_loop` — a graph of depsets without cycles may still
  loop through a middleman.
-/

namespace Soong

namespace Bazel

/-! ### The reference -/

mutual

/-- The flattening of a depset without the memo: its direct artifacts, then the
flattening of each transitive depset in order; an undefined depset is an
error. -/
inductive Flattens (depsets : List (ℤ × depSetOfFiles)) : ℤ → Except String (List ℤ) → Prop
  | undefined {i : ℤ} : GoMap.get? depsets i = none →
      Flattens depsets i (.error ("undefined input depsetId " ++ toString i))
  | defined {i : ℤ} {d : depSetOfFiles} {res : Except String (List ℤ)} :
      GoMap.get? depsets i = some d → FlattensAll depsets d.TransitiveDepSetIds res →
      Flattens depsets i ((d.DirectArtifactIds ++ ·) <$> res)

/-- The flattenings of depsets one after another, up to the first error. -/
inductive FlattensAll (depsets : List (ℤ × depSetOfFiles)) : List ℤ → Except String (List ℤ) → Prop
  | nil : FlattensAll depsets [] (.ok [])
  | cons_error {c : ℤ} {cs : List ℤ} {e : String} :
      Flattens depsets c (.error e) → FlattensAll depsets (c :: cs) (.error e)
  | cons_ok {c : ℤ} {cs : List ℤ} {r : List ℤ} {res : Except String (List ℤ)} :
      Flattens depsets c (.ok r) → FlattensAll depsets cs res →
      FlattensAll depsets (c :: cs) ((r ++ ·) <$> res)

end

mutual

/-- The input paths of depsets: the paths they flatten to, filtered. -/
inductive InputPaths (a : aqueryArtifactHandler) : List ℤ → Except String (List String) → Prop
  | mk {ids : List ℤ} {res : Except String (List String)} :
      DepsetsPaths a ids res →
      InputPaths a ids (filterOutPy3wrapperAndManifestFileFromInputPaths <$> res)

/-- The unfiltered paths of depsets one after another, up to the first error. -/
inductive DepsetsPaths (a : aqueryArtifactHandler) : List ℤ → Except String (List String) → Prop
  | nil : DepsetsPaths a [] (.ok [])
  | cons_error {i : ℤ} {ids : List ℤ} {e : String} :
      DepsetPaths a i (.error e) → DepsetsPaths a (i :: ids) (.error e)
  | cons_ok {i : ℤ} {ids : List ℤ} {ps : List String} {res : Except String (List String)} :
      DepsetPaths a i (.ok ps) → DepsetsPaths a ids res →
      DepsetsPaths a (i :: ids) ((ps ++ ·) <$> res)

/-- The unfiltered paths of one depset: those of the artifacts it flattens to. -/
inductive DepsetPaths (a : aqueryArtifactHandler) : ℤ → Except String (List String) → Prop
  | error {i : ℤ} {e : String} :
      Flattens a.depsetIdToDepset i (.error e) → DepsetPaths a i (.error e)
  | ok {i : ℤ} {r : List ℤ} {res : Except String (List String)} :
      Flattens a.depsetIdToDepset i (.ok r) → ArtifactsPaths a r res → DepsetPaths a i res

/-- The paths of artifacts one after another, up to the first error. -/
inductive ArtifactsPaths (a : aqueryArtifactHandler) : List ℤ → Except String (List String) → Prop
  | nil : ArtifactsPaths a [] (.ok [])
  | cons_error {x : ℤ} {xs : List ℤ} {e : String} :
      ArtifactPaths a x (.error e) → ArtifactsPaths a (x :: xs) (.error e)
  | cons_ok {x : ℤ} {xs : List ℤ} {ps : List String} {res : Except String (List String)} :
      ArtifactPaths a x (.ok ps) → ArtifactsPaths a xs res →
      ArtifactsPaths a (x :: xs) ((ps ++ ·) <$> res)

/-- The paths of one artifact: the input paths of its action's depsets for a
middleman, its own path for any other. -/
inductive ArtifactPaths (a : aqueryArtifactHandler) : ℤ → Except String (List String) → Prop
  | middleman {x : ℤ} {ds : List ℤ} {res : Except String (List String)} :
      GoMap.get? a.middlemanIdToDepsetIds x = some ds → InputPaths a ds res →
      ArtifactPaths a x res
  | path {x : ℤ} {p : String} :
      GoMap.get? a.middlemanIdToDepsetIds x = none → GoMap.get? a.artifactIdToPath x = some p →
      ArtifactPaths a x (.ok [p])
  | undefined {x : ℤ} :
      GoMap.get? a.middlemanIdToDepsetIds x = none → GoMap.get? a.artifactIdToPath x = none →
      ArtifactPaths a x (.error ("undefined input artifactId " ++ toString x))

end

section det

variable {depsets : List (ℤ × depSetOfFiles)}

mutual

/-- A depset has at most one flattening. -/
theorem Flattens.det {i : ℤ} {r₁ r₂ : Except String (List ℤ)} :
    Flattens depsets i r₁ → Flattens depsets i r₂ → r₁ = r₂
  | .undefined _, .undefined _ => rfl
  | .undefined h₁, .defined h₂ _ => by rw [h₁] at h₂; cases h₂
  | .defined h₁ _, .undefined h₂ => by rw [h₁] at h₂; cases h₂
  | .defined h₁ hl₁, .defined h₂ hl₂ => by
    rw [h₁] at h₂
    cases h₂
    rw [FlattensAll.det hl₁ hl₂]

theorem FlattensAll.det {cs : List ℤ} {r₁ r₂ : Except String (List ℤ)} :
    FlattensAll depsets cs r₁ → FlattensAll depsets cs r₂ → r₁ = r₂
  | .nil, .nil => rfl
  | .cons_error h₁, .cons_error h₂ => Flattens.det h₁ h₂
  | .cons_error h₁, .cons_ok h₂ _ => by cases Flattens.det h₁ h₂
  | .cons_ok h₁ _, .cons_error h₂ => by cases Flattens.det h₁ h₂
  | .cons_ok h₁ hl₁, .cons_ok h₂ hl₂ => by
    cases Flattens.det h₁ h₂
    rw [FlattensAll.det hl₁ hl₂]

end

end det

/-! ### Flattening with the memo -/

section flatten

variable {depsets : List (ℤ × depSetOfFiles)}

/-- The memo holds only reference flattenings. -/
def CacheSound (depsets : List (ℤ × depSetOfFiles)) (cache : List (ℤ × List ℤ)) : Prop :=
  ∀ j r, GoMap.get? cache j = some r → Flattens depsets j (.ok r)

theorem cacheSound_nil : CacheSound depsets [] := fun _ _ h => by simp [GoMap.get?] at h

/-- Memoising a reference flattening keeps the memo sound. -/
theorem CacheSound.set {cache : List (ℤ × List ℤ)} (h : CacheSound depsets cache) {i : ℤ}
    {r : List ℤ} (hr : Flattens depsets i (.ok r)) : CacheSound depsets (GoMap.set cache i r) := by
  intro j r' hj
  by_cases hji : j = i
  · subst hji
    rw [GoMap.get?_set_self] at hj
    cases hj
    exact hr
  · rw [GoMap.get?_set_of_ne _ _ hji] at hj
    exact h j r' hj

/-- A depset's transitive depsets are its children. -/
def DepsetChild (depsets : List (ℤ × depSetOfFiles)) (c i : ℤ) : Prop :=
  ∃ d, GoMap.get? depsets i = some d ∧ c ∈ d.TransitiveDepSetIds

/-- The loop over the transitive depsets appends their flattenings. -/
theorem foldlM_flattenChildren (n : ℕ) {cs : List ℤ}
    (hcs : ∀ c ∈ cs, ∀ cache, CacheSound depsets cache → ∃ res, Flattens depsets c res ∧
      Returns (artifactIdsFromDepsetId depsets n c) cache res (CacheSound depsets))
    (acc : List ℤ) {cache : List (ℤ × List ℤ)} (hcache : CacheSound depsets cache) :
    ∃ res, FlattensAll depsets cs res ∧
      Returns (cs.foldlM (fun result childId => do
          let childArtifactIds ← artifactIdsFromDepsetId depsets n childId
          pure (result ++ childArtifactIds)) acc) cache ((acc ++ ·) <$> res) (CacheSound depsets) :=
  Returns.foldlM_append FlattensAll.nil (fun _ _ _ h => .cons_error h)
    (fun _ _ _ _ h hl => .cons_ok h hl) cs
    (fun c hc acc' _ hs => by
      obtain ⟨res, hres, hret⟩ := hcs c hc _ hs
      exact ⟨res, hres, Returns.bind_pure hret⟩) acc cache hcache

/-- **A call with more fuel than the rank of its depset returns the reference
flattening**, from any sound memo, and leaves the memo sound. -/
theorem artifactIdsFromDepsetId_returns {rank : ℤ → ℕ}
    (hrank : ∀ c i, DepsetChild depsets c i → rank c < rank i) :
    ∀ n i cache, rank i < n → CacheSound depsets cache →
      ∃ res, Flattens depsets i res ∧
        Returns (artifactIdsFromDepsetId depsets n i) cache res (CacheSound depsets)
  | 0, _, _, hi, _ => absurd hi (Nat.not_lt_zero _)
  | n + 1, i, cache, hi, hcache => by
    cases hc : GoMap.get? cache i with
    | some r =>
      -- a memoised flattening is the reference
      refine ⟨.ok r, hcache i r hc, ?_⟩
      simp only [artifactIdsFromDepsetId]
      refine Returns.get_bind ?_
      simp only [hc]
      exact Returns.of_pure hcache
    | none =>
      cases hd : GoMap.get? depsets i with
      | none =>
        refine ⟨_, .undefined hd, ?_⟩
        simp only [artifactIdsFromDepsetId]
        refine Returns.get_bind ?_
        simp only [hc, hd]
        exact Returns.of_throw
      | some d =>
        -- the transitive depsets have smaller ranks, so less fuel does for them
        have hchildren : ∀ c ∈ d.TransitiveDepSetIds, ∀ cache, CacheSound depsets cache →
            ∃ res, Flattens depsets c res ∧
              Returns (artifactIdsFromDepsetId depsets n c) cache res (CacheSound depsets) :=
          fun c hc' cache' hcache' => artifactIdsFromDepsetId_returns hrank n c cache'
            (by have := hrank c i ⟨d, hd, hc'⟩; omega) hcache'
        obtain ⟨res, hres, hret⟩ :=
          foldlM_flattenChildren n hchildren d.DirectArtifactIds hcache
        refine ⟨_, .defined hd hres, ?_⟩
        simp only [artifactIdsFromDepsetId]
        refine Returns.get_bind ?_
        simp only [hc, hd]
        cases res with
        | error e => exact Returns.bind_error hret
        | ok r =>
          -- the flattening is memoised before it is returned
          refine Returns.bind_ok hret fun cache' hcache' => Returns.modify_bind ?_
          exact Returns.of_pure (hcache'.set (.defined hd hres))

/-- The reference results of a sequence of calls: the flattening of each, up
to the first error. -/
inductive FlattensEach (depsets : List (ℤ × depSetOfFiles)) :
    List ℤ → Except String (List (List ℤ)) → Prop
  | nil : FlattensEach depsets [] (.ok [])
  | cons_error {i : ℤ} {calls : List ℤ} {e : String} :
      Flattens depsets i (.error e) → FlattensEach depsets (i :: calls) (.error e)
  | cons_ok {i : ℤ} {calls : List ℤ} {r : List ℤ} {res : Except String (List (List ℤ))} :
      Flattens depsets i (.ok r) → FlattensEach depsets calls res →
      FlattensEach depsets (i :: calls) ((r :: ·) <$> res)

/-- **Every call of a sequence on one memo returns the reference**, each from
the memo the calls before it left. -/
theorem mapM_artifactIdsFromDepsetId_returns {rank : ℤ → ℕ}
    (hrank : ∀ c i, DepsetChild depsets c i → rank c < rank i) {n : ℕ}
    (hn : ∀ i, rank i < n) :
    ∀ calls cache, CacheSound depsets cache → ∃ res, FlattensEach depsets calls res ∧
      Returns (calls.mapM (artifactIdsFromDepsetId depsets n)) cache res (CacheSound depsets)
  | [], _, hcache => ⟨.ok [], .nil, Returns.of_pure hcache⟩
  | i :: calls, cache, hcache => by
    obtain ⟨r, hr, hret⟩ := artifactIdsFromDepsetId_returns hrank n i cache (hn i) hcache
    rw [List.mapM_cons]
    cases r with
    | error e => exact ⟨.error e, .cons_error hr, Returns.bind_error hret⟩
    | ok r =>
      -- the rest of the sequence runs on the memo this call left
      obtain ⟨cache', hrun, hcache'⟩ := hret
      obtain ⟨res, hres, hret'⟩ :=
        mapM_artifactIdsFromDepsetId_returns hrank hn calls cache' hcache'
      refine ⟨(r :: ·) <$> res, .cons_ok hr hres, ?_⟩
      exact Returns.of_run_eq (Returns.run_bind_of_ok hrun) (Returns.bind_pure hret')

end flatten

/-! ### Input paths -/

section inputPaths

variable {a : aqueryArtifactHandler}

/-- A node of the action graph: a depset or an artifact. -/
inductive Node
  | depset (id : ℤ)
  | artifact (id : ℤ)
  deriving DecidableEq

/-- The edges of the action graph, from what a node is made of to the node: a
depset's transitive depsets and direct artifacts to it, and the input depsets
of a middleman's action to the middleman. -/
def Below (a : aqueryArtifactHandler) : Node → Node → Prop
  | .depset c, .depset i => DepsetChild a.depsetIdToDepset c i
  | .artifact x, .depset i =>
    ∃ d, GoMap.get? a.depsetIdToDepset i = some d ∧ x ∈ d.DirectArtifactIds
  | .depset j, .artifact m => ∃ ds, GoMap.get? a.middlemanIdToDepsetIds m = some ds ∧ j ∈ ds
  | .artifact _, .artifact _ => False

mutual

/-- The artifacts a depset flattens to lie below it. -/
theorem Flattens.below_depset {i : ℤ} {res : Except String (List ℤ)} :
    Flattens a.depsetIdToDepset i res → ∀ r, res = .ok r → ∀ x ∈ r,
      Relation.TransGen (Below a) (.artifact x) (.depset i)
  | .undefined _, _, hr, _, _ => by cases hr
  | @Flattens.defined _ _ d res hd hl, r, hr, x, hx => by
    have ih := FlattensAll.below_some hl
    cases res with
    | error e => cases hr
    | ok r' =>
      cases hr
      rcases List.mem_append.mp hx with hx | hx
      · exact .single ⟨d, hd, hx⟩
      · -- through the transitive depset it came from
        obtain ⟨c, hc, hxc⟩ := ih r' rfl x hx
        exact .tail hxc ⟨d, hd, hc⟩
termination_by structural h => h

theorem FlattensAll.below_some {cs : List ℤ} {res : Except String (List ℤ)} :
    FlattensAll a.depsetIdToDepset cs res → ∀ r, res = .ok r → ∀ x ∈ r,
      ∃ c ∈ cs, Relation.TransGen (Below a) (.artifact x) (.depset c)
  | .nil, _, hr, x, hx => by cases hr; cases hx
  | .cons_error _, _, hr, _, _ => by cases hr
  | @FlattensAll.cons_ok _ c _ r₁ res hf hl, r, hr, x, hx => by
    have ihf := Flattens.below_depset hf r₁ rfl
    have ihl := FlattensAll.below_some hl
    cases res with
    | error e => cases hr
    | ok r' =>
      cases hr
      rcases List.mem_append.mp hx with hx | hx
      · exact ⟨c, List.mem_cons_self, ihf x hx⟩
      · obtain ⟨c', hc', hxc'⟩ := ihl r' rfl x hx
        exact ⟨c', List.mem_cons_of_mem c hc', hxc'⟩
termination_by structural h => h

end

/-- The inner loop of `getInputPaths`, on one artifact. -/
def inputPathsOfArtifact (a : aqueryArtifactHandler) (fuel : ℕ) (inputPaths : List String)
    (inputId : ℤ) : HandlerM (List String) :=
  match GoMap.get? a.middlemanIdToDepsetIds inputId with
  | some middlemanInputDepsetIds => do
    let swappedInputPaths ← a.getInputPaths fuel middlemanInputDepsetIds
    pure (inputPaths ++ swappedInputPaths)
  | none =>
    match GoMap.get? a.artifactIdToPath inputId with
    | none => throw ("undefined input artifactId " ++ toString inputId)
    | some inputPath => pure (inputPaths ++ [inputPath])

/-- The outer loop of `getInputPaths`, on one depset. -/
def inputPathsOfDepset (a : aqueryArtifactHandler) (fuel : ℕ) (inputPaths : List String)
    (inputDepSetId : ℤ) : HandlerM (List String) := do
  let inputArtifacts ← artifactIdsFromDepsetId a.depsetIdToDepset fuel inputDepSetId
  inputArtifacts.foldlM (inputPathsOfArtifact a fuel) inputPaths

/-- `getInputPaths` with fuel left, by its two loops. -/
theorem getInputPaths_succ (a : aqueryArtifactHandler) (fuel : ℕ) (depsetIds : List ℤ) :
    a.getInputPaths (fuel + 1) depsetIds = (do
      let inputPaths ← depsetIds.foldlM (inputPathsOfDepset a fuel) []
      pure (filterOutPy3wrapperAndManifestFileFromInputPaths inputPaths)) := rfl

section step

variable {rank : Node → ℕ} {n : ℕ}

/-- The artifacts below a depset of rank at most `n - 1` have their paths, given
that `getInputPaths` with fuel `n` returns on depsets of rank at most `n - 2`. -/
theorem inputPathsOfArtifact_returns (hrank : ∀ x y, Below a x y → rank x < rank y)
    (ih : ∀ ids cache, (∀ j ∈ ids, rank (.depset j) + 2 ≤ n) → 0 < n →
      CacheSound a.depsetIdToDepset cache → ∃ res, InputPaths a ids res ∧
        Returns (a.getInputPaths n ids) cache res (CacheSound a.depsetIdToDepset))
    {i : ℤ} (hi : rank (.depset i) + 1 ≤ n) {x : ℤ}
    (hx : Relation.TransGen (Below a) (.artifact x) (.depset i)) (acc : List String)
    {cache : List (ℤ × List ℤ)} (hcache : CacheSound a.depsetIdToDepset cache) :
    ∃ r, ArtifactPaths a x r ∧
      Returns (inputPathsOfArtifact a n acc x) cache ((acc ++ ·) <$> r)
        (CacheSound a.depsetIdToDepset) := by
  have hxi : rank (.artifact x) < rank (.depset i) := rank_lt_of_transGen hrank hx
  unfold inputPathsOfArtifact
  cases hm : GoMap.get? a.middlemanIdToDepsetIds x with
  | some ds =>
    -- the middleman's depsets lie below it, so below `i`
    have hds : ∀ j ∈ ds, rank (.depset j) + 2 ≤ n := fun j hj => by
      have := hrank (.depset j) (.artifact x) ⟨ds, hm, hj⟩
      omega
    obtain ⟨res, hres, hret⟩ := ih ds cache hds (by omega) hcache
    exact ⟨res, .middleman hm hres, Returns.bind_pure hret⟩
  | none =>
    cases hp : GoMap.get? a.artifactIdToPath x with
    | none => exact ⟨_, .undefined hm hp, Returns.of_throw⟩
    | some p => exact ⟨.ok [p], .path hm hp, Returns.of_pure hcache⟩

/-- A depset of rank at most `n - 1` has its paths, under the same hypothesis. -/
theorem inputPathsOfDepset_returns (hrank : ∀ x y, Below a x y → rank x < rank y)
    (ih : ∀ ids cache, (∀ j ∈ ids, rank (.depset j) + 2 ≤ n) → 0 < n →
      CacheSound a.depsetIdToDepset cache → ∃ res, InputPaths a ids res ∧
        Returns (a.getInputPaths n ids) cache res (CacheSound a.depsetIdToDepset))
    {i : ℤ} (hi : rank (.depset i) + 1 ≤ n) (acc : List String)
    {cache : List (ℤ × List ℤ)} (hcache : CacheSound a.depsetIdToDepset cache) :
    ∃ r, DepsetPaths a i r ∧
      Returns (inputPathsOfDepset a n acc i) cache ((acc ++ ·) <$> r)
        (CacheSound a.depsetIdToDepset) := by
  have hdepsets : ∀ c i, DepsetChild a.depsetIdToDepset c i →
      rank (.depset c) < rank (.depset i) := fun c i h => hrank (.depset c) (.depset i) h
  obtain ⟨fr, hfr, hfret⟩ :=
    artifactIdsFromDepsetId_returns hdepsets n i cache (by omega) hcache
  unfold inputPathsOfDepset
  cases fr with
  | error e => exact ⟨.error e, .error hfr, Returns.bind_error hfret⟩
  | ok arts =>
    -- the artifacts of the depset, in the memo its flattening left
    obtain ⟨cache', hrun, hcache'⟩ := hfret
    obtain ⟨res, hres, hret⟩ := Returns.foldlM_append ArtifactsPaths.nil
      (fun _ _ _ h => .cons_error h) (fun _ _ _ _ h hl => .cons_ok h hl) arts
      (fun x hx acc' _ hs => inputPathsOfArtifact_returns hrank ih hi
        (Flattens.below_depset hfr arts rfl x hx) acc' hs) acc cache' hcache'
    exact ⟨res, .ok hfr hres, Returns.of_run_eq (Returns.run_bind_of_ok hrun) hret⟩

end step

/-- **With two more units of fuel than the ranks of its depsets,
`getInputPaths` returns the reference input paths**, from any sound memo, and
leaves the memo sound. -/
theorem getInputPaths_returns {rank : Node → ℕ} (hrank : ∀ x y, Below a x y → rank x < rank y) :
    ∀ n ids cache, (∀ i ∈ ids, rank (.depset i) + 2 ≤ n) → 0 < n →
      CacheSound a.depsetIdToDepset cache → ∃ res, InputPaths a ids res ∧
        Returns (a.getInputPaths n ids) cache res (CacheSound a.depsetIdToDepset)
  | 0, _, _, _, hn, _ => absurd hn (Nat.lt_irrefl 0)
  | n + 1, ids, cache, hids, _, hcache => by
    obtain ⟨res, hres, hret⟩ := Returns.foldlM_append DepsetsPaths.nil
      (fun _ _ _ h => .cons_error h) (fun _ _ _ _ h hl => .cons_ok h hl) ids
      (fun i hi acc _ hs => inputPathsOfDepset_returns hrank
        (getInputPaths_returns hrank n) (by have := hids i hi; omega) acc hs) [] cache hcache
    rw [getInputPaths_succ]
    rw [Returns.map_nil_append] at hret
    exact ⟨_, .mk hres, Returns.bind_pure hret⟩

end inputPaths

/-! ### Ranks and fuel -/

section ranks

variable {a : aqueryArtifactHandler}

/-- An acyclic depset graph has a rank, at most the number of depsets, that
every edge increases. -/
theorem exists_depsetRank {depsets : List (ℤ × depSetOfFiles)}
    (hacyclic : ∀ i, ¬Relation.TransGen (DepsetChild depsets) i i) :
    ∃ rank : ℤ → ℕ, (∀ c i, DepsetChild depsets c i → rank c < rank i) ∧
      ∀ i, rank i ≤ depsets.length := by
  -- every edge ends at a depset of the map
  have hD : ∀ c i, DepsetChild depsets c i → i ∈ depsets.map Prod.fst := by
    rintro c i ⟨d, hd, -⟩
    exact List.mem_map_of_mem (GoMap.mem_of_get?_eq_some hd)
  refine ⟨rankBelow (DepsetChild depsets) (depsets.map Prod.fst), fun c i h => ?_, fun i => ?_⟩
  · exact rankBelow_lt hD hacyclic h
  · simpa using rankBelow_le (D := depsets.map Prod.fst) hacyclic i

/-- An action graph acyclic through middlemen has a rank, at most the number of
depsets and middlemen, that every edge increases. -/
theorem exists_nodeRank (hacyclic : ∀ x, ¬Relation.TransGen (Below a) x x) :
    ∃ rank : Node → ℕ, (∀ x y, Below a x y → rank x < rank y) ∧
      ∀ x, rank x ≤ a.depsetIdToDepset.length + a.middlemanIdToDepsetIds.length := by
  let D : List Node := a.depsetIdToDepset.map (fun e => .depset e.1) ++
    a.middlemanIdToDepsetIds.map (fun e => .artifact e.1)
  -- every edge ends at a depset of the map or at a middleman
  have hD : ∀ x y, Below a x y → y ∈ D := by
    rintro (c | x) (i | m) h
    · obtain ⟨d, hd, -⟩ := h
      exact List.mem_append_left _ (List.mem_map_of_mem (GoMap.mem_of_get?_eq_some hd))
    · obtain ⟨ds, hds, -⟩ := h
      exact List.mem_append_right _ (List.mem_map_of_mem (GoMap.mem_of_get?_eq_some hds))
    · obtain ⟨d, hd, -⟩ := h
      exact List.mem_append_left _ (List.mem_map_of_mem (GoMap.mem_of_get?_eq_some hd))
    · exact h.elim
  refine ⟨rankBelow (Below a) D, fun x y h => rankBelow_lt hD hacyclic h, fun x => ?_⟩
  have := rankBelow_le (D := D) hacyclic x
  simpa [D] using this

end ranks

/-- **The memoised walks refine the reference.**  On a handler whose depset
graph has no cycle, with more fuel than there are depsets, every call of a
sequence of `artifactIdsFromDepsetId` calls returns the reference flattening,
from the empty memo or any memo such calls leave; and when the graph has no
cycle through middlemen either, with two more units of fuel than there are
depsets and middlemen, `getInputPaths` returns the reference input paths. -/
theorem getInputPaths_refines_reference (a : aqueryArtifactHandler)
    (hacyclic : ∀ i, ¬Relation.TransGen (DepsetChild a.depsetIdToDepset) i i) :
    CacheSound a.depsetIdToDepset [] ∧
    (∀ fuel, a.depsetIdToDepset.length < fuel → ∀ calls cache,
      CacheSound a.depsetIdToDepset cache → ∃ res, FlattensEach a.depsetIdToDepset calls res ∧
        Returns (calls.mapM (artifactIdsFromDepsetId a.depsetIdToDepset fuel)) cache res
          (CacheSound a.depsetIdToDepset)) ∧
    ((∀ x, ¬Relation.TransGen (Below a) x x) →
      ∀ fuel, a.depsetIdToDepset.length + a.middlemanIdToDepsetIds.length + 2 ≤ fuel →
      ∀ ids cache, CacheSound a.depsetIdToDepset cache → ∃ res, InputPaths a ids res ∧
        Returns (a.getInputPaths fuel ids) cache res (CacheSound a.depsetIdToDepset)) := by
  refine ⟨cacheSound_nil, ?_, ?_⟩
  · intro fuel hfuel calls cache hcache
    obtain ⟨rank, hrank, hle⟩ := exists_depsetRank hacyclic
    exact mapM_artifactIdsFromDepsetId_returns hrank (fun i => by have := hle i; omega)
      calls cache hcache
  · intro hacyclic' fuel hfuel ids cache hcache
    obtain ⟨rank, hrank, hle⟩ := exists_nodeRank hacyclic'
    exact getInputPaths_returns hrank fuel ids cache
      (fun i _ => by have := hle (.depset i); omega) (by omega) hcache

/-- Two depsets sharing a third, which holds a middleman whose action reads a
fourth. -/
def diamondHandler : aqueryArtifactHandler :=
  ⟨[(5, [4])],
    [(1, ⟨1, [10], [2, 3]⟩), (2, ⟨2, [20], [3]⟩), (3, ⟨3, [30, 5], []⟩), (4, ⟨4, [40], []⟩)],
    [(10, "a"), (20, "b"), (30, "c"), (40, "d")]⟩

theorem diamondHandler_acyclic :
    ∀ i, ¬Relation.TransGen (DepsetChild diamondHandler.depsetIdToDepset) i i := by
  refine @not_transGen_self_of_rank ℤ _ (fun i => if i = 1 then 2 else if i = 2 then 1 else 0) ?_
  rintro c i ⟨d, hd, hc⟩
  have hmem := GoMap.mem_of_get?_eq_some hd
  simp only [diamondHandler, List.mem_cons, Prod.mk.injEq, List.mem_nil_iff, or_false] at hmem
  rcases hmem with ⟨rfl, rfl⟩ | ⟨rfl, rfl⟩ | ⟨rfl, rfl⟩ | ⟨rfl, rfl⟩
  · -- depset 1 lists 2 and 3
    simp only [List.mem_cons, List.mem_nil_iff, or_false] at hc
    rcases hc with rfl | rfl <;> decide
  · -- depset 2 lists 3
    simp only [List.mem_singleton] at hc
    subst hc
    decide
  · simp at hc
  · simp at hc

/-- With its middleman, the diamond's action graph has no cycle either: the
middleman `5` stands between depset `4`, which its action reads, and depset
`3`, which holds it. -/
theorem diamondHandler_below_acyclic : ∀ x, ¬Relation.TransGen (Below diamondHandler) x x := by
  refine @not_transGen_self_of_rank Node _ (fun
    | .depset i => if i = 1 then 5 else if i = 2 then 4 else if i = 3 then 3 else 1
    | .artifact x => if x = 5 then 2 else 0) ?_
  rintro (c | x) (i | m) h
  · -- a transitive depset: the ranks of `diamondHandler_acyclic`, shifted
    obtain ⟨d, hd, hc⟩ := h
    have hmem := GoMap.mem_of_get?_eq_some hd
    simp only [diamondHandler, List.mem_cons, Prod.mk.injEq, List.mem_nil_iff, or_false] at hmem
    rcases hmem with ⟨rfl, rfl⟩ | ⟨rfl, rfl⟩ | ⟨rfl, rfl⟩ | ⟨rfl, rfl⟩
    · simp only [List.mem_cons, List.mem_nil_iff, or_false] at hc
      rcases hc with rfl | rfl <;> decide
    · simp only [List.mem_singleton] at hc
      subst hc
      decide
    · simp at hc
    · simp at hc
  · -- the depsets a middleman's action reads: only depset `4`, by `5`
    obtain ⟨ds, hds, hj⟩ := h
    have hmem := GoMap.mem_of_get?_eq_some hds
    simp only [diamondHandler, List.mem_singleton, Prod.mk.injEq] at hmem
    obtain ⟨rfl, rfl⟩ := hmem
    simp only [List.mem_singleton] at hj
    subst hj
    decide
  · -- a direct artifact, the middleman among those of depset `3`
    obtain ⟨d, hd, hx⟩ := h
    have hmem := GoMap.mem_of_get?_eq_some hd
    simp only [diamondHandler, List.mem_cons, Prod.mk.injEq, List.mem_nil_iff, or_false] at hmem
    rcases hmem with ⟨rfl, rfl⟩ | ⟨rfl, rfl⟩ | ⟨rfl, rfl⟩ | ⟨rfl, rfl⟩ <;>
      simp only [List.mem_cons, List.mem_nil_iff, or_false] at hx
    · subst hx
      decide
    · subst hx
      decide
    · rcases hx with rfl | rfl <;> decide
    · subst hx
      decide
  · exact h.elim

theorem getInputPaths_refines_reference_diamondHandler :
    (∀ i, ¬Relation.TransGen (DepsetChild diamondHandler.depsetIdToDepset) i i) ∧
    (∀ x, ¬Relation.TransGen (Below diamondHandler) x x) ∧
    CacheSound diamondHandler.depsetIdToDepset [] ∧
    (∀ fuel, diamondHandler.depsetIdToDepset.length < fuel → ∀ calls cache,
      CacheSound diamondHandler.depsetIdToDepset cache →
        ∃ res, FlattensEach diamondHandler.depsetIdToDepset calls res ∧
          Returns (calls.mapM (artifactIdsFromDepsetId diamondHandler.depsetIdToDepset fuel)) cache
            res (CacheSound diamondHandler.depsetIdToDepset)) ∧
    (∀ fuel, diamondHandler.depsetIdToDepset.length +
          diamondHandler.middlemanIdToDepsetIds.length + 2 ≤ fuel →
      ∀ ids cache, CacheSound diamondHandler.depsetIdToDepset cache →
        ∃ res, InputPaths diamondHandler ids res ∧
          Returns (diamondHandler.getInputPaths fuel ids) cache res
            (CacheSound diamondHandler.depsetIdToDepset)) :=
  have h := getInputPaths_refines_reference diamondHandler diamondHandler_acyclic
  ⟨diamondHandler_acyclic, diamondHandler_below_acyclic, h.1, h.2.1,
    h.2.2 diamondHandler_below_acyclic⟩

/-- The shared depset is flattened twice, once through each parent; the second
time from the memo. -/
example : (diamondHandler.getInputPaths 8 [1]).run' [] =
    some (.ok ["a", "b", "c", "d", "c", "d"]) := by
  rfl

/-- The handler of a middleman read through the depset that holds it: depset
`1` holds the middleman `5`, whose action reads depset `1`. -/
def middlemanLoopHandler : aqueryArtifactHandler :=
  ⟨[(5, [1])], [(1, ⟨1, [5], []⟩)], [(5, filepath.Join ["m"])]⟩

/-- A depset graph without cycles does not make `getInputPaths` return: through
a middleman it runs out of every fuel. -/
theorem getInputPaths_middleman_loop :
    (∀ i, ¬Relation.TransGen (DepsetChild middlemanLoopHandler.depsetIdToDepset) i i) ∧
      ∀ fuel, (middlemanLoopHandler.getInputPaths fuel [1]).run [] = none := by
  refine ⟨?_, fun fuel => getInputPaths_middleman_cycle middlemanLoopHandler rfl rfl rfl rfl fuel []
    (Or.inl rfl)⟩
  -- the only depset has no transitive depset
  refine @not_transGen_self_of_rank ℤ _ (fun _ => 0) ?_
  rintro c i ⟨d, hd, hc⟩
  have hmem := GoMap.mem_of_get?_eq_some hd
  simp only [middlemanLoopHandler, List.mem_singleton, Prod.mk.injEq] at hmem
  obtain ⟨-, rfl⟩ := hmem
  simp at hc

end Bazel

end Soong
