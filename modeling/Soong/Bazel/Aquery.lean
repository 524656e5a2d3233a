import Soong.Lib.GoMap
import Soong.Lib.GoPath

/-!
# Build statements from Bazel's action graph

`bazel/aquery.go`.  `AqueryBuildStatements` reads Bazel's action graph —
artifacts, path fragments, depsets of files and actions — and returns one build
statement per action.  Three walks follow links of the graph:

* `expandPathFragment` follows the parent links of path fragments, and stops
  only at an id `≤ 0`, an undefined id, or a fragment that is its own parent;
* `artifactIdsFromDepsetId` flattens a depset through its transitive depsets,
  memoising a depset only once it is flattened;
* `getInputPaths` replaces a middleman artifact by the inputs of its action,
  recursively.

A cycle of two or more fragments, depsets or middlemen is caught by none of
them.  The walks take fuel, one unit per loop round or recursive call; `none`
is a computation that runs out of it, and a computation that runs out of every
fuel does not terminate in Go.

The command line of a build statement is left out: it is built by shell
escaping from blueprint's `proptools`, outside this repository, and no check
reads it.  So are the template contents and substitutions, which only it uses.

## Main definitions

* `expandPathFragment`, `newAqueryHandler`.
* `artifactIdsFromDepsetId`, `aqueryArtifactHandler.getInputPaths`.
* `AqueryBuildStatements`.

## Main results

* `expandPathFragment_of_closed`, `artifactIdsFromDepsetId_of_closed`,
  `getInputPaths_middleman_cycle` — each walk runs out of every fuel on a cycle.
* `AqueryBuildStatements_diverges_on_cycles` — so does `AqueryBuildStatements`,
  on a fragment cycle, a depset cycle and a middleman cycle.
-/

namespace Soong

namespace Bazel

/-! ### The action graph -/

/-- An artifact: a source or derived file, by its path fragment. -/
structure artifact where
  Id : ℤ
  PathFragmentId : ℤ
  deriving DecidableEq, Repr

/-- A path fragment: a label under a parent fragment (`0` for none). -/
structure pathFragment where
  Id : ℤ
  Label : String
  ParentId : ℤ
  deriving DecidableEq, Repr

structure KeyValuePair where
  Key : String
  Value : String
  deriving DecidableEq, Repr

/-- A depset of files: direct artifacts and transitive depsets. -/
structure depSetOfFiles where
  Id : ℤ
  DirectArtifactIds : List ℤ
  TransitiveDepSetIds : List ℤ
  deriving DecidableEq, Repr

/-- An action, without the template fields only the command line uses. -/
structure action where
  Arguments : List String
  EnvironmentVariables : List KeyValuePair
  InputDepSetIds : List ℤ
  Mnemonic : String
  OutputIds : List ℤ
  deriving DecidableEq, Repr

structure actionGraphContainer where
  Artifacts : List artifact
  Actions : List action
  DepSetOfFiles : List depSetOfFiles
  PathFragments : List pathFragment
  deriving DecidableEq, Repr

/-- A build statement, without its command line. -/
structure BuildStatement where
  Depfile : Option String
  OutputPaths : List String
  InputPaths : List String
  SymlinkPaths : List String
  Env : List KeyValuePair
  Mnemonic : String
  deriving DecidableEq, Repr

/-- `%q` of a string slice: `["a" "b"]`. -/
def goQuoteList (l : List String) : String :=
  "[" ++ " ".intercalate (l.map strconv.Quote) ++ "]"

/-- `%#v` of a path fragment. -/
def pathFragment.goSyntax (f : pathFragment) : String :=
  "bazel.pathFragment\x7bId:" ++ toString f.Id ++ ", Label:" ++ strconv.Quote f.Label ++ ", ParentId:" ++
    toString f.ParentId ++ "\x7d"

/-! ### Path fragments -/

/-- The loop of `expandPathFragment` from `currId`, with the labels found so
far: prepend the fragment's label and go to its parent, until an id `≤ 0`. -/
def expandPathFragment (pathFragmentsMap : List (ℤ × pathFragment)) :
    ℕ → ℤ → List String → ExceptT String Option String
  | 0, _, _ => ExceptT.lift none
  | fuel + 1, currId, labels =>
    if currId > 0 then
      match GoMap.get? pathFragmentsMap currId with
      | none => throw ("undefined path fragment id " ++ toString currId)
      | some currFragment =>
        if currId = currFragment.ParentId then
          throw ("Fragment cannot refer to itself as parent " ++ currFragment.goSyntax)
        else expandPathFragment pathFragmentsMap fuel currFragment.ParentId (currFragment.Label :: labels)
    else pure (filepath.Join labels)

/-- The maps `AqueryBuildStatements` reads the graph through; the memo of
flattened depsets is the state of `HandlerM`. -/
structure aqueryArtifactHandler where
  middlemanIdToDepsetIds : List (ℤ × List ℤ)
  depsetIdToDepset : List (ℤ × depSetOfFiles)
  artifactIdToPath : List (ℤ × String)

/-- `newAqueryHandler`: every artifact's path expanded, the depsets by id, and
the input depsets of every output of a `Middleman` action. -/
def newAqueryHandler (fuel : ℕ) (aqueryResult : actionGraphContainer) :
    ExceptT String Option aqueryArtifactHandler := do
  let pathFragments := aqueryResult.PathFragments.foldl (fun m f => GoMap.set m f.Id f) []
  let artifactIdToPath ← aqueryResult.Artifacts.foldlM (fun m artifact => do
      let artifactPath ← expandPathFragment pathFragments fuel artifact.PathFragmentId []
      pure (GoMap.set m artifact.Id artifactPath)) []
  let depsetIdToDepset := aqueryResult.DepSetOfFiles.foldl (fun m depset => GoMap.set m depset.Id depset) []
  let middlemanIdToDepsetIds := aqueryResult.Actions.foldl (fun m actionEntry =>
      if actionEntry.Mnemonic = "Middleman" then
        actionEntry.OutputIds.foldl (fun m outputId => GoMap.set m outputId actionEntry.InputDepSetIds) m
      else m) []
  pure ⟨middlemanIdToDepsetIds, depsetIdToDepset, artifactIdToPath⟩

/-! ### Depsets and inputs -/

/-- The handler's computations: Go's errors, the memo of flattened depsets as
state, and `none` for a computation out of fuel. -/
abbrev HandlerM := StateT (List (ℤ × List ℤ)) (ExceptT String Option)

/-- A computation out of fuel. -/
def outOfFuel {α : Type} : HandlerM α := StateT.lift (ExceptT.lift none)

/-- `artifactIdsFromDepsetId`: the memoised result, or the direct artifacts
followed by those of every transitive depset, memoised once complete. -/
def artifactIdsFromDepsetId (depsetIdToDepset : List (ℤ × depSetOfFiles)) :
    ℕ → ℤ → HandlerM (List ℤ)
  | 0, _ => outOfFuel
  | fuel + 1, depsetId => do
    match GoMap.get? (← get) depsetId with
    | some result => pure result
    | none =>
      match GoMap.get? depsetIdToDepset depsetId with
      | none => throw ("undefined input depsetId " ++ toString depsetId)
      | some depset =>
        let result ← depset.TransitiveDepSetIds.foldlM (fun result childId => do
            let childArtifactIds ← artifactIdsFromDepsetId depsetIdToDepset fuel childId
            pure (result ++ childArtifactIds)) depset.DirectArtifactIds
        modify fun cache => GoMap.set cache depsetId result
        pure result

/-- `manifestFilePattern.MatchString`, `.*/.+\.runfiles/MANIFEST$`: the path
ends in `.runfiles/MANIFEST`, and the newline-free end of what comes before has
a slash followed by at least one character. -/
def manifestFilePatternMatch (path : String) : Bool :=
  let suffix := ".runfiles/MANIFEST".toList
  let before := (path.toList.take (path.length - suffix.length)).reverse.takeWhile (· != '\n')
  suffix.isSuffixOf path.toList && (before.drop 1).contains '/'

/-- `filterOutPy3wrapperAndManifestFileFromInputPaths`. -/
def filterOutPy3wrapperAndManifestFileFromInputPaths (inputPaths : List String) : List String :=
  inputPaths.filter fun path =>
    !(strings.HasSuffix path "/py3wrapper.sh" || manifestFilePatternMatch path)

/-- `getInputPaths`: the paths of the artifacts of the depsets, a middleman
artifact replaced by the inputs of its action. -/
def aqueryArtifactHandler.getInputPaths (a : aqueryArtifactHandler) :
    ℕ → List ℤ → HandlerM (List String)
  | 0, _ => outOfFuel
  | fuel + 1, depsetIds => do
    let inputPaths ← depsetIds.foldlM (fun inputPaths inputDepSetId => do
        let inputArtifacts ← artifactIdsFromDepsetId a.depsetIdToDepset fuel inputDepSetId
        inputArtifacts.foldlM (fun inputPaths inputId => do
            match GoMap.get? a.middlemanIdToDepsetIds inputId with
            | some middlemanInputDepsetIds =>
              let swappedInputPaths ← a.getInputPaths fuel middlemanInputDepsetIds
              pure (inputPaths ++ swappedInputPaths)
            | none =>
              match GoMap.get? a.artifactIdToPath inputId with
              | none => throw ("undefined input artifactId " ++ toString inputId)
              | some inputPath => pure (inputPaths ++ [inputPath])) inputPaths) []
    pure (filterOutPy3wrapperAndManifestFileFromInputPaths inputPaths)

/-! ### Build statements -/

def isSymlinkAction (a : action) : Bool := a.Mnemonic = "Symlink" || a.Mnemonic = "SolibSymlink"

def isTemplateExpandAction (a : action) : Bool := a.Mnemonic = "TemplateExpand"

def isPythonZipperAction (a : action) : Bool := a.Mnemonic = "PythonZipper"

/-- `shouldSkipAction`: symlink trees, manifests, middlemen, failures and file
writes. -/
def shouldSkipAction (a : action) : Bool :=
  a.Mnemonic = "SymlinkTree" || a.Mnemonic = "SourceSymlinkManifest" || a.Mnemonic = "Middleman" ||
    a.Mnemonic = "Fail" || a.Mnemonic = "FileWrite"

/-- The output paths of an action and its depfile, the one output ending in
`.d`. -/
def outputsAndDepfile (a : aqueryArtifactHandler) (outputIds : List ℤ) :
    Except String (List String × Option String) :=
  outputIds.foldlM (fun (st : List String × Option String) outputId =>
    match GoMap.get? a.artifactIdToPath outputId with
    | none => throw ("undefined outputId " ++ toString outputId)
    | some outputPath =>
      if filepath.Ext outputPath = ".d" then
        match st.2 with
        | some depfile =>
          throw ("found multiple potential depfiles " ++ strconv.Quote depfile ++ ", " ++ strconv.Quote outputPath)
        | none => pure (st.1, some outputPath)
      else pure (st.1 ++ [outputPath], st.2)) ([], none)

/-- The loop over earlier statements of a `PythonZipper` action: the stub
script whose single output is the zip's name less `.zip` gets the zip as an
input. -/
def addPythonZip (buildStatements : List BuildStatement) (pythonZipFilePath : String) :
    List BuildStatement × Bool :=
  buildStatements.foldr (fun bs (st : List BuildStatement × Bool) =>
    match bs.OutputPaths with
    | [out] =>
      if out ++ ".zip" = pythonZipFilePath then
        ({ bs with InputPaths := bs.InputPaths ++ [pythonZipFilePath] } :: st.1, true)
      else (bs :: st.1, st.2)
    | _ => (bs :: st.1, st.2)) ([], false)

/-- One round of `AqueryBuildStatements`' loop over the actions. -/
def processAction (a : aqueryArtifactHandler) (fuel : ℕ) (buildStatements : List BuildStatement)
    (actionEntry : action) : HandlerM (List BuildStatement) := do
  if shouldSkipAction actionEntry then return buildStatements
  let (outputPaths, depfile) ← match outputsAndDepfile a actionEntry.OutputIds with
    | .ok r => pure r
    | .error e => throw e
  let inputPaths ← a.getInputPaths fuel actionEntry.InputDepSetIds
  let buildStatement : BuildStatement :=
    ⟨depfile, outputPaths, inputPaths, [], actionEntry.EnvironmentVariables, actionEntry.Mnemonic⟩
  if isSymlinkAction actionEntry then
    if inputPaths.length ≠ 1 ∨ outputPaths.length ≠ 1 then
      throw ("Expect 1 input and 1 output to symlink action, got: input " ++ goQuoteList inputPaths ++
        ", output " ++ goQuoteList outputPaths)
    return buildStatements ++ [{ buildStatement with SymlinkPaths := outputPaths }]
  else if isTemplateExpandAction actionEntry ∧ actionEntry.Arguments.length < 1 then
    if outputPaths.length ≠ 1 then
      throw ("Expect 1 output to template expand action, got: output " ++ goQuoteList outputPaths)
    return buildStatements ++ [buildStatement]
  else if isPythonZipperAction actionEntry then
    match inputPaths, outputPaths with
    | _ :: _, [pythonZipFilePath] =>
      -- `removePy3wrapperScript` drops the wrapper from the inputs
      let buildStatement := { buildStatement with
        InputPaths := inputPaths.filter fun path => !strings.HasSuffix path "/py3wrapper.sh" }
      let (buildStatements, pyBinaryFound) := addPythonZip buildStatements pythonZipFilePath
      if !pyBinaryFound then
        throw ("Could not find the correspondinging Python binary stub script of PythonZipper: " ++
          goQuoteList outputPaths)
      return buildStatements ++ [buildStatement]
    | _, _ =>
      throw ("Expect 1+ input and 1 output to python zipper action, got: input " ++
        goQuoteList inputPaths ++ ", output " ++ goQuoteList outputPaths)
  else if actionEntry.Arguments.length < 1 then
    -- Go prints the statement with `%v`, its depfile as a pointer
    throw "received action with no command"
  else return buildStatements ++ [buildStatement]

/-- `AqueryBuildStatements` on the decoded action graph. -/
def AqueryBuildStatements (fuel : ℕ) (aqueryResult : actionGraphContainer) :
    ExceptT String Option (List BuildStatement) := do
  let aqueryHandler ← newAqueryHandler fuel aqueryResult
  let (buildStatements, _) ←
    (aqueryResult.Actions.foldlM (processAction aqueryHandler fuel) []).run []
  pure buildStatements

/-! ### Cycles -/

section cycles

/-- A computation that runs out of fuel stops what follows it. -/
theorem HandlerM.run_bind_of_none {α β : Type} {x : HandlerM α} {f : α → HandlerM β}
    {s : List (ℤ × List ℤ)} (h : x.run s = none) : (x >>= f).run s = none := by
  simp only [StateT.run_bind]
  rw [h]
  rfl

/-- A computation that returns goes on with what follows it. -/
theorem HandlerM.run_bind_of_ok {α β : Type} {x : HandlerM α} {f : α → HandlerM β}
    {s s' : List (ℤ × List ℤ)} {a : α} (h : x.run s = some (.ok (a, s'))) :
    (x >>= f).run s = (f a).run s' := by
  simp only [StateT.run_bind]
  rw [h]
  rfl

/-- **A cycle of path fragments is never left.**  From any fragment of a set
of defined, positive fragments whose parents stay in the set and are not the
fragment itself, the loop runs out of every fuel. -/
theorem expandPathFragment_of_closed (m : List (ℤ × pathFragment)) (S : ℤ → Prop)
    (hS : ∀ i, S i → 0 < i ∧ ∃ f, GoMap.get? m i = some f ∧ f.ParentId ≠ i ∧ S f.ParentId) :
    ∀ fuel i labels, S i → (expandPathFragment m fuel i labels).run = none := by
  intro fuel
  induction fuel with
  | zero => intro i labels _; rfl
  | succ fuel ih =>
    intro i labels hi
    obtain ⟨hpos, f, hf, hne, hpar⟩ := hS i hi
    have hne' : i ≠ f.ParentId := fun h => hne h.symm
    simp only [expandPathFragment, if_pos hpos, hf, if_neg hne']
    exact ih f.ParentId (f.Label :: labels) hpar

/-- **A cycle of depsets is never flattened.**  From any depset of a set of
defined, unmemoised depsets whose first transitive depset stays in the set, the
flattening runs out of every fuel. -/
theorem artifactIdsFromDepsetId_of_closed (depsets : List (ℤ × depSetOfFiles)) (S : ℤ → Prop)
    (hS : ∀ i, S i → ∃ d, GoMap.get? depsets i = some d ∧
      ∃ c rest, d.TransitiveDepSetIds = c :: rest ∧ S c) :
    ∀ fuel i cache, S i → (∀ j, S j → GoMap.get? cache j = none) →
      (artifactIdsFromDepsetId depsets fuel i).run cache = none := by
  intro fuel
  induction fuel with
  | zero => intro i cache _ _; rfl
  | succ fuel ih =>
    intro i cache hi hcache
    obtain ⟨d, hd, c, rest, hchildren, hc⟩ := hS i hi
    have hfirst : (artifactIdsFromDepsetId depsets fuel c).run cache = none := ih c cache hc hcache
    simp only [artifactIdsFromDepsetId, hd, hchildren, List.foldlM_cons]
    rw [StateT.run_bind, StateT.run_get, pure_bind]
    simp only [hcache i hi]
    -- the first transitive depset is flattened first, and runs out of fuel
    apply HandlerM.run_bind_of_none
    apply HandlerM.run_bind_of_none
    apply HandlerM.run_bind_of_none
    exact hfirst

/-- A depset without transitive depsets flattens to its memoised artifacts, or
to its direct artifacts, which it memoises. -/
theorem artifactIdsFromDepsetId_direct {depsets : List (ℤ × depSetOfFiles)} {i : ℤ}
    {d : depSetOfFiles} (hd : GoMap.get? depsets i = some d) (hleaf : d.TransitiveDepSetIds = [])
    (fuel : ℕ) (cache : List (ℤ × List ℤ))
    (hcache : GoMap.get? cache i = none ∨ GoMap.get? cache i = some d.DirectArtifactIds) :
    ∃ cache', (artifactIdsFromDepsetId depsets (fuel + 1) i).run cache =
      some (.ok (d.DirectArtifactIds, cache')) ∧ GoMap.get? cache' i = some d.DirectArtifactIds := by
  rcases hcache with hnone | hsome
  · refine ⟨GoMap.set cache i d.DirectArtifactIds, ?_, GoMap.get?_set_self _ _ _⟩
    simp only [artifactIdsFromDepsetId, hd, hleaf, List.foldlM_nil]
    rw [StateT.run_bind, StateT.run_get, pure_bind]
    simp only [hnone]
    rfl
  · refine ⟨cache, ?_, hsome⟩
    simp only [artifactIdsFromDepsetId]
    rw [StateT.run_bind, StateT.run_get, pure_bind]
    simp only [hsome]
    rfl

/-- **A middleman whose action reads its own depset is expanded for ever.** -/
theorem getInputPaths_middleman_cycle (a : aqueryArtifactHandler) {m i : ℤ} {d : depSetOfFiles}
    (hd : GoMap.get? a.depsetIdToDepset i = some d) (hdirect : d.DirectArtifactIds = [m])
    (hleaf : d.TransitiveDepSetIds = []) (hm : GoMap.get? a.middlemanIdToDepsetIds m = some [i]) :
    ∀ fuel cache, (GoMap.get? cache i = none ∨ GoMap.get? cache i = some [m]) →
      (a.getInputPaths fuel [i]).run cache = none := by
  intro fuel
  induction fuel with
  | zero => intro cache _; rfl
  | succ fuel ih =>
    intro cache hcache
    simp only [aqueryArtifactHandler.getInputPaths, List.foldlM_cons]
    apply HandlerM.run_bind_of_none
    apply HandlerM.run_bind_of_none
    cases fuel with
    | zero =>
      -- no fuel is left to flatten the depset
      apply HandlerM.run_bind_of_none
      rfl
    | succ fuel =>
      -- the depset flattens to the middleman, whose inputs are the depset again
      obtain ⟨cache', hrun, hcache'⟩ :=
        artifactIdsFromDepsetId_direct hd hleaf fuel cache (hdirect ▸ hcache)
      rw [hdirect] at hrun hcache'
      rw [HandlerM.run_bind_of_ok hrun, List.foldlM_cons]
      apply HandlerM.run_bind_of_none
      simp only [hm]
      apply HandlerM.run_bind_of_none
      exact ih cache' (Or.inr hcache')

/-- An `ExceptT` computation out of fuel stops what follows it. -/
theorem exceptRun_bind_of_none {α β : Type} {x : ExceptT String Option α}
    {f : α → ExceptT String Option β} (h : x.run = none) : (x >>= f).run = none := by
  simp only [ExceptT.run_bind, h]
  rfl

/-- An `ExceptT` computation that returns goes on with what follows it. -/
theorem exceptRun_bind_of_ok {α β : Type} {x : ExceptT String Option α}
    {f : α → ExceptT String Option β} {a : α} (h : x.run = some (.ok a)) :
    (x >>= f).run = (f a).run := by
  simp only [ExceptT.run_bind, h]
  rfl

/-- An action that is not skipped and whose inputs run out of fuel stops the
loop over the actions. -/
theorem processAction_of_getInputPaths_none (a : aqueryArtifactHandler) (fuel : ℕ)
    (buildStatements : List BuildStatement) (actionEntry : action)
    (hskip : shouldSkipAction actionEntry = false)
    {r : List String × Option String} (hout : outputsAndDepfile a actionEntry.OutputIds = .ok r)
    {cache : List (ℤ × List ℤ)} (hin : (a.getInputPaths fuel actionEntry.InputDepSetIds).run cache = none) :
    (processAction a fuel buildStatements actionEntry).run cache = none := by
  simp only [processAction, hskip, hout, Bool.false_eq_true, if_false, pure_bind]
  exact HandlerM.run_bind_of_none hin

/-- Two path fragments, each the other's parent, and an artifact under one. -/
def fragmentCycle : actionGraphContainer :=
  ⟨[⟨1, 1⟩], [], [], [⟨1, "a", 2⟩, ⟨2, "b", 1⟩]⟩

/-- Two depsets, each the other's transitive depset, read by a genrule. -/
def depsetCycle : actionGraphContainer :=
  ⟨[], [⟨["touch"], [], [1], "Genrule", []⟩], [⟨1, [], [2]⟩, ⟨2, [], [1]⟩], []⟩

/-- A middleman whose action's input depset holds the middleman, read by a
genrule. -/
def middlemanCycle : actionGraphContainer :=
  ⟨[⟨5, 1⟩], [⟨[], [], [1], "Middleman", [5]⟩, ⟨["touch"], [], [1], "Genrule", []⟩],
    [⟨1, [5], []⟩], [⟨1, "m", 0⟩]⟩

theorem AqueryBuildStatements_fragmentCycle (fuel : ℕ) :
    (AqueryBuildStatements fuel fragmentCycle).run = none := by
  have hexpand : (expandPathFragment [(1, ⟨1, "a", 2⟩), (2, ⟨2, "b", 1⟩)] fuel 1 []).run = none := by
    refine expandPathFragment_of_closed _ (fun i => i = 1 ∨ i = 2) ?_ fuel 1 [] (Or.inl rfl)
    rintro i (rfl | rfl)
    · exact ⟨by decide, _, rfl, by decide, Or.inr rfl⟩
    · exact ⟨by decide, _, rfl, by decide, Or.inl rfl⟩
  have hnew : (newAqueryHandler fuel fragmentCycle).run = none := by
    simp only [newAqueryHandler, fragmentCycle, List.foldlM_cons]
    apply exceptRun_bind_of_none
    apply exceptRun_bind_of_none
    apply exceptRun_bind_of_none
    exact hexpand
  exact exceptRun_bind_of_none hnew

theorem AqueryBuildStatements_depsetCycle (fuel : ℕ) :
    (AqueryBuildStatements fuel depsetCycle).run = none := by
  let d₁ : depSetOfFiles := ⟨1, [], [2]⟩
  let d₂ : depSetOfFiles := ⟨2, [], [1]⟩
  let h : aqueryArtifactHandler := ⟨[], [(1, d₁), (2, d₂)], []⟩
  have hnew : (newAqueryHandler fuel depsetCycle).run = some (.ok h) := rfl
  -- the genrule's input depset flattens into the cycle
  have hin : (h.getInputPaths fuel [1]).run [] = none := by
    cases fuel with
    | zero => rfl
    | succ fuel =>
      simp only [aqueryArtifactHandler.getInputPaths, List.foldlM_cons]
      apply HandlerM.run_bind_of_none
      apply HandlerM.run_bind_of_none
      apply HandlerM.run_bind_of_none
      refine artifactIdsFromDepsetId_of_closed _ (fun i => i = 1 ∨ i = 2) ?_ fuel 1 [] (Or.inl rfl)
        (fun _ _ => rfl)
      rintro i (rfl | rfl)
      · exact ⟨d₁, rfl, 2, [], rfl, Or.inr rfl⟩
      · exact ⟨d₂, rfl, 1, [], rfl, Or.inl rfl⟩
  simp only [AqueryBuildStatements, exceptRun_bind_of_ok hnew]
  apply exceptRun_bind_of_none
  simp only [depsetCycle, List.foldlM_cons]
  apply HandlerM.run_bind_of_none
  exact processAction_of_getInputPaths_none h fuel [] _ rfl rfl hin

theorem AqueryBuildStatements_middlemanCycle (fuel : ℕ) :
    (AqueryBuildStatements fuel middlemanCycle).run = none := by
  -- two rounds of fuel expand the artifact's single fragment
  match fuel with
  | 0 => rfl
  | 1 => rfl
  | fuel + 2 =>
  let d : depSetOfFiles := ⟨1, [5], []⟩
  let h : aqueryArtifactHandler := ⟨[(5, [1])], [(1, d)], [(5, filepath.Join ["m"])]⟩
  have hnew : (newAqueryHandler (fuel + 2) middlemanCycle).run = some (.ok h) := rfl
  simp only [AqueryBuildStatements, exceptRun_bind_of_ok hnew]
  apply exceptRun_bind_of_none
  simp only [middlemanCycle, List.foldlM_cons]
  -- the middleman action itself is skipped
  have hskip : (processAction h (fuel + 2) [] ⟨[], [], [1], "Middleman", [5]⟩).run [] =
      some (.ok ([], [])) := rfl
  rw [HandlerM.run_bind_of_ok hskip]
  apply HandlerM.run_bind_of_none
  refine processAction_of_getInputPaths_none h (fuel + 2) [] _ rfl rfl ?_
  exact getInputPaths_middleman_cycle h rfl rfl rfl rfl (fuel + 2) [] (Or.inl rfl)

/-- **`AqueryBuildStatements` does not terminate on a cycle** of two path
fragments, of two depsets, or of a middleman through its own input depset: it
runs out of every fuel. -/
theorem AqueryBuildStatements_diverges_on_cycles (fuel : ℕ) :
    (AqueryBuildStatements fuel fragmentCycle).run = none ∧
      (AqueryBuildStatements fuel depsetCycle).run = none ∧
      (AqueryBuildStatements fuel middlemanCycle).run = none :=
  ⟨AqueryBuildStatements_fragmentCycle fuel, AqueryBuildStatements_depsetCycle fuel,
    AqueryBuildStatements_middlemanCycle fuel⟩

end cycles

end Bazel

end Soong
