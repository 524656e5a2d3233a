import Soong.Lib.GoMap
import Soong.Lib.GoPath
import Soong.Lib.GoRegexp

/-!
# Extracting APKs from an APK set

`cmd/extract_apks/main.go`.  An APK set is a zip whose table of contents lists
variants of an app; `extract_apks` selects the entries that match a target
configuration and copies them out, renamed after a stem.

Two pieces are modelled.  The ABI selection: `abiFlagValue.Set` turns the
`-abis` flag into a map from each ABI to its position in the flag, and
`abiTargetingMatcher.matches` accepts a split whose best ABI comes before every
alternative.  The copy: `writeApks` renames each selected entry by the first of
three rules that matches it, sends the one named `stem.apk` to the output file
and the others into the zip, and is meant to stop (`log.Fatalf`) when two
entries would get the same name.

The zip entries themselves are not modelled, only their names, and writing
them does not fail.

## Main definitions

* `Abi_AbiAlias`, `abiFlagValue.Set`, `abiTargetingMatcher.matches`.
* `renameRules`, `renamer`, `writeApks`.

## Main results

* `get?_Set_iff` — after `Set` an ABI maps to the position of its *last*
  occurrence in the flag.
* `matches_split_iff` — a split is accepted when its ABI is named and no
  alternative is named before it.
* `writeApks_of_fresh` — when no entry is named as an earlier entry's output,
  every entry is written once, whatever names the outputs get.
-/

namespace Soong

namespace ExtractApks

/-! ### ABI targeting -/

/-- `Abi_AbiAlias`. -/
inductive Abi_AbiAlias where
  | UNSPECIFIED_CPU_ARCHITECTURE
  | ARMEABI
  | ARMEABI_V7A
  | ARM64_V8A
  | X86
  | X86_64
  | MIPS
  | MIPS64
  deriving DecidableEq, Repr

/-- `Abi_AbiAlias_value`: the alias a name in the flag stands for. -/
def Abi_AbiAlias_value : String → Option Abi_AbiAlias
  | "UNSPECIFIED_CPU_ARCHITECTURE" => some .UNSPECIFIED_CPU_ARCHITECTURE
  | "ARMEABI" => some .ARMEABI
  | "ARMEABI_V7A" => some .ARMEABI_V7A
  | "ARM64_V8A" => some .ARM64_V8A
  | "X86" => some .X86
  | "X86_64" => some .X86_64
  | "MIPS" => some .MIPS
  | "MIPS64" => some .MIPS64
  | _ => none

/-- `Abi`. -/
structure Abi where
  Alias : Abi_AbiAlias
  deriving DecidableEq, Repr

/-- `AbiTargeting`: the ABI of a split and those of its siblings. -/
structure AbiTargeting where
  Value : List Abi
  Alternatives : List Abi
  deriving DecidableEq, Repr

/-- The fields of `TargetConfig` the modelled functions read: the position of
each ABI in the `-abis` flag, and the stem of the output names. -/
structure TargetConfig where
  abis : List (Abi_AbiAlias × ℕ)
  stem : String

/-- `math.MaxInt32`. -/
def MaxInt32 : ℕ := 2147483647

/-- The body of `Set`'s loop: the ABI named `abi` mapped to the position `i`. -/
def abiFlagValue.setAbi (abis : List (Abi_AbiAlias × ℕ)) : String × ℕ →
    Except String (List (Abi_AbiAlias × ℕ))
  | (abi, i) =>
    match Abi_AbiAlias_value abi with
    | none => .error ("bad ABI value: " ++ strconv.Quote abi)
    | some v => .ok (GoMap.set abis v i)

/-- `abiFlagValue.Set`: each ABI of the comma-separated list mapped to its
position, a later position overwriting an earlier one; an unknown name stops it
with an error, the names before it already set. -/
def abiFlagValue.Set (abis : List (Abi_AbiAlias × ℕ)) (abiList : String) :
    Except String (List (Abi_AbiAlias × ℕ)) :=
  (strings.Split abiList ',').zipIdx.foldlM abiFlagValue.setAbi abis

/-- The loop of `matches` over `Value`: the least position of a value in the
flag, from `MaxInt32`. -/
def abiIdx (abis : List (Abi_AbiAlias × ℕ)) (values : List Abi) : ℕ :=
  values.foldl (fun abiIdx v =>
    match GoMap.get? abis v.Alias with
    | some i => if i < abiIdx then i else abiIdx
    | none => abiIdx) MaxInt32

/-- `abiTargetingMatcher.matches`: no targeting, or an unspecified ABI in the
flag, accepts; otherwise some value must be in the flag, and no alternative
before the first of them. -/
def abiTargetingMatcher.matches (m : Option AbiTargeting) (config : TargetConfig) : Bool :=
  match m with
  | none => true
  | some t =>
    if (GoMap.get? config.abis .UNSPECIFIED_CPU_ARCHITECTURE).isSome then true
    else if abiIdx config.abis t.Value = MaxInt32 then false
    else t.Alternatives.all fun a =>
      match GoMap.get? config.abis a.Alias with
      | some i => !decide (i < abiIdx config.abis t.Value)
      | none => true

/-! ### The positions of the flag -/

section flag

/-- `Set`'s loop over names from position `k` succeeds only when every name is
an ABI, and then maps the aliases to their positions one after another. -/
theorem foldlM_setAbi_eq_ok {names : List String} {k : ℕ} {m abis : List (Abi_AbiAlias × ℕ)}
    (h : (names.zipIdx k).foldlM abiFlagValue.setAbi m = .ok abis) :
    ∃ vs : List Abi_AbiAlias, names.map Abi_AbiAlias_value = vs.map some ∧
      abis = (vs.zipIdx k).foldl (fun m p => GoMap.set m p.1 p.2) m := by
  induction names generalizing m k with
  | nil =>
    simp only [List.zipIdx_nil, List.foldlM_nil] at h
    exact ⟨[], rfl, (Except.ok.inj h).symm⟩
  | cons n names ih =>
    rw [List.zipIdx_cons, List.foldlM_cons] at h
    cases hv : Abi_AbiAlias_value n with
    | none =>
      simp [abiFlagValue.setAbi, hv] at h
      cases h
    | some v =>
      simp only [abiFlagValue.setAbi, hv] at h
      obtain ⟨vs, hvs, rfl⟩ := ih h
      exact ⟨v :: vs, by simp [hv, hvs], by simp [List.zipIdx_cons]⟩

variable {s : String} {abis : List (Abi_AbiAlias × ℕ)}

/-- **After `Set` an ABI maps to the position of its last occurrence** in the
flag: a name at `i` standing for it, and none after. -/
theorem get?_Set_iff (h : abiFlagValue.Set [] s = .ok abis) (a : Abi_AbiAlias) (i : ℕ) :
    GoMap.get? abis a = some i ↔
      ((strings.Split s ',')[i]?).bind Abi_AbiAlias_value = some a ∧
      ∀ j, i < j → ((strings.Split s ',')[j]?).bind Abi_AbiAlias_value ≠ some a := by
  obtain ⟨vs, hvs, rfl⟩ := foldlM_setAbi_eq_ok h
  have hget : ∀ j : ℕ, ((strings.Split s ',')[j]?).bind Abi_AbiAlias_value = vs[j]? := by
    intro j
    have := congrArg (fun l : List (Option Abi_AbiAlias) => l[j]?) hvs
    simp only [List.getElem?_map] at this
    cases hj : (strings.Split s ',')[j]? <;> cases hv : vs[j]? <;> simp_all
  simp only [hget]
  exact GoMap.get?_foldl_set_zipIdx vs a i

/-- Two ABIs at the same position are the same: the position names one ABI. -/
theorem eq_of_get?_Set (h : abiFlagValue.Set [] s = .ok abis) {a b : Abi_AbiAlias} {i : ℕ}
    (ha : GoMap.get? abis a = some i) (hb : GoMap.get? abis b = some i) : a = b := by
  have ha' := ((get?_Set_iff h a i).mp ha).1
  have hb' := ((get?_Set_iff h b i).mp hb).1
  rw [ha'] at hb'
  exact Option.some.inj hb'

/-- A position of the map is a position of the flag. -/
theorem lt_length_of_get?_Set (h : abiFlagValue.Set [] s = .ok abis) {a : Abi_AbiAlias} {i : ℕ}
    (ha : GoMap.get? abis a = some i) : i < (strings.Split s ',').length := by
  have ha' := ((get?_Set_iff h a i).mp ha).1
  by_contra hge
  rw [List.getElem?_eq_none (by omega)] at ha'
  cases ha'

/-- Only its own name stands for the unspecified ABI. -/
theorem Abi_AbiAlias_value_eq_UNSPECIFIED {n : String}
    (h : Abi_AbiAlias_value n = some .UNSPECIFIED_CPU_ARCHITECTURE) :
    n = "UNSPECIFIED_CPU_ARCHITECTURE" := by
  unfold Abi_AbiAlias_value at h
  split at h <;> first | rfl | cases h

/-- A flag that does not name the unspecified ABI does not map it. -/
theorem get?_Set_UNSPECIFIED (h : abiFlagValue.Set [] s = .ok abis)
    (hu : "UNSPECIFIED_CPU_ARCHITECTURE" ∉ strings.Split s ',') :
    GoMap.get? abis .UNSPECIFIED_CPU_ARCHITECTURE = none := by
  cases hi : GoMap.get? abis .UNSPECIFIED_CPU_ARCHITECTURE with
  | none => rfl
  | some i =>
    have hn := ((get?_Set_iff h _ i).mp hi).1
    cases hni : (strings.Split s ',')[i]? with
    | none => simp [hni] at hn
    | some n =>
      simp only [hni, Option.bind_some] at hn
      exact absurd (Abi_AbiAlias_value_eq_UNSPECIFIED hn ▸ List.mem_of_getElem? hni) hu

end flag

/-! ### Matching a split -/

/-- A split of an ABI family: its ABI, and the other ABIs of the family as
alternatives, as bundletool writes them. -/
def abiSplit (a : Abi_AbiAlias) (others : List Abi_AbiAlias) : AbiTargeting :=
  ⟨[⟨a⟩], others.map Abi.mk⟩

/-- The loop over a single value: its position, capped at `MaxInt32`. -/
theorem abiIdx_single (abis : List (Abi_AbiAlias × ℕ)) (a : Abi_AbiAlias) :
    abiIdx abis [⟨a⟩] = (GoMap.get? abis a).elim MaxInt32 (min · MaxInt32) := by
  simp only [abiIdx, List.foldl_cons, List.foldl_nil]
  cases GoMap.get? abis a with
  | none => rfl
  | some i =>
    simp only [Option.elim_some]
    split_ifs with hi <;> omega

/-- **A split is accepted when its ABI is in the flag and no alternative comes
before it** (with no unspecified ABI in the flag). -/
theorem matches_split_iff {config : TargetConfig}
    (hu : GoMap.get? config.abis .UNSPECIFIED_CPU_ARCHITECTURE = none)
    (a : Abi_AbiAlias) (others : List Abi_AbiAlias) :
    abiTargetingMatcher.matches (some (abiSplit a others)) config = true ↔
      ∃ i, GoMap.get? config.abis a = some i ∧ i < MaxInt32 ∧
        ∀ b ∈ others, ∀ j, GoMap.get? config.abis b = some j → i ≤ j := by
  simp only [abiTargetingMatcher.matches, hu, Option.isSome_none, Bool.false_eq_true, if_false,
    abiSplit, abiIdx_single]
  cases ha : GoMap.get? config.abis a with
  | none => simp
  | some i =>
    simp only [Option.elim_some, Option.some.injEq, exists_eq_left']
    by_cases hi : i < MaxInt32
    · -- the ABI is in the flag: every alternative must come after it
      have hmin : min i MaxInt32 = i := by omega
      simp only [hmin, Nat.ne_of_lt hi, if_false, hi, true_and, List.all_map,
        List.all_eq_true, Function.comp]
      refine forall₂_congr fun b _ => ?_
      cases GoMap.get? config.abis b with
      | none => simp
      | some j => simp
    · have hmin : min i MaxInt32 = MaxInt32 := by omega
      simp [hmin, hi]

variable {s : String} {abis : List (Abi_AbiAlias × ℕ)}

/-- **A split of a family is accepted exactly when its ABI is in the flag and
before every other ABI of the family in the flag**, where an ABI's place is its
last occurrence. -/
theorem matches_family_iff (hs : abiFlagValue.Set [] s = .ok abis)
    (hu : "UNSPECIFIED_CPU_ARCHITECTURE" ∉ strings.Split s ',')
    (hlen : (strings.Split s ',').length ≤ MaxInt32) (stem : String)
    {a : Abi_AbiAlias} {others : List Abi_AbiAlias} (ha : a ∉ others) :
    abiTargetingMatcher.matches (some (abiSplit a others)) ⟨abis, stem⟩ = true ↔
      ∃ i, GoMap.get? abis a = some i ∧
        ∀ b ∈ others, ∀ j, GoMap.get? abis b = some j → i < j := by
  rw [matches_split_iff (get?_Set_UNSPECIFIED hs hu)]
  constructor
  · rintro ⟨i, hi, -, hle⟩
    refine ⟨i, hi, fun b hb j hj => lt_of_le_of_ne (hle b hb j hj) ?_⟩
    -- two ABIs never share a place
    rintro rfl
    exact ha (eq_of_get?_Set hs hi hj ▸ hb)
  · rintro ⟨i, hi, hlt⟩
    have hflag := lt_length_of_get?_Set hs hi
    exact ⟨i, hi, by omega, fun b hb j hj => le_of_lt (hlt b hb j hj)⟩

/-- In a family of distinct ABIs, a split's ABI is not among its alternatives. -/
theorem getElem_not_mem_eraseIdx {as : List Abi_AbiAlias} (hnd : as.Nodup) (k : Fin as.length) :
    as[k] ∉ as.eraseIdx k := by
  rw [List.mem_eraseIdx_iff_getElem]
  rintro ⟨i, hi, hik, heq⟩
  exact hik ((hnd.getElem_inj_iff).mp heq)

/-- **In a family of distinct ABIs exactly one split is accepted as soon as the
flag names an ABI of the family**: the one whose ABI's last occurrence comes
first. -/
theorem matches_family_existsUnique (hs : abiFlagValue.Set [] s = .ok abis)
    (hu : "UNSPECIFIED_CPU_ARCHITECTURE" ∉ strings.Split s ',')
    (hlen : (strings.Split s ',').length ≤ MaxInt32) (stem : String)
    {as : List Abi_AbiAlias} (hnd : as.Nodup)
    (hnamed : ∃ k : Fin as.length, (GoMap.get? abis as[k]).isSome) :
    ∃! k : Fin as.length,
      abiTargetingMatcher.matches (some (abiSplit as[k] (as.eraseIdx k))) ⟨abis, stem⟩ = true := by
  -- the places of the family's ABIs in the flag, and the first of them
  have hP : ∃ i, ∃ k : Fin as.length, GoMap.get? abis as[k] = some i := by
    obtain ⟨k, hk⟩ := hnamed
    obtain ⟨i, hi⟩ := Option.isSome_iff_exists.mp hk
    exact ⟨i, k, hi⟩
  classical
  obtain ⟨k, hk⟩ := Nat.find_spec hP
  refine ⟨k, ?_, ?_⟩
  · -- the ABI at the first place comes before every other one named
    show abiTargetingMatcher.matches _ _ = true
    rw [matches_family_iff hs hu hlen stem (getElem_not_mem_eraseIdx hnd k)]
    refine ⟨_, hk, fun b hb j hj => lt_of_le_of_ne ?_ ?_⟩
    · obtain ⟨k', hk', -, rfl⟩ := List.mem_eraseIdx_iff_getElem.mp hb
      exact Nat.find_min' hP ⟨⟨k', hk'⟩, hj⟩
    · rintro rfl
      exact getElem_not_mem_eraseIdx hnd k (eq_of_get?_Set hs hk hj ▸ hb)
  · -- another accepted split would have its ABI before the first place
    intro k' hk'
    rw [matches_family_iff hs hu hlen stem (getElem_not_mem_eraseIdx hnd k')] at hk'
    obtain ⟨i', hi', hlt⟩ := hk'
    by_contra hne
    have hmem : as[k] ∈ as.eraseIdx k' :=
      List.mem_eraseIdx_iff_getElem.mpr ⟨k, k.2, fun h => hne (Fin.ext h).symm, rfl⟩
    have hbefore := hlt _ hmem _ hk
    have hfirst := Nat.find_min' hP ⟨k', hi'⟩
    omega

/-- The flag `-abis X86,ARM64_V8A` accepts one split of the family X86 /
ARM64_V8A. -/
theorem matches_family_existsUnique_x86Arm :
    abiFlagValue.Set [] "X86,ARM64_V8A" = .ok [(.X86, 0), (.ARM64_V8A, 1)] ∧
      ∃! k : Fin [Abi_AbiAlias.X86, .ARM64_V8A].length,
        abiTargetingMatcher.matches
          (some (abiSplit [Abi_AbiAlias.X86, .ARM64_V8A][k]
            ([Abi_AbiAlias.X86, .ARM64_V8A].eraseIdx k)))
          ⟨[(.X86, 0), (.ARM64_V8A, 1)], "s"⟩ = true := by
  have hs : abiFlagValue.Set [] "X86,ARM64_V8A" = .ok [(.X86, 0), (.ARM64_V8A, 1)] := rfl
  exact ⟨hs, matches_family_existsUnique hs (by decide) (by decide) "s" (by decide)
    ⟨⟨0, by decide⟩, rfl⟩⟩

/-- The flag `-abis X86,ARM64_V8A,X86`: X86 named first, and again last. -/
def x86ArmX86 : String := "X86,ARM64_V8A,X86"

/-- **The split of the ABI named first is not the one accepted.**  Of the family
X86 / ARM64_V8A, `X86,ARM64_V8A,X86` makes `matches` reject the X86 split and
accept the ARM64_V8A one: `Set` keeps X86's last position. -/
theorem matches_prefers_last_occurrence :
    abiFlagValue.Set [] x86ArmX86 = .ok [(.X86, 2), (.ARM64_V8A, 1)] ∧
    abiTargetingMatcher.matches (some (abiSplit .X86 [.ARM64_V8A]))
      ⟨[(.X86, 2), (.ARM64_V8A, 1)], ""⟩ = false ∧
    abiTargetingMatcher.matches (some (abiSplit .ARM64_V8A [.X86]))
      ⟨[(.X86, 2), (.ARM64_V8A, 1)], ""⟩ = true := by
  refine ⟨rfl, rfl, rfl⟩

/-! ### Renaming and writing the selected entries -/

/-- `SelectionResult`: the module of the selected entries, and their paths. -/
structure SelectionResult where
  moduleName : String
  entries : List String

/-- A renaming rule: the groups of a match of its pattern over a whole path,
and the replacement. -/
structure renameRule where
  rex : String → Option (List String)
  repl : String

/-- What `.` matches: anything but a line break. -/
def noNewline (s : List Char) : Bool := !s.contains '\n'

/-- What `(-.*\.apk)$` matches: a dash, then no line break up to a final `.apk`. -/
def dashApk : List Char → Bool
  | '-' :: t => ".apk".toList.isSuffixOf t && noNewline t
  | _ => false

/-- `^.*/MODULE-master\.apk$`, with the module name read literally, as it is for
a name of letters, digits and `_`. -/
def masterRex (moduleName path : String) : Option (List String) :=
  (regexp.greedyCut ("/" ++ moduleName ++ "-master.apk").toList
    (fun p r => noNewline p && r.isEmpty) path.toList).map fun _ => [path]

/-- `^.*/MODULE(-.*\.apk)$`: group 1 is what follows the module name, at the
last place where the rest matches. -/
def splitRex (moduleName path : String) : Option (List String) :=
  (regexp.greedyCut ("/" ++ moduleName).toList (fun p r => noNewline p && dashApk r)
    path.toList).map fun cut => [path, String.ofList cut.2]

/-- `^universal\.apk$`. -/
def universalRex (path : String) : Option (List String) :=
  if path = "universal.apk" then some [path] else none

/-- `renameRules`: a module's master split and `universal.apk` become `stem.apk`,
its other splits `stem-X.apk`. -/
def renameRules (moduleName stem : String) : List renameRule :=
  [⟨masterRex moduleName, stem ++ ".apk"⟩, ⟨splitRex moduleName, stem ++ "$1"⟩,
    ⟨universalRex, stem ++ ".apk"⟩]

section write

variable (isNameRune : Char → Bool)

/-- `renamer`: `ReplaceAllString` by the first rule whose pattern matches; the
pattern spans the whole path, so the result is the expanded replacement. -/
def renamer (rules : List renameRule) (path : String) : Option String :=
  rules.findSome? fun rr =>
    (rr.rex path).map fun groups => String.ofList (regexp.expand isNameRune groups rr.repl.toList)

/-- What `writeApks` writes: an entry copied to the output file, or into the zip
under a name. -/
inductive ApkWrite where
  | outFile (inName : String)
  | zip (inName outName : String)
  deriving DecidableEq, Repr

/-- How `writeApks` stops early: returning an error, or through `log.Fatalf`. -/
inductive writeApksStop where
  | error (msg : String)
  | fatal (msg : String)
  deriving DecidableEq, Repr

/-- The variables of `writeApks`' loop, and what it has written. -/
structure writeApksState where
  entryOrigin : List (String × String)
  apkcerts : List String
  writes : List ApkWrite

/-- The line of `apkcerts.txt` for an output entry. -/
def apkcertsLine (outName partition : String) : String :=
  "name=\"" ++ outName ++ "\" certificate=\"PRESIGNED\" private_key=\"\" partition=\"" ++
    partition ++ "\""

/-- What an entry is written as, once renamed. -/
def apkWrite (stem apk outName : String) : ApkWrite :=
  if outName = stem ++ ".apk" then .outFile apk else .zip apk outName

/-- One round of `writeApks`' loop.  The entries of the APK set are keyed by
their names, so `inName` is the selected path.  `entryOrigin` is keyed by
output names but asked about `inName`. -/
def writeApk (apkSetEntries : List String) (rules : List renameRule) (stem partition : String)
    (st : writeApksState) (apk : String) : Except (writeApksStop × List ApkWrite) writeApksState :=
  if apk ∉ apkSetEntries then
    .error (.error ("TOC refers to an entry " ++ apk ++ " which does not exist"), st.writes)
  else
    match renamer isNameRune rules apk with
    | none => .error (.fatal ("selected an entry with unexpected name " ++ apk), st.writes)
    | some outName =>
      match GoMap.get? st.entryOrigin apk with
      | some origin =>
        .error (.fatal ("selected entries " ++ origin ++ " and " ++ apk ++
          " will have the same output name " ++ outName), st.writes)
      | none =>
        .ok { entryOrigin := GoMap.set st.entryOrigin outName apk
              apkcerts := if partition ≠ "" then st.apkcerts ++ [apkcertsLine outName partition]
                else st.apkcerts
              writes := st.writes ++ [apkWrite stem apk outName] }

/-- `ApkSet.writeApks`: the selected entries written one after another, and the
sorted `apkcerts.txt` lines; a stop keeps what was written before it. -/
def writeApks (apkSetEntries : List String) (selected : SelectionResult) (config : TargetConfig)
    (partition : String) : Except (writeApksStop × List ApkWrite) (List String × List ApkWrite) := do
  let st ← selected.entries.foldlM
    (writeApk isNameRune apkSetEntries (renameRules selected.moduleName config.stem) config.stem
      partition) ⟨[], [], []⟩
  pure (sort.Strings st.apkcerts, st.writes)

variable {isNameRune} {apkSetEntries : List String} {rules : List renameRule}
  {stem partition : String}

/-- A round of the loop on an entry of the set, renamed, and not an output name
so far: the entry is written, and its output name recorded. -/
theorem writeApk_of_fresh {st : writeApksState} {apk outName : String}
    (hin : apk ∈ apkSetEntries) (hren : renamer isNameRune rules apk = some outName)
    (hfresh : GoMap.get? st.entryOrigin apk = none) :
    writeApk isNameRune apkSetEntries rules stem partition st apk =
      .ok { entryOrigin := GoMap.set st.entryOrigin outName apk
            apkcerts := if partition ≠ "" then st.apkcerts ++ [apkcertsLine outName partition]
              else st.apkcerts
            writes := st.writes ++ [apkWrite stem apk outName] } := by
  simp only [writeApk, hin, not_true_eq_false, if_false, hren, hfresh]

/-- **The loop stops only on an entry named like an earlier output.**  When
every entry is in the set and renamed, and none is named like the output of an
entry before it, each entry is written once, in order, whatever the output
names are: two entries with the same output name are both written. -/
theorem foldlM_writeApk_of_fresh (outName : String → String) :
    ∀ (l : List String) (st : writeApksState) (pre : List String),
      st.writes = pre.map (fun apk => apkWrite stem apk (outName apk)) →
      (∀ k, (GoMap.get? st.entryOrigin k).isSome → k ∈ pre.map outName) →
      (∀ apk ∈ l, apk ∈ apkSetEntries ∧ renamer isNameRune rules apk = some (outName apk)) →
      (∀ apk ∈ l, apk ∉ pre.map outName) →
      l.Pairwise (fun e e' => e' ≠ outName e) →
      ∃ st', l.foldlM (writeApk isNameRune apkSetEntries rules stem partition) st = .ok st' ∧
        st'.writes = (pre ++ l).map fun apk => apkWrite stem apk (outName apk)
  | [], st, pre, hw, _, _, _, _ => ⟨st, rfl, by simpa using hw⟩
  | apk :: l, st, pre, hw, hkeys, hren, hnew, hpair => by
    obtain ⟨hin, hname⟩ := hren apk List.mem_cons_self
    -- the entry was no earlier output, so the map does not know it
    have hfresh : GoMap.get? st.entryOrigin apk = none := by
      cases h : GoMap.get? st.entryOrigin apk with
      | none => rfl
      | some _ => exact absurd (hkeys apk (by simp [h])) (hnew apk List.mem_cons_self)
    rw [List.foldlM_cons, writeApk_of_fresh hin hname hfresh]
    simp only [List.pairwise_cons] at hpair
    refine List.append_cons pre apk l ▸ foldlM_writeApk_of_fresh outName l _ (pre ++ [apk])
      (by simp [hw]) (fun k hk => ?_) (fun a ha => hren a (List.mem_cons_of_mem apk ha))
      (fun a ha => ?_) hpair.2
    · -- the recorded output names are those of the entries done
      by_cases hko : k = outName apk
      · simp [hko]
      · rw [GoMap.get?_set_of_ne _ _ hko] at hk
        simp [hkeys k hk]
    · have hne := hpair.1 a ha
      have hold := hnew a (List.mem_cons_of_mem apk ha)
      simp only [List.map_append, List.map_cons, List.map_nil, List.mem_append,
        List.mem_singleton, not_or]
      exact ⟨hold, hne⟩

/-- **`writeApks` writes every entry once when no entry is named like an
earlier output**, whether or not two outputs have the same name. -/
theorem writeApks_of_fresh {selected : SelectionResult} {config : TargetConfig}
    (outName : String → String)
    (hren : ∀ apk ∈ selected.entries, apk ∈ apkSetEntries ∧
      renamer isNameRune (renameRules selected.moduleName config.stem) apk = some (outName apk))
    (hpair : selected.entries.Pairwise fun e e' => e' ≠ outName e) :
    ∃ apkcerts, writeApks isNameRune apkSetEntries selected config partition =
      .ok (apkcerts, selected.entries.map fun apk => apkWrite config.stem apk (outName apk)) := by
  obtain ⟨st, hst, hw⟩ := @foldlM_writeApk_of_fresh isNameRune apkSetEntries
    (renameRules selected.moduleName config.stem) config.stem partition outName selected.entries
    ⟨[], [], []⟩ [] rfl (fun k hk => by simp [GoMap.get?] at hk) hren (by simp) hpair
  refine ⟨sort.Strings st.apkcerts, ?_⟩
  rw [writeApks, hst, ← List.nil_append selected.entries, ← hw]
  rfl

/-- A module's master split and `universal.apk`, both selected. -/
def masterAndUniversal : SelectionResult := ⟨"M", ["splits/M-master.apk", "universal.apk"]⟩

/-- The master split of `M` is renamed after the stem `s` by the first rule. -/
theorem renamer_master (isNameRune : Char → Bool) :
    renamer isNameRune (renameRules "M" "s") "splits/M-master.apk" = some "s.apk" := by
  have hs : '$' ∉ ['s', '.', 'a', 'p', 'k'] := by decide
  have hrex : masterRex "M" "splits/M-master.apk" = some ["splits/M-master.apk"] := by decide
  simp only [renamer, renameRules, List.findSome?_cons, hrex, Option.map_some]
  simp [regexp.expand_of_not_mem _ hs]

/-- `universal.apk` is renamed after the stem `s` by the last rule. -/
theorem renamer_universal (isNameRune : Char → Bool) :
    renamer isNameRune (renameRules "M" "s") "universal.apk" = some "s.apk" := by
  have hs : '$' ∉ ['s', '.', 'a', 'p', 'k'] := by decide
  have hmaster : masterRex "M" "universal.apk" = none := by decide
  have hsplit : splitRex "M" "universal.apk" = none := by decide
  simp only [renamer, renameRules, List.findSome?_cons, hmaster, hsplit, universalRex,
    Option.map_none, Option.map_some, if_true]
  simp [regexp.expand_of_not_mem _ hs]

/-- Two entries renamed alike, and neither named like an output: both are
written, to the output file. -/
theorem writeApks_of_fresh_masterAndUniversal :
    ∃ apkcerts, writeApks (fun c => c.isAlphanum || c == '_')
        ["splits/M-master.apk", "universal.apk"] masterAndUniversal ⟨[], "s"⟩ "" =
      .ok (apkcerts, [.outFile "splits/M-master.apk", .outFile "universal.apk"]) := by
  have hren : ∀ apk ∈ masterAndUniversal.entries,
      apk ∈ ["splits/M-master.apk", "universal.apk"] ∧
        renamer (fun c => c.isAlphanum || c == '_') (renameRules masterAndUniversal.moduleName "s")
          apk = some ((fun _ => "s.apk") apk) := by
    intro apk hapk
    simp only [masterAndUniversal, List.mem_cons, List.mem_nil_iff, or_false] at hapk
    rcases hapk with rfl | rfl
    · exact ⟨by decide, renamer_master _⟩
    · exact ⟨by decide, renamer_universal _⟩
  obtain ⟨apkcerts, h⟩ : ∃ apkcerts, writeApks (fun c => c.isAlphanum || c == '_')
      ["splits/M-master.apk", "universal.apk"] masterAndUniversal ⟨[], "s"⟩ "" =
        .ok (apkcerts, masterAndUniversal.entries.map fun apk => apkWrite "s" apk "s.apk") :=
    writeApks_of_fresh (fun _ => "s.apk") hren (by decide)
  have hwrites : masterAndUniversal.entries.map (fun apk => apkWrite "s" apk "s.apk") =
      [.outFile "splits/M-master.apk", .outFile "universal.apk"] := by decide
  exact ⟨apkcerts, hwrites ▸ h⟩

/-- **Two entries renamed alike are both written to the output file.**  With
the stem `s`, the master split and `universal.apk` both become `s.apk`; the
collision check looks up `universal.apk` among the output names, finds nothing,
and the output file receives both entries. -/
theorem writeApks_writes_outFile_twice :
    writeApks isNameRune ["splits/M-master.apk", "universal.apk"] masterAndUniversal ⟨[], "s"⟩ "" =
      .ok ([], [.outFile "splits/M-master.apk", .outFile "universal.apk"]) := by
  have hmaster := renamer_master isNameRune
  have huniversal := renamer_universal isNameRune
  -- the two rounds of the loop: the second entry is not among the output names
  have hstep1 := @writeApk_of_fresh isNameRune ["splits/M-master.apk", "universal.apk"]
    (renameRules "M" "s") "s" "" ⟨[], [], []⟩ _ _ (by decide) hmaster rfl
  have hstep2 := @writeApk_of_fresh isNameRune ["splits/M-master.apk", "universal.apk"]
    (renameRules "M" "s") "s" "" ⟨GoMap.set [] "s.apk" "splits/M-master.apk", [], [
      apkWrite "s" "splits/M-master.apk" "s.apk"]⟩ _ _ (by decide) huniversal (by decide)
  simp only [writeApks, masterAndUniversal, List.foldlM_cons, List.foldlM_nil, hstep1, bind,
    Except.bind, ne_eq, not_true_eq_false, if_false, List.nil_append, hstep2, pure, Except.pure]
  decide

end write

end ExtractApks

end Soong
