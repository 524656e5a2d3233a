import Soong.Cc.SymbolFile

/-!
# The NDK stub generator

`cc/ndkstubgen` writes, from the versions of a symbol file, three files for an
architecture, an API level and a mode: the stub source (a definition for each
symbol kept), the version script (a block for each version that is versioned
at the API level), and the abigail symbol list.  Each `write` of the source
writes one whole line, so a file is the list of its lines.
-/

namespace Soong

namespace ndkstubgen

open symbolfile

/-- `Generator(src_file, version_script, symbol_list, arch, api, llndk, apex)`,
but for the files, which `Output` holds. -/
structure Generator where
  arch : Arch
  api : Int
  llndk : Bool
  apex : Bool

/-- The three files a generator writes, each as the lines written to it. -/
structure Output where
  src_file : List (List Char)
  version_script : List (List Char)
  symbol_list : List (List Char)
  deriving DecidableEq, Repr

namespace Generator

variable (g : Generator)

/-- The first loop of `write_version`: whether no symbol kept so far is
versioned (`version_empty`), and the symbols kept (`pruned_symbols`). -/
def pruneSymbol (acc : Bool × List Symbol) (symbol : Symbol) : Except String (Bool × List Symbol) := do
  let omitted ← should_omit_symbol symbol g.arch g.api g.llndk g.apex
  if omitted then return acc
  else
    let versioned ← symbol_versioned_in_api symbol.tags g.api
    return (acc.1 && !versioned, acc.2 ++ [symbol])

/-- The stub source's line for a symbol: a variable or a function, weak when
tagged so. -/
def definition (symbol : Symbol) : List Char :=
  let weak := if symbol.tags.contains "weak".toList then "__attribute__((weak)) ".toList else []
  if symbol.tags.contains "var".toList then weak ++ "int ".toList ++ symbol.name ++ " = 0;".toList
  else weak ++ "void ".toList ++ symbol.name ++ "() \x7b\x7d".toList

/-- The lines of the version script that open a block. -/
def openLines (name : List Char) : List (List Char) := [name ++ " \x7b".toList, "    global:".toList]

/-- The line of the version script that names a symbol. -/
def symbolLine (name : List Char) : List Char := "        ".toList ++ name ++ [';']

/-- The line that closes a block, with the base version if any. -/
def closeLine (base : Option (List Char)) : List Char :=
  let base := match base with
    | none => []
    | some base => ' ' :: base
  ['\x7d'] ++ base ++ [';']

/-- The second loop of `write_version`, over the symbols kept. -/
def writeSymbol (section_versioned : Bool) (out : Output) (symbol : Symbol) : Except String Output := do
  let emit_version ← symbol_versioned_in_api symbol.tags g.api
  let version_script := if section_versioned && emit_version then
      out.version_script ++ [symbolLine symbol.name]
    else out.version_script
  return ⟨out.src_file ++ [definition symbol], version_script, out.symbol_list ++ [symbol.name]⟩

/-- `write_version(version)`. -/
def write_version (out : Output) (version : Version) : Except String Output := do
  let omitted ← should_omit_version version g.arch g.api g.llndk g.apex
  if omitted then return out
  let section_versioned ← symbol_versioned_in_api version.tags g.api
  let (version_empty, pruned_symbols) ← version.symbols.foldlM g.pruneSymbol (true, [])
  if pruned_symbols.length > 0 then
    let opens := !version_empty && section_versioned
    let out : Output := if opens then
        { out with version_script := out.version_script ++ openLines version.name }
      else out
    let out ← pruned_symbols.foldlM (g.writeSymbol section_versioned) out
    if opens then return { out with version_script := out.version_script ++ [closeLine version.base] }
    else return out
  else return out

/-- `write(versions)`: the symbol list's header, then each version. -/
def write (versions : List Version) : Except String Output :=
  versions.foldlM g.write_version ⟨[], [], ["[abi_symbol_list]".toList]⟩

/-! ### What the generator writes -/

/-- Whether the generator keeps a symbol of a kept version. -/
def keepsSymbol (symbol : Symbol) : Bool :=
  decide (should_omit_symbol symbol g.arch g.api g.llndk g.apex = .ok false)

/-- Whether tags are versioned at the generator's API level. -/
def versionedAt (tags : Tags) : Bool := decide (symbol_versioned_in_api tags g.api = .ok true)

/-- The symbols the generator keeps of a version: none of a version it omits. -/
def keptSymbols (version : Version) : List Symbol :=
  if should_omit_version version g.arch g.api g.llndk g.apex = .ok false then
    version.symbols.filter g.keepsSymbol
  else []

/-- The kept symbols of a version that are versioned at the API level. -/
def versionedSymbols (version : Version) : List Symbol :=
  (g.keptSymbols version).filter fun s => g.versionedAt s.tags

/-- Whether a version gets a block in the version script: it is versioned,
and so is one of its kept symbols. -/
def hasBlock (version : Version) : Bool :=
  g.versionedAt version.tags && !(g.versionedSymbols version).isEmpty

/-- The block a version gets in the version script, if any. -/
def block (version : Version) : List (List Char) :=
  if g.hasBlock version then
    openLines version.name ++ (g.versionedSymbols version).map (symbolLine ·.name) ++
      [closeLine version.base]
  else []

theorem keptSymbols_of_omitted {version : Version}
    (h : should_omit_version version g.arch g.api g.llndk g.apex = .ok true) :
    g.keptSymbols version = [] := by
  rw [keptSymbols, if_neg (by rw [h]; simp)]

theorem keptSymbols_of_kept {version : Version}
    (h : should_omit_version version g.arch g.api g.llndk g.apex = .ok false) :
    g.keptSymbols version = version.symbols.filter g.keepsSymbol := by
  rw [keptSymbols, if_pos h]

/-- The first loop of `write_version` keeps the symbols `keepsSymbol` picks,
and finds whether one of them is versioned. -/
theorem foldlM_pruneSymbol : ∀ (symbols : List Symbol) (empty : Bool) (acc : List Symbol),
    (∀ s ∈ symbols, ∀ t ∈ s.tags, TagOk g.arch t) →
    symbols.foldlM g.pruneSymbol (empty, acc) =
      .ok (empty && !((symbols.filter g.keepsSymbol).any fun s => g.versionedAt s.tags),
        acc ++ symbols.filter g.keepsSymbol)
  | [], empty, acc, _ => by simp
  | s :: symbols, empty, acc, h => by
    have hrest : ∀ s' ∈ symbols, ∀ t ∈ s'.tags, TagOk g.arch t :=
      fun s' hs' => h s' (List.mem_cons_of_mem _ hs')
    obtain ⟨omitted, homitted⟩ := should_omit_symbol_ok (h s List.mem_cons_self) g.api g.llndk g.apex
    rw [List.foldlM_cons]
    cases omitted with
    | true =>
      have hstep : g.pruneSymbol (empty, acc) s = .ok (empty, acc) := by
        simp [pruneSymbol, homitted]
      rw [hstep, ok_bind, foldlM_pruneSymbol symbols empty acc hrest]
      simp [keepsSymbol, homitted]
    | false =>
      obtain ⟨b, hb⟩ := symbol_versioned_in_api_ok g.api (h s List.mem_cons_self)
      have hstep : g.pruneSymbol (empty, acc) s = .ok (empty && !b, acc ++ [s]) := by
        simp [pruneSymbol, homitted, hb]
      rw [hstep, ok_bind, foldlM_pruneSymbol symbols _ _ hrest]
      simp [keepsSymbol, homitted, versionedAt, hb, Bool.and_assoc]

/-- The second loop of `write_version`: a definition and a name for every
symbol, and a line of the version script for those versioned, in a versioned
block. -/
theorem foldlM_writeSymbol (section_versioned : Bool) : ∀ (symbols : List Symbol) (out : Output),
    (∀ s ∈ symbols, ∀ t ∈ s.tags, TagOk g.arch t) →
    symbols.foldlM (g.writeSymbol section_versioned) out =
      .ok ⟨out.src_file ++ symbols.map definition,
        out.version_script ++ (if section_versioned then
          (symbols.filter fun s => g.versionedAt s.tags).map (symbolLine ·.name) else []),
        out.symbol_list ++ symbols.map Symbol.name⟩
  | [], out, _ => by simp
  | s :: symbols, out, h => by
    obtain ⟨b, hb⟩ := symbol_versioned_in_api_ok g.api (h s List.mem_cons_self)
    have hstep : g.writeSymbol section_versioned out s =
        .ok ⟨out.src_file ++ [definition s],
          out.version_script ++ (if section_versioned && b then [symbolLine s.name] else []),
          out.symbol_list ++ [s.name]⟩ := by
      rw [writeSymbol, hb, ok_bind]
      split_ifs <;> simp
    rw [List.foldlM_cons, hstep, ok_bind,
      foldlM_writeSymbol section_versioned symbols _ fun s' hs' => h s' (List.mem_cons_of_mem _ hs')]
    cases section_versioned <;> cases b <;> simp [versionedAt, hb]

/-- **`write_version` adds a definition and a name for every symbol kept, and
the version's block.** -/
theorem write_version_eq (out : Output) {version : Version} (hok : version.TagsOk g.arch) :
    g.write_version out version =
      .ok ⟨out.src_file ++ (g.keptSymbols version).map definition,
        out.version_script ++ g.block version,
        out.symbol_list ++ (g.keptSymbols version).map Symbol.name⟩ := by
  obtain ⟨omitted, homitted⟩ := should_omit_version_ok hok.1 g.api g.llndk g.apex
  cases omitted with
  | true =>
    have hblock : g.block version = [] := by
      simp [block, hasBlock, versionedSymbols, keptSymbols_of_omitted g homitted]
    rw [write_version, homitted, ok_bind, if_pos rfl, keptSymbols_of_omitted g homitted, hblock]
    simp
  | false =>
    obtain ⟨sv, hsv⟩ := symbol_versioned_in_api_ok g.api hok.1
    rw [write_version, homitted, ok_bind, if_neg Bool.false_ne_true, hsv, ok_bind,
      foldlM_pruneSymbol g _ _ _ hok.2, ok_bind, ← keptSymbols_of_kept g homitted]
    have hversioned : g.versionedAt version.tags = sv := by simp [versionedAt, hsv]
    have htags : ∀ s ∈ g.keptSymbols version, ∀ t ∈ s.tags, TagOk g.arch t := fun s hs =>
      hok.2 s (List.mem_of_mem_filter (by rwa [keptSymbols_of_kept g homitted] at hs))
    simp only [Bool.true_and, List.nil_append]
    by_cases hnil : g.keptSymbols version = []
    · have hblock : g.block version = [] := by simp [block, hasBlock, versionedSymbols, hnil]
      simp [hnil, hblock]
    · rw [if_pos (List.length_pos_of_ne_nil hnil)]
      -- the block opens when the version and one of its kept symbols are versioned
      by_cases hany : ∃ s ∈ g.keptSymbols version, g.versionedAt s.tags = true
      · cases sv <;> simp [foldlM_writeSymbol g _ _ _ htags, block, hasBlock, versionedSymbols,
          hversioned, hany]
      · have hfilter : (g.keptSymbols version).filter (fun s => g.versionedAt s.tags) = [] :=
          List.filter_eq_nil_iff.mpr fun s hs hv => hany ⟨s, hs, hv⟩
        cases sv <;> simp [foldlM_writeSymbol g _ _ _ htags, block, hasBlock, versionedSymbols,
          hversioned, hany, hfilter]

theorem foldlM_write_version : ∀ (versions : List Version) (out : Output),
    (∀ v ∈ versions, v.TagsOk g.arch) →
    versions.foldlM g.write_version out =
      .ok ⟨out.src_file ++ (versions.flatMap g.keptSymbols).map definition,
        out.version_script ++ versions.flatMap g.block,
        out.symbol_list ++ (versions.flatMap g.keptSymbols).map Symbol.name⟩
  | [], out, _ => by simp
  | v :: versions, out, h => by
    rw [List.foldlM_cons, write_version_eq g out (h v List.mem_cons_self), ok_bind,
      foldlM_write_version versions _ fun v' hv' => h v' (List.mem_cons_of_mem _ hv')]
    simp

/-- **What `write` writes**: the definitions of the symbols kept, the blocks
of the versions, and the names of the symbols kept, in order. -/
theorem write_eq {versions : List Version} (hok : ∀ v ∈ versions, v.TagsOk g.arch) :
    g.write versions =
      .ok ⟨(versions.flatMap g.keptSymbols).map definition, versions.flatMap g.block,
        "[abi_symbol_list]".toList :: (versions.flatMap g.keptSymbols).map Symbol.name⟩ := by
  rw [write, foldlM_write_version g versions _ hok]
  rfl

end Generator

end ndkstubgen

end Soong
