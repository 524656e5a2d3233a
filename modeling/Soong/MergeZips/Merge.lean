import Soong.Lib.Dedup
import Soong.Lib.GoMap
import Soong.Lib.GoPath
import Soong.Jar.Order

/-!
# Merging zips

`cmd/merge_zips/merge_zips.go`.  `mergeZips` copies the entries of its input
zips into one output zip.  An entry is dropped when it is a directory and
directories are stripped, or when its zip may be stripped and it matches a
`-stripFile` pattern or lies under a `-stripDir` directory.  Of the entries
kept under one name the first is written; a later one must have the same
directory flag and, unless duplicates are ignored, the same CRC-32 and size,
unless it is a directory, the jar manifest in jar mode, or `module-info.class`.
The output is in the order entries are first read, or sorted by name, or in
jar order.

Glob matching is blueprint's `pathtools.Match`, outside this repository: the
model takes it as the parameter `Match`, and a pattern it would reject (where
Go panics) is outside the model.  Input zips are in memory, so opening,
closing and copying an entry cannot fail.  The manifest, `__main__.py` and the
`__init__.py` files of par mode, which read files from disk, are left out.

## Main definitions

* `ZipEntryFromZip`, `OutputZip`, `OutputZip.addZipEntry`.
* `OutputZip.isEntryExcluded`, `OutputZip.copyEntry`, `mergeZips`.
* `Clash` — two entries under one name that cannot be merged.

## Main results

* `isEntryExcluded_emulateJar` — jar mode never changes what is excluded: the
  exception the source makes for `META-INF/` and its manifest returns `true`
  like the rule it excepts from.
* `mergeZips_eq_error_iff` — `mergeZips` fails exactly when two kept entries
  clash.
* `mergeZips_eq_ok` — otherwise it writes the first kept entry of each name,
  in the order of first occurrence, by name, or in jar order.
-/

namespace Soong

namespace MergeZips

open List (firstByKey)

/-! ### Entries and the output zip -/

/-- An entry of an input zip, as `zip.File` describes it. -/
structure zipFile where
  Name : String
  /-- `FileInfo().IsDir()`. -/
  IsDir : Bool
  CRC32 : UInt32
  UncompressedSize64 : UInt64
  Data : List UInt8
  deriving DecidableEq, Repr

/-- An open input zip: its name and its entries. -/
structure InputZip where
  Name : String
  Entries : List zipFile
  deriving DecidableEq, Repr

/-- `ZipEntryFromZip`: the entry at `index` of an input zip, with its header
fields. -/
structure ZipEntryFromZip where
  inputZip : InputZip
  index : ℕ
  name : String
  isDir : Bool
  crc32 : UInt32
  size : UInt64
  deriving DecidableEq, Repr

/-- `NewZipEntryFromZip`, given the entry `fi = inputZip.Entries()[entryIndex]`. -/
def NewZipEntryFromZip (inputZip : InputZip) (entryIndex : ℕ) (fi : zipFile) : ZipEntryFromZip :=
  ⟨inputZip, entryIndex, fi.Name, fi.IsDir, fi.CRC32, fi.UncompressedSize64⟩

/-- The output writer: each written entry's name and source. -/
abbrev zipWriter := List (String × ZipEntryFromZip)

/-- `WriteToZip`: copy the entry under the name `dest`. -/
def ZipEntryFromZip.WriteToZip (ze : ZipEntryFromZip) (dest : String) (zw : zipWriter) :
    zipWriter :=
  zw ++ [(dest, ze)]

/-- `%v` of an entry: `zip!name`. -/
def ZipEntryFromZip.String (ze : ZipEntryFromZip) : String := ze.inputZip.Name ++ "!" ++ ze.name

/-- The processing state, `OutputZip`. -/
structure OutputZip where
  outputWriter : zipWriter
  stripDirEntries : Bool
  emulateJar : Bool
  sortEntries : Bool
  ignoreDuplicates : Bool
  excludeDirs : List String
  excludeFiles : List String
  sourceByDest : List (String × ZipEntryFromZip)
  deriving DecidableEq, Repr

def NewOutputZip (outputWriter : zipWriter)
    (sortEntries emulateJar stripDirEntries ignoreDuplicates : Bool) : OutputZip :=
  ⟨outputWriter, stripDirEntries, emulateJar, sortEntries, ignoreDuplicates, [], [], []⟩

def OutputZip.setExcludeDirs (oz : OutputZip) (excludeDirs : List String) : OutputZip :=
  { oz with excludeDirs := excludeDirs.map filepath.Clean }

def OutputZip.setExcludeFiles (oz : OutputZip) (excludeFiles : List String) : OutputZip :=
  { oz with excludeFiles := excludeFiles }

/-- `addZipEntry`: the entry already recorded under the name, or record the new
one and, unless entries are rearranged at the end, write it at once. -/
def OutputZip.addZipEntry (oz : OutputZip) (name : String) (source : ZipEntryFromZip) :
    Option ZipEntryFromZip × OutputZip :=
  match GoMap.get? oz.sourceByDest name with
  | some existingSource => (some existingSource, oz)
  | none =>
    let oz := { oz with sourceByDest := GoMap.set oz.sourceByDest name source }
    if oz.emulateJar || oz.sortEntries then (none, oz)
    else (none, { oz with outputWriter := source.WriteToZip name oz.outputWriter })

section Match

-- blueprint's `pathtools.Match`, which the model leaves abstract
variable (Match : String → String → Bool)

/-- `isEntryExcluded`: the name lies under an excluded directory or matches an
excluded file pattern. -/
def OutputZip.isEntryExcluded (oz : OutputZip) (name : String) : Bool :=
  oz.excludeDirs.any (fun dir =>
    let dir := filepath.Clean dir
    let patterns := [dir ++ "/", dir ++ "/**/*", dir ++ "/**/*/"]
    patterns.any fun pattern =>
      if Match pattern name then
        if oz.emulateJar then
          -- meant to keep `META-INF/` and its manifest in a jar, but both
          -- branches return true
          if name ≠ jar.MetaDir ∧ name ≠ jar.ManifestFile then true else true
        else true
      else false) ||
    oz.excludeFiles.any fun pattern => Match pattern name

/-- `copyEntry`: record the entry, or check it against the entry already
recorded under its name. -/
def OutputZip.copyEntry (oz : OutputZip) (inputZip : InputZip) (index : ℕ) (fi : zipFile) :
    Except String OutputZip :=
  let entry := NewZipEntryFromZip inputZip index fi
  if oz.stripDirEntries && entry.isDir then pure oz
  else
    match oz.addZipEntry entry.name entry with
    | (none, oz) => pure oz
    | (some existingEntry, oz) =>
      if existingEntry.isDir != entry.isDir then
        throw ("Directory/file mismatch at " ++ entry.name ++ " from " ++ existingEntry.String ++
          " and " ++ entry.String ++ "\n")
      -- Go's precedence: the manifest only in jar mode, `module-info.class` always
      else if oz.ignoreDuplicates ||
          (oz.emulateJar && entry.name == jar.ManifestFile || entry.name == jar.ModuleInfoClass) ||
          (existingEntry.crc32 == entry.crc32 && existingEntry.size == entry.size) ||
          entry.isDir then
        pure oz
      else
        throw ("Duplicate path " ++ entry.name ++ " found in " ++ existingEntry.String ++ " and " ++
          inputZip.Name ++ "\n")

/-- The body of `mergeZips`' loop over one input zip: copy every entry that is
not excluded, or every entry of a zip not to strip. -/
def OutputZip.copyInputZip (zipsToNotStrip : List String) (out : OutputZip) (inputZip : InputZip) :
    Except String OutputZip :=
  let copyFully := decide (inputZip.Name ∈ zipsToNotStrip)
  inputZip.Entries.zipIdx.foldlM (fun out (entry, i) =>
    if copyFully || !out.isEntryExcluded Match entry.Name then out.copyEntry inputZip i entry
    else pure out) out

end Match

/-- `entriesArray`: the recorded names, in map order. -/
def OutputZip.entriesArray (oz : OutputZip) : List String := GoMap.keys oz.sourceByDest

def OutputZip.jarSorted (oz : OutputZip) : List String :=
  sort.SliceStable oz.entriesArray jar.EntryNamesLess

def OutputZip.alphanumericSorted (oz : OutputZip) : List String :=
  sort.Strings oz.entriesArray

/-- `writeEntries`: write the recorded entries under the given names.  Every
name is recorded, so Go's call on a nil source does not happen. -/
def OutputZip.writeEntries (oz : OutputZip) (entries : List String) : OutputZip :=
  entries.foldl (fun oz entry =>
    match GoMap.get? oz.sourceByDest entry with
    | some source => { oz with outputWriter := source.WriteToZip entry oz.outputWriter }
    | none => oz) oz

/-- `mergeZips` with no manifest, no `__main__.py` and par mode off: the
entries written to `writer`, or the first error. -/
def mergeZips (Match : String → String → Bool) (inputZips : List InputZip) (writer : zipWriter)
    (sortEntries emulateJar stripDirEntries ignoreDuplicates : Bool)
    (excludeFiles excludeDirs zipsToNotStrip : List String) : Except String zipWriter := do
  let out := NewOutputZip writer sortEntries emulateJar stripDirEntries ignoreDuplicates
  let out := out.setExcludeFiles excludeFiles
  let out := out.setExcludeDirs excludeDirs
  let out ← inputZips.foldlM (OutputZip.copyInputZip Match zipsToNotStrip) out
  if emulateJar then pure (out.writeEntries out.jarSorted).outputWriter
  else if sortEntries then pure (out.writeEntries out.alphanumericSorted).outputWriter
  else pure out.outputWriter

/-! ### Exclusion -/

/-- **Two kept entries under one name that `mergeZips` cannot merge**: their
directory flags differ, or duplicates are not ignored and they are files of
different CRC-32 or size, other than the manifest of a jar and
`module-info.class`. -/
def Clash (ignoreDuplicates emulateJar : Bool) (a b : ZipEntryFromZip) : Prop :=
  a.name = b.name ∧
    (a.isDir ≠ b.isDir ∨
      (ignoreDuplicates = false ∧ ¬(emulateJar = true ∧ a.name = jar.ManifestFile) ∧
        a.name ≠ jar.ModuleInfoClass ∧ a.isDir = false ∧ b.isDir = false ∧
        (a.crc32 ≠ b.crc32 ∨ a.size ≠ b.size)))

instance (ignoreDuplicates emulateJar : Bool) (a b : ZipEntryFromZip) :
    Decidable (Clash ignoreDuplicates emulateJar a b) :=
  inferInstanceAs (Decidable (_ ∧ _))

/-- No two entries of `ks` clash. -/
def NoClash (ignoreDuplicates emulateJar : Bool) (ks : List ZipEntryFromZip) : Prop :=
  ks.Pairwise fun a b => ¬Clash ignoreDuplicates emulateJar a b

section clash

variable {ignoreDuplicates emulateJar : Bool}

theorem Clash.name_eq {a b : ZipEntryFromZip} (h : Clash ignoreDuplicates emulateJar a b) :
    a.name = b.name :=
  h.1

/-- An entry that agrees with the first of its name passes its clashes on to
it: agreeing is an equivalence among the entries of one name. -/
theorem Clash.of_not_clash {x a b : ZipEntryFromZip} (hname : x.name = a.name)
    (hxa : ¬Clash ignoreDuplicates emulateJar x a) (hab : Clash ignoreDuplicates emulateJar a b) :
    Clash ignoreDuplicates emulateJar x b := by
  unfold Clash at *
  grind

/-- `copyEntry`'s test against the entry first recorded under the same name
fails exactly on a clash. -/
theorem clash_iff_copyEntry_test {x e : ZipEntryFromZip} (hname : x.name = e.name) :
    Clash ignoreDuplicates emulateJar x e ↔
      (x.isDir != e.isDir) = true ∨
        (ignoreDuplicates || (emulateJar && e.name == jar.ManifestFile ||
          e.name == jar.ModuleInfoClass) || (x.crc32 == e.crc32 && x.size == e.size) ||
          e.isDir) = false := by
  unfold Clash
  rw [hname]
  cases ignoreDuplicates <;> cases emulateJar <;> cases hx : x.isDir <;> cases he : e.isDir <;>
    simp <;> tauto

end clash

/-! ### The loop over the entries -/

/-- The first kept entry of each name among `ks`, under its name. -/
def firsts (ks : List ZipEntryFromZip) : List (String × ZipEntryFromZip) :=
  (firstByKey ZipEntryFromZip.name ks).map fun e => (e.name, e)

/-- The names of the first entries are distinct. -/
theorem nodup_map_fst_firsts (ks : List ZipEntryFromZip) : ((firsts ks).map Prod.fst).Nodup := by
  have : (firsts ks).map Prod.fst = (firstByKey ZipEntryFromZip.name ks).map ZipEntryFromZip.name := by
    simp [firsts, Function.comp_def]
  rw [this]
  exact List.nodup_map_firstByKey _ ks

/-- The output zip `oz`, with nothing recorded yet, after the kept entries `ks`
were copied without a clash: the first of each name is recorded, and written
unless entries are rearranged at the end. -/
def OutputZip.afterCopying (oz : OutputZip) (ks : List ZipEntryFromZip) : OutputZip :=
  { oz with
    sourceByDest := firsts ks
    outputWriter := if oz.emulateJar || oz.sortEntries then oz.outputWriter
      else oz.outputWriter ++ firsts ks }

/-- What copying the kept entries `ks` from `oz` may return: the state after
them when no two clash, and an error when two do. -/
def OutputZip.Copies (oz : OutputZip) (ks : List ZipEntryFromZip) : Except String OutputZip → Prop
  | .ok out => NoClash oz.ignoreDuplicates oz.emulateJar ks ∧ out = oz.afterCopying ks
  | .error _ => ¬NoClash oz.ignoreDuplicates oz.emulateJar ks

section copy

variable (Match : String → String → Bool) (zipsToNotStrip : List String)

@[simp] theorem afterCopying_sourceByDest (oz : OutputZip) (ks : List ZipEntryFromZip) :
    (oz.afterCopying ks).sourceByDest = firsts ks := rfl

@[simp] theorem isEntryExcluded_afterCopying (oz : OutputZip) (ks : List ZipEntryFromZip)
    (name : String) :
    (oz.afterCopying ks).isEntryExcluded Match name = oz.isEntryExcluded Match name := rfl

theorem afterCopying_nil {oz : OutputZip} (h : oz.sourceByDest = []) : oz.afterCopying [] = oz := by
  cases oz
  simp_all [OutputZip.afterCopying, firsts]

/-- The entry recorded under a name is the first kept entry of that name. -/
theorem get?_firsts (ks : List ZipEntryFromZip) (name : String) :
    GoMap.get? (firsts ks) name = ks.find? fun e => e.name = name := by
  rw [firsts, GoMap.get?_map_pair, List.find?_firstByKey]

@[simp] theorem copies_ok {oz out : OutputZip} {ks : List ZipEntryFromZip} :
    oz.Copies ks (.ok out) ↔
      NoClash oz.ignoreDuplicates oz.emulateJar ks ∧ out = oz.afterCopying ks := Iff.rfl

@[simp] theorem copies_error {oz : OutputZip} {ks : List ZipEntryFromZip} {msg : String} :
    oz.Copies ks (.error msg) ↔ ¬NoClash oz.ignoreDuplicates oz.emulateJar ks := Iff.rfl

/-- A kept entry of a new name is recorded, and written unless entries are
rearranged. -/
theorem addZipEntry_afterCopying_new {oz : OutputZip} {ks : List ZipEntryFromZip}
    {e : ZipEntryFromZip} (hnew : ks.find? (fun a => a.name = e.name) = none) :
    (oz.afterCopying ks).addZipEntry e.name e = (none, oz.afterCopying (ks ++ [e])) := by
  have hget : GoMap.get? (firsts ks) e.name = none := by rw [get?_firsts, hnew]
  have hnotin : e.name ∉ (firstByKey ZipEntryFromZip.name ks).map ZipEntryFromZip.name := by
    rw [List.mem_map_firstByKey]
    simpa using hnew
  have hfirsts : firsts (ks ++ [e]) = firsts ks ++ [(e.name, e)] := by
    simp [firsts, List.firstByKey_append_singleton, hnotin]
  simp only [OutputZip.addZipEntry, afterCopying_sourceByDest, hget,
    GoMap.set_of_get?_eq_none e hget]
  simp only [OutputZip.afterCopying, hfirsts]
  split <;> simp_all [ZipEntryFromZip.WriteToZip]

/-- A kept entry of a recorded name finds the first entry of that name, and
changes nothing. -/
theorem addZipEntry_afterCopying_old {oz : OutputZip} {ks : List ZipEntryFromZip}
    {e x : ZipEntryFromZip} (hold : ks.find? (fun a => a.name = e.name) = some x) :
    (oz.afterCopying ks).addZipEntry e.name e = (some x, oz.afterCopying (ks ++ [e])) := by
  have hin : e.name ∈ (firstByKey ZipEntryFromZip.name ks).map ZipEntryFromZip.name := by
    rw [List.mem_map_firstByKey]
    have hxe : x.name = e.name := by simpa using List.find?_some hold
    exact List.mem_map.mpr ⟨x, List.mem_of_find?_eq_some hold, hxe⟩
  have hfirsts : firsts (ks ++ [e]) = firsts ks := by
    simp [firsts, List.firstByKey_append_singleton, hin]
  simp [OutputZip.addZipEntry, get?_firsts, hold, OutputZip.afterCopying, hfirsts]

/-- **One step: `copyEntry` of a kept entry.**  From the state after `ks`, it
records the entry if its name is new, fails if it clashes with the first entry
of its name, and changes nothing otherwise. -/
theorem copies_copyEntry {oz : OutputZip} {ks : List ZipEntryFromZip}
    (hks : NoClash oz.ignoreDuplicates oz.emulateJar ks) (inputZip : InputZip) (i : ℕ)
    (fi : zipFile) (hkeep : (oz.stripDirEntries && fi.IsDir) = false) :
    oz.Copies (ks ++ [NewZipEntryFromZip inputZip i fi])
      ((oz.afterCopying ks).copyEntry inputZip i fi) := by
  simp only [OutputZip.copyEntry]
  have hkeep' : ((oz.afterCopying ks).stripDirEntries &&
      (NewZipEntryFromZip inputZip i fi).isDir) = false := hkeep
  simp only [hkeep', Bool.false_eq_true, if_false]
  generalize NewZipEntryFromZip inputZip i fi = e
  -- a clash with the new entry is a clash with an earlier entry of its name
  have hnoclash : NoClash oz.ignoreDuplicates oz.emulateJar (ks ++ [e]) ↔
      ¬∃ a ∈ ks, a.name = e.name ∧ Clash oz.ignoreDuplicates oz.emulateJar a e := by
    rw [NoClash, List.pairwise_append]
    simp only [List.pairwise_singleton, List.mem_singleton, forall_eq, true_and]
    constructor
    · rintro ⟨-, h⟩ ⟨a, ha, -, hC⟩
      exact h a ha hC
    · intro h
      exact ⟨hks, fun a ha hC => h ⟨a, ha, hC.name_eq, hC⟩⟩
  cases hfind : ks.find? (fun a => a.name = e.name) with
  | none =>
    -- a new name: recorded, and no earlier entry shares it
    rw [addZipEntry_afterCopying_new hfind]
    refine copies_ok.mpr ⟨hnoclash.mpr ?_, rfl⟩
    rintro ⟨a, ha, hname, -⟩
    exact List.find?_eq_none.mp hfind a ha (by simpa using hname)
  | some x =>
    -- a recorded name: the test against `x` decides
    rw [addZipEntry_afterCopying_old hfind]
    dsimp only
    have hxe : x.name = e.name := by simpa using List.find?_some hfind
    have hiff : (∃ a ∈ ks, a.name = e.name ∧ Clash oz.ignoreDuplicates oz.emulateJar a e) ↔
        Clash oz.ignoreDuplicates oz.emulateJar x e :=
      List.exists_mem_rel_iff_of_find? ZipEntryFromZip.name
        (fun hname hxa hab => Clash.of_not_clash hname hxa hab) hks hfind
    -- the test reads the flags of the state, which are `oz`'s
    have htest := @clash_iff_copyEntry_test (oz.afterCopying (ks ++ [e])).ignoreDuplicates
      (oz.afterCopying (ks ++ [e])).emulateJar x e hxe
    split
    · next hdir =>
      exact copies_error.mpr fun h => hnoclash.mp h (hiff.mpr (htest.mpr (Or.inl hdir)))
    · next hdir =>
      by_cases hclash : Clash oz.ignoreDuplicates oz.emulateJar x e
      · rw [(htest.mp hclash).resolve_left hdir]
        exact copies_error.mpr fun h => hnoclash.mp h (hiff.mpr hclash)
      · rw [eq_true_of_ne_false fun h => hclash (htest.mpr (Or.inr h))]
        exact copies_ok.mpr ⟨hnoclash.mpr fun h => hclash (hiff.mp h), rfl⟩

/-- A stripped directory is not copied. -/
theorem copyEntry_of_stripped {oz : OutputZip} {inputZip : InputZip} {i : ℕ} {fi : zipFile}
    (h : (oz.stripDirEntries && fi.IsDir) = true) : oz.copyEntry inputZip i fi = .ok oz := by
  have h' : (oz.stripDirEntries && (NewZipEntryFromZip inputZip i fi).isDir) = true := h
  simp only [OutputZip.copyEntry, h', if_true]
  rfl

/-- Copying more entries after a computation that copied `ks`: an error stays
one, and a clash among `ks` is one among more entries. -/
theorem OutputZip.Copies.bind {oz : OutputZip} {ks : List ZipEntryFromZip} {r : Except String OutputZip}
    (hr : oz.Copies ks r) {ks' : List ZipEntryFromZip} {f : OutputZip → Except String OutputZip}
    (hf : NoClash oz.ignoreDuplicates oz.emulateJar ks →
      oz.Copies (ks ++ ks') (f (oz.afterCopying ks))) :
    oz.Copies (ks ++ ks') (r >>= f) := by
  cases r with
  | error msg =>
    exact copies_error.mpr fun h => (copies_error.mp hr) (h.sublist (List.sublist_append_left _ _))
  | ok out =>
    obtain ⟨hks, rfl⟩ := copies_ok.mp hr
    exact hf hks

/-- The entries among `es`, each with its index in `inputZip`, that the loop
copies: every entry of a zip not to strip and every entry not excluded, less
the directories when they are stripped. -/
def OutputZip.keptOf (oz : OutputZip) (inputZip : InputZip) (es : List (zipFile × ℕ)) :
    List ZipEntryFromZip :=
  (es.filter fun (entry, _) =>
      (decide (inputZip.Name ∈ zipsToNotStrip) || !oz.isEntryExcluded Match entry.Name) &&
        !(oz.stripDirEntries && entry.IsDir)).map
    fun (entry, i) => NewZipEntryFromZip inputZip i entry

/-- **The loop over one zip's entries** copies its kept entries. -/
theorem copies_foldlM_copyEntry (oz : OutputZip) (inputZip : InputZip) :
    ∀ (es : List (zipFile × ℕ)) (ks : List ZipEntryFromZip),
      NoClash oz.ignoreDuplicates oz.emulateJar ks →
      oz.Copies (ks ++ oz.keptOf Match zipsToNotStrip inputZip es)
        (es.foldlM (fun out (entry, i) =>
          if decide (inputZip.Name ∈ zipsToNotStrip) || !out.isEntryExcluded Match entry.Name then
            out.copyEntry inputZip i entry
          else pure out) (oz.afterCopying ks)) := by
  intro es
  induction es with
  | nil =>
    intro ks hks
    simp only [List.foldlM_nil, OutputZip.keptOf, List.filter_nil, List.map_nil, List.append_nil]
    exact copies_ok.mpr ⟨hks, rfl⟩
  | cons x es ih =>
    obtain ⟨fi, i⟩ := x
    intro ks hks
    rw [List.foldlM_cons]
    dsimp only
    split
    · next hcopy =>
      -- the flags of the state are `oz`'s
      have hcopy : (decide (inputZip.Name ∈ zipsToNotStrip) ||
          !oz.isEntryExcluded Match fi.Name) = true := hcopy
      by_cases hstrip : (oz.stripDirEntries && fi.IsDir) = true
      · -- a stripped directory: nothing happens
        have hkept : oz.keptOf Match zipsToNotStrip inputZip ((fi, i) :: es) =
            oz.keptOf Match zipsToNotStrip inputZip es := by
          simp only [OutputZip.keptOf, List.filter_cons, hstrip, Bool.not_true, Bool.and_false,
            Bool.false_eq_true, if_false]
        rw [@copyEntry_of_stripped (oz.afterCopying ks) inputZip i fi hstrip, hkept]
        exact ih ks hks
      · -- a kept entry: one step, then the rest of the loop
        have hstrip : (oz.stripDirEntries && fi.IsDir) = false := by simpa using hstrip
        have hkept : oz.keptOf Match zipsToNotStrip inputZip ((fi, i) :: es) =
            NewZipEntryFromZip inputZip i fi :: oz.keptOf Match zipsToNotStrip inputZip es := by
          simp only [OutputZip.keptOf, List.filter_cons, hcopy, hstrip, Bool.not_false,
            Bool.and_true, if_true, List.map_cons]
        rw [hkept, ← List.singleton_append, ← List.append_assoc]
        exact (copies_copyEntry hks inputZip i fi hstrip).bind fun h => ih _ h
    · next hcopy =>
      -- an excluded entry: the loop goes on
      have hcopy : (decide (inputZip.Name ∈ zipsToNotStrip) ||
          !oz.isEntryExcluded Match fi.Name) = false := by simpa using hcopy
      have hkept : oz.keptOf Match zipsToNotStrip inputZip ((fi, i) :: es) =
          oz.keptOf Match zipsToNotStrip inputZip es := by
        simp only [OutputZip.keptOf, List.filter_cons, hcopy, Bool.false_and,
          Bool.false_eq_true, if_false]
      rw [hkept]
      exact ih ks hks

/-- The entries `mergeZips` keeps from `inputZips`, in the order it reads them. -/
def keptEntries (oz : OutputZip) (inputZips : List InputZip) : List ZipEntryFromZip :=
  inputZips.flatMap fun inputZip => oz.keptOf Match zipsToNotStrip inputZip inputZip.Entries.zipIdx

/-- **The loop over the input zips** copies the kept entries of all of them. -/
theorem copies_foldlM_copyInputZip (oz : OutputZip) :
    ∀ (inputZips : List InputZip) (ks : List ZipEntryFromZip),
      NoClash oz.ignoreDuplicates oz.emulateJar ks →
      oz.Copies (ks ++ keptEntries Match zipsToNotStrip oz inputZips)
        (inputZips.foldlM (OutputZip.copyInputZip Match zipsToNotStrip) (oz.afterCopying ks)) := by
  intro inputZips
  induction inputZips with
  | nil =>
    intro ks hks
    simp only [List.foldlM_nil, keptEntries, List.flatMap_nil, List.append_nil]
    exact copies_ok.mpr ⟨hks, rfl⟩
  | cons inputZip inputZips ih =>
    intro ks hks
    rw [List.foldlM_cons, keptEntries, List.flatMap_cons, ← List.append_assoc]
    exact (copies_foldlM_copyEntry Match zipsToNotStrip oz inputZip _ ks hks).bind
      fun h => ih _ h

end copy

/-! ### The merge -/

/-- `writeEntries` writes the recorded entry of each name, in the given order. -/
theorem writeEntries_eq (oz : OutputZip) (names : List String) :
    oz.writeEntries names =
      { oz with
        outputWriter :=
          oz.outputWriter ++ names.filterMap fun k => (GoMap.get? oz.sourceByDest k).map (k, ·) } := by
  induction names generalizing oz with
  | nil => simp [OutputZip.writeEntries]
  | cons k names ih =>
    have hstep : oz.writeEntries (k :: names) =
        (match GoMap.get? oz.sourceByDest k with
          | some source => { oz with outputWriter := source.WriteToZip k oz.outputWriter }
          | none => oz).writeEntries names := rfl
    rw [hstep]
    cases hk : GoMap.get? oz.sourceByDest k with
    | none => simp [ih, hk]
    | some source => simp [ih, hk, ZipEntryFromZip.WriteToZip]

/-- Writing a reordering of the recorded names writes the first entries in that
order. -/
theorem writeEntries_afterCopying {oz : OutputZip} {ks : List ZipEntryFromZip} {names : List String}
    (hnames : names.Perm ((firsts ks).map Prod.fst)) :
    ∃ out, ((oz.afterCopying ks).writeEntries names).outputWriter =
        (oz.afterCopying ks).outputWriter ++ out ∧
      out.Perm (firsts ks) ∧ out.map Prod.fst = names := by
  have hnodup : (GoMap.keys (firsts ks)).Nodup := nodup_map_fst_firsts ks
  obtain ⟨hperm, hfst⟩ := GoMap.filterMap_get?_of_perm hnodup hnames
  exact ⟨_, by rw [writeEntries_eq]; rfl, hperm, hfst⟩

/-- The output zip `mergeZips` starts from. -/
def startZip (writer : zipWriter) (sortEntries emulateJar stripDirEntries ignoreDuplicates : Bool)
    (excludeFiles excludeDirs : List String) : OutputZip :=
  ((NewOutputZip writer sortEntries emulateJar stripDirEntries ignoreDuplicates).setExcludeFiles
    excludeFiles).setExcludeDirs excludeDirs

section merge

variable (Match : String → String → Bool) (inputZips : List InputZip) (writer : zipWriter)
  (sortEntries emulateJar stripDirEntries ignoreDuplicates : Bool)
  (excludeFiles excludeDirs zipsToNotStrip : List String)

/-- `mergeZips` is its loop from `startZip`, then the rearranged writes. -/
theorem mergeZips_eq :
    mergeZips Match inputZips writer sortEntries emulateJar stripDirEntries ignoreDuplicates
        excludeFiles excludeDirs zipsToNotStrip =
      (inputZips.foldlM (OutputZip.copyInputZip Match zipsToNotStrip)
          (startZip writer sortEntries emulateJar stripDirEntries ignoreDuplicates excludeFiles
            excludeDirs)) >>= fun out =>
        if emulateJar then pure (out.writeEntries out.jarSorted).outputWriter
        else if sortEntries then pure (out.writeEntries out.alphanumericSorted).outputWriter
        else pure out.outputWriter := rfl

/-- The loop of `mergeZips` copies the kept entries from `startZip`. -/
theorem copies_mergeZips_loop :
    (startZip writer sortEntries emulateJar stripDirEntries ignoreDuplicates excludeFiles
        excludeDirs).Copies
      (keptEntries Match zipsToNotStrip
        (startZip writer sortEntries emulateJar stripDirEntries ignoreDuplicates excludeFiles
          excludeDirs) inputZips)
      (inputZips.foldlM (OutputZip.copyInputZip Match zipsToNotStrip)
        (startZip writer sortEntries emulateJar stripDirEntries ignoreDuplicates excludeFiles
          excludeDirs)) := by
  have hstart := @afterCopying_nil (startZip writer sortEntries emulateJar stripDirEntries
    ignoreDuplicates excludeFiles excludeDirs) rfl
  have := copies_foldlM_copyInputZip Match zipsToNotStrip
    (startZip writer sortEntries emulateJar stripDirEntries ignoreDuplicates excludeFiles
      excludeDirs) inputZips [] List.Pairwise.nil
  rwa [hstart, List.nil_append] at this

/-- **`mergeZips` fails exactly when two kept entries clash.** -/
theorem mergeZips_eq_error_iff :
    (∃ msg, mergeZips Match inputZips writer sortEntries emulateJar stripDirEntries
        ignoreDuplicates excludeFiles excludeDirs zipsToNotStrip = .error msg) ↔
      ∃ a b, [a, b].Sublist (keptEntries Match zipsToNotStrip
          (startZip writer sortEntries emulateJar stripDirEntries ignoreDuplicates excludeFiles
            excludeDirs) inputZips) ∧
        Clash ignoreDuplicates emulateJar a b := by
  have hloop := copies_mergeZips_loop Match inputZips writer sortEntries emulateJar
    stripDirEntries ignoreDuplicates excludeFiles excludeDirs zipsToNotStrip
  rw [mergeZips_eq]
  have hclash : ¬NoClash ignoreDuplicates emulateJar (keptEntries Match zipsToNotStrip
        (startZip writer sortEntries emulateJar stripDirEntries ignoreDuplicates excludeFiles
          excludeDirs) inputZips) ↔ ∃ a b, [a, b].Sublist (keptEntries Match zipsToNotStrip
          (startZip writer sortEntries emulateJar stripDirEntries ignoreDuplicates excludeFiles
            excludeDirs) inputZips) ∧ Clash ignoreDuplicates emulateJar a b := by
    simp [NoClash, List.pairwise_iff_forall_sublist]
  rw [← hclash]
  generalize (inputZips.foldlM (OutputZip.copyInputZip Match zipsToNotStrip) _ :
    Except String OutputZip) = r at hloop ⊢
  cases r with
  | error msg => exact ⟨fun _ => hloop, fun _ => ⟨msg, rfl⟩⟩
  | ok out =>
    -- after a successful loop the writes cannot fail
    refine ⟨fun ⟨msg, hmsg⟩ => ?_, fun h => absurd (copies_ok.mp hloop).1 h⟩
    simp only [bind, Except.bind] at hmsg
    split at hmsg <;> [skip; split at hmsg] <;> cases hmsg

/-- **Without a clash `mergeZips` writes the first kept entry of each name**:
in the order of first occurrence, sorted by name, or in jar order. -/
theorem mergeZips_eq_ok
    (h : NoClash ignoreDuplicates emulateJar (keptEntries Match zipsToNotStrip
      (startZip writer sortEntries emulateJar stripDirEntries ignoreDuplicates excludeFiles
        excludeDirs) inputZips)) :
    ∃ out, mergeZips Match inputZips writer sortEntries emulateJar stripDirEntries
        ignoreDuplicates excludeFiles excludeDirs zipsToNotStrip = .ok (writer ++ out) ∧
      out.Perm (firsts (keptEntries Match zipsToNotStrip
        (startZip writer sortEntries emulateJar stripDirEntries ignoreDuplicates excludeFiles
          excludeDirs) inputZips)) ∧
      if emulateJar then (out.map Prod.fst).Pairwise fun a b => jar.EntryNamesLess a b = true
      else if sortEntries then (out.map Prod.fst).Pairwise (· < ·)
      else out = firsts (keptEntries Match zipsToNotStrip
        (startZip writer sortEntries emulateJar stripDirEntries ignoreDuplicates excludeFiles
          excludeDirs) inputZips) := by
  set oz := startZip writer sortEntries emulateJar stripDirEntries ignoreDuplicates excludeFiles
    excludeDirs with hoz
  set ks := keptEntries Match zipsToNotStrip oz inputZips with hks
  have hloop := copies_mergeZips_loop Match inputZips writer sortEntries emulateJar
    stripDirEntries ignoreDuplicates excludeFiles excludeDirs zipsToNotStrip
  rw [← hoz, ← hks] at hloop
  rw [mergeZips_eq, ← hoz]
  generalize (inputZips.foldlM (OutputZip.copyInputZip Match zipsToNotStrip) oz :
    Except String OutputZip) = r at hloop ⊢
  cases r with
  | error msg => exact absurd h (copies_error.mp hloop)
  | ok out =>
    obtain ⟨-, rfl⟩ := copies_ok.mp hloop
    have hnodup := nodup_map_fst_firsts ks
    have hwriter : (oz.afterCopying ks).outputWriter =
        if emulateJar || sortEntries then writer else writer ++ firsts ks := rfl
    by_cases hjar : emulateJar = true
    · -- jar order: the entries stay in the writer until sorted by `EntryNamesLess`
      obtain ⟨out, hout, hperm, hfst⟩ := @writeEntries_afterCopying oz _ _
        (sort.SliceStable_perm ((firsts ks).map Prod.fst) jar.EntryNamesLess)
      refine ⟨out, ?_, hperm, ?_⟩
      · simp [hjar, OutputZip.jarSorted, OutputZip.entriesArray, GoMap.keys, hout, hwriter]
      · simp only [hjar, if_true, hfst]
        exact sort.pairwise_SliceStable jar.EntryNamesLess_strictTotalOrder hnodup
    · by_cases hsort : sortEntries = true
      · -- sorted by name
        obtain ⟨out, hout, hperm, hfst⟩ := @writeEntries_afterCopying oz _ _
          (sort.Strings_perm ((firsts ks).map Prod.fst))
        refine ⟨out, ?_, hperm, ?_⟩
        · simp [hjar, hsort, OutputZip.alphanumericSorted, OutputZip.entriesArray, GoMap.keys,
            hout, hwriter]
        · simp only [hjar, hsort, Bool.false_eq_true, if_false, if_true, hfst]
          exact sort.pairwise_Strings hnodup
      · -- written as first read
        refine ⟨firsts ks, ?_, List.Perm.refl _, ?_⟩
        · simp [hjar, hsort, hwriter]
        · simp [hjar, hsort]

end merge

/-- Two jars that both hold the directory `a/`, with a class each; merged with
no exclusions, so the matcher is never asked. -/
def twoJars : List InputZip :=
  [⟨"in0", [⟨"a/", true, 0, 0, []⟩, ⟨"a/B.class", false, 1, 1, [66]⟩]⟩,
    ⟨"in1", [⟨"a/", true, 0, 0, []⟩, ⟨"a/A.class", false, 2, 1, [65]⟩]⟩]

theorem mergeZips_eq_ok_twoJars :
    NoClash false false
      (keptEntries (fun _ _ => false) [] (startZip [] true false false false [] []) twoJars) ∧
    ∃ out, mergeZips (fun _ _ => false) twoJars [] true false false false [] [] [] = .ok ([] ++ out) ∧
      out.Perm (firsts (keptEntries (fun _ _ => false) [] (startZip [] true false false false [] [])
        twoJars)) ∧
      (out.map Prod.fst).Pairwise (· < ·) := by
  have h : NoClash false false
      (keptEntries (fun _ _ => false) [] (startZip [] true false false false [] []) twoJars) := by
    unfold NoClash
    decide
  exact ⟨h, mergeZips_eq_ok (fun _ _ => false) twoJars [] true false false false [] [] [] h⟩

/-- A jar holding `META-INF/` and its manifest. -/
def metaInfZip : InputZip :=
  ⟨"in0", [⟨"META-INF/", true, 0, 0, []⟩, ⟨"META-INF/MANIFEST.MF", false, 1, 1, [65]⟩]⟩

/-- In jar mode with `-stripDir META-INF`, `META-INF/` and its manifest are both
stripped, for any matcher under which the directory's patterns match them. -/
theorem mergeZips_strips_manifest_in_jar (Match : String → String → Bool)
    (hdir : Match "META-INF/" "META-INF/" = true)
    (hmanifest : Match "META-INF/**/*" "META-INF/MANIFEST.MF" = true) :
    mergeZips Match [metaInfZip] [] false true false false [] ["META-INF"] [] = .ok [] := by
  have hclean : filepath.Clean "META-INF" = "META-INF" := by decide
  simp [mergeZips, metaInfZip, OutputZip.copyInputZip, OutputZip.isEntryExcluded, NewOutputZip,
    OutputZip.setExcludeDirs, OutputZip.setExcludeFiles, hclean, hdir, hmanifest]
  rfl

/-- `pathtools.Match` on the patterns and names of a `-stripDir META-INF` run
over `metaInfZip`: a pattern ending in `/` matches directories only, so
`META-INF/` matches the directory alone and `META-INF/**/*` only what lies
under it, the manifest. -/
def metaInfMatch (pattern name : String) : Bool :=
  (pattern, name) ∈ [("META-INF/", "META-INF/"), ("META-INF/**/*", "META-INF/MANIFEST.MF")]

theorem mergeZips_strips_manifest_in_jar_metaInfMatch :
    mergeZips metaInfMatch [metaInfZip] [] false true false false [] ["META-INF"] [] = .ok [] :=
  mergeZips_strips_manifest_in_jar _ (by decide) (by decide)

end MergeZips

end Soong
