import Mathlib
import Soong.Lib.PyStr
import Soong.Lib.GoMap

/-!
# Symbol files of the NDK stubs

`cc/symbolfile` reads the symbol files (`libc.map.txt` and the like) that list,
in version blocks, the symbols a stub library exports, each with tags: an
architecture, `introduced=21`, `versioned=N`, `future`, `var`, `weak`, and the
mode tags `apex`, `systemapi`, `llndk` and `platform-only`.  The tags decide,
for an architecture, an API level and a mode, which versions and symbols a
stub keeps (`should_omit_version`, `should_omit_symbol`) and which are
versioned (`symbol_versioned_in_api`).

Strings are lists of characters, and a file is the list of its lines, each
without its newline.  Python's exceptions are the errors of `Except`, with
their texts; `int()` that fails raises `ValueError`.

`SymbolFileParser` is a machine over the lines: `parse` at the top level and
`parse_version` inside a block are its two states (`ParseState`), and
`SymbolFileParser.step` reads one line that `next_line` does not skip.

## Main definitions

* `Tags`, `Symbol`, `Version` and the tag tests of the source.
* `should_omit_tags`, `should_omit_version`, `should_omit_symbol`,
  `symbol_in_arch`, `symbol_in_api`, `symbol_versioned_in_api`.
* `get_tags`, `decode_api_level_tag` — the tags of a line.
* `SymbolFileParser.step`, `SymbolFileParser.run`, `SymbolFileParser.parse`,
  `SymbolFileParser.check_no_duplicate_symbols`.
-/

namespace Soong

namespace symbolfile

/-- A tag, such as `introduced=21` or `weak`. -/
abbrev Tag := List Char

/-- An architecture name. -/
abbrev Arch := List Char

/-- `Tags`: the tags attached to a symbol or a version, in order. -/
abbrev Tags := List Tag

/-- `ApiMap`: API codenames and their levels, a dict in insertion order. -/
abbrev ApiMap := List (List Char × Int)

def ALL_ARCHITECTURES : List Arch := ["arm".toList, "arm64".toList, "x86".toList, "x86_64".toList]

def FUTURE_API_LEVEL : Int := 10000

def Tags.has_apex_tags (tags : Tags) : Bool :=
  tags.contains "apex".toList || tags.contains "systemapi".toList

def Tags.has_llndk_tags (tags : Tags) : Bool := tags.contains "llndk".toList

def Tags.has_mode_tags (tags : Tags) : Bool := tags.has_apex_tags || tags.has_llndk_tags

def Tags.has_platform_only_tags (tags : Tags) : Bool := tags.contains "platform-only".toList

/-- A symbol definition from a symbol file. -/
structure Symbol where
  name : List Char
  tags : Tags
  deriving DecidableEq, Repr

/-- A version block of a symbol file. -/
structure Version where
  name : List Char
  base : Option (List Char)
  tags : Tags
  symbols : List Symbol
  deriving DecidableEq, Repr

/-- `Version.is_private`: a platform-only block. -/
def Version.is_private (version : Version) : Bool :=
  "_PRIVATE".toList.isSuffixOf version.name || "_PLATFORM".toList.isSuffixOf version.name

/-! ### Reading the tags of a line -/

/-- `int(value)`: Python's `ValueError` where the text is no number. -/
def pyInt (value : List Char) : Except String Int :=
  match str.toInt value with
  | some n => .ok n
  | none => .error ("invalid literal for int() with base 10: '" ++ String.ofList value ++ "'")

def is_api_level_tag (tag : Tag) : Bool :=
  "introduced=".toList.isPrefixOf tag || "introduced-".toList.isPrefixOf tag ||
    "versioned=".toList.isPrefixOf tag

/-- `split_tag(tag)`: the key and the value of a `key=value` tag. -/
def split_tag (tag : Tag) : Except String (List Char × List Char) :=
  if '=' ∈ tag then
    let (key, _, value) := str.partition tag '='
    .ok (key, value)
  else .error ("Not a key/value tag: " ++ String.ofList tag)

def get_tag_value (tag : Tag) : Except String (List Char) := do
  let (_, value) ← split_tag tag
  return value

/-- `decode_api_level(api, api_map)`: a number, `current`, or a codename of the
map; `none` where Python raises `KeyError`. -/
def decode_api_level (api : List Char) (api_map : ApiMap) : Option Int :=
  match str.toInt api with
  | some n => some n
  | none => if api = "current".toList then some FUTURE_API_LEVEL else GoMap.get? api_map api

/-- `decode_api_level_tag(tag, api_map)`: an API level tag with its codename
replaced by its number. -/
def decode_api_level_tag (tag : Tag) (api_map : ApiMap) : Except String Tag :=
  if is_api_level_tag tag then do
    let (name, value) ← split_tag tag
    match decode_api_level value api_map with
    | some decoded => .ok (name ++ ['='] ++ str.ofInt decoded)
    | none => .error ("Unknown version name in tag: " ++ String.ofList tag)
  else .ok tag

/-- `get_tags(line, api_map)`: the words after the first `#`, decoded. -/
def get_tags (line : List Char) (api_map : ApiMap) : Except String Tags :=
  let (_, _, all_tags) := str.partition (str.strip line) '#'
  (str.words all_tags).mapM fun e => decode_api_level_tag e api_map

/-! ### Which versions and symbols a stub keeps -/

/-- The loop of `symbol_in_arch`, with `has_arch_tags` so far. -/
def symbolInArchLoop (arch : Arch) : List Tag → Bool → Bool
  | [], has_arch_tags => !has_arch_tags
  | tag :: rest, has_arch_tags =>
    if tag = arch then true
    else symbolInArchLoop arch rest (has_arch_tags || ALL_ARCHITECTURES.contains tag)

/-- `symbol_in_arch(tags, arch)`: tagged with `arch`, or with no architecture. -/
def symbol_in_arch (tags : Tags) (arch : Arch) : Bool := symbolInArchLoop arch tags false

/-- The loop of `symbol_in_api`, with the `introduced` tag chosen so far and
whether it is the architecture's own. -/
def symbolInApiLoop (arch : Arch) (api : Int) : List Tag → Option Tag → Bool → Except String Bool
  | [], none, _ => .ok true
  | [], some introduced_tag, _ => do
    let value ← get_tag_value introduced_tag
    let n ← pyInt value
    return decide (n ≤ api)
  | tag :: rest, introduced_tag, arch_specific =>
    -- an `introduced-<arch>=` tag overrides the common one
    if "introduced=".toList.isPrefixOf tag && !arch_specific then
      symbolInApiLoop arch api rest (some tag) arch_specific
    else if ("introduced-".toList ++ arch ++ ['=']).isPrefixOf tag then
      symbolInApiLoop arch api rest (some tag) true
    else if tag = "future".toList then .ok (decide (api = FUTURE_API_LEVEL))
    else symbolInApiLoop arch api rest introduced_tag arch_specific

/-- `symbol_in_api(tags, arch, api)`. -/
def symbol_in_api (tags : Tags) (arch : Arch) (api : Int) : Except String Bool :=
  symbolInApiLoop arch api tags none false

/-- `symbol_versioned_in_api(tags, api)`: the first `versioned=` tag decides. -/
def symbol_versioned_in_api : Tags → Int → Except String Bool
  | [], _ => .ok true
  | tag :: rest, api =>
    if "versioned=".toList.isPrefixOf tag then do
      let value ← get_tag_value tag
      let n ← pyInt value
      return decide (n ≤ api)
    else symbol_versioned_in_api rest api

/-- `_should_omit_tags(tags, arch, api, llndk, apex)`: the mode tags exclude
the other modes, then the architecture and the API level decide. -/
def should_omit_tags (tags : Tags) (arch : Arch) (api : Int) (llndk apex : Bool) :
    Except String Bool :=
  if tags.has_mode_tags && ((!apex && !llndk) || (apex && !tags.has_apex_tags) ||
      (llndk && !tags.has_llndk_tags)) then .ok true
  else if !symbol_in_arch tags arch then .ok true
  else do
    let in_api ← symbol_in_api tags arch api
    return !in_api

def should_omit_version (version : Version) (arch : Arch) (api : Int) (llndk apex : Bool) :
    Except String Bool :=
  if version.is_private then .ok true
  else if version.tags.has_platform_only_tags then .ok true
  else should_omit_tags version.tags arch api llndk apex

def should_omit_symbol (symbol : Symbol) (arch : Arch) (api : Int) (llndk apex : Bool) :
    Except String Bool :=
  should_omit_tags symbol.tags arch api llndk apex

/-! ### The parser -/

/-- `SymbolFileParser(input_file, api_map, arch, api, llndk, apex)`, but for
the file, which its functions take as the list of lines still to read. -/
structure SymbolFileParser where
  api_map : ApiMap
  arch : Arch
  api : Int
  llndk : Bool
  apex : Bool

/-- What `next_line` does with a line it reads: skip it when it is blank or a
comment. -/
def next_line_skips (line : List Char) : Bool :=
  (str.strip line).isEmpty || "#".toList.isPrefixOf (str.strip line)

/-- Where `parse` stands: at the top level with the versions read, or inside
`parse_version` with the block's name, tags, symbols and its two flags. -/
inductive ParseState
  | top (versions : List Version)
  | version (versions : List Version) (name : List Char) (tags : Tags) (symbols : List Symbol)
      (global_scope cpp_symbols : Bool)
  deriving DecidableEq, Repr

namespace SymbolFileParser

variable (p : SymbolFileParser)

/-- `parse_symbol()`: a line `name; # tags`. -/
def parse_symbol (line : List Char) : Except String Symbol :=
  if ';' ∉ line then .error ("Expected ; to terminate symbol: " ++ String.ofList line)
  else if '*' ∈ line then .error "Wildcard global symbols are not permitted."
  else do
    let (name, _, _) := str.partition (str.strip line) ';'
    let tags ← get_tags line p.api_map
    return ⟨name, tags⟩

/-- The end of a block: `} BASE; # tags`, the base and tags being optional. -/
def close_version (versions : List Version) (name : List Char) (tags : Tags)
    (symbols : List Symbol) (global_scope cpp_symbols : Bool) (line : List Char) :
    Except String ParseState :=
  let base := str.strip (str.partition (str.partition line '}').2.2 '#').1
  if !";".toList.isSuffixOf base then
    .error "Unterminated version/export \"C++\" block (expected ;)."
  else if cpp_symbols then .ok (.version versions name tags symbols global_scope false)
  else
    let base := str.rstrip (str.rstrip base (· == ';')) str.isspace
    .ok (.top (versions ++ [⟨name, if base.isEmpty then none else some base, tags, symbols⟩]))

/-- One line that `next_line` returns, read by `parse` at the top level or by
the loop of `parse_version` inside a block. -/
def step : ParseState → List Char → Except String ParseState
  | .top versions, line =>
    if '{' ∈ line then do
      -- `parse_version` starts on this line
      let tags ← get_tags line p.api_map
      return .version versions (str.strip (line.takeWhile (· != '{'))) tags [] true false
    else .error ("Unexpected contents at top level: " ++ String.ofList line)
  | .version versions name tags symbols global_scope cpp_symbols, line =>
    if '}' ∈ line then
      close_version versions name tags symbols global_scope cpp_symbols line
    else if "extern \"C++\" \x7b".toList <:+: line then
      .ok (.version versions name tags symbols global_scope true)
    else if !cpp_symbols && ':' ∈ line then
      let visibility := str.strip (line.takeWhile (· != ':'))
      if visibility = "local".toList then .ok (.version versions name tags symbols false cpp_symbols)
      else if visibility = "global".toList then
        .ok (.version versions name tags symbols true cpp_symbols)
      else .error ("Unknown visiblity label: " ++ String.ofList visibility)
    else if global_scope && !cpp_symbols then do
      let symbol ← p.parse_symbol line
      return .version versions name tags (symbols ++ [symbol]) global_scope cpp_symbols
    else
      -- a hidden scope or an `extern "C++"` block: ignored
      .ok (.version versions name tags symbols global_scope cpp_symbols)

/-- The lines of the file, each one `next_line` does not skip read by `step`. -/
def run : ParseState → List (List Char) → Except String ParseState
  | st, [] => .ok st
  | st, line :: rest =>
    if next_line_skips line then run st rest
    else do
      let st' ← p.step st line
      run st' rest

/-- One symbol of `check_no_duplicate_symbols`: the names seen, and those seen
more than once, as sets. -/
def checkSymbol (seen : List (List Char) × List (List Char)) (symbol : Symbol) :
    Except String (List (List Char) × List (List Char)) := do
  let omitted ← should_omit_symbol symbol p.arch p.api p.llndk p.apex
  if omitted then return seen
  else
    let (symbol_names, multiply_defined_symbols) := seen
    let multiply_defined_symbols :=
      if symbol.name ∈ symbol_names then multiply_defined_symbols.insert symbol.name
      else multiply_defined_symbols
    return (symbol_names.insert symbol.name, multiply_defined_symbols)

/-- One version of `check_no_duplicate_symbols`. -/
def checkVersion (seen : List (List Char) × List (List Char)) (version : Version) :
    Except String (List (List Char) × List (List Char)) := do
  let omitted ← should_omit_version version p.arch p.api p.llndk p.apex
  if omitted then return seen
  else version.symbols.foldlM p.checkSymbol seen

/-- `check_no_duplicate_symbols(versions)`: `MultiplyDefinedSymbolError` names
the symbols kept twice, sorted. -/
def check_no_duplicate_symbols (versions : List Version) : Except String Unit := do
  let (_, multiply_defined_symbols) ← versions.foldlM p.checkVersion ([], [])
  if multiply_defined_symbols.isEmpty then return ()
  else .error ("Version script contains multiple definitions for: " ++
    ", ".intercalate ((multiply_defined_symbols.mergeSort fun a b => decide (a ≤ b)).map String.ofList))

/-- `parse()`: the versions of the file, which must not end inside a block. -/
def parse (lines : List (List Char)) : Except String (List Version) := do
  match ← p.run (.top []) lines with
  | .top versions => do
    p.check_no_duplicate_symbols versions
    return versions
  | .version .. => .error "Unexpected EOF in version block."

end SymbolFileParser

/-! ### Tags the generator can read -/

/-- Whether `symbol_in_api` or `symbol_versioned_in_api` may read a number
from a tag: an `introduced=`, the architecture's `introduced-<arch>=`, or a
`versioned=` tag. -/
def readsNumber (arch : Arch) (tag : Tag) : Bool :=
  "introduced=".toList.isPrefixOf tag || ("introduced-".toList ++ arch ++ ['=']).isPrefixOf tag ||
    "versioned=".toList.isPrefixOf tag

/-- A tag whose number, where one is read, is a number `int()` accepts. -/
def TagOk (arch : Arch) (tag : Tag) : Prop :=
  readsNumber arch tag = true → (str.toInt (str.partition tag '=').2.2).isSome

/-- Every tag of a version and of its symbols is one the generator can read. -/
def Version.TagsOk (arch : Arch) (version : Version) : Prop :=
  (∀ t ∈ version.tags, TagOk arch t) ∧ ∀ s ∈ version.symbols, ∀ t ∈ s.tags, TagOk arch t

instance (arch : Arch) : DecidablePred (TagOk arch) := fun tag =>
  inferInstanceAs (Decidable (readsNumber arch tag = true → _))

instance (arch : Arch) : DecidablePred (Version.TagsOk arch) := fun version =>
  inferInstanceAs (Decidable ((∀ t ∈ version.tags, TagOk arch t) ∧ _))

theorem eq_mem_of_readsNumber {arch : Arch} {tag : Tag} (h : readsNumber arch tag = true) :
    '=' ∈ tag := by
  simp only [readsNumber, Bool.or_eq_true, List.isPrefixOf_iff_prefix] at h
  rcases h with (h | h) | h <;> exact h.subset (by simp)

/-- The number of a tag the generator reads: reading it raises nothing. -/
theorem tag_number {arch : Arch} {tag : Tag} (hok : TagOk arch tag)
    (h : readsNumber arch tag = true) :
    ∃ n : Int, ∀ k : Int → Except String Bool,
      (do let value ← get_tag_value tag; let n ← pyInt value; k n) = k n := by
  obtain ⟨n, hn⟩ := Option.isSome_iff_exists.mp (hok h)
  refine ⟨n, fun k => ?_⟩
  simp only [get_tag_value, split_tag, if_pos (eq_mem_of_readsNumber h), bind, Except.bind, pure,
    Except.pure, pyInt, hn]

theorem symbolInApiLoop_ok {arch : Arch} (api : Int) :
    ∀ (tags : List Tag) (introduced_tag : Option Tag) (arch_specific : Bool),
      (∀ t ∈ tags, TagOk arch t) →
      (∀ t ∈ introduced_tag, TagOk arch t ∧ readsNumber arch t = true) →
      ∃ b, symbolInApiLoop arch api tags introduced_tag arch_specific = .ok b
  | [], none, _, _, _ => ⟨true, rfl⟩
  | [], some t, _, _, hintro => by
    obtain ⟨hok, hr⟩ := hintro t rfl
    obtain ⟨n, hn⟩ := tag_number hok hr
    exact ⟨decide (n ≤ api), by rw [symbolInApiLoop, hn]; rfl⟩
  | tag :: rest, introduced_tag, arch_specific, htags, hintro => by
    have hrest : ∀ t ∈ rest, TagOk arch t := fun t ht => htags t (List.mem_cons_of_mem _ ht)
    -- a tag chosen as the `introduced` one is read at the end
    have hchosen : readsNumber arch tag = true →
        ∀ t ∈ some tag, TagOk arch t ∧ readsNumber arch t = true := by
      intro hr t ht
      rw [Option.mem_def, Option.some.injEq] at ht
      subst ht
      exact ⟨htags tag List.mem_cons_self, hr⟩
    rw [symbolInApiLoop]
    split_ifs with hcommon hown
    · refine symbolInApiLoop_ok api rest _ _ hrest (hchosen ?_)
      rw [Bool.and_eq_true] at hcommon
      simp only [readsNumber, hcommon.1, Bool.true_or]
    · refine symbolInApiLoop_ok api rest _ _ hrest (hchosen ?_)
      simp only [readsNumber, hown, Bool.true_or, Bool.or_true]
    · exact ⟨_, rfl⟩
    · exact symbolInApiLoop_ok api rest introduced_tag arch_specific hrest hintro

theorem symbol_in_api_ok {tags : Tags} {arch : Arch} (h : ∀ t ∈ tags, TagOk arch t) (api : Int) :
    ∃ b, symbol_in_api tags arch api = .ok b :=
  symbolInApiLoop_ok api tags none false h (fun _ ht => by cases ht)

/-! ### Which `introduced` tag decides -/

/-- An `introduced=` tag, common to the architectures. -/
def commonIntroduced (tag : Tag) : Bool := "introduced=".toList.isPrefixOf tag

/-- An `introduced-<arch>=` tag of the architecture. -/
def archIntroduced (arch : Arch) (tag : Tag) : Bool :=
  ("introduced-".toList ++ arch ++ ['=']).isPrefixOf tag

/-- Reading the API level from the `introduced` tag chosen, as the end of
`symbol_in_api` does: with none, the symbol has always been there. -/
def introducedIn (api : Int) : Option Tag → Except String Bool
  | none => .ok true
  | some introduced_tag => do
    let value ← get_tag_value introduced_tag
    let n ← pyInt value
    return decide (n ≤ api)

theorem symbolInApiLoop_nil (arch : Arch) (api : Int) (introduced_tag : Option Tag)
    (arch_specific : Bool) :
    symbolInApiLoop arch api [] introduced_tag arch_specific = introducedIn api introduced_tag := by
  cases introduced_tag <;> rfl

theorem not_archIntroduced_of_commonIntroduced {arch : Arch} {tag : Tag}
    (h : commonIntroduced tag = true) : archIntroduced arch tag = false := by
  rw [commonIntroduced, List.isPrefixOf_iff_prefix] at h
  rw [Bool.eq_false_iff, archIntroduced, Ne, List.isPrefixOf_iff_prefix]
  intro harch
  -- both are prefixes of the tag, so the shorter is one of the longer; they
  -- differ at their eleventh character, `=` against `-`
  obtain ⟨t, ht⟩ := List.prefix_of_prefix_length_le h harch (by simp)
  have h10 := congrArg (·[10]?) ht
  simp at h10

/-- The loop of `symbol_in_api` from any state: a `future` tag anywhere
decides; otherwise the last tag of the architecture wins, and failing one the
tag chosen so far if it is the architecture's, or the last common tag. -/
theorem symbolInApiLoop_eq (arch : Arch) (api : Int) :
    ∀ (tags : List Tag) (introduced_tag : Option Tag) (arch_specific : Bool),
      symbolInApiLoop arch api tags introduced_tag arch_specific =
        if "future".toList ∈ tags then .ok (decide (api = FUTURE_API_LEVEL))
        else introducedIn api
          (match (tags.filter (archIntroduced arch)).getLast? with
            | some tag => some tag
            | none => if arch_specific then introduced_tag
              else ((tags.filter commonIntroduced).getLast?).or introduced_tag)
  | [], introduced_tag, arch_specific => by
    rw [symbolInApiLoop_nil]
    cases arch_specific <;> simp
  | tag :: rest, introduced_tag, arch_specific => by
    have ih := symbolInApiLoop_eq arch api rest
    rw [symbolInApiLoop]
    by_cases hfuture : tag = "future".toList
    · -- `future` returns at once: it is no `introduced` tag
      subst hfuture
      simp
    -- otherwise `future` is in the tags exactly when it is in the rest
    have hmem : "future".toList ∈ tag :: rest ↔ "future".toList ∈ rest := by
      rw [List.mem_cons, or_iff_right (Ne.symm hfuture)]
    simp only [hmem]
    by_cases hc : commonIntroduced tag = true
    · have ha : archIntroduced arch tag = false := not_archIntroduced_of_commonIntroduced hc
      cases arch_specific
      · -- a common tag, before any of the architecture's, is chosen
        rw [if_pos (by simpa [commonIntroduced] using hc), ih, List.filter_cons_of_neg (by simp [ha]),
          List.filter_cons_of_pos hc, List.getLast?_cons]
        by_cases hf : "future".toList ∈ rest
        · rw [if_pos hf, if_pos hf]
        · rw [if_neg hf, if_neg hf]
          congr 1
          cases (rest.filter (archIntroduced arch)).getLast? <;>
            cases (rest.filter commonIntroduced).getLast? <;> rfl
      · -- after the architecture's tag a common one is skipped
        rw [if_neg (by simp), if_neg (by rw [Bool.not_eq_true]; exact ha), if_neg hfuture, ih,
          List.filter_cons_of_neg (by simp [ha]), List.filter_cons_of_pos hc]
        rfl
    · have hc' : "introduced=".toList.isPrefixOf tag = false := Bool.eq_false_iff.mpr hc
      have hnotcommon : ¬("introduced=".toList.isPrefixOf tag && !arch_specific) = true := by
        rw [hc', Bool.false_and]
        exact Bool.false_ne_true
      by_cases ha : archIntroduced arch tag = true
      · -- a tag of the architecture overrides
        rw [if_neg hnotcommon,
          if_pos (show (("introduced-".toList ++ arch ++ ['=']).isPrefixOf tag) = true from ha), ih,
          List.filter_cons_of_pos ha, List.getLast?_cons]
        by_cases hf : "future".toList ∈ rest
        · rw [if_pos hf, if_pos hf]
        · rw [if_neg hf, if_neg hf]
          congr 1
          cases (rest.filter (archIntroduced arch)).getLast? <;> rfl
      · -- any other tag is skipped
        rw [if_neg hnotcommon, if_neg (by rw [Bool.not_eq_true]; exact Bool.eq_false_iff.mpr ha),
          if_neg hfuture, ih, List.filter_cons_of_neg ha, List.filter_cons_of_neg hc]

/-- **An architecture's `introduced` tag overrides the common ones, wherever
it stands.**  `symbol_in_api` decides by a `future` tag if there is one,
otherwise by the last `introduced-<arch>=` tag, and failing one the last
`introduced=` tag; with neither, the symbol has always been there. -/
theorem symbol_in_api_eq (tags : Tags) (arch : Arch) (api : Int) :
    symbol_in_api tags arch api =
      if "future".toList ∈ tags then .ok (decide (api = FUTURE_API_LEVEL))
      else introducedIn api
        (((tags.filter (archIntroduced arch)).getLast?).or
          ((tags.filter commonIntroduced).getLast?)) := by
  rw [symbol_in_api, symbolInApiLoop_eq]
  cases (tags.filter (archIntroduced arch)).getLast? <;> simp

theorem symbol_versioned_in_api_ok {arch : Arch} (api : Int) :
    ∀ {tags : Tags}, (∀ t ∈ tags, TagOk arch t) → ∃ b, symbol_versioned_in_api tags api = .ok b
  | [], _ => ⟨true, rfl⟩
  | tag :: rest, h => by
    rw [symbol_versioned_in_api]
    split_ifs with hv
    · obtain ⟨n, hn⟩ := tag_number (h tag List.mem_cons_self)
        (by simp only [readsNumber, hv, Bool.or_true])
      exact ⟨decide (n ≤ api), hn _⟩
    · exact symbol_versioned_in_api_ok api fun t ht => h t (List.mem_cons_of_mem _ ht)

theorem should_omit_tags_ok {tags : Tags} {arch : Arch} (h : ∀ t ∈ tags, TagOk arch t)
    (api : Int) (llndk apex : Bool) : ∃ b, should_omit_tags tags arch api llndk apex = .ok b := by
  obtain ⟨b, hb⟩ := symbol_in_api_ok h api
  rw [should_omit_tags]
  split_ifs
  · exact ⟨true, rfl⟩
  · exact ⟨true, rfl⟩
  · exact ⟨!b, by rw [hb]; rfl⟩

theorem should_omit_version_ok {version : Version} {arch : Arch}
    (h : ∀ t ∈ version.tags, TagOk arch t) (api : Int) (llndk apex : Bool) :
    ∃ b, should_omit_version version arch api llndk apex = .ok b := by
  rw [should_omit_version]
  split_ifs
  · exact ⟨true, rfl⟩
  · exact ⟨true, rfl⟩
  · exact should_omit_tags_ok h api llndk apex

theorem should_omit_symbol_ok {symbol : Symbol} {arch : Arch}
    (h : ∀ t ∈ symbol.tags, TagOk arch t) (api : Int) (llndk apex : Bool) :
    ∃ b, should_omit_symbol symbol arch api llndk apex = .ok b :=
  should_omit_tags_ok h api llndk apex

/-! ### What is untagged -/

@[simp] theorem should_omit_tags_nil (arch : Arch) (api : Int) (llndk apex : Bool) :
    should_omit_tags [] arch api llndk apex = .ok false := rfl

theorem should_omit_version_untagged {version : Version} (hprivate : version.is_private = false)
    (htags : version.tags = []) (arch : Arch) (api : Int) (llndk apex : Bool) :
    should_omit_version version arch api llndk apex = .ok false := by
  rw [should_omit_version, if_neg (by simp [hprivate]), htags]
  rfl

/-! ### Running the parser -/

@[simp] theorem ok_bind {α β : Type} (a : α) (f : α → Except String β) :
    (Except.ok a >>= f) = f a := rfl

@[simp] theorem pure_eq_ok {α : Type} (a : α) : (pure a : Except String α) = .ok a := rfl

/-- A line with no `#` after its white space carries no tags. -/
theorem get_tags_of_not_mem {line : List Char} (h : '#' ∉ str.strip line) (api_map : ApiMap) :
    get_tags line api_map = .ok [] := by
  rw [get_tags, str.partition_of_not_mem h]
  rfl

namespace SymbolFileParser

variable (p : SymbolFileParser)

@[simp] theorem run_nil (st : ParseState) : p.run st [] = .ok st := rfl

theorem run_step {line : List Char} (h : next_line_skips line = false) {st st' : ParseState}
    (hstep : p.step st line = .ok st') (rest : List (List Char)) :
    p.run st (line :: rest) = p.run st' rest := by
  rw [run, h, hstep]
  rfl

/-- With no symbol omitted and none seen yet, the names are gathered and none
is seen twice. -/
theorem foldlM_checkSymbol : ∀ (symbols : List Symbol) (names : List (List Char)),
    (∀ s ∈ symbols, s.tags = []) → (symbols.map Symbol.name).Nodup →
    (∀ s ∈ symbols, s.name ∉ names) →
    symbols.foldlM p.checkSymbol (names, []) = .ok ((symbols.map Symbol.name).reverse ++ names, [])
  | [], _, _, _, _ => rfl
  | s :: symbols, names, htags, hnd, hnew => by
    rw [List.map_cons, List.nodup_cons] at hnd
    have hs : p.checkSymbol (names, []) s = .ok (s.name :: names, []) := by
      have hnot := hnew s List.mem_cons_self
      simp [checkSymbol, should_omit_symbol, htags s List.mem_cons_self, hnot]
    have hrest : ∀ s' ∈ symbols, s'.name ∉ s.name :: names := by
      intro s' hs' hmem
      rcases List.mem_cons.mp hmem with h | h
      · exact hnd.1 (h ▸ List.mem_map_of_mem hs')
      · exact hnew s' (List.mem_cons_of_mem _ hs') h
    rw [List.foldlM_cons, hs, ok_bind,
      foldlM_checkSymbol symbols _ (fun s' hs' => htags s' (List.mem_cons_of_mem _ hs')) hnd.2 hrest]
    simp

/-- Versions read from an untagged file, with distinct symbol names: none is
omitted, and no name is seen twice. -/
theorem foldlM_checkVersion : ∀ (versions : List Version) (names : List (List Char)),
    (∀ v ∈ versions, v.is_private = false ∧ v.tags = [] ∧ ∀ s ∈ v.symbols, s.tags = []) →
    ((versions.flatMap Version.symbols).map Symbol.name).Nodup →
    (∀ s ∈ versions.flatMap Version.symbols, s.name ∉ names) →
    ∃ names', versions.foldlM p.checkVersion (names, []) = .ok (names', [])
  | [], names, _, _, _ => ⟨names, rfl⟩
  | v :: versions, names, hv, hnd, hnew => by
    obtain ⟨hprivate, htags, hsymbols⟩ := hv v List.mem_cons_self
    rw [List.flatMap_cons, List.map_append, List.nodup_append] at hnd
    have hstep : p.checkVersion (names, []) v =
        .ok ((v.symbols.map Symbol.name).reverse ++ names, []) := by
      rw [checkVersion, should_omit_version_untagged hprivate htags, ok_bind, if_neg Bool.false_ne_true]
      exact p.foldlM_checkSymbol v.symbols names hsymbols hnd.1
        fun s hs => hnew s (List.mem_append_left _ hs)
    -- the names of the later versions are neither this version's nor seen before
    have hrest : ∀ s ∈ versions.flatMap Version.symbols,
        s.name ∉ (v.symbols.map Symbol.name).reverse ++ names := by
      intro s hs hmem
      rcases List.mem_append.mp hmem with h | h
      · exact hnd.2.2 _ (List.mem_reverse.mp h) _ (List.mem_map_of_mem hs) rfl
      · exact hnew s (List.mem_append_right _ hs) h
    rw [List.foldlM_cons, hstep, ok_bind]
    exact foldlM_checkVersion versions _ (fun v' hv' => hv v' (List.mem_cons_of_mem _ hv')) hnd.2.1
      hrest

/-- **An untagged file of distinct symbols has no duplicates to report.** -/
theorem check_no_duplicate_symbols_ok {versions : List Version}
    (hv : ∀ v ∈ versions, v.is_private = false ∧ v.tags = [] ∧ ∀ s ∈ v.symbols, s.tags = [])
    (hnd : ((versions.flatMap Version.symbols).map Symbol.name).Nodup) :
    p.check_no_duplicate_symbols versions = .ok () := by
  obtain ⟨names, h⟩ := p.foldlM_checkVersion versions [] hv hnd fun _ _ h => by cases h
  rw [check_no_duplicate_symbols, h]
  rfl

/-! ### What the duplicate check reports -/

/-- The symbols `check_no_duplicate_symbols` walks in a version: none of a
version it omits, and of the others those it does not omit. -/
def checkedSymbols (version : Version) : List Symbol :=
  if should_omit_version version p.arch p.api p.llndk p.apex = .ok false then
    version.symbols.filter fun s => decide (should_omit_symbol s p.arch p.api p.llndk p.apex = .ok false)
  else []

/-- One name the loop of `check_no_duplicate_symbols` does not skip: it joins
the names seen, and, seen before, the names multiply defined. -/
def addName (seen : List (List Char) × List (List Char)) (name : List Char) :
    List (List Char) × List (List Char) :=
  (seen.1.insert name, if name ∈ seen.1 then seen.2.insert name else seen.2)

/-- The names of a walk defined more than once, each once. -/
def multiplyDefined (names : List (List Char)) : List (List Char) :=
  names.dedup.filter fun name => 2 ≤ names.count name

theorem checkSymbol_eq (seen : List (List Char) × List (List Char)) {symbol : Symbol}
    (h : ∀ t ∈ symbol.tags, TagOk p.arch t) :
    p.checkSymbol seen symbol =
      .ok (if should_omit_symbol symbol p.arch p.api p.llndk p.apex = .ok false then
        addName seen symbol.name else seen) := by
  obtain ⟨b, hb⟩ := should_omit_symbol_ok h p.api p.llndk p.apex
  cases b <;> simp [checkSymbol, hb, addName]

theorem foldlM_checkSymbol_eq (symbols : List Symbol) (seen : List (List Char) × List (List Char))
    (h : ∀ s ∈ symbols, ∀ t ∈ s.tags, TagOk p.arch t) :
    symbols.foldlM p.checkSymbol seen = .ok (((symbols.filter fun s =>
      decide (should_omit_symbol s p.arch p.api p.llndk p.apex = .ok false)).map
        Symbol.name).foldl addName seen) := by
  induction symbols generalizing seen with
  | nil => rfl
  | cons s symbols ih =>
    rw [List.foldlM_cons, p.checkSymbol_eq seen (h s List.mem_cons_self), ok_bind,
      ih _ fun s' hs' => h s' (List.mem_cons_of_mem _ hs'), List.filter_cons]
    split_ifs with hkeep <;> simp_all

theorem foldlM_checkVersion_eq (versions : List Version) (seen : List (List Char) × List (List Char))
    (hok : ∀ v ∈ versions, v.TagsOk p.arch) :
    versions.foldlM p.checkVersion seen =
      .ok (((versions.flatMap p.checkedSymbols).map Symbol.name).foldl addName seen) := by
  induction versions generalizing seen with
  | nil => rfl
  | cons v versions ih =>
    obtain ⟨htags, hsymbols⟩ := hok v List.mem_cons_self
    have hrest := fun seen => ih seen fun v' hv' => hok v' (List.mem_cons_of_mem _ hv')
    obtain ⟨b, hb⟩ := should_omit_version_ok htags p.api p.llndk p.apex
    rw [List.foldlM_cons, List.flatMap_cons, List.map_append, List.foldl_append]
    cases b
    · -- a version kept: its symbols not omitted are walked
      rw [checkVersion, checkedSymbols, hb, ok_bind, if_neg Bool.false_ne_true,
        p.foldlM_checkSymbol_eq _ _ hsymbols, ok_bind, hrest, if_pos rfl]
    · -- a version omitted is skipped
      rw [checkVersion, checkedSymbols, hb, ok_bind, if_pos rfl, pure_eq_ok, ok_bind, hrest,
        if_neg (fun h => by cases h), List.map_nil, List.foldl_nil]

/-- What the loop knows after the names `names`: the names seen, and those
seen more than once, each once. -/
def Tally (names : List (List Char)) (seen : List (List Char) × List (List Char)) : Prop :=
  seen.1.Nodup ∧ (∀ x, x ∈ seen.1 ↔ x ∈ names) ∧ seen.2.Nodup ∧
    ∀ x, x ∈ seen.2 ↔ 2 ≤ names.count x

theorem Tally.add {names : List (List Char)} {seen : List (List Char) × List (List Char)}
    (h : Tally names seen) (name : List Char) :
    Tally (names ++ [name]) (addName seen name) := by
  obtain ⟨hnd, hmem, hdnd, hdup⟩ := h
  refine ⟨hnd.insert, fun x => ?_, ?_, fun x => ?_⟩
  · simp [SymbolFileParser.addName, List.mem_insert_iff, hmem, or_comm]
  · unfold SymbolFileParser.addName
    split_ifs
    · exact hdnd.insert
    · exact hdnd
  · have hc : (names ++ [name]).count x = names.count x + if x = name then 1 else 0 := by
      by_cases hx : x = name
      · subst hx
        simp
      · simp [hx, Ne.symm hx]
    rw [hc]
    unfold SymbolFileParser.addName
    by_cases hx : x = name
    · -- the name is multiply defined exactly when it was seen before
      subst hx
      rw [if_pos rfl]
      by_cases hseen : x ∈ seen.1
      · have hpos : 0 < names.count x := List.count_pos_iff.mpr ((hmem x).mp hseen)
        rw [if_pos hseen, List.mem_insert_iff]
        simp only [true_or, true_iff]
        omega
      · have h0 : names.count x = 0 := List.count_eq_zero.mpr fun h => hseen ((hmem x).mpr h)
        rw [if_neg hseen, hdup]
        omega
    · rw [if_neg hx, Nat.add_zero]
      split_ifs
      · rw [List.mem_insert_iff, hdup]
        simp [hx]
      · exact hdup x

theorem Tally.foldl_addName {pre : List (List Char)} {seen : List (List Char) × List (List Char)}
    (h : Tally pre seen) (names : List (List Char)) :
    Tally (pre ++ names) (names.foldl SymbolFileParser.addName seen) := by
  induction names generalizing pre seen with
  | nil => simpa using h
  | cons name names ih =>
    have := ih (h.add name)
    rwa [List.append_assoc, List.singleton_append] at this

theorem tally_nil : Tally [] ([], []) := by
  simp [Tally]

/-- The names the loop found multiply defined are `multiplyDefined`, in some
order. -/
theorem Tally.perm_multiplyDefined {names : List (List Char)}
    {seen : List (List Char) × List (List Char)} (h : Tally names seen) :
    seen.2.Perm (multiplyDefined names) := by
  obtain ⟨-, -, hdnd, hdup⟩ := h
  refine (List.perm_ext_iff_of_nodup hdnd ((List.nodup_dedup names).filter _)).mpr fun x => ?_
  rw [hdup, List.mem_filter, List.mem_dedup, decide_eq_true_eq]
  constructor
  · intro hx
    exact ⟨List.count_pos_iff.mp (by omega), hx⟩
  · exact fun hx => hx.2

/-- **`check_no_duplicate_symbols` raises exactly on a name defined twice.**
For tags the generator can read, it raises when a name of the symbols it keeps
for the architecture, the API level and the mode occurs more than once, and
its message names each such name once, in sorted order. -/
theorem check_no_duplicate_symbols_eq {versions : List Version}
    (hok : ∀ v ∈ versions, v.TagsOk p.arch) :
    p.check_no_duplicate_symbols versions =
      if multiplyDefined ((versions.flatMap p.checkedSymbols).map Symbol.name) = [] then .ok ()
      else .error ("Version script contains multiple definitions for: " ++
        ", ".intercalate
          (((multiplyDefined ((versions.flatMap p.checkedSymbols).map Symbol.name)).mergeSort
            fun a b => decide (a ≤ b)).map String.ofList)) := by
  have htally := tally_nil.foldl_addName ((versions.flatMap p.checkedSymbols).map Symbol.name)
  rw [List.nil_append] at htally
  have hperm := htally.perm_multiplyDefined
  rw [check_no_duplicate_symbols, p.foldlM_checkVersion_eq versions ([], []) hok, ok_bind]
  -- the names found and `multiplyDefined` agree up to order, which sorting forgets
  generalize ((versions.flatMap p.checkedSymbols).map Symbol.name).foldl addName ([], []) = seen
    at hperm ⊢
  have hnil : seen.2.isEmpty =
      decide (multiplyDefined ((versions.flatMap p.checkedSymbols).map Symbol.name) = []) := by
    rw [Bool.eq_iff_iff, List.isEmpty_iff, decide_eq_true_iff]
    constructor
    · intro h
      rw [h] at hperm
      exact hperm.nil_eq.symm
    · intro h
      rw [h] at hperm
      exact hperm.eq_nil
  simp only [hnil, decide_eq_true_eq, sort.mergeSort_eq_of_perm hperm]
  split_ifs <;> rfl

/-- Two versions of a library for arm64 at API level 30: `foo` is defined in
both, `baz` only from API level 31, and the second `bar` only for x86. -/
def dupVersions : List Version :=
  [⟨"LIBFOO".toList, none, [],
      [⟨"foo".toList, []⟩, ⟨"bar".toList, []⟩, ⟨"baz".toList, ["introduced=31".toList]⟩]⟩,
   ⟨"LIBFOO_2".toList, some "LIBFOO".toList, [],
      [⟨"foo".toList, []⟩, ⟨"baz".toList, ["introduced=31".toList]⟩,
        ⟨"bar".toList, ["x86".toList]⟩]⟩]

theorem check_no_duplicate_symbols_eq_dupVersions :
    (∀ v ∈ dupVersions, v.TagsOk "arm64".toList) ∧
    SymbolFileParser.check_no_duplicate_symbols ⟨[], "arm64".toList, 30, false, false⟩ dupVersions =
      if multiplyDefined ((dupVersions.flatMap
          (SymbolFileParser.checkedSymbols ⟨[], "arm64".toList, 30, false, false⟩)).map Symbol.name) = []
      then .ok ()
      else .error ("Version script contains multiple definitions for: " ++
        ", ".intercalate
          (((multiplyDefined ((dupVersions.flatMap
            (SymbolFileParser.checkedSymbols ⟨[], "arm64".toList, 30, false, false⟩)).map
              Symbol.name)).mergeSort fun a b => decide (a ≤ b)).map String.ofList)) := by
  have hok : ∀ v ∈ dupVersions, v.TagsOk "arm64".toList := by decide +kernel
  exact ⟨hok, check_no_duplicate_symbols_eq ⟨[], "arm64".toList, 30, false, false⟩ hok⟩

end SymbolFileParser

end symbolfile

end Soong
