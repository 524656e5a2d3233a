import Mathlib
import Soong.Cc.NdkStubGen

/-!
# The version script, read back

The version script `Generator.write` writes is a symbol file: `SymbolFileParser`
reads it back, with no error, as one untagged version for every block, with
the symbols the block names.  Each line the generator writes takes the parser
one step (`step_open`, `step_global`, `step_symbol`, `step_close`), and a block
takes it from the top level back to the top level with one more version
(`run_block`).

The names are those of `PlainName`: not empty, and with no white space nor any
of `{ } : ; * #`, the characters the parser looks for.

## Main results

* `parse_write` — the version script parses back into the versions that get a
  block, untagged, with their versioned symbols.
* `write_parse_round_trip` — that, and the stub source and the symbol list
  define and name exactly the symbols kept, in order.
-/

namespace Soong

namespace ndkstubgen

open symbolfile

/-- A character that a name of the version script may hold: no white space,
and none of the characters the parser looks for. -/
def plainChar (c : Char) : Bool :=
  !str.isspace c && !(['\x7b', '\x7d', ':', ';', '*', '#'].contains c)

/-- A name of a version, a base or a symbol that reads back as itself. -/
def PlainName (n : List Char) : Prop := n ≠ [] ∧ ∀ c ∈ n, plainChar c = true

-- decided over the characters of the name, not over every character
instance : DecidablePred PlainName := fun n =>
  decidable_of_iff (n ≠ [] ∧ n.all plainChar = true) (by simp [PlainName, List.all_eq_true])

/-- The names of a version, of its base and of its symbols are plain. -/
def PlainNames (v : Version) : Prop :=
  PlainName v.name ∧ (∀ b ∈ v.base, PlainName b) ∧ ∀ s ∈ v.symbols, PlainName s.name

instance : DecidablePred PlainNames := fun v =>
  inferInstanceAs (Decidable (PlainName v.name ∧ _))

section Plain

variable {n : List Char}

theorem PlainName.not_space (h : PlainName n) : ∀ c ∈ n, str.isspace c = false := by
  intro c hc
  have := h.2 c hc
  simp only [plainChar, Bool.and_eq_true, Bool.not_eq_true'] at this
  exact this.1

theorem PlainName.not_mem (h : PlainName n) {c : Char} (hc : c ∈ ['\x7b', '\x7d', ':', ';', '*', '#']) :
    c ∉ n := by
  intro hmem
  have := h.2 c hmem
  simp only [plainChar, Bool.and_eq_true, Bool.not_eq_true'] at this
  simp only [List.elem_eq_mem, decide_eq_false_iff_not] at this
  exact this.2 hc

theorem PlainName.head (h : PlainName n) : ∀ c ∈ n.head?, str.isspace c = false ∧ c ≠ '#' := by
  intro c hc
  have hmem : c ∈ n := List.mem_of_mem_head? hc
  exact ⟨h.not_space c hmem, fun hc' => h.not_mem (by simp) (hc' ▸ hmem)⟩

theorem PlainName.last (h : PlainName n) : ∀ c ∈ n.getLast?, str.isspace c = false :=
  fun c hc => h.not_space c (List.mem_of_getLast? hc)

theorem PlainName.head_append (h : PlainName n) (t : List Char) :
    ∀ c ∈ (n ++ t).head?, str.isspace c = false := by
  obtain ⟨x, rest, rfl⟩ := List.exists_cons_of_ne_nil h.1
  intro c hc
  rw [List.cons_append, List.head?_cons, Option.mem_some_iff] at hc
  exact (h.head x rfl).1.symm ▸ hc ▸ rfl

/-- A line that starts with a plain name is no comment. -/
theorem PlainName.not_hash_prefix (h : PlainName n) (t : List Char) :
    "#".toList.isPrefixOf (n ++ t) = false := by
  obtain ⟨x, rest, rfl⟩ := List.exists_cons_of_ne_nil h.1
  have hx := (h.head x rfl).2
  simp [List.isPrefixOf, Ne.symm hx]

/-- A line whose `strip` is a plain name and more, with no `#`, has no tags. -/
theorem PlainName.get_tags_of_strip (h : PlainName n) {line t : List Char}
    (hstrip : str.strip line = n ++ t) (ht : '#' ∉ t) (api_map : ApiMap) :
    get_tags line api_map = .ok [] := by
  refine get_tags_of_not_mem ?_ api_map
  rw [hstrip, List.mem_append, not_or]
  exact ⟨h.not_mem (by simp), ht⟩

end Plain

theorem isspace_blank : ∀ c ∈ [' '], str.isspace c = true := by
  intro c hc
  rw [List.mem_singleton.mp hc]
  rfl

theorem last_concat {l : List Char} {d : Char} (h : str.isspace d = false) :
    ∀ c ∈ (l ++ [d]).getLast?, str.isspace c = false := by
  rw [List.getLast?_concat]
  intro c hc
  rw [Option.mem_some_iff] at hc
  exact hc ▸ h

/-- `next_line` returns a line whose `strip` is not empty and no comment. -/
theorem next_line_skips_of_strip {line s : List Char} (h : str.strip line = s) (hne : s ≠ [])
    (hhash : "#".toList.isPrefixOf s = false) : next_line_skips line = false := by
  rw [next_line_skips, h, hhash, Bool.or_false, List.isEmpty_eq_false_iff]
  exact hne

/-! ### The lines of a block, one step each -/

section Steps

variable (p : SymbolFileParser) (versions : List Version) {name : List Char}

/-- `name {` opens a block, with no tags. -/
theorem step_open (hn : PlainName name) :
    next_line_skips (name ++ " \x7b".toList) = false ∧
      p.step (.top versions) (name ++ " \x7b".toList) = .ok (.version versions name [] [] true false) := by
  have hline : name ++ " \x7b".toList = name ++ [' '] ++ ['\x7b'] := by simp
  have hstrip : str.strip (name ++ [' '] ++ ['\x7b']) = name ++ [' '] ++ ['\x7b'] :=
    str.strip_eq_self (by rw [List.append_assoc]; exact hn.head_append _) (last_concat (by decide))
  have hname : str.strip ((name ++ [' '] ++ ['\x7b']).takeWhile (· != '\x7b')) = name := by
    rw [str.takeWhile_ne_append (by simp [hn.not_mem (c := '\x7b') (by simp)])]
    simpa using @str.strip_eq [] name [' '] (by simp) isspace_blank (fun c hc => (hn.head c hc).1)
      hn.last
  have htags : get_tags (name ++ [' '] ++ ['\x7b']) p.api_map = .ok [] :=
    hn.get_tags_of_strip (hstrip.trans (List.append_assoc _ _ _)) (by decide) _
  rw [hline]
  refine ⟨next_line_skips_of_strip hstrip (by simp)
    (by rw [List.append_assoc]; exact hn.not_hash_prefix _), ?_⟩
  rw [SymbolFileParser.step, if_pos (by simp), htags, ok_bind, hname]
  rfl

/-- `    global:` makes the scope global. -/
theorem step_global (tags : Tags) (symbols : List Symbol) (global_scope : Bool) :
    next_line_skips "    global:".toList = false ∧
      p.step (.version versions name tags symbols global_scope false) "    global:".toList =
        .ok (.version versions name tags symbols true false) := by
  have hclose : '\x7d' ∉ "    global:".toList := by decide +kernel
  have hextern : ¬"extern \"C++\" \x7b".toList <:+: "    global:".toList := by decide +kernel
  have hlabel : str.strip ("    global:".toList.takeWhile (· != ':')) = "global".toList := by
    decide +kernel
  refine ⟨by decide +kernel, ?_⟩
  rw [SymbolFileParser.step, if_neg hclose, if_neg hextern, if_pos (by simp), hlabel,
    if_neg (by decide +kernel), if_pos rfl]

/-- The eight blanks of a symbol's line.  (The equation lemma of
`Generator.symbolLine` reduces the literal, so the definition is unfolded.) -/
theorem symbolLine_eq (name : List Char) :
    Generator.symbolLine name = List.replicate 8 ' ' ++ name ++ [';'] := by
  unfold Generator.symbolLine
  simp

theorem not_mem_symbolLine (hn : PlainName name) {c : Char}
    (hc : c ∈ ['\x7b', '\x7d', ':', '*', '#']) : c ∉ Generator.symbolLine name := by
  rw [symbolLine_eq, List.mem_append, List.mem_append, List.mem_replicate, List.mem_singleton]
  rintro ((⟨-, rfl⟩ | h) | rfl)
  · simp at hc
  · have hc' : c ∈ ['\x7b', '\x7d', ':', ';', '*', '#'] := by simp at hc ⊢; tauto
    exact hn.not_mem hc' h
  · simp at hc

/-- A symbol's line adds it to the block, with no tags. -/
theorem step_symbol (hn : PlainName name) (block : List Char) (tags : Tags) (symbols : List Symbol) :
    next_line_skips (Generator.symbolLine name) = false ∧
      p.step (.version versions block tags symbols true false) (Generator.symbolLine name) =
        .ok (.version versions block tags (symbols ++ [⟨name, []⟩]) true false) := by
  have hstrip : str.strip (Generator.symbolLine name) = name ++ [';'] := by
    have hblank : ∀ c ∈ List.replicate 8 ' ', str.isspace c = true := by
      intro c hc
      rw [List.eq_of_mem_replicate hc]
      decide
    have h := @str.strip_eq (List.replicate 8 ' ') (name ++ [';']) [] hblank (by simp)
      (hn.head_append [';']) (last_concat (by decide))
    rwa [List.append_nil, ← List.append_assoc, ← symbolLine_eq] at h
  have htags : get_tags (Generator.symbolLine name) p.api_map = .ok [] :=
    hn.get_tags_of_strip hstrip (by simp) _
  have hsymbol : p.parse_symbol (Generator.symbolLine name) = .ok ⟨name, []⟩ := by
    rw [SymbolFileParser.parse_symbol, if_neg (by simp [symbolLine_eq]),
      if_neg (not_mem_symbolLine hn (by simp)), hstrip,
      str.partition_append (hn.not_mem (by simp)), htags]
    rfl
  refine ⟨next_line_skips_of_strip hstrip (by simp) (hn.not_hash_prefix _), ?_⟩
  rw [SymbolFileParser.step, if_neg (not_mem_symbolLine hn (by simp)),
    if_neg fun h => not_mem_symbolLine hn (c := '\x7b') (by simp) (h.subset (by simp)),
    if_neg (by simp [not_mem_symbolLine hn (c := ':') (by simp)]),
    if_pos (show (true && !false) = true from rfl), hsymbol, ok_bind]
  rfl

/-- The line that closes a block: `}`, a blank and the base if any, then `;`. -/
theorem closeLine_eq (base : Option (List Char)) :
    Generator.closeLine base = '\x7d' :: base.elim [] (' ' :: ·) ++ [';'] := by
  cases base <;> rfl

/-- What follows `}` in the closing line: no `#`, and its strip is the base
and `;`. -/
theorem closeRest {base : Option (List Char)} (hb : ∀ b ∈ base, PlainName b) :
    '#' ∉ base.elim [] (' ' :: ·) ++ [';'] ∧
      str.strip (base.elim [] (' ' :: ·) ++ [';']) = base.getD [] ++ [';'] := by
  cases base with
  | none => exact ⟨by decide, by decide⟩
  | some b =>
    have hb' := hb b rfl
    refine ⟨by simp [hb'.not_mem (c := '#') (by simp)], ?_⟩
    simpa using @str.strip_eq [' '] (b ++ [';']) [] isspace_blank (by simp) (hb'.head_append _)
      (last_concat (by decide))

/-- The two `rstrip`s of `close_version` take back the `;` and keep a base
that ends with no `;` nor white space. -/
theorem rstrip_base {b : List Char} (h : ∀ c ∈ b.getLast?, c ≠ ';' ∧ str.isspace c = false) :
    str.rstrip (str.rstrip (b ++ [';']) (· == ';')) str.isspace = b := by
  rw [str.rstrip_eq (by simp) fun c hc => by simpa using (h c hc).1]
  simpa using @str.rstrip_eq b [] str.isspace (by simp) fun c hc => (h c hc).2

theorem base_of_getD {base : Option (List Char)} (h : ∀ b ∈ base, b ≠ []) :
    (if (base.getD []).isEmpty = true then none else some (base.getD [])) = base := by
  cases base with
  | none => rfl
  | some b => simp [h b rfl]

/-- `}` or `} base;` ends the block: the version read is added, with its base. -/
theorem step_close {base : Option (List Char)} (hb : ∀ b ∈ base, PlainName b) (tags : Tags)
    (symbols : List Symbol) :
    next_line_skips (Generator.closeLine base) = false ∧
      p.step (.version versions name tags symbols true false) (Generator.closeLine base) =
        .ok (.top (versions ++ [⟨name, base, tags, symbols⟩])) := by
  obtain ⟨hhash, hstrip⟩ := closeRest hb
  have hself : str.strip (Generator.closeLine base) = Generator.closeLine base := by
    rw [closeLine_eq]
    exact str.strip_eq_self (by simp; decide) (last_concat (by decide))
  have hpart := @str.partition_append [] '\x7d' List.not_mem_nil (base.elim [] (' ' :: ·) ++ [';'])
  rw [List.nil_append, ← List.cons_append, ← closeLine_eq] at hpart
  have hlast : ∀ c ∈ (base.getD []).getLast?, c ≠ ';' ∧ str.isspace c = false := by
    cases base with
    | none => simp
    | some b => exact fun c hc =>
        ⟨fun h => (hb b rfl).not_mem (c := ';') (by simp) (h ▸ List.mem_of_getLast? hc),
          (hb b rfl).last c hc⟩
  have hsuffix : ";".toList.isSuffixOf (base.getD [] ++ [';']) = true := by
    simp [List.isSuffixOf]
  refine ⟨next_line_skips_of_strip hself (by simp [closeLine_eq])
    (by simp [closeLine_eq, List.isPrefixOf]), ?_⟩
  rw [SymbolFileParser.step, if_pos (by simp [closeLine_eq]), SymbolFileParser.close_version, hpart,
    str.partition_of_not_mem hhash]
  dsimp only
  rw [hstrip, hsuffix, rstrip_base hlast, base_of_getD fun b hb' => (hb b hb').1]
  rfl

end Steps

/-! ### What the parser reads back -/

namespace Generator

variable (g : Generator)

/-- The version the parser reads back from the block of `version`: its name
and base, no tags, and its versioned symbols, with no tags. -/
def scriptVersion (version : Version) : Version :=
  ⟨version.name, version.base, [], (g.versionedSymbols version).map fun s => ⟨s.name, []⟩⟩

/-- The versions the parser reads back from the version script, in order. -/
def scriptVersions (versions : List Version) : List Version :=
  (versions.filter g.hasBlock).map g.scriptVersion

theorem mem_symbols_of_mem_versionedSymbols {version : Version} {s : Symbol}
    (h : s ∈ g.versionedSymbols version) : s ∈ version.symbols := by
  have hkept := List.mem_of_mem_filter h
  unfold keptSymbols at hkept
  split_ifs at hkept
  · exact List.mem_of_mem_filter hkept
  · simp at hkept

theorem scriptVersion_names (v : Version) :
    (g.scriptVersion v).symbols.map Symbol.name = (g.versionedSymbols v).map Symbol.name := by
  simp [scriptVersion, Function.comp_def]

theorem scriptVersions_cons (v : Version) (vs : List Version) :
    g.scriptVersions (v :: vs) =
      (if g.hasBlock v then [g.scriptVersion v] else []) ++ g.scriptVersions vs := by
  by_cases h : g.hasBlock v <;> simp [scriptVersions, h]

/-- A version with a block keeps a symbol, so it is not private. -/
theorem is_private_of_hasBlock {v : Version} (h : g.hasBlock v = true) : v.is_private = false := by
  have hkept : g.keptSymbols v ≠ [] := by
    intro hnil
    simp [hasBlock, versionedSymbols, hnil] at h
  by_contra hp
  rw [Bool.not_eq_false] at hp
  exact hkept (g.keptSymbols_of_omitted (by rw [should_omit_version, if_pos hp]))

/-- The versions read back are untagged, not private, with untagged symbols. -/
theorem scriptVersions_untagged (versions : List Version) :
    ∀ v ∈ g.scriptVersions versions,
      v.is_private = false ∧ v.tags = [] ∧ ∀ s ∈ v.symbols, s.tags = [] := by
  intro v hv
  obtain ⟨w, hw, rfl⟩ := List.mem_map.mp hv
  have hprivate : w.is_private = false := g.is_private_of_hasBlock (List.mem_filter.mp hw).2
  refine ⟨hprivate, rfl, ?_⟩
  intro s hs
  obtain ⟨_, _, rfl⟩ := List.mem_map.mp hs
  rfl

/-- The symbols read back are among the symbols kept, in order. -/
theorem scriptVersions_names_sublist : ∀ vs : List Version,
    List.Sublist (((g.scriptVersions vs).flatMap Version.symbols).map Symbol.name)
      ((vs.flatMap g.keptSymbols).map Symbol.name)
  | [] => by simp [scriptVersions]
  | v :: vs => by
    rw [scriptVersions_cons, List.flatMap_append, List.map_append, List.flatMap_cons, List.map_append]
    refine List.Sublist.append ?_ (scriptVersions_names_sublist vs)
    split
    · -- the symbols of the block are the versioned ones of those kept
      rw [List.flatMap_singleton, scriptVersion_names]
      exact (List.filter_sublist (l := g.keptSymbols v)).map Symbol.name
    · exact List.nil_sublist _

/-- A symbol read back is named as a symbol kept. -/
theorem exists_kept_of_mem_scriptVersions {versions : List Version} {v : Version} {s : Symbol}
    (hv : v ∈ g.scriptVersions versions) (hs : s ∈ v.symbols) :
    ∃ t ∈ versions.flatMap g.keptSymbols, t.name = s.name := by
  obtain ⟨w, hw, rfl⟩ := List.mem_map.mp hv
  obtain ⟨t, ht, rfl⟩ := List.mem_map.mp hs
  exact ⟨t, List.mem_flatMap.mpr ⟨w, List.mem_of_mem_filter hw, List.mem_of_mem_filter ht⟩, rfl⟩

end Generator

section Runs

variable (p : SymbolFileParser) (g : Generator)

/-- The symbols' lines of a block, each read in the global scope. -/
theorem run_symbolLines (versions : List Version) (block : List Char) (tags : Tags)
    (rest : List (List Char)) : ∀ (syms symbols : List Symbol), (∀ s ∈ syms, PlainName s.name) →
      p.run (.version versions block tags symbols true false)
          (syms.map (Generator.symbolLine ·.name) ++ rest) =
        p.run (.version versions block tags (symbols ++ syms.map fun s => ⟨s.name, []⟩) true false)
          rest
  | [], symbols, _ => by simp
  | s :: syms, symbols, h => by
    obtain ⟨hskip, hstep⟩ := step_symbol p versions (h s List.mem_cons_self) block tags symbols
    rw [List.map_cons, List.cons_append, SymbolFileParser.run_step p hskip hstep,
      run_symbolLines versions block tags rest syms _ fun s' hs' => h s' (List.mem_cons_of_mem _ hs')]
    simp

/-- A block takes the parser from the top level back to it, with one more
version. -/
theorem run_block (versions : List Version) {v : Version} (hv : PlainNames v) (hblock : g.hasBlock v)
    (rest : List (List Char)) :
    p.run (.top versions) (g.block v ++ rest) = p.run (.top (versions ++ [g.scriptVersion v])) rest := by
  obtain ⟨hname, hbase, hsymbols⟩ := hv
  have hsyms : ∀ s ∈ g.versionedSymbols v, PlainName s.name := fun s hs =>
    hsymbols s (g.mem_symbols_of_mem_versionedSymbols hs)
  obtain ⟨hskip₁, hstep₁⟩ := step_open p versions hname
  obtain ⟨hskip₂, hstep₂⟩ := @step_global p versions v.name [] [] true
  obtain ⟨hskip₃, hstep₃⟩ := @step_close p versions v.name v.base hbase []
    ((g.versionedSymbols v).map fun s => ⟨s.name, []⟩)
  rw [Generator.block, if_pos hblock]
  unfold Generator.openLines
  simp only [List.append_assoc, List.cons_append, List.nil_append]
  rw [SymbolFileParser.run_step p hskip₁ hstep₁, SymbolFileParser.run_step p hskip₂ hstep₂,
    run_symbolLines p versions v.name [] _ _ [] hsyms, List.nil_append,
    SymbolFileParser.run_step p hskip₃ hstep₃]
  rfl

/-- The blocks of the version script, read one after the other. -/
theorem run_blocks : ∀ (vs versions : List Version), (∀ v ∈ vs, PlainNames v) →
    p.run (.top versions) (vs.flatMap g.block) = .ok (.top (versions ++ g.scriptVersions vs))
  | [], versions, _ => by simp [Generator.scriptVersions]
  | v :: vs, versions, h => by
    have hrest := run_blocks vs
    rw [List.flatMap_cons]
    by_cases hblock : g.hasBlock v
    · rw [run_block p g versions (h v List.mem_cons_self) hblock,
        hrest _ fun v' hv' => h v' (List.mem_cons_of_mem _ hv')]
      simp [Generator.scriptVersions, hblock]
    · rw [Generator.block, if_neg hblock, List.nil_append,
        hrest _ fun v' hv' => h v' (List.mem_cons_of_mem _ hv')]
      simp [Generator.scriptVersions, hblock]

/-- **The version script parses back** into the versions that get a block,
untagged, with their versioned symbols, by any parser. -/
theorem parse_write {versions : List Version} (hnames : ∀ v ∈ versions, PlainNames v)
    (hdistinct : ((versions.flatMap g.keptSymbols).map Symbol.name).Nodup) :
    p.parse (versions.flatMap g.block) = .ok (g.scriptVersions versions) := by
  have hnd := hdistinct.sublist (g.scriptVersions_names_sublist versions)
  rw [SymbolFileParser.parse, run_blocks p g versions [] hnames, ok_bind, List.nil_append]
  simp only
  rw [p.check_no_duplicate_symbols_ok (g.scriptVersions_untagged versions) hnd, ok_bind]
  rfl

end Runs

/-! ### The stub source -/

/-- A line of the stub source that defines `name`: a variable or a function,
weak or not. -/
def Defines (line name : List Char) : Prop :=
  ∃ weak ∈ [[], "__attribute__((weak)) ".toList],
    line = weak ++ "int ".toList ++ name ++ " = 0;".toList ∨
      line = weak ++ "void ".toList ++ name ++ "() \x7b\x7d".toList

theorem defines_definition (s : Symbol) : Defines (Generator.definition s) s.name := by
  unfold Generator.definition
  dsimp only
  -- a variable or a function, then weak or not
  split_ifs
  · exact ⟨_, List.mem_cons_of_mem _ List.mem_cons_self, Or.inl rfl⟩
  · exact ⟨_, List.mem_cons_self, Or.inl rfl⟩
  · exact ⟨_, List.mem_cons_of_mem _ List.mem_cons_self, Or.inr rfl⟩
  · exact ⟨_, List.mem_cons_self, Or.inr rfl⟩

/-- **The round trip of `ndkstubgen`.**  `write` raises nothing; its version
script parses back, by any parser, into one untagged version for each version
with a block, with its name and base and its versioned symbols, in order; the
stub source defines the symbols kept, and the symbol list names them, in
order; and every symbol of the version script is defined in the stub source. -/
theorem write_parse_round_trip (g : Generator) (versions : List Version)
    (hnames : ∀ v ∈ versions, PlainNames v) (htags : ∀ v ∈ versions, v.TagsOk g.arch)
    (hdistinct : ((versions.flatMap g.keptSymbols).map Symbol.name).Nodup) (p : SymbolFileParser) :
    ∃ out, g.write versions = .ok out ∧
      p.parse out.version_script = .ok (g.scriptVersions versions) ∧
      List.Forall₂ (fun line s => Defines line s.name) out.src_file (versions.flatMap g.keptSymbols) ∧
      out.symbol_list = "[abi_symbol_list]".toList :: (versions.flatMap g.keptSymbols).map Symbol.name ∧
      ∀ v ∈ g.scriptVersions versions, ∀ s ∈ v.symbols, ∃ line ∈ out.src_file, Defines line s.name := by
  have hdefines : ∀ t ∈ versions.flatMap g.keptSymbols, Defines (Generator.definition t) t.name :=
    fun t _ => defines_definition t
  refine ⟨_, g.write_eq htags, parse_write p g hnames hdistinct, ?_, rfl, ?_⟩
  · exact List.forall₂_map_left_iff.mpr (List.forall₂_same.mpr hdefines)
  · -- a symbol of the script is one kept, whose definition is in the stub source
    intro v hv s hs
    obtain ⟨t, ht, hname⟩ := g.exists_kept_of_mem_scriptVersions hv hs
    exact ⟨_, List.mem_map_of_mem ht, hname ▸ hdefines t ht⟩

/-- A map in the manner of `libc.map.txt`, for arm64 at API 30: `LIBC`, then
`LIBC_O` on it, introduced at 26, with a symbol for arm only, then a private
version. -/
def libcMap : List Version :=
  [⟨"LIBC".toList, none, [],
      [⟨"malloc".toList, []⟩, ⟨"environ".toList, ["var".toList, "weak".toList]⟩]⟩,
    ⟨"LIBC_O".toList, some "LIBC".toList, ["introduced=26".toList],
      [⟨"getentropy".toList, []⟩, ⟨"__aeabi_memcpy".toList, ["arm".toList]⟩]⟩,
    ⟨"LIBC_PRIVATE".toList, none, [], [⟨"__libc_init".toList, []⟩]⟩]

/-- The generator for arm64 at API 30. -/
def arm64At30 : Generator := ⟨"arm64".toList, 30, false, false⟩

theorem write_parse_round_trip_libc :
    (∀ v ∈ libcMap, PlainNames v) ∧ (∀ v ∈ libcMap, v.TagsOk arm64At30.arch) ∧
      ((libcMap.flatMap arm64At30.keptSymbols).map Symbol.name).Nodup ∧
      ∃ out, arm64At30.write libcMap = .ok out ∧
        SymbolFileParser.parse ⟨[], arm64At30.arch, arm64At30.api, false, false⟩ out.version_script =
          .ok (arm64At30.scriptVersions libcMap) ∧
        List.Forall₂ (fun line s => Defines line s.name) out.src_file
          (libcMap.flatMap arm64At30.keptSymbols) ∧
        out.symbol_list =
          "[abi_symbol_list]".toList :: (libcMap.flatMap arm64At30.keptSymbols).map Symbol.name ∧
        ∀ v ∈ arm64At30.scriptVersions libcMap, ∀ s ∈ v.symbols,
          ∃ line ∈ out.src_file, Defines line s.name := by
  have hnames : ∀ v ∈ libcMap, PlainNames v := by decide +kernel
  have htags : ∀ v ∈ libcMap, v.TagsOk arm64At30.arch := by decide +kernel
  have hdistinct : ((libcMap.flatMap arm64At30.keptSymbols).map Symbol.name).Nodup := by
    decide +kernel
  exact ⟨hnames, htags, hdistinct, write_parse_round_trip arm64At30 libcMap hnames htags hdistinct _⟩

/-- What the parser reads back from that map: `LIBC` with both its symbols,
and `LIBC_O` on `LIBC` with the one symbol kept for arm64. -/
example : arm64At30.scriptVersions libcMap =
    [⟨"LIBC".toList, none, [], [⟨"malloc".toList, []⟩, ⟨"environ".toList, []⟩]⟩,
      ⟨"LIBC_O".toList, some "LIBC".toList, [], [⟨"getentropy".toList, []⟩]⟩] := by
  decide +kernel

end ndkstubgen

end Soong
