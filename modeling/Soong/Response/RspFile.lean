import Soong.Lib.GoText

/-!
# Ninja response files

`response/response.go`.  `WriteRspFile` writes a list of files separated by
blanks, and puts a file that holds a character outside `[A-Za-z0-9_+-./]` in
single quotes, each quote in it written `'\''`.  `ReadRspFile` reads the bytes
back with a state machine: a backslash escapes the next byte outside single
quotes, `'` and `"` open and close quoting, and a white-space byte outside
quotes ends a file.

Go strings are byte strings, and the model keeps them as lists of bytes, which
is what the reader walks.  The writer's test is on runes; a byte below `0x80`
is a rune of its own, and every byte from `0x80` on belongs to a rune from
`0x80` on or decodes to the replacement character, all of which are unsafe.  So
a file holds an unsafe rune exactly when it holds a byte that, read as a rune,
is unsafe, and the model tests the bytes.  I/O errors of the reader and the
writer are out of the model: the writer's output is the byte list and the
reader reads one.

## Main definitions

* `readStep`, `ReadRspFile` — the reader.
* `rspUnsafeChar`, `rspEscape`, `rspQuote`, `WriteRspFile` — the writer.

## Main results

* `ReadRspFile_WriteRspFile` — the reader gives back every list of non-empty
  files the writer writes, whatever bytes the files hold.
-/

namespace Soong

namespace response

/-- `noQuote`: the quoting byte when no quote is open. -/
def noQuote : UInt8 := 0

/-- The variables of the loop of `ReadRspFile`. -/
structure readState where
  files : List (List UInt8)
  file : List UInt8
  isEscaping : Bool
  quotingStart : UInt8
  deriving DecidableEq, Repr

/-- One round of the loop of `ReadRspFile`, on the byte `c`. -/
def readStep (st : readState) (c : UInt8) : readState :=
  if st.isEscaping then
    -- under double quotes only `\"` and `\\` are escapes; the backslash of any
    -- other pair is kept
    let file :=
      if st.quotingStart = '"'.toUInt8 ∧ ¬(c = '"'.toUInt8 ∨ c = '\\'.toUInt8) then
        st.file ++ ['\\'.toUInt8]
      else st.file
    { st with file := file ++ [c], isEscaping := false }
  else if c = '\\'.toUInt8 ∧ st.quotingStart ≠ '\''.toUInt8 then
    { st with isEscaping := true }
  else if st.quotingStart = noQuote ∧ (c = '\''.toUInt8 ∨ c = '"'.toUInt8) then
    { st with quotingStart := c }
  else if st.quotingStart ≠ noQuote ∧ c = st.quotingStart then
    { st with quotingStart := noQuote }
  else if st.quotingStart = noQuote ∧ unicode.IsSpace (Char.ofNat c.toNat) = true then
    { st with
      files := if st.file.length ≠ 0 then st.files ++ [st.file] else st.files
      file := [] }
  else
    { st with file := st.file ++ [c] }

/-- `ReadRspFile`: the files of a response file. -/
def ReadRspFile (buf : List UInt8) : List (List UInt8) :=
  let st := buf.foldl readStep ⟨[], [], false, noQuote⟩
  if st.file.length ≠ 0 then st.files ++ [st.file] else st.files

/-- `rspUnsafeChar`: every rune but letters, digits and `_+-./`. -/
def rspUnsafeChar (r : Char) : Bool :=
  !(('A' ≤ r && r ≤ 'Z') || ('a' ≤ r && r ≤ 'z') || ('0' ≤ r && r ≤ '9') || r == '_' ||
    r == '+' || r == '-' || r == '.' || r == '/')

/-- `rspEscaper.Replace`: every quote byte becomes `'\''`. -/
def rspEscape (f : List UInt8) : List UInt8 :=
  f.flatMap fun b =>
    if b = '\''.toUInt8 then ['\''.toUInt8, '\\'.toUInt8, '\''.toUInt8, '\''.toUInt8] else [b]

/-- A file as `WriteRspFile` writes it: quoted when some byte, read as a rune,
is unsafe. -/
def rspQuote (f : List UInt8) : List UInt8 :=
  if f.any (fun b => rspUnsafeChar (Char.ofNat b.toNat)) then
    '\''.toUInt8 :: rspEscape f ++ ['\''.toUInt8]
  else f

/-- `WriteRspFile`: the files, a blank before every file but the first. -/
def WriteRspFile : List (List UInt8) → List UInt8
  | [] => []
  | f :: files => rspQuote f ++ files.flatMap fun f => ' '.toUInt8 :: rspQuote f

/-! ### Reading what the writer writes -/

-- the bytes of the characters the reader and the writer name
@[simp] theorem toUInt8_backslash : '\\'.toUInt8 = 92 := rfl

@[simp] theorem toUInt8_quote : '\''.toUInt8 = 39 := rfl

@[simp] theorem toUInt8_dquote : '"'.toUInt8 = 34 := rfl

@[simp] theorem toUInt8_blank : ' '.toUInt8 = 32 := rfl

/-- The reader between two files or inside an unquoted one. -/
def plain (files : List (List UInt8)) (file : List UInt8) : readState :=
  ⟨files, file, false, noQuote⟩

/-- The reader inside single quotes. -/
def quoted (files : List (List UInt8)) (file : List UInt8) : readState :=
  ⟨files, file, false, '\''.toUInt8⟩

/-- What a safe byte is not: a backslash, a quote or a white-space byte. -/
theorem safe_byte {b : UInt8} (h : rspUnsafeChar (Char.ofNat b.toNat) = false) :
    b ≠ '\\'.toUInt8 ∧ b ≠ '\''.toUInt8 ∧ b ≠ '"'.toUInt8 ∧
      unicode.IsSpace (Char.ofNat b.toNat) = false := by
  have hall : ∀ n < 256, rspUnsafeChar (Char.ofNat n) = false →
      n ≠ 92 ∧ n ≠ 39 ∧ n ≠ 34 ∧ unicode.IsSpace (Char.ofNat n) = false := by
    decide +kernel
  obtain ⟨h1, h2, h3, h4⟩ := hall b.toNat b.toNat_lt h
  refine ⟨fun e => h1 ?_, fun e => h2 ?_, fun e => h3 ?_, h4⟩ <;> rw [e] <;> rfl

theorem readStep_safe {b : UInt8} (h : rspUnsafeChar (Char.ofNat b.toNat) = false)
    (files : List (List UInt8)) (file : List UInt8) :
    readStep (plain files file) b = plain files (file ++ [b]) := by
  obtain ⟨hbs, hq, hdq, hsp⟩ := safe_byte h
  simp only [toUInt8_backslash, toUInt8_quote, toUInt8_dquote] at hbs hq hdq
  simp [readStep, plain, noQuote, hbs, hq, hdq, hsp]

/-- An unquoted file of safe bytes is read as it is. -/
theorem foldl_readStep_safe (w : List UInt8)
    (hw : w.any (fun b => rspUnsafeChar (Char.ofNat b.toNat)) = false)
    (files : List (List UInt8)) (file : List UInt8) :
    w.foldl readStep (plain files file) = plain files (file ++ w) := by
  induction w generalizing file with
  | nil => simp
  | cons b w ih =>
    simp only [List.any_cons, Bool.or_eq_false_iff] at hw
    rw [List.foldl_cons, readStep_safe hw.1, ih hw.2]
    simp

/-- Inside single quotes every byte but a quote is taken as it is, and an
escaped quote `'\''` closes the quotes, takes the quote and opens them again. -/
theorem foldl_readStep_escaped (w : List UInt8) (files : List (List UInt8))
    (file : List UInt8) :
    (rspEscape w).foldl readStep (quoted files file) = quoted files (file ++ w) := by
  induction w generalizing file with
  | nil => simp [rspEscape]
  | cons b w ih =>
    by_cases hb : b = '\''.toUInt8
    · subst hb
      have hstep : ['\''.toUInt8, '\\'.toUInt8, '\''.toUInt8, '\''.toUInt8].foldl readStep
          (quoted files file) = quoted files (file ++ ['\''.toUInt8]) := by
        simp [readStep, quoted, noQuote]
      rw [rspEscape, List.flatMap_cons, if_pos rfl, List.foldl_append, hstep, ← rspEscape, ih]
      simp
    · have hstep : readStep (quoted files file) b = quoted files (file ++ [b]) := by
        simp only [toUInt8_quote] at hb
        simp [readStep, quoted, noQuote, hb]
      rw [rspEscape, List.flatMap_cons, if_neg hb, List.foldl_append, List.foldl_cons,
        List.foldl_nil, hstep, ← rspEscape, ih]
      simp

/-- **A written file is read whole**, from between two files. -/
theorem foldl_readStep_rspQuote (f : List UInt8) (files : List (List UInt8)) :
    (rspQuote f).foldl readStep (plain files []) = plain files f := by
  unfold rspQuote
  split
  · -- the quotes open and close around the escaped file
    have hopen : readStep (plain files []) '\''.toUInt8 = quoted files [] := by
      simp [readStep, plain, quoted, noQuote]
    have hclose : readStep (quoted files f) '\''.toUInt8 = plain files f := by
      simp [readStep, plain, quoted, noQuote]
    rw [List.foldl_append, List.foldl_cons, List.foldl_nil, List.foldl_cons, hopen,
      foldl_readStep_escaped, List.nil_append, hclose]
  · next hsafe =>
    rw [foldl_readStep_safe f (by simpa using hsafe), List.nil_append]

/-- The blank after a non-empty file ends it. -/
theorem readStep_blank {file : List UInt8} (hf : file ≠ []) (files : List (List UInt8)) :
    readStep (plain files file) ' '.toUInt8 = plain (files ++ [file]) [] := by
  have hsp : unicode.IsSpace (Char.ofNat 32) = true := by decide
  have hlen : file.length ≠ 0 := by simpa using hf
  simp [readStep, plain, noQuote, hsp, hlen]

/-- The files after the first, each after its blank. -/
theorem foldl_readStep_rest (fs : List (List UInt8)) (hfs : ∀ f ∈ fs, f ≠ [])
    (files : List (List UInt8)) {file : List UInt8} (hf : file ≠ []) :
    ∃ files' last, (fs.flatMap fun f => ' '.toUInt8 :: rspQuote f).foldl readStep
        (plain files file) = plain files' last ∧ files' ++ [last] = files ++ file :: fs := by
  induction fs generalizing files file with
  | nil => exact ⟨files, file, by simp, by simp⟩
  | cons g fs ih =>
    have hg : g ≠ [] := hfs g List.mem_cons_self
    obtain ⟨files', last, hfold, heq⟩ :=
      ih (fun f hf => hfs f (List.mem_cons_of_mem g hf)) (files ++ [file]) hg
    refine ⟨files', last, ?_, by simp [heq]⟩
    rw [List.flatMap_cons, List.foldl_append, List.foldl_cons, readStep_blank hf,
      foldl_readStep_rspQuote, hfold]

/-- **The reader gives back what the writer writes**: every list of non-empty
files, whatever bytes they hold. -/
theorem ReadRspFile_WriteRspFile (files : List (List UInt8)) (h : ∀ f ∈ files, f ≠ []) :
    ReadRspFile (WriteRspFile files) = files := by
  cases files with
  | nil => rfl
  | cons f fs =>
    have hf : f ≠ [] := h f List.mem_cons_self
    obtain ⟨files', last, hfold, heq⟩ :=
      foldl_readStep_rest fs (fun g hg => h g (List.mem_cons_of_mem f hg)) [] hf
    -- the last file read is the last file written, which is not empty
    have hmem : last ∈ f :: fs := by
      have hl : last ∈ files' ++ [last] := by simp
      rw [heq] at hl
      simpa using hl
    have hlast : last.length ≠ 0 := by simpa using h last hmem
    unfold ReadRspFile
    rw [WriteRspFile, List.foldl_append, show (⟨[], [], false, noQuote⟩ : readState) = plain [] []
      from rfl, foldl_readStep_rspQuote, hfold]
    simp only [plain, hlast, ne_eq, not_false_eq_true, ↓reduceIte]
    simpa using heq

/-- A file with a blank and one with a quote, both written in quotes, are read
back. -/
theorem ReadRspFile_WriteRspFile_quoted :
    let files := ["a b".toList.map Char.toUInt8, "it's".toList.map Char.toUInt8]
    (∀ f ∈ files, f ≠ []) ∧ ReadRspFile (WriteRspFile files) = files :=
  ⟨by decide +kernel, ReadRspFile_WriteRspFile _ (by decide +kernel)⟩

end response

end Soong
