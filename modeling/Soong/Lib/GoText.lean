import Mathlib

/-!
# Go's text scanner and text helpers

`text/scanner` as a parser drives it with an empty `Whitespace` set and its own
`IsIdentRune`: every token is an identifier (in `ScanIdents` mode), a single
character, or `EOF`, and the scanner reads one character ahead.  Reading a NUL
character reports an error, and a byte order mark at the very start of the
source is skipped.  Beside it, `unicode.IsSpace`, `strings.TrimLeftFunc`,
`strings.TrimRightFunc` and a `strings.Replacer` whose old strings are single
characters.

Sources are lists of characters, so invalid UTF-8, which a Go string may hold
and the scanner reports, is out of the model.

## Main definitions

* `scanner.Token`, `scanner.Scanner`, `scanner.Init`, `scanner.Scan`.
* `unicode.IsSpace`, `strings.TrimLeftFunc`, `strings.TrimRightFunc`,
  `strings.TrimSpace`, `strings.IndexFunc`.
* `strings.Replacer`, `strings.Replacer.Replace`.
* `strings.FieldsFunc`, over a list of any items.
-/

namespace scanner

/-- A token as `Scan` returns it: `EOF`, `Ident`, or a character that is a
token of its own. -/
inductive Token where
  | EOF
  | Ident
  | char (c : Char)
  deriving DecidableEq, Repr

/-- `string(tok)`: the character of a character token; the other tokens are
negative runes, which convert to the replacement character. -/
def Token.toString : Token → String
  | .char c => String.singleton c
  | _ => "\uFFFD"

/-- The byte order mark, skipped at the start of a source. -/
def bom : Char := '\uFEFF'

/-- The length of the UTF-8 encoding of a list of characters. -/
def utf8Len (l : List Char) : ℕ := (l.map Char.utf8Size).sum

/-- A `Scanner` with an empty `Whitespace` set. -/
structure Scanner where
  /-- The source from the character read ahead on. -/
  src : List Char
  /-- The byte offset of the character read ahead. -/
  offset : ℕ
  /-- Whether `Mode` holds `ScanIdents`. -/
  ScanIdents : Bool
  /-- `TokenText()`: the text of the last token. -/
  tokenText : String
  /-- `Position.Offset`: the byte offset of the last token. -/
  Offset : ℕ
  deriving Repr

/-- The errors reading a character reports: NUL is an invalid character. -/
def readError (c : Char) : List String :=
  if c = '\x00' then ["invalid character NUL"] else []

/-- `Init` and the first `Peek`, which reads the first character and skips it
when it is a byte order mark; with the errors that reading reports. -/
def Init (src : List Char) (ScanIdents : Bool) : Scanner × List String :=
  match src with
  | [] => (⟨[], 0, ScanIdents, "", 0⟩, [])
  | c :: rest =>
    if c = bom then (⟨rest, c.utf8Size, ScanIdents, "", 0⟩, (rest.take 1).flatMap readError)
    else (⟨src, 0, ScanIdents, "", 0⟩, readError c)

/-- `Scan`: an identifier of the characters `isIdentRune` accepts when
`ScanIdents` is set, any other character alone, or `EOF`; the character after
the token is read ahead, with the errors reading reports. -/
def Scan (isIdentRune : Char → Bool) (s : Scanner) : Token × Scanner × List String :=
  match s.src with
  | [] => (.EOF, { s with tokenText := "", Offset := s.offset }, [])
  | c :: rest =>
    if s.ScanIdents && isIdentRune c then
      let ident := rest.takeWhile isIdentRune
      let after := rest.dropWhile isIdentRune
      (.Ident,
        { s with
          src := after
          offset := s.offset + utf8Len (c :: ident)
          tokenText := String.ofList (c :: ident)
          Offset := s.offset },
        (ident ++ after.take 1).flatMap readError)
    else
      (.char c,
        { s with
          src := rest
          offset := s.offset + c.utf8Size
          tokenText := String.singleton c
          Offset := s.offset },
        (rest.take 1).flatMap readError)

variable {isIdentRune : Char → Bool}

theorem Scan_char {s : Scanner} {c : Char} {rest : List Char} (h : s.src = c :: rest)
    (hc : (s.ScanIdents && isIdentRune c) = false) :
    Scan isIdentRune s = (.char c,
      { s with
        src := rest
        offset := s.offset + c.utf8Size
        tokenText := String.singleton c
        Offset := s.offset },
      (rest.take 1).flatMap readError) := by
  simp only [Scan, h, hc, Bool.false_eq_true, if_false]

theorem Scan_ident {s : Scanner} {c : Char} {rest : List Char} (h : s.src = c :: rest)
    (hc : s.ScanIdents = true) (hi : isIdentRune c = true) :
    Scan isIdentRune s = (.Ident,
      { s with
        src := rest.dropWhile isIdentRune
        offset := s.offset + utf8Len (c :: rest.takeWhile isIdentRune)
        tokenText := String.ofList (c :: rest.takeWhile isIdentRune)
        Offset := s.offset },
      (rest.takeWhile isIdentRune ++ (rest.dropWhile isIdentRune).take 1).flatMap readError) := by
  simp only [Scan, h, hc, hi, Bool.and_self, if_true]

end scanner

namespace unicode

/-- `unicode.IsSpace`: the Latin-1 spaces, and the other characters of the
`White_Space` property. -/
def IsSpace (r : Char) : Bool :=
  if r.toNat ≤ 0xFF then r.toNat ∈ [0x09, 0x0A, 0x0B, 0x0C, 0x0D, 0x20, 0x85, 0xA0]
  else r.toNat = 0x1680 || (0x2000 ≤ r.toNat && r.toNat ≤ 0x200A) ||
    r.toNat ∈ [0x2028, 0x2029, 0x202F, 0x205F, 0x3000]

end unicode

namespace strings

/-- `strings.TrimLeftFunc`: drop the leading characters `f` accepts. -/
def TrimLeftFunc (s : String) (f : Char → Bool) : String := String.ofList (s.toList.dropWhile f)

/-- `strings.TrimRightFunc`: drop the trailing characters `f` accepts. -/
def TrimRightFunc (s : String) (f : Char → Bool) : String :=
  String.ofList (s.toList.reverse.dropWhile f).reverse

/-- `strings.TrimSpace`: the string without its leading and trailing white
space. -/
def TrimSpace (s : String) : String := TrimRightFunc (TrimLeftFunc s unicode.IsSpace) unicode.IsSpace

/-- `strings.IndexFunc`, counting characters: the index of the first character
satisfying `f`, `-1` when there is none. -/
def IndexFunc (s : String) (f : Char → Bool) : Int :=
  if s.toList.any f then (s.toList.takeWhile fun c => !f c).length else -1

/-- `strings.FieldsFunc`, over a list of any items: the maximal runs of items
that are not separators. -/
def FieldsFunc {α : Type} (l : List α) (f : α → Bool) : List (List α) :=
  (l.splitOnP f).filter fun field => !field.isEmpty

section FieldsFunc

variable {α : Type} {f : α → Bool}

@[simp] theorem FieldsFunc_nil : FieldsFunc [] f = [] := by
  simp [FieldsFunc]

/-- A leading separator starts no field. -/
theorem FieldsFunc_sep_cons {a : α} (ha : f a = true) (l : List α) :
    FieldsFunc (a :: l) f = FieldsFunc l f := by
  simp [FieldsFunc, List.splitOnP_cons_eq_if_modifyHead, ha]

/-- A run without separators, then a separator: the run is the first field. -/
theorem FieldsFunc_append_sep {w : List α} (hw : ∀ x ∈ w, f x = false) (hne : w ≠ [])
    {a : α} (ha : f a = true) (l : List α) :
    FieldsFunc (w ++ a :: l) f = w :: FieldsFunc l f := by
  simp [FieldsFunc, List.splitOnP_append_cons_of_forall_mem hw a ha, hne]

/-- A run without separators is one field, or none when it is empty. -/
theorem FieldsFunc_of_forall {w : List α} (hw : ∀ x ∈ w, f x = false) :
    FieldsFunc w f = if w = [] then [] else [w] := by
  by_cases hne : w = [] <;> simp [FieldsFunc, List.splitOnP_eq_singleton hw, hne]

/-- Split at every separator, the pieces hold the other items in order. -/
theorem flatten_splitOnP (l : List α) : (l.splitOnP f).flatten = l.filter fun x => !f x := by
  induction l with
  | nil => simp
  | cons a l ih =>
    rw [List.splitOnP_cons_eq_if_modifyHead]
    obtain ⟨h, t, hl⟩ := List.exists_cons_of_ne_nil (List.splitOnP_ne_nil f l)
    rw [hl, List.flatten_cons] at ih
    cases ha : f a <;> simp [ha, hl, ih]

/-- **The fields hold the items that are not separators, in order.** -/
theorem flatten_FieldsFunc (l : List α) : (FieldsFunc l f).flatten = l.filter fun x => !f x := by
  rw [FieldsFunc, List.flatten_filter_not_isEmpty, flatten_splitOnP]

/-- No field is empty. -/
theorem ne_nil_of_mem_FieldsFunc {l field : List α} (h : field ∈ FieldsFunc l f) : field ≠ [] := by
  simp only [FieldsFunc, List.mem_filter, Bool.not_eq_eq_eq_not, Bool.not_true,
    List.isEmpty_eq_false_iff] at h
  exact h.2

end FieldsFunc

/-- A `strings.Replacer` whose old strings are single characters. -/
structure Replacer where
  oldnew : List (Char × String)

/-- `strings.NewReplacer`. -/
def NewReplacer (oldnew : List (Char × String)) : Replacer := ⟨oldnew⟩

/-- `Replace`: every character is replaced by the new string of the first pair
that names it, and kept when none does. -/
def Replacer.Replace (r : Replacer) (s : String) : String :=
  String.join (s.toList.map fun c => ((r.oldnew.find? (·.1 = c)).map (·.2)).getD (String.singleton c))

end strings
