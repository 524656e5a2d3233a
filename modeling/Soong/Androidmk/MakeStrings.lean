import Mathlib.Data.Int.Notation
import Soong.Lib.GoText

/-!
# Make strings

`androidmk/parser/make_strings.go`.  A `MakeString` is a list of raw strings
alternating with variable references, one string more than variables.  Go keeps
the two lists apart; the model keeps the first string and then each variable
with the string after it, so that the lengths cannot disagree, and `Strings`
and `Variables` give Go's two lists back.

`Words` splits a make string at unescaped blanks, walking its characters with
an end-of-string mark after each raw string; `unescape` undoes the escapes of
blanks, `\`, `#`, `:` and a few more.

## Main definitions

* `MakeString`, `Variable`, `VariableName`.
* `appendString`, `appendVariable`, `appendMakeString`, `Value`, `Words`,
  `unescape`.
-/

namespace Soong

namespace Androidmk

open scanner

mutual

/-- `MakeString`: its position, its first raw string, and each variable with
the raw string after it. -/
inductive MakeString where
  | mk (StringPos : ℤ) (first : String) (rest : List (Variable × String))

/-- `Variable`: a reference `$(Name)`. -/
inductive Variable where
  | mk (Name : VariableName)

/-- The `Name` pointer of a `Variable`: the shared `builtinDollarName` that
`$$` gets, a name the parser read, or nil, after a `$` at the end of the
input. -/
inductive VariableName where
  | builtinDollarName
  | ptr (name : MakeString)
  | nil

end

namespace Variable

def Name : Variable → VariableName
  | mk name => name

end Variable

namespace MakeString

def StringPos : MakeString → ℤ
  | mk pos _ _ => pos

def first : MakeString → String
  | mk _ first _ => first

def rest : MakeString → List (Variable × String)
  | mk _ _ rest => rest

/-- Go's `Strings`. -/
def Strings (ms : MakeString) : List String := ms.first :: ms.rest.map Prod.snd

/-- Go's `Variables`. -/
def Variables (ms : MakeString) : List Variable := ms.rest.map Prod.fst

@[simp] theorem StringPos_mk (pos : ℤ) (first : String) (rest : List (Variable × String)) :
    (mk pos first rest).StringPos = pos := rfl

@[simp] theorem first_mk (pos : ℤ) (first : String) (rest : List (Variable × String)) :
    (mk pos first rest).first = first := rfl

@[simp] theorem rest_mk (pos : ℤ) (first : String) (rest : List (Variable × String)) :
    (mk pos first rest).rest = rest := rfl

end MakeString

/-- `SimpleMakeString`. -/
def SimpleMakeString (s : String) (pos : ℤ) : MakeString := .mk pos s []

namespace MakeString

def Pos (ms : MakeString) : ℤ := ms.StringPos

/-- Apply `f` to the last raw string. -/
def modifyLast (f : String → String) : MakeString → MakeString
  | mk pos first [] => mk pos (f first) []
  | mk pos first rest => mk pos first (rest.modifyLast fun (v, s) => (v, f s))

/-- The last raw string. -/
def last : MakeString → String
  | mk _ first rest => (rest.getLast?.map Prod.snd).getD first

/-- `appendString`: onto the last raw string. -/
def appendString (ms : MakeString) (s : String) : MakeString := ms.modifyLast (· ++ s)

/-- `appendVariable`: the variable, then an empty raw string. -/
def appendVariable (ms : MakeString) (v : Variable) : MakeString :=
  mk ms.StringPos ms.first (ms.rest ++ [(v, "")])

/-- `appendMakeString`: the other's first raw string goes onto the last one. -/
def appendMakeString (ms other : MakeString) : MakeString :=
  let ms := ms.appendString other.first
  mk ms.StringPos ms.first (ms.rest ++ other.rest)

/-- `unescape` on characters: a backslash before a blank, `\`, `#`, `:`, `*`,
`[`, `|` or a line end is dropped, any other is kept, and so is a trailing
one.  Go works on bytes, but a byte after a backslash that starts a longer
character is kept with it, so the characters agree. -/
def unescapeChars : List Char → List Char
  | '\\' :: c :: rest =>
    (if c ∈ [' ', '\\', '#', ':', '*', '[', '|', '\t', '\n', '\r'] then [c] else ['\\', c]) ++
      unescapeChars rest
  | c :: rest => c :: unescapeChars rest
  | [] => []

/-- `unescape`. -/
def unescape (s : String) : String := String.ofList (unescapeChars s.toList)

/-- `Value`: the raw strings unescaped, with the value `scope` gives each
variable between them.  Evaluating a variable, a function call included, is
the scope's; `makedeps` only takes the value of strings without variables. -/
def Value (ms : MakeString) (scope : Variable → String) : String :=
  unescape ms.first ++ String.join (ms.rest.map fun (v, s) => scope v ++ unescape s)

/-- `Const`: no variables. -/
def Const (ms : MakeString) : Bool := ms.rest.isEmpty

/-- `Empty`: a single empty raw string. -/
def Empty (ms : MakeString) : Bool := ms.rest.isEmpty && ms.first.isEmpty

/-- `TrimLeftSpaces`: the first raw string loses its leading spaces, and the
position moves by the change of length, which is not positive. -/
def TrimLeftSpaces (ms : MakeString) : MakeString :=
  let trimmed := strings.TrimLeftFunc ms.first unicode.IsSpace
  mk (ms.StringPos + ((trimmed.utf8ByteSize : ℤ) - ms.first.utf8ByteSize)) trimmed ms.rest

/-- `TrimRightSpaces`: the last raw string loses its trailing spaces. -/
def TrimRightSpaces (ms : MakeString) : MakeString :=
  ms.modifyLast fun s => strings.TrimRightFunc s unicode.IsSpace

/-- `TrimRightOne`: the last raw string loses its last byte, unless it has
only one.  It runs after `EndsWith('+')`, when that byte is a whole
character. -/
def TrimRightOne (ms : MakeString) : MakeString :=
  ms.modifyLast fun s => if s.utf8ByteSize > 1 then String.ofList s.toList.dropLast else s

/-- The last byte of the UTF-8 encoding of a character. -/
def lastByte (c : Char) : ℕ := if c.toNat < 0x80 then c.toNat else 0x80 + c.toNat % 64

/-- `EndsWith`: the last byte of the last raw string is `uint8(ch)`; an empty
last string panics (`none`). -/
def EndsWith (ms : MakeString) (ch : Char) : Option Bool :=
  ms.last.toList.getLast?.map fun c => lastByte c = ch.toNat % 256

/-- A character of the walk of `Words` over a make string: a character of a raw
string, or the end of one, with the variable after it if there is one. -/
inductive WordsCh where
  | char (c : Char)
  | EOS (v : Option Variable)

/-- What `nextChar` walks through: each raw string's characters, then its end. -/
def wordsStream (ms : MakeString) : List WordsCh :=
  ms.Strings.zipIdx.flatMap fun (s, i) => s.toList.map .char ++ [.EOS ms.Variables[i]?]

/-- `appendVariableAndAdvance`'s append. -/
def appendVariableOpt (word : MakeString) : Option Variable → MakeString
  | some v => word.appendVariable v
  | none => word

/-- The loops of `Words`, skipping blanks (`true`) or copying a word
(`false`); `none` is the panic on an end of string while the word is not
empty. -/
def wordsLoop (pos : ℤ) : Bool → MakeString → List MakeString → List WordsCh →
    Option (List MakeString)
  | _, word, words, [] => some (if word.Empty then words else words ++ [word])
  | true, word, words, .char ' ' :: r => wordsLoop pos true word words r
  | true, word, words, .char '\t' :: r => wordsLoop pos true word words r
  | true, word, words, .EOS v :: r =>
    if word.Empty then wordsLoop pos false (appendVariableOpt word v) words r else none
  | false, word, words, .char ' ' :: r =>
    wordsLoop pos true (SimpleMakeString "" pos) (words ++ [word]) r
  | false, word, words, .char '\t' :: r =>
    wordsLoop pos true (SimpleMakeString "" pos) (words ++ [word]) r
  | false, word, words, .EOS v :: r => wordsLoop pos false (appendVariableOpt word v) words r
  -- a backslash and the character after it go into the word together; an end
  -- of string there is appended as the character it converts to
  | _, word, words, .char '\\' :: r =>
    match r with
    | [] => wordsLoop pos false (word.appendString "\\") words []
    | .char c :: r => wordsLoop pos false ((word.appendString "\\").appendString (String.singleton c))
        words r
    | .EOS _ :: r => wordsLoop pos false ((word.appendString "\\").appendString "\uFFFD") words r
  | _, word, words, .char c :: r =>
    wordsLoop pos false (word.appendString (String.singleton c)) words r

/-- `Words`: the make string split at unescaped blanks. -/
def Words (ms : MakeString) : Option (List MakeString) :=
  wordsLoop ms.Pos true (SimpleMakeString "" ms.Pos) [] (wordsStream ms)

end MakeString

/-- `toVariable`: a make string that is one variable and nothing else. -/
def toVariable : MakeString → Option Variable
  | .mk _ "" [(v, "")] => some v
  | _ => none

end Androidmk

end Soong
