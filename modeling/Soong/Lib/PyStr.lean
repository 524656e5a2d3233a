import Mathlib.Data.List.Infix

/-!
# Python string methods

The methods of Python's `str` that the scripts use, over strings as lists of
characters: `removeprefix`, `removesuffix`, `split` at a separator of several
characters, and `islower`.  `split` at one character is `List.splitOn`.

`islower` reads Unicode's case tables, which the model takes as parameters:
`cased` (the character has a case) and `lower` (it is lower case).

## Main results

* `split_of_not_infix`, `split_append` — `split` cuts at every separator and
  nowhere else.
* `not_mem_intercalate` — what `sep.join(parts)` is made of.
-/

namespace str

/-- `s.removeprefix(prefix)`. -/
def removePrefix (s pre : List Char) : List Char :=
  if pre.isPrefixOf s then s.drop pre.length else s

/-- `s.removesuffix(suffix)`. -/
def removeSuffix (s suf : List Char) : List Char :=
  if suf.isSuffixOf s then s.take (s.length - suf.length) else s

/-- The loop of `split`: `cur` is the piece read so far. -/
def splitAux (c : Char) (sep : List Char) : List Char → List Char → List (List Char)
  | [], cur => [cur]
  | x :: rest, cur =>
    if (c :: sep).isPrefixOf (x :: rest) then
      cur :: splitAux c sep ((x :: rest).drop (sep.length + 1)) []
    else splitAux c sep rest (cur ++ [x])
termination_by s => s.length
decreasing_by
  · simp only [List.length_drop, List.length_cons]
    omega
  · simp only [List.length_cons]
    omega

/-- `s.split(sep)` for the separator `c :: sep`: the pieces between the
separators, found from the left without overlap. -/
def split (s : List Char) (c : Char) (sep : List Char) : List (List Char) := splitAux c sep s []

/-- `s.islower()`: some character has a case, and every one that has is lower
case. -/
def islower (cased lower : Char → Bool) (s : List Char) : Bool :=
  s.any cased && s.all fun ch => !cased ch || lower ch

/-! ### White space, partitions and numbers -/

/-- `c.isspace()`, which is also what `\s` matches in a regular expression
over `str`. -/
def isspace (c : Char) : Bool :=
  [0x09, 0x0A, 0x0B, 0x0C, 0x0D, 0x1C, 0x1D, 0x1E, 0x1F, 0x20, 0x85, 0xA0, 0x1680, 0x2000,
    0x2001, 0x2002, 0x2003, 0x2004, 0x2005, 0x2006, 0x2007, 0x2008, 0x2009, 0x200A, 0x2028,
    0x2029, 0x202F, 0x205F, 0x3000].contains c.toNat

/-- `s.strip()`. -/
def strip (s : List Char) : List Char := ((s.dropWhile isspace).reverse.dropWhile isspace).reverse

/-- `s.rstrip(chars)`, the characters given by a test: `rstrip()` strips white
space. -/
def rstrip (s : List Char) (chars : Char → Bool) : List Char := (s.reverse.dropWhile chars).reverse

/-- `s.partition(sep)` at a one-character separator: what stands before the
first `sep`, the separator if found, and what stands after it. -/
def partition (s : List Char) (sep : Char) : List Char × List Char × List Char :=
  (s.takeWhile (· != sep), if sep ∈ s then [sep] else [], (s.dropWhile (· != sep)).drop 1)

/-- `[e for e in re.split(r'\s+', s) if e.strip()]`: the words of `s`. -/
def words (s : List Char) : List (List Char) :=
  (s.splitOnP isspace).filter fun e => !(strip e).isEmpty

/-- The code points of the zeros of Unicode's decimal digits (category `Nd`),
as Python 3.11's `unicodedata` (Unicode 14.0) has them: each is the first of
ten consecutive digits, of values 0 to 9. -/
def decimalZeros : List ℕ :=
  [0x30, 0x660, 0x6f0, 0x7c0, 0x966, 0x9e6, 0xa66, 0xae6, 0xb66, 0xbe6, 0xc66, 0xce6, 0xd66,
    0xde6, 0xe50, 0xed0, 0xf20, 0x1040, 0x1090, 0x17e0, 0x1810, 0x1946, 0x19d0, 0x1a80, 0x1a90,
    0x1b50, 0x1bb0, 0x1c40, 0x1c50, 0xa620, 0xa8d0, 0xa900, 0xa9d0, 0xa9f0, 0xaa50, 0xabf0,
    0xff10, 0x104a0, 0x10d30, 0x11066, 0x110f0, 0x11136, 0x111d0, 0x112f0, 0x11450, 0x114d0,
    0x11650, 0x116c0, 0x11730, 0x118e0, 0x11950, 0x11c50, 0x11d50, 0x11da0, 0x16a60, 0x16ac0,
    0x16b50, 0x1d7ce, 0x1d7d8, 0x1d7e2, 0x1d7ec, 0x1d7f6, 0x1e140, 0x1e2f0, 0x1e950, 0x1fbf0]

/-- `unicodedata.decimal(c)`: the value of a decimal digit of any script,
which is what `int()` reads a character as. -/
def decimal (c : Char) : Option ℕ :=
  (decimalZeros.find? fun z => z ≤ c.toNat && c.toNat < z + 10).map (c.toNat - ·)

/-- Whether a character is a decimal digit. -/
def isDecimal (c : Char) : Bool := (decimal c).isSome

/-- The digits of `int(s)` in base 10: at least one, with single underscores
between them. -/
def decimalDigits (digits : List Char) : Bool :=
  !digits.isEmpty && (digits.head?.all isDecimal) && (digits.getLast?.all isDecimal) &&
    digits.all (fun c => isDecimal c || c == '_') && !decide (['_', '_'] <:+: digits)

/-- `int(s)` in base 10: white space around, a sign, and decimal digits of any
script; `none` where Python raises `ValueError`. -/
def toInt (s : List Char) : Option Int :=
  let (neg, digits) : Bool × List Char := match strip s with
    | '-' :: d => (true, d)
    | '+' :: d => (false, d)
    | d => (false, d)
  if decimalDigits digits then
    let n : Int := (digits.filterMap decimal).foldl (fun acc d => 10 * acc + d) 0
    some (if neg then -n else n)
  else none

/-- `str(n)`. -/
def ofInt (n : Int) : List Char := (toString n).toList

/-- What `strip` keeps: the text between white space, when it starts and ends
with something else. -/
theorem strip_eq {a s b : List Char} (ha : ∀ c ∈ a, isspace c = true)
    (hb : ∀ c ∈ b, isspace c = true) (hhead : ∀ c ∈ s.head?, isspace c = false)
    (hlast : ∀ c ∈ s.getLast?, isspace c = false) : strip (a ++ s ++ b) = s := by
  rw [strip, List.append_assoc, List.dropWhile_append_of_pos ha]
  rcases List.eq_nil_or_concat s with rfl | ⟨init, y, rfl⟩
  · have hnil := @List.dropWhile_append_of_pos _ isspace b [] hb
    rw [List.append_nil, List.dropWhile_nil] at hnil
    rw [List.nil_append, hnil]
    rfl
  · rw [List.concat_eq_append] at hhead hlast ⊢
    -- the first character of `s` stops the front, its last one the back
    have hfront : (init ++ [y] ++ b).dropWhile isspace = init ++ [y] ++ b := by
      cases init with
      | nil => exact List.dropWhile_cons_of_neg (by simpa using hhead)
      | cons x init => exact List.dropWhile_cons_of_neg (by simpa using hhead)
    have hback : (init ++ [y]).reverse.dropWhile isspace = (init ++ [y]).reverse := by
      rw [List.reverse_concat]
      exact List.dropWhile_cons_of_neg (by simpa using hlast)
    rw [hfront, List.reverse_append,
      List.dropWhile_append_of_pos (fun c hc => hb c (List.mem_reverse.mp hc)), hback,
      List.reverse_reverse]

/-- A text that starts and ends with something other than white space is its
own `strip`. -/
theorem strip_eq_self {s : List Char} (hhead : ∀ c ∈ s.head?, isspace c = false)
    (hlast : ∀ c ∈ s.getLast?, isspace c = false) : strip s = s := by
  simpa using @strip_eq [] s [] (by simp) (by simp) hhead hlast

theorem forall_bne_of_not_mem {a : List Char} {c : Char} (h : c ∉ a) : ∀ x ∈ a, (x != c) = true := by
  intro x hx
  rw [bne_iff_ne]
  rintro rfl
  exact h hx

/-- `s.split(c)[0]` with `c` in `s`: what stands before its first occurrence. -/
theorem takeWhile_ne_append {a : List Char} {c : Char} (h : c ∉ a) (b : List Char) :
    (a ++ c :: b).takeWhile (· != c) = a := by
  rw [List.takeWhile_append_of_pos (forall_bne_of_not_mem h), List.takeWhile_cons_of_neg (by simp),
    List.append_nil]

/-- `s.partition(c)` with `c` in `s`: what stands before and after its first
occurrence. -/
theorem partition_append {a : List Char} {c : Char} (h : c ∉ a) (b : List Char) :
    partition (a ++ c :: b) c = (a, [c], b) := by
  have hdrop : (a ++ c :: b).dropWhile (· != c) = c :: b := by
    rw [List.dropWhile_append_of_pos (forall_bne_of_not_mem h)]
    exact List.dropWhile_cons_of_neg (by simp)
  rw [partition, takeWhile_ne_append h, hdrop, if_pos (by simp)]
  rfl

/-- What `rstrip` keeps: the text before characters it strips, when it ends
with another. -/
theorem rstrip_eq {s t : List Char} {chars : Char → Bool} (ht : ∀ c ∈ t, chars c = true)
    (hs : ∀ c ∈ s.getLast?, chars c = false) : rstrip (s ++ t) chars = s := by
  rw [rstrip, List.reverse_append,
    List.dropWhile_append_of_pos fun c hc => ht c (List.mem_reverse.mp hc)]
  rcases List.eq_nil_or_concat s with rfl | ⟨init, y, rfl⟩
  · rfl
  · rw [List.concat_eq_append] at hs ⊢
    rw [List.reverse_concat, List.dropWhile_cons_of_neg (by simpa using hs), ← List.reverse_concat,
      List.reverse_reverse]

/-- `s.partition(c)` with no `c` in `s`. -/
theorem partition_of_not_mem {s : List Char} {c : Char} (h : c ∉ s) : partition s c = (s, [], []) := by
  have htake := @List.takeWhile_append_of_pos _ (· != c) s [] (forall_bne_of_not_mem h)
  have hdrop := @List.dropWhile_append_of_pos _ (· != c) s [] (forall_bne_of_not_mem h)
  rw [List.append_nil, List.takeWhile_nil, List.append_nil] at htake
  rw [List.append_nil, List.dropWhile_nil] at hdrop
  rw [partition, htake, hdrop, if_neg h]
  rfl

/-- A character that is not the separator and in no part is not in
`sep.join(parts)`. -/
theorem not_mem_intercalate {c sep : Char} (hc : c ≠ sep) :
    ∀ {parts : List (List Char)}, (∀ l ∈ parts, c ∉ l) → c ∉ [sep].intercalate parts
  | [], _ => by simp
  | [l], h => by
    rw [List.intercalate_singleton]
    exact h l List.mem_cons_self
  | l :: l' :: parts, h => by
    rw [List.intercalate_cons_cons]
    simp only [List.mem_append, List.mem_singleton, not_or]
    exact ⟨⟨h l List.mem_cons_self, hc⟩,
      not_mem_intercalate hc fun l hl => h l (List.mem_cons_of_mem _ hl)⟩

theorem removePrefix_append (pre s : List Char) : removePrefix (pre ++ s) pre = s := by
  have hpre : pre.isPrefixOf (pre ++ s) = true := List.isPrefixOf_iff_prefix.mpr (List.prefix_append _ _)
  rw [removePrefix, if_pos hpre, List.drop_left]

theorem removeSuffix_of_not_mem {s : List Char} {c : Char} (h : c ∉ s) : removeSuffix s [c] = s := by
  have hsuf : [c].isSuffixOf s = false := by
    rw [Bool.eq_false_iff]
    intro hs
    exact h ((List.isSuffixOf_iff_suffix.mp hs).subset (List.mem_singleton_self c))
  rw [removeSuffix, hsuf, if_neg Bool.false_ne_true]

/-- With no separator left, the rest is the last piece. -/
theorem splitAux_of_not_infix {c : Char} {sep : List Char} :
    ∀ {s : List Char} (cur : List Char), ¬(c :: sep) <:+: s → splitAux c sep s cur = [cur ++ s]
  | [], cur, _ => by rw [splitAux, List.append_nil]
  | x :: rest, cur, h => by
    have hpre : (c :: sep).isPrefixOf (x :: rest) = false := by
      rw [Bool.eq_false_iff]
      exact fun hp => h (List.isPrefixOf_iff_prefix.mp hp).isInfix
    have hrest : ¬(c :: sep) <:+: rest := fun hi => h (hi.trans (List.suffix_cons x rest).isInfix)
    rw [splitAux, hpre, if_neg Bool.false_ne_true, splitAux_of_not_infix (cur ++ [x]) hrest,
      List.append_assoc, List.singleton_append]

theorem split_of_not_infix {s : List Char} {c : Char} {sep : List Char} (h : ¬(c :: sep) <:+: s) :
    split s c sep = [s] := by
  rw [split, splitAux_of_not_infix [] h, List.nil_append]

/-- A piece with no `c` in it ends at the separator after it. -/
theorem splitAux_append {c : Char} {sep : List Char} (b : List Char) :
    ∀ {a : List Char} (cur : List Char), c ∉ a →
      splitAux c sep (a ++ (c :: sep) ++ b) cur = (cur ++ a) :: splitAux c sep b []
  | [], cur, _ => by
    have hpre : (c :: sep).isPrefixOf ((c :: sep) ++ b) = true :=
      List.isPrefixOf_iff_prefix.mpr (List.prefix_append _ _)
    rw [List.nil_append, List.cons_append, splitAux, ← List.cons_append, hpre, if_pos rfl,
      List.append_nil]
    simp
  | x :: a, cur, h => by
    rw [List.mem_cons, not_or] at h
    -- `x` is not `c`, so no separator starts here
    have hpre : (c :: sep).isPrefixOf (x :: (a ++ (c :: sep) ++ b)) = false := by
      simp [List.isPrefixOf, h.1]
    have hstep : splitAux c sep (x :: (a ++ (c :: sep) ++ b)) cur =
        splitAux c sep (a ++ (c :: sep) ++ b) (cur ++ [x]) := by
      rw [splitAux, hpre, if_neg Bool.false_ne_true]
    rw [show x :: a ++ (c :: sep) ++ b = x :: (a ++ (c :: sep) ++ b) by simp, hstep,
      splitAux_append b (cur ++ [x]) h.2]
    simp

theorem split_append {a : List Char} {c : Char} {sep : List Char} (h : c ∉ a) (b : List Char) :
    split (a ++ (c :: sep) ++ b) c sep = a :: split b c sep := by
  rw [split, splitAux_append b [] h, List.nil_append, split]

end str
