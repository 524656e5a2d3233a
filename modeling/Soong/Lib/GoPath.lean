import Mathlib

/-!
# Go's path strings

`strings.HasPrefix`, `strings.Replace` of one occurrence and `filepath.Dir`,
computed on the characters of a string; and the absolute path `/n₁/…/nₖ` of a
list of names, the root being `""`.

For names without a slash the string operations on such paths are list
operations on the names: one path with a slash appended is a prefix of another
with a slash appended exactly when its names are a prefix of the other's names,
and `Dir` drops the last name.  Go's `filepath.Dir` also cleans the path; the
model does not, and agrees with it on paths without empty, `.` or `..` names,
which is what `ValidName` asks of every name.

## Main definitions

* `strconv.Quote`, `strconv.Itoa`, `strings.HasPrefix`, `strings.HasSuffix`, `strings.TrimSuffix`,
  `strings.TrimPrefix`, `strings.IndexByte`, `strings.SplitN`, `strings.Split`,
  `strings.Replace`, `strings.ReplaceAll`.
* `filepath.Dir`, `filepath.Ext`, `filepath.Clean`, `filepath.Join`.
* `absChars`, `absPath`, `ValidName`.

## Main results

* `hasPrefix_absPath_iff` — prefixes of paths are prefixes of names.
* `Dir_absPath_append` — `Dir` drops the last name.
* `replace_append` — `Replace` removes a prefix.
* `strconv.Itoa_injective` — distinct numbers print differently.
-/

/-! ### First occurrences -/

/-- Replace the first occurrence of `old` in a list by `new`; an empty `old`
occurs at the start. -/
def replaceFirst (old new : List Char) : List Char → List Char
  | [] => if old.isPrefixOf [] then new else []
  | c :: s => if old.isPrefixOf (c :: s) then new ++ (c :: s).drop old.length
      else c :: replaceFirst old new s

theorem replaceFirst_of_isPrefixOf (old new s : List Char) (h : old.isPrefixOf s = true) :
    replaceFirst old new s = new ++ s.drop old.length := by
  cases s with
  | nil =>
    have hold : old = [] := List.prefix_nil.mp (List.isPrefixOf_iff_prefix.mp h)
    simp [replaceFirst, hold]
  | cons c s => simp [replaceFirst, h]

theorem replaceFirst_append (old new s : List Char) :
    replaceFirst old new (old ++ s) = new ++ s := by
  rw [replaceFirst_of_isPrefixOf old new _ (List.isPrefixOf_iff_prefix.mpr (List.prefix_append _ _)),
    List.drop_left]

/-- A prefix and a suffix of a list that do not overlap leave a middle between
them. -/
theorem exists_middle_of_prefix_of_suffix {α : Type} {p s l : List α} (hp : p <+: l)
    (hs : s <:+ l) (hlen : p.length + s.length ≤ l.length) : ∃ m, l = p ++ m ++ s := by
  rw [List.prefix_iff_eq_take] at hp
  rw [List.suffix_iff_eq_drop] at hs
  refine ⟨(l.drop p.length).take (l.length - p.length - s.length), ?_⟩
  -- the middle runs from the end of the prefix to the start of the suffix
  have hdrop : (l.drop p.length).drop (l.length - p.length - s.length) = s := by
    rw [List.drop_drop]
    convert hs.symm using 2
    omega
  calc l = l.take p.length ++ l.drop p.length := (List.take_append_drop _ _).symm
    _ = p ++ ((l.drop p.length).take (l.length - p.length - s.length) ++
          (l.drop p.length).drop (l.length - p.length - s.length)) := by
        rw [← hp, List.take_append_drop]
    _ = p ++ (l.drop p.length).take (l.length - p.length - s.length) ++ s := by
        rw [hdrop, List.append_assoc]

namespace strconv

/-- `strconv.Quote`, as `%q` prints a string, for strings of printable
characters: quotes and backslashes are escaped. -/
def Quote (s : String) : String :=
  "\"" ++ String.ofList (s.toList.flatMap fun c => if c = '"' ∨ c = '\\' then ['\\', c] else [c]) ++
    "\""

/-- `strconv.Itoa`: the decimal digits, after a `-` for a negative number. -/
def Itoa (i : ℤ) : String :=
  if i < 0 then "-" ++ Nat.repr i.natAbs else Nat.repr i.natAbs

theorem repr_injective : Function.Injective Nat.repr := by
  intro a b h
  -- the digits read back as the number
  have := congrArg (fun s => Nat.ofDigitChars 10 s.toList 0) h
  simpa only [Nat.toList_repr, Nat.ofDigitChars_ten_toDigits] using this

/-- **Distinct numbers print differently.** -/
theorem Itoa_injective : Function.Injective Itoa := by
  intro a b h
  -- a `-` is not a digit, so the signs agree
  have hminus : ∀ n : ℕ, '-' ∉ Nat.toDigits 10 n := fun n hn => by
    simpa using Nat.isDigit_of_mem_toDigits (by decide) (by decide) hn
  unfold Itoa at h
  have hl := congrArg String.toList h
  by_cases ha : a < 0 <;> by_cases hb : b < 0 <;>
    simp only [ha, hb, if_true, if_false, String.toList_append, Nat.toList_repr] at hl
  · have := repr_injective (String.ext (by simpa using hl))
    omega
  · exact absurd (hl ▸ List.mem_append_left _ (by simp) : '-' ∈ Nat.toDigits 10 b.natAbs) (hminus _)
  · exact absurd (hl ▸ List.mem_append_left _ (by simp) : '-' ∈ Nat.toDigits 10 a.natAbs) (hminus _)
  · have := repr_injective (String.ext (by simpa using hl))
    omega

/-- The errors of `strconv`'s parsing of numbers. -/
inductive NumError
  | ErrSyntax
  | ErrRange
  deriving DecidableEq, Repr

/-- The text of a number that is not negative has no minus sign. -/
theorem minus_not_mem_Itoa (n : ℕ) : '-' ∉ (Itoa n).toList := by
  rw [Itoa, if_neg (by omega), Int.natAbs_natCast, Nat.toList_repr]
  intro hn
  simpa using Nat.isDigit_of_mem_toDigits (by decide : 0 < 10) (by decide : 10 ≤ 10) hn

/-- The largest `uint64`. -/
def maxUint64 : ℕ := 2 ^ 64 - 1

/-- The loop of `strconv.ParseUint` in base 10 with 64 bits over the bytes
left, from the value read so far: a byte that is not a digit is a syntax error,
and a value past `maxUint64` a range error, which returns `maxUint64`. -/
def parseUintLoop : List Char → ℕ → ℕ × Option NumError
  | [], n => (n, none)
  | c :: cs, n =>
    if !c.isDigit then (0, some .ErrSyntax)
    else if n ≥ maxUint64 / 10 + 1 then (maxUint64, some .ErrRange)
    else if 10 * n + (c.toNat - '0'.toNat) > maxUint64 then (maxUint64, some .ErrRange)
    else parseUintLoop cs (10 * n + (c.toNat - '0'.toNat))

/-- `strconv.ParseUint(s, 10, 64)`. -/
def ParseUint (s : List Char) : ℕ × Option NumError :=
  if s.isEmpty then (0, some .ErrSyntax) else parseUintLoop s 0

/-- `strconv.ParseInt(s, 10, 64)`: an optional sign, then `ParseUint`; a value
out of range is a range error, which returns the nearest bound. -/
def ParseInt (s : String) : ℤ × Option NumError :=
  match s.toList with
  | [] => (0, some .ErrSyntax)
  | c :: rest =>
    let (neg, digits) :=
      if c = '+' then (false, rest) else if c = '-' then (true, rest) else (false, c :: rest)
    let (un, err) := ParseUint digits
    if err = some .ErrSyntax then (0, err)
    else if !neg && un ≥ 2 ^ 63 then (2 ^ 63 - 1, some .ErrRange)
    else if neg && un > 2 ^ 63 then (-2 ^ 63, some .ErrRange)
    else (if neg then -(un : ℤ) else un, none)

/-- `strconv.Atoi`, which "is equivalent to `ParseInt(s, 10, 0)`", for a
64-bit `int`. -/
def Atoi (s : String) : ℤ × Option NumError := ParseInt s

theorem le_ofDigitChars (l : List Char) (init : ℕ) : init ≤ Nat.ofDigitChars 10 l init := by
  rw [Nat.ofDigitChars_eq_ofDigitChars_zero]
  exact (Nat.le_mul_of_pos_left init (Nat.pow_pos (by decide))).trans (Nat.le_add_right _ _)

/-- The loop reads back digits whose value fits in 64 bits. -/
theorem parseUintLoop_of_digits (l : List Char) (n : ℕ) (hdigits : ∀ c ∈ l, c.isDigit = true)
    (hle : Nat.ofDigitChars 10 l n ≤ maxUint64) :
    parseUintLoop l n = (Nat.ofDigitChars 10 l n, none) := by
  induction l generalizing n with
  | nil => rfl
  | cons c cs ih =>
    rw [Nat.ofDigitChars_cons] at hle ⊢
    -- the value read so far is below the final one, so neither check fires
    have hstep := (le_ofDigitChars cs (10 * n + (c.toNat - '0'.toNat))).trans hle
    have hcut : ¬n ≥ maxUint64 / 10 + 1 := by
      unfold maxUint64 at hstep ⊢
      omega
    rw [parseUintLoop, hdigits c List.mem_cons_self, Bool.not_true, if_neg Bool.false_ne_true,
      if_neg hcut, if_neg (Nat.not_lt.mpr hstep)]
    exact ih _ (fun d hd => hdigits d (List.mem_cons_of_mem c hd)) hle

theorem ParseUint_toDigits {n : ℕ} (hn : n ≤ maxUint64) :
    ParseUint (Nat.toDigits 10 n) = (n, none) := by
  have hdigits : ∀ c ∈ Nat.toDigits 10 n, c.isDigit = true := fun c hc =>
    Nat.isDigit_of_mem_toDigits (by decide) (by decide) hc
  rw [ParseUint, if_neg (by simp [Nat.toDigits_ne_nil]),
    parseUintLoop_of_digits _ 0 hdigits (by rwa [Nat.ofDigitChars_ten_toDigits]),
    Nat.ofDigitChars_ten_toDigits]

/-- `ParseInt` reads back the digits of a number below `2^63`. -/
theorem ParseInt_toDigits {s : String} {n : ℕ} (hs : s.toList = Nat.toDigits 10 n)
    (hn : n < 2 ^ 63) : ParseInt s = ((n : ℤ), none) := by
  have hfits : n ≤ maxUint64 := by unfold maxUint64; omega
  -- the first digit is no sign
  obtain ⟨c, rest, hcr⟩ := List.exists_cons_of_ne_nil (Nat.toDigits_ne_nil (n := n))
  have hmem : c ∈ Nat.toDigits 10 n := hcr ▸ List.mem_cons_self
  have hdigit : c.isDigit = true := Nat.isDigit_of_mem_toDigits (by decide) (by decide) hmem
  have hplus : c ≠ '+' := by rintro rfl; simp at hdigit
  have hminus : c ≠ '-' := by rintro rfl; simp at hdigit
  rw [ParseInt, hs, hcr]
  simp only [if_neg hplus, if_neg hminus]
  rw [← hcr, ParseUint_toDigits hfits]
  simp only [reduceCtorEq, if_false, Bool.not_false, Bool.true_and, decide_eq_true_eq,
    Bool.false_and, Bool.false_eq_true, if_neg (Nat.not_le.mpr hn)]

/-- `ParseInt` reads back a `-` and the digits of a number up to `2^63`. -/
theorem ParseInt_minus_toDigits {s : String} {n : ℕ} (hs : s.toList = '-' :: Nat.toDigits 10 n)
    (hn : n ≤ 2 ^ 63) : ParseInt s = (-(n : ℤ), none) := by
  have hfits : n ≤ maxUint64 := by unfold maxUint64; omega
  rw [ParseInt, hs]
  simp only [if_neg (show ('-' : Char) ≠ '+' by decide), if_true]
  rw [ParseUint_toDigits hfits]
  simp only [reduceCtorEq, if_false, Bool.not_true, Bool.false_and, Bool.true_and,
    decide_eq_true_eq, Bool.false_eq_true, if_neg (Nat.not_lt.mpr hn)]

/-- **`Atoi` reads back what `Itoa` prints**, for every 64-bit `int`. -/
theorem Atoi_Itoa {i : ℤ} (hlo : -2 ^ 63 ≤ i) (hhi : i < 2 ^ 63) : Atoi (Itoa i) = (i, none) := by
  rw [Atoi, Itoa]
  by_cases hneg : i < 0
  · -- a `-`, then the digits of `|i| ≤ 2^63`
    have hs : ("-" ++ Nat.repr i.natAbs).toList = '-' :: Nat.toDigits 10 i.natAbs := by
      simp [Nat.toList_repr]
    rw [if_pos hneg, ParseInt_minus_toDigits hs (by omega)]
    congr 1
    omega
  · rw [if_neg hneg, ParseInt_toDigits Nat.toList_repr (by omega)]
    congr 1
    omega

end strconv

namespace strings

/-- `strings.HasPrefix`. -/
def HasPrefix (s pfx : String) : Bool := pfx.toList.isPrefixOf s.toList

/-- `strings.Replace(s, old, new, 1)`. -/
def Replace (s old new : String) : String :=
  String.ofList (replaceFirst old.toList new.toList s.toList)

theorem replace_append (old s new : String) : Replace (old ++ s) old new = new ++ s := by
  apply String.ext
  simp [Replace, replaceFirst_append]

theorem hasPrefix_iff (s pfx : String) : HasPrefix s pfx = true ↔ pfx.toList <+: s.toList :=
  List.isPrefixOf_iff_prefix

/-- `strings.HasSuffix`. -/
def HasSuffix (s suffix : String) : Bool := suffix.toList.isSuffixOf s.toList

theorem hasSuffix_iff (s suffix : String) :
    HasSuffix s suffix = true ↔ suffix.toList <:+ s.toList :=
  List.isSuffixOf_iff_suffix

/-- `strings.TrimSuffix`. -/
def TrimSuffix (s suffix : String) : String :=
  if HasSuffix s suffix then String.ofList (s.toList.take (s.toList.length - suffix.toList.length))
  else s

/-- `strings.TrimPrefix`. -/
def TrimPrefix (s pfx : String) : String :=
  if HasPrefix s pfx then String.ofList (s.toList.drop pfx.toList.length) else s

/-- `strings.IndexByte` for an ASCII byte, counting characters: the index of
the first `c`, `-1` when there is none. -/
def IndexByte (s : String) (c : Char) : Int :=
  if c ∈ s.toList then (s.toList.takeWhile (· ≠ c)).length else -1

/-- The cuts of `strings.SplitN` at a one-character separator, at most `k` of
them: the text before the next separator is a piece. -/
def splitOnN (sep : Char) : ℕ → List Char → List (List Char)
  | 0, s => [s]
  | k + 1, s =>
    match s.span (· ≠ sep) with
    | (before, []) => [before]
    | (before, _ :: after) => before :: splitOnN sep k after

/-- `strings.SplitN` at a one-character separator: no pieces for `n = 0`, every
piece for negative `n`, and at most `n` pieces otherwise, the last holding the
rest. -/
def SplitN (s : String) (sep : Char) (n : Int) : List String :=
  if n = 0 then []
  else if n < 0 then (s.toList.splitOn sep).map String.ofList
  else (splitOnN sep (n - 1).toNat s.toList).map String.ofList

/-- `strings.Split` at a one-character separator. -/
def Split (s : String) (sep : Char) : List String := SplitN s sep (-1)

theorem Split_eq (s : String) (sep : Char) :
    Split s sep = (s.toList.splitOn sep).map String.ofList := by
  simp [Split, SplitN]

/-- No piece of a split holds the separator. -/
theorem not_mem_of_mem_splitOn {sep : Char} :
    ∀ {l : List Char} {p : List Char}, p ∈ l.splitOn sep → sep ∉ p
  | [], p, hp => by
    rw [List.splitOn_nil, List.mem_singleton] at hp
    simp [hp]
  | c :: l, p, hp => by
    rw [List.splitOn_cons_eq_if_modifyHead] at hp
    split at hp
    · rcases List.mem_cons.1 hp with rfl | hp
      · simp
      · exact not_mem_of_mem_splitOn hp
    · -- the first piece grows by `c`, which is not the separator
      rename_i hc
      obtain ⟨q, qs, hqs⟩ := List.exists_cons_of_ne_nil (List.splitOn_ne_nil sep l)
      rw [hqs, List.modifyHead_cons, List.mem_cons] at hp
      rcases hp with rfl | hp
      · have hq := @not_mem_of_mem_splitOn sep l q (by rw [hqs]; exact List.mem_cons_self)
        simp only [beq_iff_eq] at hc
        simp [hq, Ne.symm hc]
      · exact not_mem_of_mem_splitOn (by rw [hqs]; exact List.mem_cons_of_mem q hp)

theorem not_mem_of_mem_Split {s p : String} {sep : Char} (hp : p ∈ Split s sep) :
    sep ∉ p.toList := by
  rw [Split_eq, List.mem_map] at hp
  obtain ⟨q, hq, rfl⟩ := hp
  simpa using not_mem_of_mem_splitOn hq

/-- Joining the pieces of a split with the separator gives the text back. -/
theorem intercalate_Split (s : String) (sep : Char) :
    String.intercalate (String.singleton sep) (Split s sep) = s := by
  apply String.ext
  rw [String.toList_intercalate, Split_eq, List.map_map]
  simp

/-- A character of pieces joined by a separator is the separator or a character
of a piece. -/
theorem mem_intercalate_singleton {sep c : Char} :
    ∀ {L : List (List Char)}, c ∈ List.intercalate [sep] L → c = sep ∨ ∃ l ∈ L, c ∈ l
  | [], h => by simp at h
  | [a], h => .inr ⟨a, List.mem_singleton_self a, by simpa using h⟩
  | a :: b :: L, h => by
    rw [List.intercalate_cons_cons] at h
    simp only [List.mem_append, List.mem_singleton] at h
    rcases h with (h | h) | h
    · exact .inr ⟨a, List.mem_cons_self, h⟩
    · exact .inl h
    · rcases mem_intercalate_singleton h with h | ⟨l, hl, hc⟩
      · exact .inl h
      · exact .inr ⟨l, List.mem_cons_of_mem a hl, hc⟩

/-- Pieces without the separator, joined by it, split back into themselves. -/
theorem Split_intercalate {l : List String} {sep : Char} (hl : ∀ p ∈ l, sep ∉ p.toList)
    (hne : l ≠ []) : Split (String.intercalate (String.singleton sep) l) sep = l := by
  rw [Split_eq, String.toList_intercalate, String.toList_singleton,
    List.splitOn_intercalate sep (by simpa using hl) (by simpa using hne)]
  simp

/-- A separator neither head holds splits `a ++ sep :: x` at the end of `a`. -/
theorem append_cons_inj_of_not_mem {c : Char} {a b x y : List Char} (ha : c ∉ a) (hb : c ∉ b)
    (h : a ++ c :: x = b ++ c :: y) : a = b ∧ x = y := by
  induction a generalizing b with
  | nil =>
    cases b with
    | nil => simpa using h
    | cons d b =>
      -- the separator would head `b`
      obtain ⟨rfl, -⟩ := List.cons.inj h
      exact absurd List.mem_cons_self hb
  | cons d a ih =>
    cases b with
    | nil =>
      obtain ⟨rfl, -⟩ := List.cons.inj h
      exact absurd List.mem_cons_self ha
    | cons e b =>
      obtain ⟨rfl, htail⟩ := List.cons.inj h
      obtain ⟨rfl, rfl⟩ := ih (List.not_mem_of_not_mem_cons ha) (List.not_mem_of_not_mem_cons hb) htail
      exact ⟨rfl, rfl⟩

/-- Texts joined by a separator neither head holds give back their parts. -/
theorem append_singleton_append_inj {c : Char} {a b x y : String} (ha : c ∉ a.toList)
    (hb : c ∉ b.toList) (h : a ++ String.singleton c ++ x = b ++ String.singleton c ++ y) :
    a = b ∧ x = y := by
  have hl := congrArg String.toList h
  simp only [String.toList_append, String.toList_singleton, List.append_assoc,
    List.singleton_append] at hl
  obtain ⟨h₁, h₂⟩ := append_cons_inj_of_not_mem ha hb hl
  exact ⟨String.toList_injective h₁, String.toList_injective h₂⟩

/-- `strings.ReplaceAll` of a one-character `old`: every occurrence replaced by
`new`. -/
def ReplaceAll (s : String) (old : Char) (new : String) : String :=
  String.ofList (s.toList.flatMap fun c => if c = old then new.toList else [c])

end strings


namespace filepath

/-- `filepath.Dir` of a path whose names are not empty, `.` or `..`: the path
up to its last slash, without that slash unless nothing is left, and `.` for a
path without a slash.  (Go also cleans the result, which changes nothing on
such paths.) -/
def Dir (path : String) : String :=
  match path.toList.reverse.dropWhile (· != '/') with
  | [] => "."
  | _ :: before => if before = [] then "/" else String.ofList before.reverse

/-- `filepath.Ext`: the suffix from the last dot of the last element, `""`
without one. -/
def Ext (path : String) : String :=
  let lastRev := path.toList.reverse.takeWhile (· != '/')
  let afterDotRev := lastRev.takeWhile (· != '.')
  if afterDotRev.length < lastRev.length then String.ofList ('.' :: afterDotRev.reverse) else ""

/-- `filepath.Clean`, lexically: empty and `.` elements dropped, a `..` element
removes the element before it (or stays at the start of a relative path, or
disappears at the root), and `.` for what is left empty. -/
def Clean (path : String) : String :=
  if path = "" then "."
  else
    let rooted := path.toList.head? = some '/'
    let elems := (path.toList.splitOn '/').foldl (fun (st : List (List Char)) e =>
        if e = [] ∨ e = ['.'] then st
        else if e = ['.', '.'] then
          match st with
          | top :: rest => if top = ['.', '.'] then e :: st else rest
          | [] => if rooted then [] else [e]
        else e :: st) []
    let out := (if rooted then ['/'] else []) ++ ['/'].intercalate elems.reverse
    if out = [] then "." else String.ofList out

/-- `filepath.Join`: the elements from the first non-empty one, joined by
slashes and cleaned; `""` when all are empty. -/
def Join (elem : List String) : String :=
  match elem.dropWhile (· = "") with
  | [] => ""
  | elems => Clean (String.intercalate "/" elems)

end filepath

/-! ### Absolute paths of names -/

section absPath

/-- The characters of `/n₁/…/nₖ`. -/
def absChars (ns : List String) : List Char := ns.flatMap fun n => '/' :: n.toList

/-- The absolute path of a list of names, `""` for the root. -/
def absPath (ns : List String) : String := String.ofList (absChars ns)

/-- A directory name: not empty, without a slash, and not `.` or `..`. -/
def ValidName (n : String) : Prop := n ≠ "" ∧ '/' ∉ n.toList ∧ n ≠ "." ∧ n ≠ ".."

instance : DecidablePred ValidName := fun n =>
  inferInstanceAs (Decidable (n ≠ "" ∧ '/' ∉ n.toList ∧ n ≠ "." ∧ n ≠ ".."))

@[simp] theorem toList_absPath (ns : List String) : (absPath ns).toList = absChars ns :=
  String.toList_ofList

@[simp] theorem absChars_nil : absChars [] = [] := rfl

@[simp] theorem absChars_cons (n : String) (ns : List String) :
    absChars (n :: ns) = '/' :: (n.toList ++ absChars ns) := by
  simp [absChars]

theorem absChars_append (ns ms : List String) : absChars (ns ++ ms) = absChars ns ++ absChars ms := by
  simp [absChars]

theorem absPath_nil : absPath [] = "" := rfl

theorem length_le_length_absChars (ns : List String) : ns.length ≤ (absChars ns).length := by
  induction ns with
  | nil => simp
  | cons n ns ih =>
    simp only [absChars_cons, List.length_cons, List.length_append]
    omega

/-- A trailing slash after an absolute path: the path with a slash appended
starts with a slash. -/
theorem absChars_append_slash (ns : List String) : ∃ t, absChars ns ++ ['/'] = '/' :: t := by
  cases ns with
  | nil => exact ⟨[], rfl⟩
  | cons n ns => exact ⟨n.toList ++ absChars ns ++ ['/'], by simp⟩

/-- Two names followed by slashes: one is a prefix of the other exactly when
the names agree and the rests are prefixes. -/
theorem append_slash_prefix_iff {a b x y : List Char} (ha : '/' ∉ a) (hb : '/' ∉ b) :
    a ++ '/' :: x <+: b ++ '/' :: y ↔ a = b ∧ x <+: y := by
  induction a generalizing b with
  | nil =>
    cases b with
    | nil => simp
    | cons d b =>
      have hd : '/' ≠ d := fun h => hb (h ▸ List.mem_cons_self)
      simp [hd]
  | cons c a ih =>
    have hc : '/' ∉ a := fun h => ha (List.mem_cons_of_mem c h)
    cases b with
    | nil =>
      have hc' : c ≠ '/' := fun h => ha (h ▸ List.mem_cons_self)
      simp [hc']
    | cons d b =>
      have hd : '/' ∉ b := fun h => hb (List.mem_cons_of_mem d h)
      simp only [List.cons_append, List.cons_prefix_cons, List.cons.injEq, ih hc hd, and_assoc]

variable {ns q : List String}

/-- **Prefixes of paths are prefixes of names.** -/
theorem absChars_prefix_iff (hns : ∀ n ∈ ns, '/' ∉ n.toList) (hq : ∀ n ∈ q, '/' ∉ n.toList) :
    absChars q ++ ['/'] <+: absChars ns ++ ['/'] ↔ q <+: ns := by
  induction q generalizing ns with
  | nil =>
    obtain ⟨t, ht⟩ := absChars_append_slash ns
    simp [ht]
  | cons a q ih =>
    cases ns with
    | nil => simp
    | cons b ns =>
      obtain ⟨t, ht⟩ := absChars_append_slash q
      obtain ⟨t', ht'⟩ := absChars_append_slash ns
      have hq' : ∀ n ∈ q, '/' ∉ n.toList := fun n hn => hq n (List.mem_cons_of_mem a hn)
      have hns' : ∀ n ∈ ns, '/' ∉ n.toList := fun n hn => hns n (List.mem_cons_of_mem b hn)
      have hrest : t <+: t' ↔ q <+: ns := by
        rw [← ih hns' hq', ht, ht', List.cons_prefix_cons]
        simp
      simp only [absChars_cons, List.cons_append, List.append_assoc, ht, ht', List.cons_prefix_cons,
        true_and, append_slash_prefix_iff (hq a List.mem_cons_self) (hns b List.mem_cons_self),
        String.toList_inj, hrest]

theorem hasPrefix_absPath_iff (hns : ∀ n ∈ ns, '/' ∉ n.toList) (hq : ∀ n ∈ q, '/' ∉ n.toList) :
    strings.HasPrefix (absPath ns ++ "/") (absPath q ++ "/") = true ↔ q <+: ns := by
  rw [strings.hasPrefix_iff, String.toList_append, String.toList_append, toList_absPath,
    toList_absPath]
  exact absChars_prefix_iff hns hq

theorem dropWhile_ne_slash {l : List Char} (hl : '/' ∉ l) (r : List Char) :
    (l ++ '/' :: r).dropWhile (· != '/') = '/' :: r := by
  induction l with
  | nil => simp
  | cons c l ih =>
    have hc : c ≠ '/' := fun h => hl (h ▸ List.mem_cons_self)
    rw [List.cons_append, List.dropWhile_cons, if_pos (by simpa using hc)]
    exact ih fun h => hl (List.mem_cons_of_mem c h)

/-- **`Dir` drops the last name**, leaving `/` after a top-level path. -/
theorem Dir_absPath_append (q : List String) {a : String} (ha : '/' ∉ a.toList) :
    filepath.Dir (absPath (q ++ [a])) = if q = [] then "/" else absPath q := by
  have hrev : (absChars (q ++ [a])).reverse = a.toList.reverse ++ '/' :: (absChars q).reverse := by
    simp [absChars_append]
  have ha' : '/' ∉ a.toList.reverse := by simpa using ha
  simp only [filepath.Dir, toList_absPath, hrev, dropWhile_ne_slash ha', List.reverse_eq_nil_iff,
    List.reverse_reverse]
  by_cases hq : q = []
  · simp [hq]
  · have : absChars q ≠ [] := by
      obtain ⟨n, q, rfl⟩ := List.exists_cons_of_ne_nil hq
      simp
    simp [hq, this, absPath]

/-- Paths of names without slashes determine their names. -/
theorem absPath_injective {ms : List String} (hns : ∀ n ∈ ns, '/' ∉ n.toList)
    (hms : ∀ n ∈ ms, '/' ∉ n.toList) (h : absPath ns = absPath ms) : ns = ms := by
  have hchars : absChars ns = absChars ms := by simpa using congrArg String.toList h
  have h₁ : ns <+: ms := (absChars_prefix_iff hms hns).mp (by rw [hchars])
  have h₂ : ms <+: ns := (absChars_prefix_iff hns hms).mp (by rw [hchars])
  exact h₁.eq_of_length (Nat.le_antisymm h₁.length_le h₂.length_le)

/-! ### Valid names -/

theorem ValidName.slash_not_mem {n : String} (h : ValidName n) : '/' ∉ n.toList := h.2.1

/-- A valid name starts with a character other than a slash. -/
theorem ValidName.exists_cons {n : String} (h : ValidName n) :
    ∃ a t, n.toList = a :: t ∧ a ≠ '/' := by
  cases hn : n.toList with
  | nil => exact absurd (String.toList_inj.mp (by simp [hn])) h.1
  | cons a t =>
    refine ⟨a, t, rfl, fun ha => h.slash_not_mem ?_⟩
    simp [hn, ha]

theorem slash_not_mem_of_valid (hns : ∀ n ∈ ns, ValidName n) : ∀ n ∈ ns, '/' ∉ n.toList :=
  fun n hn => (hns n hn).slash_not_mem

/-- The path of at least one valid name is neither the root `""` nor `/`. -/
theorem absPath_ne (hq : q ≠ []) (hqv : ∀ n ∈ q, ValidName n) : absPath q ≠ "" ∧ absPath q ≠ "/" := by
  obtain ⟨n, q, rfl⟩ := List.exists_cons_of_ne_nil hq
  obtain ⟨a, t, hn, -⟩ := (hqv n List.mem_cons_self).exists_cons
  constructor
  · intro h
    simpa [hn] using congrArg String.toList h
  · intro h
    simpa [hn] using congrArg String.toList h

end absPath
